import ProgramFacts.Proofs.Program.Coverage
/-!
# Programs — what the nodes of their trees say

Whatever is read off a tree is read off its nodes, one after the other in preorder: the calls, the
names, the constants and how many statements there are. In the tree of a program the nodes are
those of the statements, each followed by the nodes of its own expression or condition, and of
lists that say nothing. So what the nodes say, the statements say, in the order in which they
start (`Program.filterMap_nodes`). The calls in the tree are those of the program, one by one
(`Procedure.values_call`), and the statements in the tree are those of the program
(`Program.statementNodes`).
-/

namespace ProgramFacts

/-! ## Trees -/

/-- The values of a tree are that of its node and those below. -/
theorem Tree.mem_values {kind : NodeKind} {t : Tree} {name : String} :
    name ∈ t.values kind ↔
      (t.kind = kind ∧ t.value = some name) ∨ ∃ c ∈ t.children, name ∈ c.values kind := by
  have hnodes : ∀ t : Tree, name ∈ t.values kind ↔
      ∃ node ∈ t.nodes, node.kind = kind ∧ node.value = some name := fun t => by
    simp [Tree.values]
  simp only [hnodes]
  rw [Tree.nodes_eq, List.exists_mem_cons_iff]
  refine or_congr_right ⟨?_, ?_⟩
  · rintro ⟨node, hnode, h⟩
    obtain ⟨c, hc, hnode⟩ := Tree.mem_nodesOf.1 hnode
    exact ⟨c, hc, node, hnode, h⟩
  · rintro ⟨c, hc, node, hnode, h⟩
    exact ⟨node, Tree.mem_nodesOf.2 ⟨c, hc, hnode⟩, h⟩

/-- What nodes say is said by the first of them and by those below. -/
theorem Tree.filterMap_nodes {β : Type} (f : Tree → Option β) (t : Tree) :
    t.nodes.filterMap f = (f t).toList ++ (Tree.nodesOf t.children).filterMap f := by
  rw [Tree.nodes_eq, List.filterMap_cons]
  cases f t <;> rfl

/-! ## Statements -/

namespace Stmt

variable {β : Type} {f : Tree → Option β}

/-- What is below the node of a statement, the lists of statements apart. -/
def parts : Stmt → List Tree
  | .assign _ target value => [.leaf .variableRef target, value.toTree]
  | .read _ name | .print _ name => [.leaf .variableRef name]
  | .call .. => []
  | .whileLoop _ condition _ | .ifElse _ condition _ _ => [condition.toTree]

/-- What is said by the node of a statement and by those of its parts. -/
def said (f : Tree → Option β) (s : Stmt) : List β :=
  (f s.toTree).toList ++ s.parts.flatMap (·.nodes.filterMap f)

/-- The procedure that a call calls. -/
def callee? : Stmt → Option String
  | .call _ callee => some callee
  | _ => none

theorem filterMap_statementList (hlist : ∀ ts, f (Tree.statementList ts) = none) (ts : List Tree) :
    (Tree.statementList ts).nodes.filterMap f = (Tree.nodesOf ts).filterMap f := by
  rw [Tree.filterMap_nodes, hlist]
  rfl

mutual

/-- **What the nodes of a statement say**, if lists say nothing. -/
theorem filterMap_nodes (hlist : ∀ ts, f (Tree.statementList ts) = none) (s : Stmt) :
    s.toTree.nodes.filterMap f = s.preorder.flatMap (said f) := by
  match s with
  | .assign .. | .read .. | .print .. | .call .. =>
    rw [Tree.filterMap_nodes]
    simp [toTree, preorder, said, parts, Tree.leaf, Tree.nodesOf]
  | .whileLoop n c body =>
    rw [Tree.filterMap_nodes, preorder, List.flatMap_cons, ← filterMap_nodesOf hlist body,
      ← filterMap_statementList hlist (toTrees body)]
    simp [toTree, said, parts, Tree.nodesOf]
  | .ifElse n c thenBody elseBody =>
    rw [Tree.filterMap_nodes, preorder, List.flatMap_cons, List.flatMap_append,
      ← filterMap_nodesOf hlist thenBody, ← filterMap_nodesOf hlist elseBody,
      ← filterMap_statementList hlist (toTrees thenBody),
      ← filterMap_statementList hlist (toTrees elseBody)]
    simp [toTree, said, parts, Tree.nodesOf]

/-- The same of a list of statements. -/
theorem filterMap_nodesOf (hlist : ∀ ts, f (Tree.statementList ts) = none) (ss : List Stmt) :
    (Tree.nodesOf (toTrees ss)).filterMap f = (preorderOf ss).flatMap (said f) := by
  match ss with
  | [] => rfl
  | s :: ss =>
    rw [toTrees, Tree.nodesOf, List.filterMap_append, filterMap_nodes hlist s,
      filterMap_nodesOf hlist ss, preorderOf, List.flatMap_append]

end

mutual

/-- **A statement calls what the calls inside it call.** -/
theorem callees_eq (s : Stmt) : s.callees = s.preorder.filterMap callee? := by
  match s with
  | .assign .. | .read .. | .print .. | .call .. => rfl
  | .whileLoop n c body =>
    rw [callees, preorder, calleesOf_eq body]
    rfl
  | .ifElse n c thenBody elseBody =>
    rw [callees, preorder, List.filterMap_cons, List.filterMap_append, calleesOf_eq thenBody,
      calleesOf_eq elseBody]
    rfl

/-- The callees of a list are those of the calls in it. -/
theorem calleesOf_eq (ss : List Stmt) : calleesOf ss = (preorderOf ss).filterMap callee? := by
  match ss with
  | [] => rfl
  | s :: ss =>
    rw [calleesOf, preorderOf, List.filterMap_append, callees_eq s, calleesOf_eq ss]

end

end Stmt

/-! ## Expressions and conditions -/

/-- What the expression or the condition of a statement is made of. -/
def NodeKind.isFormula (kind : NodeKind) : Bool :=
  kind.isExpression || kind.isCondition

/-- The nodes of an expression are no statements. -/
theorem Expr.isFormula_of_mem_nodes {node : Tree} (e : Expr) (h : node ∈ e.toTree.nodes) :
    node.kind.isFormula := by
  induction e with
  | var name | const name =>
    obtain rfl : node = _ := by simpa [toTree, Tree.leaf, Tree.nodes, Tree.nodesOf] using h
    rfl
  | bin op left right ihl ihr =>
    have hnode : node = (bin op left right).toTree ∨ node ∈ left.toTree.nodes ∨
        node ∈ right.toTree.nodes := by
      simpa [toTree, Tree.leaf, Tree.nodes, Tree.nodesOf] using h
    rcases hnode with rfl | hnode | hnode
    · rfl
    · exact ihl hnode
    · exact ihr hnode

/-- Nor are those of a condition. -/
theorem Condition.isFormula_of_mem_nodes {node : Tree} (c : Condition) (h : node ∈ c.toTree.nodes) :
    node.kind.isFormula := by
  induction c with
  | compare op left right =>
    have hnode : node = (compare op left right).toTree ∨ node ∈ left.toTree.nodes ∨
        node ∈ right.toTree.nodes := by
      simpa [toTree, Tree.leaf, Tree.nodes, Tree.nodesOf] using h
    rcases hnode with rfl | hnode | hnode
    · rfl
    · exact left.isFormula_of_mem_nodes hnode
    · exact right.isFormula_of_mem_nodes hnode
  | not inner ih =>
    have hnode : node = (not inner).toTree ∨ node ∈ inner.toTree.nodes := by
      simpa [toTree, Tree.leaf, Tree.nodes, Tree.nodesOf] using h
    rcases hnode with rfl | hnode
    · rfl
    · exact ih hnode
  | join op left right ihl ihr =>
    have hnode : node = (join op left right).toTree ∨ node ∈ left.toTree.nodes ∨
        node ∈ right.toTree.nodes := by
      simpa [toTree, Tree.leaf, Tree.nodes, Tree.nodesOf] using h
    rcases hnode with rfl | hnode | hnode
    · rfl
    · exact ihl hnode
    · exact ihr hnode

namespace Stmt

variable {β : Type} {f : Tree → Option β}

/-- So the parts of a statement have no statements in them. -/
theorem isFormula_of_mem_parts {s : Stmt} {part node : Tree} (hpart : part ∈ s.parts)
    (hnode : node ∈ part.nodes) : node.kind.isFormula := by
  cases s with
  | assign n target value =>
    rcases List.mem_cons.1 hpart with rfl | hpart
    · exact (Expr.var target).isFormula_of_mem_nodes hnode
    · obtain rfl := List.mem_singleton.1 hpart
      exact value.isFormula_of_mem_nodes hnode
  | read n name | print n name =>
    obtain rfl := List.mem_singleton.1 hpart
    exact (Expr.var name).isFormula_of_mem_nodes hnode
  | call => cases hpart
  | whileLoop n c | ifElse n c =>
    obtain rfl := List.mem_singleton.1 hpart
    exact c.isFormula_of_mem_nodes hnode

theorem isFormula_toTree (s : Stmt) : s.toTree.kind.isFormula = false := by
  cases s <;> rfl

/-- Where expressions and conditions say nothing, a statement says what its node says. -/
theorem said_eq (hformula : ∀ t : Tree, t.kind.isFormula → f t = none) (s : Stmt) :
    s.said f = (f s.toTree).toList := by
  have hparts : s.parts.flatMap (·.nodes.filterMap f) = [] := by
    refine List.flatMap_eq_nil_iff.2 fun part hpart => List.filterMap_eq_nil_iff.2 ?_
    exact fun node hnode => hformula node (isFormula_of_mem_parts hpart hnode)
  rw [said, hparts, List.append_nil]

end Stmt

/-! ## Procedures and programs -/

/-- **What the nodes of a procedure say**: its own, and then its statements. -/
theorem Procedure.filterMap_nodes {β : Type} {f : Tree → Option β}
    (hlist : ∀ ts, f (Tree.statementList ts) = none) (procedure : Procedure) :
    procedure.toTree.nodes.filterMap f =
      (f procedure.toTree).toList ++ (Stmt.preorderOf procedure.body).flatMap (Stmt.said f) := by
  rw [Tree.filterMap_nodes, ← Stmt.filterMap_nodesOf hlist,
    ← Stmt.filterMap_statementList hlist (Stmt.toTrees procedure.body)]
  simp [toTree, Tree.leaf, Tree.nodesOf]

/-- **The calls in the tree of a procedure are those that it makes**, one by one. -/
theorem Procedure.values_call (procedure : Procedure) :
    procedure.toTree.values .call = Stmt.calleesOf procedure.body := by
  have hsaid : ∀ s : Stmt, s.said (fun node => if node.kind = .call then node.value else none) =
      s.callee?.toList := by
    intro s
    rw [Stmt.said_eq]
    · cases s <;> rfl
    · intro t ht
      refine if_neg fun hkind => ?_
      rw [hkind] at ht
      cases ht
  rw [Tree.values, Procedure.filterMap_nodes fun _ => rfl, funext hsaid, Stmt.calleesOf_eq,
    List.filterMap_eq_flatMap_toList]
  rfl

namespace Program

variable {p : Program}

/-- **What the nodes of a program say**, if only those of statements and of what is below them say
something. -/
theorem filterMap_nodes {β : Type} {f : Tree → Option β}
    (hlist : ∀ ts, f (Tree.statementList ts) = none) (hprocedure : ∀ q : Procedure, f q.toTree = none)
    (hprogram : f p.toTree = none) :
    p.toTree.nodes.filterMap f = p.preorder.flatMap (Stmt.said f) := by
  have hprocedures : ∀ ps : List Procedure, (Tree.nodesOf (ps.map Procedure.toTree)).filterMap f =
      (ps.flatMap (Stmt.preorderOf ·.body)).flatMap (Stmt.said f) := by
    intro ps
    induction ps with
    | nil => rfl
    | cons q ps ih =>
      rw [List.map_cons, Tree.nodesOf, List.filterMap_append, q.filterMap_nodes hlist, hprocedure,
        ih, List.flatMap_cons, List.flatMap_append]
      rfl
  rw [Tree.filterMap_nodes, hprogram]
  exact hprocedures p.procedures

/-- **What the expressions and conditions in the tree of a program say**, the parts of its
statements say. -/
theorem mem_values_toTree {kind : NodeKind} (hkind : kind.isFormula) {name : String} :
    name ∈ p.toTree.values kind ↔
      ∃ s ∈ p.preorder, ∃ part ∈ s.parts, name ∈ part.values kind := by
  have hother : ∀ t : Tree, t.kind.isFormula = false →
      (if t.kind = kind then t.value else none) = none := by
    intro t ht
    refine if_neg fun heq => ?_
    rw [heq, hkind] at ht
    cases ht
  rw [Tree.values, filterMap_nodes (fun _ => hother _ rfl) (fun _ => hother _ rfl) (hother _ rfl),
    List.mem_flatMap]
  refine exists_congr fun s => and_congr_right fun _ => ?_
  rw [Stmt.said, hother s.toTree s.isFormula_toTree, Option.toList_none, List.nil_append,
    List.mem_flatMap]
  rfl

/-- **The statements in the tree of a program are its statements.** -/
theorem statementNodes :
    p.toTree.nodes.filter (·.kind.isStatement) = p.preorder.map Stmt.toTree := by
  have hsaid : ∀ s : Stmt,
      s.said (Option.guard fun node => node.kind.isStatement) = [s.toTree] := by
    intro s
    rw [Stmt.said_eq]
    · rw [Option.guard, if_pos s.isStatement_toTree]
      rfl
    · intro t ht
      rw [Option.guard_eq_none_iff]
      cases hkind : t.kind <;> simp_all [NodeKind.isFormula, NodeKind.isExpression,
        NodeKind.isCondition, NodeKind.isStatement]
  rw [← List.filterMap_eq_filter, filterMap_nodes (fun _ => rfl) (fun _ => rfl) rfl, funext hsaid,
    List.map_eq_flatMap]

/-- **The nodes that are statements are the trees of the statements.** -/
theorem mem_statementNodes {node : Tree} :
    node ∈ p.toTree.nodes ∧ node.kind.isStatement ↔ ∃ s ∈ p.preorder, s.toTree = node := by
  rw [← List.mem_map, ← statementNodes, List.mem_filter]

/-- A tree counts the statements of the program. -/
theorem statementCount_toTree : p.toTree.statementCount = p.numbers.length := by
  rw [Tree.statementCount, List.countP_eq_length_filter, statementNodes, List.length_map,
    ← map_number_preorder, List.length_map]

end Program

end ProgramFacts
