import ProgramFacts.Tree
import ProgramFacts.Proofs.Program.Printing
/-!
# Trees — what a program's tree is like

Nothing keeps a tree from having any nodes below any other. `Tree.Shaped` says which trees
have under each node what its kind asks for, and with an assignment the words of its
expression in postorder. The trees of printable programs are such (`Program.shaped_toTree`), and
no two programs have the same tree (`Program.toTree_injective`).
-/

namespace ProgramFacts

namespace NodeKind

/-- Operands and arithmetic operators. -/
def isExpression : NodeKind → Bool
  | .variableRef | .constant | .expressionOp => true
  | _ => false

/-- Comparisons and logical operators. -/
def isCondition : NodeKind → Bool
  | .relationalOp | .conditionalOp => true
  | _ => false

end NodeKind

namespace Tree

mutual

/-- The values of a tree, those below a node before its own. -/
def postorder : Tree → List String
  | ⟨_, value, _, _, children⟩ => postorderOf children ++ value.toList

/-- The values of a list of trees. -/
def postorderOf : List Tree → List String
  | [] => []
  | t :: ts => t.postorder ++ postorderOf ts

end

/-- A node has below it what its kind asks for. -/
def Fits (t : Tree) : Prop :=
  match t.kind with
  | .program => t.children ≠ [] ∧ ∀ c ∈ t.children, c.kind = .procedure
  | .procedure => ∃ body, t.children = [body] ∧ body.kind = .statementList
  | .statementList => t.children ≠ [] ∧ ∀ c ∈ t.children, c.kind.isStatement
  | .call | .variableRef | .constant => t.children = []
  | .read | .print => ∃ name, t.children = [name] ∧ name.kind = .variableRef
  | .assign => ∃ target value, t.children = [target, value] ∧ target.kind = .variableRef ∧
      value.kind.isExpression ∧ t.rpn = some value.postorder
  | .whileLoop => ∃ condition body, t.children = [condition, body] ∧
      condition.kind.isCondition ∧ body.kind = .statementList
  | .ifElse => ∃ condition thenBody elseBody, t.children = [condition, thenBody, elseBody] ∧
      condition.kind.isCondition ∧ thenBody.kind = .statementList ∧ elseBody.kind = .statementList
  | .expressionOp | .relationalOp => ∃ left right, t.children = [left, right] ∧
      left.kind.isExpression ∧ right.kind.isExpression
  | .conditionalOp =>
    (t.value = some "!" ∧ ∃ inner, t.children = [inner] ∧ inner.kind.isCondition) ∨
      ((t.value = some "&&" ∨ t.value = some "||") ∧ ∃ left right, t.children = [left, right] ∧
        left.kind.isCondition ∧ right.kind.isCondition)

/-- **Every node has below it what its kind asks for.** -/
def Shaped (t : Tree) : Prop := ∀ node ∈ t.nodes, node.Fits

/-- The node comes first, and the nodes below it after. -/
theorem nodes_eq (t : Tree) : t.nodes = t :: nodesOf t.children := by
  cases t
  rw [nodes]

/-- The nodes of a list are those of its trees. -/
theorem mem_nodesOf {ts : List Tree} {node : Tree} :
    node ∈ nodesOf ts ↔ ∃ t ∈ ts, node ∈ t.nodes := by
  induction ts with
  | nil => simp [nodesOf]
  | cons t ts ih => simp [nodesOf, ih]

/-- **A tree is shaped if its root fits and all below it are shaped.** -/
theorem shaped_iff {t : Tree} : t.Shaped ↔ t.Fits ∧ ∀ c ∈ t.children, c.Shaped := by
  rw [Shaped, nodes_eq, List.forall_mem_cons]
  refine and_congr_right fun _ => ⟨fun h c hc node hnode => ?_, fun h node hnode => ?_⟩
  · exact h node (mem_nodesOf.2 ⟨c, hc, hnode⟩)
  · obtain ⟨c, hc, hnode⟩ := mem_nodesOf.1 hnode
    exact h c hc node hnode

end Tree

/-! ## Programs -/

namespace Expr

theorem isExpression_toTree (e : Expr) : e.toTree.kind.isExpression := by
  cases e <;> rfl

/-- The words of an expression are the values of its tree. -/
theorem postorder_toTree (e : Expr) : e.toTree.postorder = e.rpn := by
  induction e with
  | var | const => rfl
  | bin op left right ihl ihr =>
    simp [toTree, Tree.leaf, Tree.postorder, Tree.postorderOf, ihl, ihr, rpn, postorder, Token.text]

/-- Operands have nothing below them, and operators two expressions. -/
theorem shaped_toTree (e : Expr) : e.toTree.Shaped := by
  induction e with
  | var name | const name => exact Tree.shaped_iff.2 ⟨rfl, by simp [toTree, Tree.leaf]⟩
  | bin op left right ihl ihr =>
    refine Tree.shaped_iff.2 ⟨⟨_, _, rfl, left.isExpression_toTree, right.isExpression_toTree⟩, ?_⟩
    simpa [toTree, Tree.leaf] using ⟨ihl, ihr⟩

end Expr

namespace Condition

theorem isCondition_toTree (c : Condition) : c.toTree.kind.isCondition := by
  cases c <;> rfl

/-- A comparison has expressions below it, and the other conditions have conditions. -/
theorem shaped_toTree (c : Condition) : c.toTree.Shaped := by
  induction c with
  | compare op left right =>
    refine Tree.shaped_iff.2 ⟨⟨_, _, rfl, left.isExpression_toTree, right.isExpression_toTree⟩, ?_⟩
    simpa [toTree, Tree.leaf] using ⟨left.shaped_toTree, right.shaped_toTree⟩
  | not inner ih =>
    refine Tree.shaped_iff.2 ⟨.inl ⟨rfl, _, rfl, inner.isCondition_toTree⟩, ?_⟩
    simpa [toTree, Tree.leaf] using ih
  | join op left right ihl ihr =>
    have hvalue : op.toOp.text = "&&" ∨ op.toOp.text = "||" := by cases op <;> decide
    refine Tree.shaped_iff.2 ⟨.inr ⟨?_, _, _, rfl, left.isCondition_toTree,
      right.isCondition_toTree⟩, ?_⟩
    · simpa [toTree, Tree.leaf] using hvalue
    · simpa [toTree, Tree.leaf] using ⟨ihl, ihr⟩

end Condition

theorem Stmt.isStatement_toTree (s : Stmt) : s.toTree.kind.isStatement := by
  cases s <;> rfl

theorem Stmt.toTrees_eq (ss : List Stmt) : Stmt.toTrees ss = ss.map Stmt.toTree := by
  induction ss with
  | nil => rfl
  | cons s ss ih => rw [Stmt.toTrees, ih, List.map_cons]

/-- A list of statements that is not empty has its shape, if they have theirs. -/
theorem Tree.shaped_statementList {ss : List Stmt} (hne : ss ≠ [])
    (h : ∀ s ∈ ss, s.toTree.Shaped) : (Tree.statementList (Stmt.toTrees ss)).Shaped := by
  rw [Stmt.toTrees_eq]
  refine Tree.shaped_iff.2 ⟨⟨by simpa [Tree.statementList] using hne, ?_⟩, ?_⟩
  · simpa [Tree.statementList] using fun s _ => s.isStatement_toTree
  · simpa [Tree.statementList] using h

mutual

/-- **The tree of a printable statement has its shape.** Only the bodies need the assumption, as
they may not be empty. -/
theorem Stmt.shaped_toTree (s : Stmt) (h : s.Printable) : s.toTree.Shaped := by
  match s with
  | .assign n target value =>
    refine Tree.shaped_iff.2 ⟨⟨_, _, rfl, rfl, value.isExpression_toTree, ?_⟩, ?_⟩
    · simp [Stmt.toTree, value.postorder_toTree]
    · simpa [Stmt.toTree] using ⟨(Expr.var target).shaped_toTree, value.shaped_toTree⟩
  | .read n name | .print n name =>
    refine Tree.shaped_iff.2 ⟨⟨_, rfl, rfl⟩, ?_⟩
    exact List.forall_mem_singleton.2 (Expr.var name).shaped_toTree
  | .call n callee => exact Tree.shaped_iff.2 ⟨rfl, by simp [Stmt.toTree, Tree.leaf]⟩
  | .whileLoop n condition body =>
    obtain ⟨-, hbody, hne⟩ := h
    refine Tree.shaped_iff.2 ⟨⟨_, _, rfl, condition.isCondition_toTree, rfl⟩, ?_⟩
    have hlist := Tree.shaped_statementList hne (Stmt.shaped_toTrees body hbody)
    simpa [Stmt.toTree] using ⟨condition.shaped_toTree, hlist⟩
  | .ifElse n condition thenBody elseBody =>
    obtain ⟨-, ⟨hthen, hne⟩, helse, hne'⟩ := h
    refine Tree.shaped_iff.2 ⟨⟨_, _, _, rfl, condition.isCondition_toTree, rfl, rfl⟩, ?_⟩
    have hlist := Tree.shaped_statementList hne (Stmt.shaped_toTrees thenBody hthen)
    have hlist' := Tree.shaped_statementList hne' (Stmt.shaped_toTrees elseBody helse)
    simpa [Stmt.toTree] using ⟨condition.shaped_toTree, hlist, hlist'⟩

/-- The same of statements in a list. -/
theorem Stmt.shaped_toTrees (ss : List Stmt) (h : Stmt.PrintableAll ss) :
    ∀ s ∈ ss, s.toTree.Shaped := by
  match ss with
  | [] => simp
  | s :: ss =>
    exact List.forall_mem_cons.2 ⟨Stmt.shaped_toTree s h.1, Stmt.shaped_toTrees ss h.2⟩

end

/-- A procedure has one list of statements below it. -/
theorem Procedure.shaped_toTree {p : Procedure} (h : p.Printable) : p.toTree.Shaped := by
  obtain ⟨-, hbody, hne⟩ := h
  have hlist := Tree.shaped_statementList hne (Stmt.shaped_toTrees p.body hbody)
  refine Tree.shaped_iff.2 ⟨⟨_, rfl, rfl⟩, ?_⟩
  simpa [Procedure.toTree, Tree.leaf] using hlist

/-- **The tree of a program has its shape.** -/
theorem Program.shaped_toTree {p : Program} (hne : p.procedures ≠ [])
    (h : ∀ q ∈ p.procedures, q.Printable) : p.toTree.Shaped := by
  refine Tree.shaped_iff.2 ⟨⟨by simpa [Program.toTree] using hne, ?_⟩, ?_⟩
  · simp [Program.toTree, Procedure.toTree, Tree.leaf]
  · simpa [Program.toTree] using fun q hq => Procedure.shaped_toTree (h q hq)

/-! ## The tree determines the program -/

theorem ArithOp.text_injective : Function.Injective ArithOp.text := by
  intro op op'
  cases op <;> cases op' <;> decide

theorem RelOp.text_injective : Function.Injective RelOp.text := by
  intro op op'
  cases op <;> cases op' <;> decide

/-- Different connectives are spelled differently. -/
theorem Connective.text_toOp_injective : Function.Injective fun op : Connective => op.toOp.text := by
  intro op op'
  cases op <;> cases op' <;> decide

/-- Operands differ from operators in their kind, and operators in their text. -/
theorem Expr.toTree_injective : Function.Injective Expr.toTree := by
  intro e
  induction e with
  | var name =>
    intro e' h
    cases e' with
    | var name' => simpa [toTree, Tree.leaf] using h
    | _ => simp [toTree, Tree.leaf] at h
  | const digits =>
    intro e' h
    cases e' with
    | const digits' => simpa [toTree, Tree.leaf] using h
    | _ => simp [toTree, Tree.leaf] at h
  | bin op left right ihl ihr =>
    intro e' h
    cases e' with
    | bin op' left' right' =>
      obtain ⟨hop, hleft, hright⟩ : op.text = op'.text ∧ left.toTree = left'.toTree ∧
          right.toTree = right'.toTree := by simpa [toTree, Tree.leaf] using h
      rw [ArithOp.text_injective hop, ihl hleft, ihr hright]
    | _ => simp [toTree, Tree.leaf] at h

/-- A negation and a junction have the same kind, but one and two trees below them. -/
theorem Condition.toTree_injective : Function.Injective Condition.toTree := by
  intro c
  induction c with
  | compare op left right =>
    intro c' h
    cases c' with
    | compare op' left' right' =>
      obtain ⟨hop, hleft, hright⟩ : op.text = op'.text ∧ left.toTree = left'.toTree ∧
          right.toTree = right'.toTree := by simpa [toTree, Tree.leaf] using h
      rw [RelOp.text_injective hop, Expr.toTree_injective hleft, Expr.toTree_injective hright]
    | _ => simp [toTree, Tree.leaf] at h
  | not inner ih =>
    intro c' h
    cases c' with
    | not inner' =>
      rw [ih (show inner.toTree = inner'.toTree by simpa [toTree, Tree.leaf] using h)]
    | _ => simp [toTree, Tree.leaf] at h
  | join op left right ihl ihr =>
    intro c' h
    cases c' with
    | join op' left' right' =>
      obtain ⟨hop, hleft, hright⟩ : op.toOp.text = op'.toOp.text ∧ left.toTree = left'.toTree ∧
          right.toTree = right'.toTree := by simpa [toTree, Tree.leaf] using h
      rw [Connective.text_toOp_injective hop, ihl hleft, ihr hright]
    | _ => simp [toTree, Tree.leaf] at h

theorem Tree.statementList_inj {ts ts' : List Tree} :
    statementList ts = statementList ts' ↔ ts = ts' := by
  simp [statementList]

mutual

/-- Every sort of statement has a kind of its own. -/
theorem Stmt.eq_of_toTree_eq (s s' : Stmt) (h : s.toTree = s'.toTree) : s = s' := by
  match s with
  | .assign n target value =>
    cases s' with
    | assign n' target' value' =>
      obtain ⟨rfl, -, rfl, hvalue⟩ : n = n' ∧ value.rpn = value'.rpn ∧ target = target' ∧
          value.toTree = value'.toTree := by simpa [Stmt.toTree, Tree.leaf] using h
      rw [Expr.toTree_injective hvalue]
    | _ => simp [Stmt.toTree, Tree.leaf] at h
  | .read n name =>
    cases s' with
    | read n' name' => simpa [Stmt.toTree, Tree.leaf] using h
    | _ => simp [Stmt.toTree, Tree.leaf] at h
  | .print n name =>
    cases s' with
    | print n' name' => simpa [Stmt.toTree, Tree.leaf] using h
    | _ => simp [Stmt.toTree, Tree.leaf] at h
  | .call n callee =>
    cases s' with
    | call n' callee' =>
      obtain ⟨rfl, rfl⟩ : callee = callee' ∧ n = n' := by simpa [Stmt.toTree, Tree.leaf] using h
      rfl
    | _ => simp [Stmt.toTree, Tree.leaf] at h
  | .whileLoop n condition body =>
    cases s' with
    | whileLoop n' condition' body' =>
      obtain ⟨rfl, hcondition, hbody⟩ : n = n' ∧ condition.toTree = condition'.toTree ∧
          Stmt.toTrees body = Stmt.toTrees body' := by
        simpa [Stmt.toTree, Tree.statementList_inj] using h
      rw [Condition.toTree_injective hcondition, Stmt.eq_of_toTrees_eq body body' hbody]
    | _ => simp [Stmt.toTree, Tree.leaf] at h
  | .ifElse n condition thenBody elseBody =>
    cases s' with
    | ifElse n' condition' thenBody' elseBody' =>
      obtain ⟨rfl, hcondition, hthen, helse⟩ : n = n' ∧ condition.toTree = condition'.toTree ∧
          Stmt.toTrees thenBody = Stmt.toTrees thenBody' ∧
          Stmt.toTrees elseBody = Stmt.toTrees elseBody' := by
        simpa [Stmt.toTree, Tree.statementList_inj] using h
      rw [Condition.toTree_injective hcondition, Stmt.eq_of_toTrees_eq thenBody thenBody' hthen,
        Stmt.eq_of_toTrees_eq elseBody elseBody' helse]
    | _ => simp [Stmt.toTree, Tree.leaf] at h

/-- Lists of statements have the same trees only if they are the same. -/
theorem Stmt.eq_of_toTrees_eq (ss ss' : List Stmt) (h : Stmt.toTrees ss = Stmt.toTrees ss') :
    ss = ss' := by
  match ss with
  | [] =>
    cases ss' with
    | nil => rfl
    | cons s' ss' => simp [Stmt.toTrees] at h
  | s :: ss =>
    cases ss' with
    | nil => simp [Stmt.toTrees] at h
    | cons s' ss' =>
      obtain ⟨hfirst, hrest⟩ : s.toTree = s'.toTree ∧ Stmt.toTrees ss = Stmt.toTrees ss' := by
        simpa [Stmt.toTrees] using h
      rw [Stmt.eq_of_toTree_eq s s' hfirst, Stmt.eq_of_toTrees_eq ss ss' hrest]

end

/-- A procedure is determined by its name and the trees of its statements. -/
theorem Procedure.toTree_injective : Function.Injective Procedure.toTree := by
  rintro ⟨name, body⟩ ⟨name', body'⟩ h
  obtain ⟨rfl, hbody⟩ : name = name' ∧ Stmt.toTrees body = Stmt.toTrees body' := by
    simpa [Procedure.toTree, Tree.leaf, Tree.statementList_inj] using h
  rw [Stmt.eq_of_toTrees_eq body body' hbody]

/-- **The tree of a program determines the program**, its numbers included. -/
theorem Program.toTree_injective : Function.Injective Program.toTree := by
  rintro ⟨procedures⟩ ⟨procedures'⟩ h
  have htrees : procedures.map Procedure.toTree = procedures'.map Procedure.toTree := by
    simpa [Program.toTree] using h
  rw [Procedure.toTree_injective.list_map htrees]

end ProgramFacts
