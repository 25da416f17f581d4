import ProgramFacts.Proofs.FactBase.Effects
import ProgramFacts.Proofs.FactBase.Irreflexive
import ProgramFacts.Proofs.Query.Faults
/-!
# The facts of a program — what they speak of

A wildcard and a free synonym stand for the elements that a fact base lists, so a fact about
anything else would be found by no query. Nothing in a fact base rules this out: statements, names
and constants are listed in one place, and facts are found in others, some by the survey and some
in the flow. In the facts of a program the two agree. What is listed is what the tree of the
program has (`FactBase.Enumerates`), and every fact relates elements that are listed under the
sorts that its relation is about (`FactBase.Within`, `Program.Surveyed.holds_within`). So a relation
between two wildcards can be answered by counting (`Query.suchThat_wildcards`).
-/

namespace ProgramFacts

/-! ## Names and constants -/

theorem Access.exists_iff {P : Access → Prop} : (∃ a, P a) ↔ P .uses ∨ P .modifies := by
  constructor
  · rintro ⟨_ | _, h⟩
    · exact .inl h
    · exact .inr h
  · rintro (h | h)
    · exact ⟨.uses, h⟩
    · exact ⟨.modifies, h⟩

namespace Stmt

variable {name : String}

/-- The variables in the parts of a statement are those that it uses and modifies by itself. -/
theorem exists_part_variable (s : Stmt) :
    (∃ part ∈ s.parts, name ∈ part.values .variableRef) ↔ ∃ a : Access, name ∈ a.own s := by
  have hvalues : ∀ t : Tree, name ∈ t.values .variableRef ↔ name ∈ t.variableNames := fun t =>
    Ordered.mem_ofList.symm
  have hleaf : ∀ target, name ∈ (Tree.leaf .variableRef target).variableNames ↔ name = target :=
    fun target => (Expr.mem_variableNames (.var target)).trans List.mem_singleton
  simp only [hvalues, Access.exists_iff, Access.own]
  cases s with
  | assign n target value => simp [parts, uses, modifies, hleaf, Expr.mem_variableNames, or_comm]
  | read n target | print n target => simp [parts, uses, modifies, hleaf]
  | call n callee => simp [parts, uses, modifies]
  | whileLoop n c body | ifElse n c body =>
    simp [parts, uses, modifies, Condition.mem_variableNames]

/-- The constants in the parts of a statement are those of its expression or condition. -/
theorem exists_part_constant (s : Stmt) :
    (∃ part ∈ s.parts, name ∈ part.values .constant) ↔ name ∈ s.toTree.formulaConstants := by
  have hvalues : ∀ t : Tree, name ∈ t.values .constant ↔ name ∈ t.constants := fun t =>
    Ordered.mem_ofList.symm
  have hleaf : ∀ target, name ∉ (Tree.leaf .variableRef target).constants := by
    intro target h
    rw [← hvalues, Tree.mem_values] at h
    simp [Tree.leaf] at h
  simp only [hvalues]
  cases s with
  | assign n target value =>
    simp [parts, hleaf, toTree, Tree.formulaConstants, Tree.formula?]
  | read n target | print n target =>
    simp [parts, hleaf, toTree, Tree.formulaConstants, Tree.formula?]
  | call n callee => simp [parts, toTree, Tree.leaf, Tree.formulaConstants, Tree.formula?]
  | whileLoop n c body | ifElse n c body =>
    simp [parts, toTree, Tree.formulaConstants, Tree.formula?]

theorem number_toTree (s : Stmt) : s.toTree.number = some s.number := by
  cases s <;> rfl

/-- Every statement is of some kind. -/
theorem exists_kind (s : Stmt) : ∃ kind, s.toTree.kind.statementKind? = some kind := by
  cases s <;> exact ⟨_, rfl⟩

end Stmt

theorem NodeKind.isStatement_of_statementKind? {k : NodeKind} {kind : StatementKind}
    (h : k.statementKind? = some kind) : k.isStatement := by
  cases k <;> first | rfl | cases h

/-! ## What is listed -/

/-- **A fact base lists what a tree has**: its statements, numbered from one on and each under its
own kind, the variables and constants in it, and the procedures that it declares. -/
structure FactBase.Enumerates (kb : FactBase) (t : Tree) : Prop where
  statements : kb.entities .stmt = (List.range' 1 t.statementCount).map .stmt
  kinds : ∀ e, e.isStatement → ∀ x, x ∈ kb.entities e ↔ ∃ node ∈ t.nodes, ∃ n kind,
    x = .stmt n ∧ node.number = some n ∧ node.kind.statementKind? = some kind ∧ e.admits kind
  vars : kb.entities .var = t.variableNames.toList.map .name
  consts : kb.entities .const = t.constants.toList.map .name
  procs : kb.entities .proc =
    (Std.ExtTreeSet.ofList (t.children.filterMap Tree.value)).toList.map .name

namespace Program.Surveyed

variable {p : Program} {s : Survey} {g : CallGraph} {f : Flow} {q v : String} {t : Stmt}
  {k : Option Nat} {n : Nat} {e : Entity}
variable (hs : p.Surveyed (p.procedures.map Procedure.name) s)
include hs

/-- What is found of some tree is so of some statement. -/
theorem exists_statement_iff (P : Tree → Prop) :
    (∃ f ∈ s.findings, P f.statement) ↔ ∃ t ∈ p.preorder, P t.toTree := by
  constructor
  · rintro ⟨f, hf, hP⟩
    obtain ⟨q, -, t, k, ht, hfound⟩ := hs.sound f hf
    exact ⟨t, mem_preorder.2 ⟨q, k, ht⟩, hfound.statement ▸ hP⟩
  · rintro ⟨t, ht, hP⟩
    obtain ⟨q, k, ht⟩ := mem_preorder.1 ht
    obtain ⟨f, hf, hfound⟩ := hs.complete q ht.mem_names t k ht
    exact ⟨f, hf, hfound.statement ▸ hP⟩

/-- **The variables of the facts are those that statements use or modify.** -/
theorem mem_variableNames : v ∈ (FactBase.assemble s g f).variableNames ↔
    ∃ t ∈ p.preorder, ∃ a : Access, v ∈ a.own t := by
  have htouched : ∀ e : Effects, v ∈ e.touched ↔ ∃ a : Access, v ∈ a.of e := by
    intro e
    rw [Effects.touched, List.mem_append, Std.ExtTreeSet.mem_toList, Std.ExtTreeSet.mem_toList,
      Access.exists_iff]
    rfl
  refine Ordered.mem_ofList.trans ?_
  rw [List.mem_flatMap]
  simp only [htouched]
  constructor
  · rintro ⟨f, hf, a, hv⟩
    -- a variable that is touched is so by a statement that is covered
    obtain ⟨q, -, t, k, ht, hfound⟩ := hs.sound f hf
    obtain ⟨u, hu, hv⟩ := (hfound.effects a v).1 hv
    exact ⟨u, mem_preorder.2 (hu.exists_has ht), a, hv⟩
  · rintro ⟨t, ht, a, hv⟩
    obtain ⟨q, k, ht⟩ := mem_preorder.1 ht
    obtain ⟨f, hf, hfound⟩ := hs.complete q ht.mem_names t k ht
    exact ⟨f, hf, a, (hfound.effects a v).2 ⟨t, .self, hv⟩⟩

/-- The statements of a fact base are those of the tree, each under its own kind. -/
theorem statements_iff_node {kind : StatementKind} :
    (FactBase.assemble s g f).statements[n]? = some kind ↔ ∃ node ∈ p.toTree.nodes,
      node.number = some n ∧ node.kind.statementKind? = some kind := by
  rw [hs.statements_iff]
  constructor
  · rintro ⟨q, t, k, ht, rfl, hkind⟩
    obtain ⟨hnode, -⟩ := mem_statementNodes.2 ⟨t, mem_preorder.2 ⟨q, k, ht⟩, rfl⟩
    exact ⟨t.toTree, hnode, t.number_toTree, hkind⟩
  · rintro ⟨node, hnode, hn, hkind⟩
    obtain ⟨t, ht, rfl⟩ :=
      mem_statementNodes.1 ⟨hnode, NodeKind.isStatement_of_statementKind? hkind⟩
    obtain ⟨q, k, ht⟩ := mem_preorder.1 ht
    rw [t.number_toTree] at hn
    exact ⟨q, t, k, ht, Option.some.inj hn, hkind⟩

/-- The numbers of the listed statements count from one on. -/
theorem keys_statements (hp : p.Consistent) :
    (FactBase.assemble s g f).statements.keys = List.range' 1 p.toTree.statementCount := by
  have hrange : p.preorder.map Stmt.number = List.range' 1 p.toTree.statementCount := by
    rw [map_number_preorder, statementCount_toTree]
    exact hp.numbered
  refine Ordered.eq_of_ascending Std.ExtTreeMap.ordered_keys ?_ fun n => ?_
  · have hlt : (List.range' 1 p.toTree.statementCount).Pairwise (· < ·) := List.pairwise_lt_range'
    exact hlt.imp Nat.compare_eq_lt.2
  · rw [← hrange, Std.ExtTreeMap.mem_keys, Std.ExtTreeMap.mem_iff_isSome_getElem?,
      Option.isSome_iff_exists, List.mem_map]
    simp only [hs.statements_iff]
    constructor
    · rintro ⟨kind, q, t, k, ht, hn, -⟩
      exact ⟨t, mem_preorder.2 ⟨q, k, ht⟩, hn⟩
    · rintro ⟨t, ht, hn⟩
      obtain ⟨q, k, ht⟩ := mem_preorder.1 ht
      obtain ⟨kind, hkind⟩ := t.exists_kind
      exact ⟨kind, q, t, k, ht, hn, hkind⟩

/-- They are those of the tree. -/
theorem variableNames_eq : (FactBase.assemble s g f).variableNames = p.toTree.variableNames := by
  refine Std.ExtTreeSet.ext_mem fun v => ?_
  rw [hs.mem_variableNames, Tree.variableNames, Ordered.mem_ofList, mem_values_toTree rfl]
  simp only [Stmt.exists_part_variable]

/-- **So are the constants.** -/
theorem constants_eq : (FactBase.assemble s g f).constants = p.toTree.constants := by
  refine Std.ExtTreeSet.ext_mem fun v => Ordered.mem_ofList.trans ?_
  rw [Tree.constants, Ordered.mem_ofList, mem_values_toTree rfl, List.mem_flatMap]
  simp only [Stmt.exists_part_constant, Std.ExtTreeSet.mem_toList]
  exact hs.exists_statement_iff (v ∈ ·.formulaConstants)

/-- And so are the procedures. -/
theorem procedureNames_eq : (FactBase.assemble s g f).procedureNames =
    .ofList (p.toTree.children.filterMap Tree.value) := by
  have hnames : p.toTree.children.filterMap Tree.value = p.procedures.map Procedure.name := by
    show (p.procedures.map Procedure.toTree).filterMap Tree.value = _
    rw [List.filterMap_map]
    exact congrFun List.filterMap_eq_map p.procedures
  refine Std.ExtTreeSet.ext_mem fun q => Ordered.mem_ofList.trans ?_
  rw [Std.ExtTreeMap.mem_keys, hs.visited, and_self, Ordered.mem_ofList, hnames]

/-- **The facts of a program list what its tree has.** -/
theorem enumerates (hp : p.Consistent) : (FactBase.assemble s g f).Enumerates p.toTree where
  statements := by
    rw [← hs.keys_statements hp, ← Std.ExtTreeMap.map_fst_toList_eq_keys, List.map_map]
    show (List.filter (fun _ => true) _).map _ = _
    rw [List.filter_true]
    rfl
  kinds e he x := by
    rw [FactBase.mem_entities he]
    simp only [hs.statements_iff_node]
    constructor
    · rintro ⟨n, kind, rfl, ⟨node, hnode, hn, hkind⟩, hadmits⟩
      exact ⟨node, hnode, n, kind, rfl, hn, hkind, hadmits⟩
    · rintro ⟨node, hnode, n, kind, rfl, hn, hkind, hadmits⟩
      exact ⟨n, kind, rfl, ⟨node, hnode, hn, hkind⟩, hadmits⟩
  vars := by rw [FactBase.entities, hs.variableNames_eq]
  consts := by rw [FactBase.entities, hs.constants_eq]
  procs := by rw [FactBase.entities, hs.procedureNames_eq]

end Program.Surveyed

/-! ## What facts speak of -/

namespace FactBase

/-- An element is listed under the sorts that may stand on a side of a relation. -/
def Within (kb : FactBase) (x : Element) : Domain → Prop
  | .statement => x ∈ kb.entities .stmt
  | .assignment => x ∈ kb.entities .assign
  | .statementOrProcedure => x ∈ kb.entities .stmt ∨ x ∈ kb.entities .proc
  | .proc => x ∈ kb.entities .proc
  | .var => x ∈ kb.entities .var

variable {kb : FactBase} {α : Type} {R : α → α → Prop} {x : Element} {e : Entity}

/-- What is within a domain is one of its elements. -/
theorem Within.mem_entities {d : Domain} (hx : kb.Within x d) (he : d.wildcard? = some e) :
    x ∈ kb.entities e := by
  cases d <;> cases he <;> exact hx

/-- A statement of any kind is a statement. -/
theorem mem_entities_stmt (he : e.isStatement) (hx : x ∈ kb.entities e) :
    x ∈ kb.entities .stmt := by
  obtain ⟨n, kind, rfl, hn, -⟩ := (mem_entities he).1 hx
  exact (mem_entities rfl).2 ⟨n, kind, rfl, hn, rfl⟩

/-- What is so of the ends of every step is so of the ends of a chain. -/
theorem ends_of_transGen {P Q : α → Prop} (hR : ∀ a b, R a b → P a ∧ Q b) (a b : α)
    (hab : Relation.TransGen R a b) : P a ∧ Q b := by
  obtain ⟨c, hac, -⟩ := Relation.TransGen.head'_iff.1 hab
  obtain ⟨d, -, hdb⟩ := Relation.TransGen.tail'_iff.1 hab
  exact ⟨(hR a c hac).1, (hR d b hdb).2⟩

end FactBase

namespace Program.Surveyed

open FactBase (ends_of_transGen)

variable {p : Program} {s : Survey} {g : CallGraph} {f : Flow} {q v : String} {t : Stmt}
  {k : Option Nat} {n a b : Nat} {e : Entity} {x y : Element}
variable (hs : p.Surveyed (p.procedures.map Procedure.name) s)
include hs

/-! ### Elements of each sort -/

/-- A statement is an element of the sorts that admit its kind. -/
theorem mem_entities_of_has {kind : StatementKind} (ht : p.Has q t k)
    (hkind : t.toTree.kind.statementKind? = some kind) (he : e.isStatement)
    (hadmits : e.admits kind) : .stmt t.number ∈ (FactBase.assemble s g f).entities e :=
  (FactBase.mem_entities he).2
    ⟨t.number, kind, rfl, hs.statements_iff.2 ⟨q, t, k, ht, rfl, hkind⟩, hadmits⟩

theorem stmt_mem (h : p.In q n) : .stmt n ∈ (FactBase.assemble s g f).entities .stmt := by
  obtain ⟨t, k, ht, rfl⟩ := h
  obtain ⟨kind, hkind⟩ := t.exists_kind
  exact hs.mem_entities_of_has ht hkind rfl rfl

/-- An assignment is an element of the sort of assignments. -/
theorem assign_mem {value : Expr} (h : p.Assigns n v value) :
    .stmt n ∈ (FactBase.assemble s g f).entities .assign := by
  obtain ⟨q, k, ht⟩ := h
  exact hs.mem_entities_of_has ht rfl rfl rfl

theorem proc_mem (hq : q ∈ p.procedures.map Procedure.name) :
    .name q ∈ (FactBase.assemble s g f).entities .proc := by
  refine List.mem_map_of_mem (Ordered.mem_toList_ofList.2 (Std.ExtTreeMap.mem_keys.2 ?_))
  exact (hs.visited q).2 ⟨hq, hq⟩

/-- What a statement uses or modifies is a variable. -/
theorem var_mem {a : Access} (ht : t ∈ p.preorder) (hv : v ∈ a.own t) :
    .name v ∈ (FactBase.assemble s g f).entities .var :=
  List.mem_map_of_mem
    (Std.ExtTreeSet.mem_toList.2 (hs.mem_variableNames.2 ⟨t, ht, a, hv⟩))

theorem finding_mem {finding : Finding} (hfinding : finding ∈ s.findings) :
    .stmt finding.number ∈ (FactBase.assemble s g f).entities .stmt := by
  obtain ⟨q, -, t, k, ht, hfound⟩ := hs.sound finding hfinding
  exact hs.stmt_mem ⟨t, k, ht, hfound.number.symm⟩

/-- A loop or a branching that was found is listed as one. -/
theorem compound_mem {finding : Finding} (hfinding : finding ∈ s.findings)
    (hkind : finding.statement.kind ∈ [.whileLoop, .ifElse]) :
    .stmt finding.number ∈ (FactBase.assemble s g f).entities .whileLoop ∨
      .stmt finding.number ∈ (FactBase.assemble s g f).entities .ifElse := by
  obtain ⟨q, -, t, k, ht, hfound⟩ := hs.sound finding hfinding
  rw [hfound.statement] at hkind
  rw [hfound.number]
  cases t with
  | whileLoop => exact .inl (hs.mem_entities_of_has ht rfl rfl rfl)
  | ifElse => exact .inr (hs.mem_entities_of_has ht rfl rfl rfl)
  | _ => simp [Stmt.toTree, Tree.leaf] at hkind

/-! ### The relations -/

/-- What follows something is a statement, and so is what it follows. -/
theorem followsLater_ends (hplaced : s.Placed) (h : s.FollowsLater a b) :
    .stmt a ∈ (FactBase.assemble s g f).entities .stmt ∧
      .stmt b ∈ (FactBase.assemble s g f).entities .stmt := by
  have hlisted : ∀ list ∈ s.lists, ∀ n ∈ list.numbers,
      .stmt n ∈ (FactBase.assemble s g f).entities .stmt := by
    intro list hlist n hn
    have hmem := hplaced.listed.mem_iff.1 (List.mem_flatMap.2 ⟨list, hlist, hn⟩)
    obtain ⟨finding, hfinding, rfl⟩ := List.mem_map.1 hmem
    exact hs.finding_mem hfinding
  obtain ⟨list, hlist, hab⟩ := h
  obtain ⟨ha, hb⟩ := Fact.mem_of_laterPairs hab
  exact ⟨hlisted list hlist a ha, hlisted list hlist b hb⟩

/-- What is around a statement is a loop or a branching. -/
theorem around_ends (hplaced : s.Placed) (a b : Nat) (h : s.Around a b) :
    (.stmt a ∈ (FactBase.assemble s g f).entities .whileLoop ∨
      .stmt a ∈ (FactBase.assemble s g f).entities .ifElse) ∧
      .stmt b ∈ (FactBase.assemble s g f).entities .stmt := by
  obtain ⟨finding, hfinding, ha, rfl⟩ := h
  obtain ⟨above, habove⟩ := List.getLast?_eq_some_iff.1 ha
  obtain ⟨outer, houter, rfl, -, hkind⟩ := hplaced.exists_around hfinding habove
  exact ⟨hs.compound_mem houter hkind, hs.finding_mem hfinding⟩

/-- **Statements are inside loops and branchings.** -/
theorem parent_ends (hplaced : s.Placed) {r : Relation} (hr : r ∈ [.parent, .parentStar])
    (h : (FactBase.assemble s g f).holds r x y) :
    (x ∈ (FactBase.assemble s g f).entities .whileLoop ∨
      x ∈ (FactBase.assemble s g f).entities .ifElse) ∧
      y ∈ (FactBase.assemble s g f).entities .stmt := by
  simp only [List.mem_cons, List.not_mem_nil, or_false] at hr
  rcases hr with rfl | rfl
  · obtain ⟨a, b, hab, rfl, rfl⟩ := (FactBase.says_parent x y).1 h
    exact hs.around_ends hplaced a b hab
  · obtain ⟨a, b, hab, rfl, rfl⟩ := (FactBase.says_parentStar x y).1 h
    have hchain := (hplaced.aroundFar_iff hs.nodup).1 hab
    exact ends_of_transGen (hs.around_ends hplaced) a b hchain

/-- Callers and callees are procedures. -/
theorem calls_ends (hp : p.Consistent) (a b : String)
    (h : b ∈ (CallGraph.ofTree p.toTree).graph.next a) :
    .name a ∈ (FactBase.assemble s g f).entities .proc ∧
      .name b ∈ (FactBase.assemble s g f).entities .proc := by
  obtain ⟨procedure, hprocedure, rfl, hb⟩ : p.Calls a b := calls_ofTree.1 h
  exact ⟨hs.proc_mem (List.mem_map_of_mem hprocedure),
    hs.proc_mem (hp.declared _ b ⟨procedure, hprocedure, rfl, hb⟩)⟩

theorem next_ends (a b : Nat) (h : b ∈ p.flow.next a) :
    .stmt a ∈ (FactBase.assemble s g f).entities .stmt ∧
      .stmt b ∈ (FactBase.assemble s g f).entities .stmt := by
  obtain ⟨q, ha, hb⟩ := (mem_next.1 h).exists_in
  exact ⟨hs.stmt_mem ha, hs.stmt_mem hb⟩

/-- Walks lead from statements to statements. -/
theorem walks_ends (a b : Flow.State) (h : p.Walks a b) :
    .stmt a.stmt ∈ (FactBase.assemble s g f).entities .stmt ∧
      .stmt b.stmt ∈ (FactBase.assemble s g f).entities .stmt := by
  obtain ⟨q, ha⟩ := h.exists_in
  obtain ⟨q', hb⟩ := h.exists_in_target
  exact ⟨hs.stmt_mem ha, hs.stmt_mem hb⟩

/-- Where values go from and to are assignments, whatever is reached. -/
theorem edge_ends (reach : String → Nat → List Nat)
    (h : (a, b) ∈ (Digraph.ofRows ((Dataflow.ofSurvey s).assignments.toList.map fun (n, x) =>
      (n, (reach x.target n).filter ((Dataflow.ofSurvey s).isUser x.target)))).edgeList) :
    .stmt a ∈ (FactBase.assemble s g f).entities .assign ∧
      .stmt b ∈ (FactBase.assemble s g f).entities .assign := by
  obtain ⟨v, ⟨⟨value, ha⟩, ⟨target, value', hb, -⟩⟩, -⟩ := (hs.mem_edgeList_iff reach).1 h
  exact ⟨hs.assign_mem ha, hs.assign_mem hb⟩

/-- Assignments affect assignments. -/
theorem affects_ends (a b : Nat) (h : b ∈ ((Dataflow.ofSurvey s).affects p.flow).next a) :
    .stmt a ∈ (FactBase.assemble s g f).entities .assign ∧
      .stmt b ∈ (FactBase.assemble s g f).entities .assign :=
  hs.edge_ends (fun v => p.flow.graph.reachThrough (!(Dataflow.ofSurvey s).kills v ·))
    (Digraph.mem_edgeList.2 h)

/-- And so they do across procedures. -/
theorem affectsBip_ends (a b : Nat) (h : b ∈ ((Dataflow.ofSurvey s).affectsBip p.flow).next a) :
    .stmt a ∈ (FactBase.assemble s g f).entities .assign ∧
      .stmt b ∈ (FactBase.assemble s g f).entities .assign :=
  hs.edge_ends (fun v => p.flow.walk ((Dataflow.ofSurvey s).overwrites v))
    (Digraph.mem_edgeList.2 h)

/-- **Statements and procedures use and modify variables.** -/
theorem access_ends {a : Access} (h : (FactBase.assemble s g f).holds a.relation x y) :
    (FactBase.assemble s g f).Within x .statementOrProcedure ∧
      (FactBase.assemble s g f).Within y .var := by
  rcases FactBase.holds_access.1 h with
    ⟨finding, hfinding, rfl, v, hv, rfl⟩ | ⟨q, e, he, rfl, v, hv, rfl⟩
  · obtain ⟨q, -, t, k, ht, hfound⟩ := hs.sound finding hfinding
    obtain ⟨u, hu, hv⟩ := (hfound.effects a v).1 hv
    exact ⟨.inl (hs.finding_mem hfinding), hs.var_mem (mem_preorder.2 (hu.exists_has ht)) hv⟩
  · have hq := ((hs.visited q).1 (Std.ExtTreeMap.mem_iff_isSome_getElem?.2 (by rw [he]; rfl))).1
    refine ⟨.inr (hs.proc_mem hq), ?_⟩
    -- what the table says of a procedure is so of a statement that the procedure covers
    have htable : v ∈ a.of (s.procedures.getD q {}) := by
      rw [Std.ExtTreeMap.getD_eq_getD_getElem?, he]
      exact hv
    obtain ⟨u, ⟨procedure, hprocedure, -, t, ht, hu⟩, hv⟩ := (hs.tabulates q hq hq a v).1 htable
    obtain ⟨k, ht⟩ := Stmt.exists_occurs_of_mem none ht
    exact hs.var_mem (mem_preorder.2 (hu.exists_has ⟨procedure, hprocedure, rfl, ht⟩)) hv

/-- **Facts relate elements that are listed**, under the sorts that their relation is about. -/
theorem holds_within (hp : p.WellFormed) (hplaced : s.Placed) {r : Relation}
    (h : (FactBase.assemble s (.ofTree p.toTree) p.flow).holds r x y) :
    (FactBase.assemble s (.ofTree p.toTree) p.flow).Within x r.left ∧
      (FactBase.assemble s (.ofTree p.toTree) p.flow).Within y r.right := by
  cases r with
  | follows =>
    obtain ⟨a, b, hab, rfl, rfl⟩ := (FactBase.says_follows x y).1 h
    exact hs.followsLater_ends hplaced hab.later
  | followsStar =>
    obtain ⟨a, b, hab, rfl, rfl⟩ := (FactBase.says_followsStar x y).1 h
    exact hs.followsLater_ends hplaced hab
  | parent =>
    obtain ⟨hx, hy⟩ := hs.parent_ends hplaced (.head _) h
    exact ⟨hx.elim (FactBase.mem_entities_stmt rfl) (FactBase.mem_entities_stmt rfl), hy⟩
  | parentStar =>
    obtain ⟨hx, hy⟩ := hs.parent_ends hplaced (.tail _ (.head _)) h
    exact ⟨hx.elim (FactBase.mem_entities_stmt rfl) (FactBase.mem_entities_stmt rfl), hy⟩
  | uses => exact hs.access_ends (a := .uses) h
  | modifies => exact hs.access_ends (a := .modifies) h
  | calls =>
    obtain ⟨a, b, hab, rfl, rfl⟩ := (FactBase.says_calls x y).1 h
    exact hs.calls_ends hp.toConsistent a b hab
  | callsStar =>
    obtain ⟨a, b, hab, rfl, rfl⟩ := (FactBase.says_callsStar x y).1 h
    exact ends_of_transGen (hs.calls_ends hp.toConsistent) a b hab
  | next =>
    obtain ⟨a, b, hab, rfl, rfl⟩ := (FactBase.says_next x y).1 h
    exact hs.next_ends a b hab
  | nextStar =>
    obtain ⟨a, b, rfl, rfl⟩ := FactBase.exists_stmts_of_holds (by decide) h
    exact ends_of_transGen hs.next_ends a b (Digraph.mem_closure.1 (FactBase.holds_nextStar.1 h))
  | affects =>
    obtain ⟨a, b, rfl, rfl⟩ := FactBase.exists_stmts_of_holds (by decide) h
    exact hs.affects_ends a b (Digraph.mem_edgeList.1 (FactBase.holds_affects.1 h))
  | affectsStar =>
    obtain ⟨a, b, rfl, rfl⟩ := FactBase.exists_stmts_of_holds (by decide) h
    have hchain := Digraph.mem_closure.1 (FactBase.holds_affectsStar.1 h)
    exact ends_of_transGen hs.affects_ends a b hchain
  | nextBip =>
    obtain ⟨a, b, hab, rfl, rfl⟩ := (FactBase.says_nextBip x y).1 h
    obtain ⟨stack, hab⟩ := (mem_linked hp.toConsistent).1 hab
    exact hs.walks_ends _ _ hab
  | nextBipStar =>
    obtain ⟨a, b, rfl, rfl⟩ := FactBase.exists_stmts_of_holds (by decide) h
    obtain ⟨stack, hab⟩ := (mem_reach hp).1 (FactBase.holds_nextBipStar.1 h).2
    exact ends_of_transGen hs.walks_ends _ _ hab
  | affectsBip =>
    obtain ⟨a, b, rfl, rfl⟩ := FactBase.exists_stmts_of_holds (by decide) h
    exact hs.affectsBip_ends a b (Digraph.mem_edgeList.1 (FactBase.holds_affectsBip.1 h))
  | affectsBipStar =>
    obtain ⟨a, b, rfl, rfl⟩ := FactBase.exists_stmts_of_holds (by decide) h
    have hchain := Digraph.mem_closure.1 (FactBase.holds_affectsBipStar.1 h)
    exact ends_of_transGen hs.affectsBip_ends a b hchain

end Program.Surveyed

/-! ## Wildcards -/

/-- A relation holds of something exactly if its size is not zero. -/
theorem FactBase.exists_holds_iff {kb : FactBase} {r : Relation} :
    (∃ x y, kb.holds r x y) ↔ 0 < kb.relationSize r := by
  constructor
  · rintro ⟨x, y, hxy⟩
    exact Nat.pos_of_ne_zero (relationSize_ne_zero hxy)
  · intro hpos
    obtain ⟨⟨r', x, y⟩, hfact, hr⟩ := List.countP_pos_iff.1 hpos
    obtain rfl : r' = r := of_decide_eq_true hr
    exact ⟨x, y, Std.ExtTreeSet.mem_toList.1 hfact⟩

/-- Wildcards are ambiguous in two relations only. -/
theorem Relation.exists_wildcards {r : Relation} (huses : r ≠ .uses) (hmodifies : r ≠ .modifies) :
    ∃ e e', r.left.wildcard? = some e ∧ r.right.wildcard? = some e' := by
  cases r with
  | uses => exact absurd rfl huses
  | modifies => exact absurd rfl hmodifies
  | _ => exact ⟨_, _, rfl, rfl⟩

/-- **A relation between two wildcards holds if there is a fact of it**, where facts relate elements
that are listed. -/
theorem Query.suchThat_wildcards {kb : FactBase} {r : Relation} (huses : r ≠ .uses)
    (hmodifies : r ≠ .modifies)
    (hwithin : ∀ x y, kb.holds r x y → kb.Within x r.left ∧ kb.Within y r.right)
    (db : List Table) : suchThat kb db r .wildcard .wildcard =
      if 0 < kb.relationSize r then .holds none else .fails := by
  obtain ⟨e, e', hleft, hright⟩ := Relation.exists_wildcards huses hmodifies
  have hany : anyPair kb r r.left.wildcard? r.right.wildcard? ↔ 0 < kb.relationSize r := by
    rw [anyPair_iff (ρ := fun _ => .stmt 0), ← FactBase.exists_holds_iff]
    constructor
    · rintro ⟨x, y, -, -, hxy⟩
      exact ⟨x, y, hxy⟩
    · rintro ⟨x, y, hxy⟩
      obtain ⟨hx, hy⟩ := hwithin x y hxy
      exact ⟨x, y, ⟨e, hleft, hx.mem_entities hleft⟩, ⟨e', hright, hy.mem_entities hright⟩, hxy⟩
  rw [suchThat, if_neg (by simp), if_pos ⟨rfl, rfl⟩]
  exact if_congr hany rfl rfl

namespace Program

variable {p : Program}

/-- **Facts stay inside the domains that wildcards stand for.** The facts of a program that was read
can be found. They list the statements of the tree, numbered from one on and each under its own
kind, the variables and constants in it, and the procedures that it declares. Every fact relates
elements that are listed under the sorts that its relation is about, and what is around a statement
is a loop or a branching. So if wildcards are not ambiguous, a relation between two of them holds
exactly if there is a fact of it, whatever tables there are. -/
theorem facts_within_domains {source : String} (h : parse source = .ok p) :
    ∃ kb, FactBase.ofTree p.toTree = .ok kb ∧ kb.Enumerates p.toTree ∧
      (∀ r x y, kb.holds r x y → kb.Within x r.left ∧ kb.Within y r.right) ∧
      (∀ r ∈ [Relation.parent, .parentStar], ∀ x y, kb.holds r x y →
        x ∈ kb.entities .whileLoop ∨ x ∈ kb.entities .ifElse) ∧
      ∀ r : Relation, r ≠ .uses → r ≠ .modifies → ∀ db : List Table,
        Query.suchThat kb db r .wildcard .wildcard =
          if 0 < kb.relationSize r then .holds none else .fails := by
  have hp := wellFormed_of_parse h
  obtain ⟨order, hs, hkb⟩ := exists_order_surveyed hp.toConsistent
  have hplaced := placed_ofTree hp.toConsistent order
  have hwithin := fun r x y => hs.holds_within (r := r) (x := x) (y := y) hp hplaced
  refine ⟨_, hkb, hs.enumerates hp.toConsistent, hwithin, fun r hr x y hxy => ?_, ?_⟩
  · exact (hs.parent_ends hplaced hr hxy).1
  · exact fun r huses hmodifies => Query.suchThat_wildcards huses hmodifies (hwithin r)

theorem facts_within_domains_sharedCallee :
    parse (sharedCallee.print .minimal) = .ok sharedCallee ∧
    ∃ kb, FactBase.ofTree sharedCallee.toTree = .ok kb ∧
      kb.entities .stmt = (List.range' 1 10).map .stmt ∧
      kb.holds .callsStar (.name "main") (.name "shared") ∧
      .name "shared" ∈ kb.entities .proc ∧
      Query.suchThat kb [] .callsStar .wildcard .wildcard = .holds none := by
  obtain ⟨kb, hkb, hlists, hwithin, -, hwild⟩ := facts_within_domains parse_sharedCallee
  obtain ⟨s, -, hkb'⟩ := exists_surveyed wellFormed_sharedCallee.toConsistent
  obtain rfl := Except.ok.inj (hkb.symm.trans hkb')
  have hfact : (FactBase.assemble s (.ofTree sharedCallee.toTree) sharedCallee.flow).holds
      .callsStar (.name "main") (.name "shared") := by
    refine (FactBase.says_callsStar _ _).2 ⟨"main", "shared", .tail (b := "left") (.single ?_) ?_,
      rfl, rfl⟩
    · exact calls_ofTree.2 ⟨_, .head _, rfl, by decide⟩
    · exact calls_ofTree.2 ⟨_, .tail _ (.head _), rfl, by decide⟩
  refine ⟨parse_sharedCallee, _, hkb, ?_, hfact, (hwithin _ _ _ hfact).2, ?_⟩
  · rw [hlists.statements]
    rfl
  · rw [hwild .callsStar (by decide) (by decide)]
    exact if_pos (FactBase.exists_holds_iff.1 ⟨_, _, hfact⟩)

end Program

end ProgramFacts
