import ProgramFacts.FactBase.Extraction
import ProgramFacts.Proofs.Ordered
import ProgramFacts.Proofs.Program.Nodes
/-!
# The facts of a program — when they are found, and where

The call graph that is read off the tree of a program has the calls of the program
(`calls_ofTree`), so the facts of a consistent program can be found (`exists_factBase`). What
holds in the fact base that comes of it was found by the survey, in the calls or in the flow
(`holds_assemble`), and each relation in one place only.
-/

namespace ProgramFacts

/-! ## The calls in a tree -/

/-- The facts of a program are found along the order of its calls, if these pass the checks. -/
theorem FactBase.ofTree_of_order {root : Tree} (hroot : root.kind = .program)
    (hdeclared : (CallGraph.ofTree root).checkDeclared = .ok ()) {order : List String}
    (horder : (CallGraph.ofTree root).order = .ok order) :
    FactBase.ofTree root =
      .ok (.assemble (.ofTree root order) (.ofTree root) (.ofTree root)) := by
  rw [FactBase.ofTree, if_neg (not_not.2 hroot)]
  exact Outcome.bind_eq_ok.2 ⟨(), hdeclared, Outcome.bind_eq_ok.2 ⟨order, horder, rfl⟩⟩

namespace Program

variable {p : Program} {a b : String}

/-- **The call graph of a program's tree is that of its procedures**, one after the other. -/
theorem callGraph_ofTree :
    CallGraph.ofTree p.toTree = p.procedures.foldl CallGraph.enter .empty := by
  rw [CallGraph.ofTree]
  show (p.procedures.map Procedure.toTree).foldl _ _ = _
  rw [List.foldl_map]
  congr 1
  funext g q
  rw [q.values_call]
  rfl

theorem declares_ofTree : (CallGraph.ofTree p.toTree).declares a ↔
    a ∈ p.procedures.map Procedure.name := by
  rw [callGraph_ofTree, CallGraph.declares_foldl_enter, or_iff_left CallGraph.not_declares_empty]

/-- **The calls in the tree of a program are its calls.** -/
theorem calls_ofTree : (CallGraph.ofTree p.toTree).Calls a b ↔ p.Calls a b := by
  rw [callGraph_ofTree, CallGraph.calls_foldl_enter, or_iff_left CallGraph.not_calls_empty]
  rfl

theorem acyclic_ofTree (hp : p.Consistent) : (CallGraph.ofTree p.toTree).Acyclic := by
  have hcalls : (CallGraph.ofTree p.toTree).Calls = p.Calls := by
    funext a b
    exact propext calls_ofTree
  rw [CallGraph.Acyclic, hcalls]
  exact hp.acyclic

/-- The procedures of a consistent program can be ordered, and its facts are found along an
order. -/
theorem exists_order (hp : p.Consistent) : ∃ order,
    (CallGraph.ofTree p.toTree).order = .ok order ∧
      FactBase.ofTree p.toTree = .ok (.assemble (.ofTree p.toTree order)
        (.ofTree p.toTree) (.ofTree p.toTree)) := by
  have hdeclared : (CallGraph.ofTree p.toTree).checkDeclared = .ok () := by
    refine CallGraph.checkDeclared_iff.2 fun a b hab => declares_ofTree.2 ?_
    exact hp.declared a b (calls_ofTree.1 hab)
  obtain ⟨order, horder⟩ := CallGraph.exists_order_iff.2 (acyclic_ofTree hp)
  exact ⟨order, horder, FactBase.ofTree_of_order rfl hdeclared horder⟩

/-- **The facts of a consistent program can be found.** -/
theorem exists_factBase (hp : p.Consistent) : ∃ order,
    FactBase.ofTree p.toTree = .ok (.assemble (.ofTree p.toTree order)
      (.ofTree p.toTree) (.ofTree p.toTree)) := by
  obtain ⟨order, -, hkb⟩ := exists_order hp
  exact ⟨order, hkb⟩

/-- What holds of a procedure if it holds of those that it calls, holds of all. -/
theorem calls_induction (hp : p.Consistent) {P : String → Prop}
    (h : ∀ a, (∀ b, p.Calls a b → P b) → P a) (a : String) : P a := by
  obtain ⟨order, horder⟩ := CallGraph.exists_order_iff.2 (acyclic_ofTree hp)
  obtain ⟨htopological, hall⟩ := CallGraph.topological_of_order horder
  refine h a fun b hab => ?_
  refine htopological.induction (fun a ha => h a fun b hab => ha b (calls_ofTree.2 hab)) ?_
  exact hall b (declares_ofTree.2 (hp.declared a b hab))

end Program

/-! ## Where facts come from -/

/-- The relations that say where control and values go. -/
def Relation.flows : List Relation :=
  [.next, .nextStar, .affects, .affectsStar, .nextBip, .nextBipStar, .affectsBip, .affectsBipStar]

namespace Fact

variable {r r' : Relation} {x y z : Element}

@[simp]
theorem mem_ofNumbers {pairs : List (Nat × Nat)} : ⟨r, x, y⟩ ∈ ofNumbers r' pairs ↔
    r = r' ∧ ∃ a b, (a, b) ∈ pairs ∧ x = .stmt a ∧ y = .stmt b := by
  simp only [ofNumbers, List.mem_map, Prod.exists, mk.injEq]
  constructor
  · rintro ⟨a, b, hab, rfl, rfl, rfl⟩
    exact ⟨rfl, a, b, hab, rfl, rfl⟩
  · rintro ⟨rfl, a, b, hab, rfl, rfl⟩
    exact ⟨a, b, hab, rfl, rfl, rfl⟩

@[simp]
theorem mem_ofNames {pairs : List (String × String)} : ⟨r, x, y⟩ ∈ ofNames r' pairs ↔
    r = r' ∧ ∃ a b, (a, b) ∈ pairs ∧ x = .name a ∧ y = .name b := by
  simp only [ofNames, List.mem_map, Prod.exists, mk.injEq]
  constructor
  · rintro ⟨a, b, hab, rfl, rfl, rfl⟩
    exact ⟨rfl, a, b, hab, rfl, rfl⟩
  · rintro ⟨rfl, a, b, hab, rfl, rfl⟩
    exact ⟨a, b, hab, rfl, rfl, rfl⟩

@[simp]
theorem mem_ofEffects {e : Effects} : ⟨r, x, y⟩ ∈ ofEffects z e ↔
    (r = .uses ∧ x = z ∧ ∃ name ∈ e.uses, y = .name name) ∨
      (r = .modifies ∧ x = z ∧ ∃ name ∈ e.modifies, y = .name name) := by
  simp only [ofEffects, List.mem_append, List.mem_map, Std.ExtTreeSet.mem_toList, mk.injEq]
  constructor
  · rintro (⟨name, hname, rfl, rfl, rfl⟩ | ⟨name, hname, rfl, rfl, rfl⟩)
    · exact .inl ⟨rfl, rfl, name, hname, rfl⟩
    · exact .inr ⟨rfl, rfl, name, hname, rfl⟩
  · rintro (⟨rfl, rfl, name, hname, rfl⟩ | ⟨rfl, rfl, name, hname, rfl⟩)
    · exact .inl ⟨name, hname, rfl, rfl, rfl⟩
    · exact .inr ⟨name, hname, rfl, rfl, rfl⟩

/-- A survey shows how statements are placed, and what is used and modified. -/
theorem relation_of_mem_ofSurvey {s : Survey} (h : ⟨r, x, y⟩ ∈ ofSurvey s) :
    r ∈ [.follows, .followsStar, .parent, .parentStar, .uses, .modifies] := by
  simp only [ofSurvey, List.mem_append, List.mem_flatMap] at h
  rcases h with (⟨list, -, h⟩ | ⟨v, -, h⟩) | ⟨procedure, -, h⟩
  · simp only [ofList, List.mem_append, mem_ofNumbers] at h
    rcases h with ⟨rfl, -⟩ | ⟨rfl, -⟩ <;> decide
  · simp only [ofFinding, List.mem_append, mem_ofNumbers, mem_ofEffects] at h
    rcases h with (⟨rfl, -⟩ | ⟨rfl, -⟩) | ⟨rfl, -⟩ | ⟨rfl, -⟩ <;> decide
  · rcases mem_ofEffects.1 h with ⟨rfl, -⟩ | ⟨rfl, -⟩ <;> decide

end Fact

namespace FactBase

variable {s : Survey} {g : CallGraph} {f : Flow} {r : Relation} {x y : Element}

theorem holds_assemble : (assemble s g f).holds r x y ↔
    ⟨r, x, y⟩ ∈ Fact.ofSurvey s ∨ ⟨r, x, y⟩ ∈ Fact.ofCalls g ∨
      ⟨r, x, y⟩ ∈ Fact.ofFlow f (.ofSurvey s) := by
  rw [holds, Std.ExtTreeSet.contains_iff_mem]
  refine Ordered.mem_ofList.trans ?_
  rw [List.mem_append, List.mem_append, or_assoc]

/-- Where control and values go is found in the flow only. -/
theorem holds_flow (hr : r ∈ Relation.flows) :
    (assemble s g f).holds r x y ↔ ⟨r, x, y⟩ ∈ Fact.ofFlow f (.ofSurvey s) := by
  have hsurvey : ⟨r, x, y⟩ ∉ Fact.ofSurvey s := by
    intro h
    have hapart : ∀ r ∈ Relation.flows,
        r ∉ [.follows, .followsStar, .parent, .parentStar, .uses, .modifies] := by decide
    exact hapart r hr (Fact.relation_of_mem_ofSurvey h)
  have hcalls : ⟨r, x, y⟩ ∉ Fact.ofCalls g := by
    intro h
    simp only [Fact.ofCalls, List.mem_append, Fact.mem_ofNames] at h
    rcases h with ⟨rfl, -⟩ | ⟨rfl, -⟩ <;> exact absurd hr (by decide)
  rw [holds_assemble, or_iff_right hsurvey, or_iff_right hcalls]

/-- Where control and values go is said of statements only. -/
theorem exists_stmts_of_holds (hr : r ∈ Relation.flows) (h : (assemble s g f).holds r x y) :
    ∃ a b, x = .stmt a ∧ y = .stmt b := by
  rw [holds_flow hr] at h
  simp only [Fact.ofFlow, List.mem_append, Fact.mem_ofNumbers] at h
  grind

/-- Two of these relations agree if they agree on statements. -/
theorem holds_congr {r' : Relation} (hr : r ∈ Relation.flows) (hr' : r' ∈ Relation.flows)
    (h : ∀ a b, (assemble s g f).holds r (.stmt a) (.stmt b) ↔
      (assemble s g f).holds r' (.stmt a) (.stmt b)) :
    (assemble s g f).holds r x y ↔ (assemble s g f).holds r' x y := by
  constructor
  · intro hxy
    obtain ⟨a, b, rfl, rfl⟩ := exists_stmts_of_holds hr hxy
    exact (h a b).1 hxy
  · intro hxy
    obtain ⟨a, b, rfl, rfl⟩ := exists_stmts_of_holds hr' hxy
    exact (h a b).2 hxy

theorem holds_next {n m : Nat} : (assemble s g f).holds .next (.stmt n) (.stmt m) ↔
    m ∈ f.next n := by
  rw [holds_flow (by decide), Flow.next, ← Digraph.mem_edgeList]
  simp [Fact.ofFlow]

theorem holds_nextStar {n m : Nat} : (assemble s g f).holds .nextStar (.stmt n) (.stmt m) ↔
    (n, m) ∈ f.graph.closure := by
  rw [holds_flow (by decide)]
  simp [Fact.ofFlow]

theorem holds_nextBip {n m : Nat} : (assemble s g f).holds .nextBip (.stmt n) (.stmt m) ↔
    m ∈ f.linked.next n := by
  rw [holds_flow (by decide), ← Digraph.mem_edgeList]
  simp [Fact.ofFlow]

/-- Control can come from one statement to another if the flow of the program says so. -/
theorem holds_nextBipStar {n m : Nat} : (assemble s g f).holds .nextBipStar (.stmt n) (.stmt m) ↔
    n ∈ f.statements ∧ m ∈ f.reach n := by
  rw [holds_flow (by decide)]
  simp [Fact.ofFlow]

/-- An assignment affects another one if the data flow of the program says so. -/
theorem holds_affects {n m : Nat} : (assemble s g f).holds .affects (.stmt n) (.stmt m) ↔
    (n, m) ∈ ((Dataflow.ofSurvey s).affects f).edgeList := by
  rw [holds_flow (by decide)]
  simp [Fact.ofFlow]

theorem holds_affectsStar {n m : Nat} : (assemble s g f).holds .affectsStar (.stmt n) (.stmt m) ↔
    (n, m) ∈ ((Dataflow.ofSurvey s).affects f).closure := by
  rw [holds_flow (by decide)]
  simp [Fact.ofFlow]

theorem holds_affectsBip {n m : Nat} : (assemble s g f).holds .affectsBip (.stmt n) (.stmt m) ↔
    (n, m) ∈ ((Dataflow.ofSurvey s).affectsBip f).edgeList := by
  rw [holds_flow (by decide)]
  simp [Fact.ofFlow]

theorem holds_affectsBipStar {n m : Nat} :
    (assemble s g f).holds .affectsBipStar (.stmt n) (.stmt m) ↔
      (n, m) ∈ ((Dataflow.ofSurvey s).affectsBip f).closure := by
  rw [holds_flow (by decide)]
  simp [Fact.ofFlow]

end FactBase

end ProgramFacts
