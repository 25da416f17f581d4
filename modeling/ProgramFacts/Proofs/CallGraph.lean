import ProgramFacts.CallGraph
import ProgramFacts.Proofs.Digraph
import ProgramFacts.Proofs.Outcome
import Mathlib.Logic.Relation
/-!
# Call graphs — what the checks say

`checkDeclared` accepts a graph whose callees are all declared (`checkDeclared_iff`),
and `order` one without a cycle (`exists_order_iff`). The search behind `order` keeps
what it is done with in a list in which every callee comes after its callers, so what
it returns is a topological order; and it fails only at a call that leads back onto the
path that it follows, which closes a cycle (`closes_of_order`).
-/

namespace ProgramFacts

namespace CallGraph

variable {g : CallGraph}

/-- One procedure calls another. -/
def Calls (g : CallGraph) (a b : String) : Prop := b ∈ g.callees a

/-- No procedure calls itself, directly or through others. -/
def Acyclic (g : CallGraph) : Prop := ∀ a, ¬ Relation.TransGen g.Calls a a

/-- There is no circle if every step goes up in some ranking. -/
theorem not_transGen_self_of_rank {R : String → String → Prop} (rank : String → Nat)
    (h : ∀ a b, R a b → rank a < rank b) (a : String) : ¬ Relation.TransGen R a a := by
  intro hcycle
  have hlt : Relation.TransGen (· < ·) (rank a) (rank a) := hcycle.lift rank h
  rw [Relation.transGen_eq_self] at hlt
  exact Nat.lt_irrefl _ hlt

/-! ## Building -/

theorem mem_procedures {p : String} : p ∈ g.procedures ↔ g.declares p := by
  rw [procedures, Digraph.mem_nodes, declares, Std.ExtTreeMap.contains_iff_mem]

/-- Callers are declared. -/
theorem declares_of_calls {a b : String} (h : g.Calls a b) : g.declares a :=
  mem_procedures.1 (Digraph.mem_nodes_of_mem_next h)

theorem not_declares_empty {p : String} : ¬ empty.declares p := by
  rw [← mem_procedures]
  exact Digraph.not_mem_nodes_empty

/-- To declare a procedure declares it and no other. -/
theorem declares_declare {p q : String} : (g.declare p).declares q ↔ q = p ∨ g.declares q := by
  rw [← mem_procedures, ← mem_procedures]
  exact Digraph.mem_nodes_addNode

/-- To add a call declares the caller. -/
theorem declares_addCall {p q r : String} :
    (g.addCall p r).declares q ↔ q = p ∨ g.declares q := by
  rw [← mem_procedures, ← mem_procedures]
  exact Digraph.mem_nodes_addEdge

theorem not_calls_empty {a b : String} : ¬ empty.Calls a b :=
  Digraph.not_mem_next_empty

theorem calls_declare {p a b : String} : (g.declare p).Calls a b ↔ g.Calls a b :=
  Digraph.mem_next_addNode

/-- To add a call adds it and no other. -/
theorem calls_addCall {p r a b : String} :
    (g.addCall p r).Calls a b ↔ a = p ∧ b = r ∨ g.Calls a b :=
  Digraph.mem_next_addEdge

/-! ## Every callee is declared -/

/-- **The check passes exactly if every callee is declared.** -/
theorem checkDeclared_iff :
    g.checkDeclared = .ok () ↔ ∀ a b, g.Calls a b → g.declares b := by
  have hnone : g.undeclared? = none ↔ ∀ a b, g.Calls a b → g.declares b := by
    simp only [undeclared?, List.findSome?_eq_none_iff, Option.map_eq_none_iff,
      List.find?_eq_none, mem_procedures]
    constructor
    · intro h a b hab
      simpa using h a (declares_of_calls hab) b hab
    · intro h a _ b hab
      simpa using h a b hab
  rw [← hnone, checkDeclared]
  cases g.undeclared? <;> simp

/-! ## No recursion -/

/-- A list in which every callee comes after its callers, and nothing comes twice. -/
def Topological (g : CallGraph) : List String → Prop
  | [] => True
  | p :: rest => (∀ q, g.Calls p q → q ∈ rest) ∧ p ∉ rest ∧ Topological g rest

/-- What a search may do to the list of what it is done with: it keeps the list
topological, loses nothing, and adds only members of the graph, none of them on its path. -/
structure Extends (g : CallGraph) (path finished finished' : List String) : Prop where
  topological : g.Topological finished'
  subset : ∀ q ∈ finished, q ∈ finished'
  fresh : ∀ q ∈ finished', q ∈ finished ∨ q ∉ path
  known : ∀ q ∈ finished', q ∈ finished ∨ q ∈ g.members

theorem Extends.refl {path finished : List String} (h : g.Topological finished) :
    g.Extends path finished finished :=
  ⟨h, fun _ hq => hq, fun _ hq => .inl hq, fun _ hq => .inl hq⟩

/-- What two searches do, one after the other, is what a search may do. -/
theorem Extends.trans {path finished middle finished' : List String}
    (h : g.Extends path finished middle) (h' : g.Extends path middle finished') :
    g.Extends path finished finished' where
  topological := h'.topological
  subset q hq := h'.subset q (h.subset q hq)
  fresh q hq := (h'.fresh q hq).elim (h.fresh q) .inr
  known q hq := (h'.known q hq).elim (h.known q) .inr

/-- What was found below a procedure may be listed with the procedure before it. -/
theorem Extends.cons {path finished finished' : List String} {p : String}
    (h : g.Extends (p :: path) finished finished') (hall : ∀ q, g.Calls p q → q ∈ finished')
    (hp : p ∈ g.members) (hpath : p ∉ path) (hnew : p ∉ finished) :
    g.Extends path finished (p :: finished') where
  topological := by
    have hfresh : p ∉ finished' := fun hin => (h.fresh p hin).elim hnew fun hoff =>
      hoff List.mem_cons_self
    exact ⟨hall, hfresh, h.topological⟩
  subset q hq := List.mem_cons_of_mem p (h.subset q hq)
  fresh q hq := by
    rcases List.mem_cons.1 hq with rfl | hq
    · exact .inr hpath
    · exact (h.fresh q hq).imp_right fun hoff hq => hoff (List.mem_cons_of_mem p hq)
  known q hq := by
    rcases List.mem_cons.1 hq with rfl | hq
    · exact .inr hp
    · exact h.known q hq

mutual

/-- Following the calls of a procedure lists it after what was listed. -/
theorem visit_extends (path finished : List String) (p : String) {finished' : List String}
    (hp : p ∈ g.members) (hpath : p ∉ path) (hfinished : g.Topological finished)
    (h : g.visit path finished p = .ok finished') :
    g.Extends path finished finished' ∧ p ∈ finished' := by
  rw [visit, dif_neg hpath, dif_pos hp] at h
  split at h
  · next hin =>
    obtain rfl := Except.ok.inj h
    exact ⟨.refl hfinished, by simpa using hin⟩
  · next hin =>
    obtain ⟨done, hdone, heq⟩ := Outcome.bind_eq_ok.1 h
    obtain rfl := Except.ok.inj heq
    have hcallees : ∀ q ∈ g.callees p, q ∈ g.members := fun q hq =>
      List.mem_append_right _ (Digraph.mem_targets hq)
    obtain ⟨hextends, hall⟩ := visitCallees_extends p (p :: path) finished (g.callees p) hcallees
      hfinished hdone
    exact ⟨hextends.cons hall hp hpath (by simpa using hin), List.mem_cons_self⟩
termination_by (g.offPath path, 0)
decreasing_by exact Prod.Lex.left _ _ (offPath_cons_lt hp hpath)

/-- Following the calls of some callees lists them all. -/
theorem visitCallees_extends (caller : String) (path finished callees : List String)
    {finished' : List String} (hcallees : ∀ q ∈ callees, q ∈ g.members)
    (hfinished : g.Topological finished)
    (h : g.visitCallees caller path finished callees = .ok finished') :
    g.Extends path finished finished' ∧ ∀ q ∈ callees, q ∈ finished' := by
  match callees with
  | [] =>
    rw [visitCallees] at h
    obtain rfl := Except.ok.inj h
    exact ⟨.refl hfinished, by simp⟩
  | callee :: rest =>
    rw [visitCallees] at h
    split at h
    · cases h
    · next hpath =>
      obtain ⟨done, hdone, h⟩ := Outcome.bind_eq_ok.1 h
      obtain ⟨hcallee, hrest⟩ := List.forall_mem_cons.1 hcallees
      obtain ⟨hfirst, hmem⟩ := visit_extends path finished callee hcallee (by simpa using hpath)
        hfinished hdone
      obtain ⟨hmore, hall⟩ := visitCallees_extends caller path done rest hrest hfirst.topological h
      exact ⟨hfirst.trans hmore, List.forall_mem_cons.2 ⟨hmore.subset callee hmem, hall⟩⟩
termination_by (g.offPath path, callees.length + 1)

end

/-- Following the calls of some procedures, one after the other, lists them all. -/
theorem foldlM_visit_extends {ps finished finished' : List String} (hps : ∀ p ∈ ps, p ∈ g.members)
    (hfinished : g.Topological finished) (h : ps.foldlM (g.visit []) finished = .ok finished') :
    g.Extends [] finished finished' ∧ ∀ p ∈ ps, p ∈ finished' := by
  induction ps generalizing finished with
  | nil =>
    obtain rfl := Except.ok.inj h
    exact ⟨.refl hfinished, by simp⟩
  | cons p ps ih =>
    rw [List.foldlM_cons] at h
    obtain ⟨done, hdone, h⟩ := Outcome.bind_eq_ok.1 h
    obtain ⟨hp, hps⟩ := List.forall_mem_cons.1 hps
    obtain ⟨hfirst, hmem⟩ := visit_extends [] finished p hp (by simp) hfinished hdone
    obtain ⟨hmore, hall⟩ := ih hps hfirst.topological h
    exact ⟨hfirst.trans hmore, List.forall_mem_cons.2 ⟨hmore.subset p hmem, hall⟩⟩

/-- The order is what a search makes of an empty list, and it has every procedure. -/
theorem order_extends {l : List String} (h : g.order = .ok l) :
    g.Extends [] [] l ∧ ∀ p ∈ g.procedures, p ∈ l :=
  foldlM_visit_extends (fun _ hp => List.mem_append_left _ hp) trivial h

/-- **The order is topological**, and has every declared procedure. -/
theorem topological_of_order {l : List String} (h : g.order = .ok l) :
    g.Topological l ∧ ∀ p, g.declares p → p ∈ l := by
  obtain ⟨hextends, hall⟩ := order_extends h
  exact ⟨hextends.topological, fun p hp => hall p (mem_procedures.2 hp)⟩

/-- What is called from within a topological list is within it, and further on. -/
theorem Topological.mem_of_transGen {p : String} {rest : List String}
    (h : g.Topological (p :: rest)) {a b : String} (ha : a ∈ p :: rest)
    (hab : Relation.TransGen g.Calls a b) : b ∈ rest := by
  have hclosed : ∀ {l : List String}, g.Topological l → ∀ {a b}, a ∈ l → g.Calls a b →
      b ∈ l.tail := by
    intro l
    induction l with
    | nil => simp
    | cons q l ih =>
      rintro ⟨hq, -, hl⟩ a b ha hab
      rcases List.mem_cons.1 ha with rfl | ha
      · exact hq b hab
      · exact List.mem_of_mem_tail (ih hl ha hab)
  induction hab with
  | single hab => exact hclosed h ha hab
  | tail _ hbc ih => exact hclosed h (List.mem_cons_of_mem p ih) hbc

/-- Nothing in a topological list calls itself. -/
theorem Topological.acyclic {l : List String} (h : g.Topological l) {a : String} (ha : a ∈ l) :
    ¬ Relation.TransGen g.Calls a a := by
  induction l with
  | nil => cases ha
  | cons p rest ih =>
    intro hcycle
    exact ih h.2.2 (h.mem_of_transGen ha hcycle) hcycle

/-- What holds of a procedure if it holds of those that it calls, holds throughout a
topological list. -/
theorem Topological.induction {P : String → Prop} {l : List String} (h : g.Topological l)
    (hstep : ∀ a, (∀ b, g.Calls a b → P b) → P a) {a : String} (ha : a ∈ l) : P a := by
  induction l generalizing a with
  | nil => cases ha
  | cons p rest ih =>
    obtain ⟨hcallees, -, hrest⟩ := h
    rcases List.mem_cons.1 ha with rfl | ha
    · exact hstep a fun b hab => ih hrest (hcallees b hab)
    · exact ih hrest ha

/-- The failure names a call that closes a cycle: the callee leads back to its caller. -/
def Closes (g : CallGraph) (e : SourceError) : Prop :=
  ∃ caller callee, e = .recursiveCall caller callee ∧ g.Calls caller callee ∧
    Relation.ReflTransGen g.Calls callee caller

mutual

/-- Everything on the path leads to the procedure whose calls are followed, so a call back onto
the path closes a cycle. The procedure itself is never on the path. -/
theorem closes_of_visit (path finished : List String) (p : String) {e : SourceError}
    (hoff : p ∉ path) (hpath : ∀ q ∈ path, Relation.ReflTransGen g.Calls q p)
    (h : g.visit path finished p = .error e) : g.Closes e := by
  rw [visit, dif_neg hoff] at h
  split at h
  · cases h
  · split at h
    · next hp =>
      have hlt := offPath_cons_lt hp hoff
      rcases Outcome.bind_eq_error.1 h with h | ⟨done, -, h⟩
      · exact closes_of_visitCallees p (p :: path) finished (g.callees p) (fun q hq => hq)
          (List.forall_mem_cons.2 ⟨.refl, hpath⟩) h
      · cases h
    · cases h
termination_by (g.offPath path, 0)
decreasing_by exact Prod.Lex.left _ _ hlt

/-- A callee that is refused is on the path, and the others are followed. -/
theorem closes_of_visitCallees (caller : String) (path finished callees : List String)
    {e : SourceError} (hcallees : ∀ q ∈ callees, g.Calls caller q)
    (hpath : ∀ q ∈ path, Relation.ReflTransGen g.Calls q caller)
    (h : g.visitCallees caller path finished callees = .error e) : g.Closes e := by
  match callees with
  | [] =>
    rw [visitCallees] at h
    cases h
  | callee :: rest =>
    obtain ⟨hcallee, hrest⟩ := List.forall_mem_cons.1 hcallees
    rw [visitCallees] at h
    split at h
    · next hin =>
      exact ⟨caller, callee, (Except.error.inj h).symm, hcallee, hpath callee (by simpa using hin)⟩
    · next hoff =>
      rcases Outcome.bind_eq_error.1 h with h | ⟨done, -, h⟩
      · exact closes_of_visit path finished callee (by simpa using hoff)
          (fun q hq => (hpath q hq).tail hcallee) h
      · exact closes_of_visitCallees caller path done rest hrest hpath h
termination_by (g.offPath path, callees.length + 1)

end

/-- **A graph without an order is refused for a call that closes a cycle.** -/
theorem closes_of_order {e : SourceError} (h : g.order = .error e) : g.Closes e := by
  have hfold : ∀ (ps finished : List String), ps.foldlM (g.visit []) finished = .error e →
      g.Closes e := by
    intro ps
    induction ps with
    | nil => exact fun finished h => nomatch h
    | cons p ps ih =>
      intro finished h
      rw [List.foldlM_cons] at h
      rcases Outcome.bind_eq_error.1 h with h | ⟨done, -, h⟩
      · exact closes_of_visit [] finished p List.not_mem_nil (by simp) h
      · exact ih done h
  exact hfold g.procedures [] h

/-- **There is an order exactly if no procedure calls itself**, directly or through
others. -/
theorem exists_order_iff : (∃ l, g.order = .ok l) ↔ g.Acyclic := by
  constructor
  · rintro ⟨l, hl⟩ a hcycle
    obtain ⟨htop, hall⟩ := topological_of_order hl
    have hdeclares : g.declares a := by
      obtain ⟨b, hab, -⟩ := Relation.TransGen.head'_iff.1 hcycle
      exact declares_of_calls hab
    exact htop.acyclic (hall a hdeclares) hcycle
  · intro hg
    cases horder : g.order with
    | ok l => exact ⟨l, rfl⟩
    | error e =>
      obtain ⟨caller, callee, -, hcall, hback⟩ := closes_of_order horder
      exact absurd (Relation.TransGen.head' hcall hback) (hg caller)

end CallGraph

end ProgramFacts
