import ProgramFacts.Proofs.CallGraph
/-!
# Call graphs — the order of a graph that is built edit by edit

A graph grows by declarations and calls, in any order and with repetitions; a callee need not be
declared. What such a graph has can be read off the edits (`declares_build`, `calls_build`), so
what is said of its order can be said of the edits alone (`order_build`): there is an order exactly
if the calls have no cycle, and it then has every name of an edit once, each caller before its
callees.
-/

namespace ProgramFacts

namespace CallGraph

/-- One step in the building of a graph. -/
inductive Edit where
  | declare (p : String)
  | call (caller callee : String)
deriving DecidableEq

/-- The procedures that an edit names. -/
def Edit.names : Edit → List String
  | declare p => [p]
  | call caller callee => [caller, callee]

def edit (g : CallGraph) : Edit → CallGraph
  | .declare p => g.declare p
  | .call caller callee => g.addCall caller callee

/-- The graph after some edits, the first of them to the empty graph. -/
def build (edits : List Edit) : CallGraph := edits.foldl edit empty

variable {g : CallGraph} {edits : List Edit} {p a b : String}

/-! ## What a built graph has -/

theorem calls_edit {e : Edit} : (g.edit e).Calls a b ↔ g.Calls a b ∨ e = .call a b := by
  cases e with
  | declare p => simp [edit, calls_declare]
  | call caller callee =>
    rw [edit, calls_addCall, or_comm, Edit.call.injEq, eq_comm, eq_comm (a := b)]

theorem mem_members : p ∈ g.members ↔ g.declares p ∨ ∃ a, g.Calls a p := by
  rw [members, List.mem_append, mem_procedures]
  refine or_congr_right ⟨fun h => ?_, fun ⟨a, h⟩ => Digraph.mem_targets h⟩
  obtain ⟨a, -, h⟩ := List.mem_flatMap.1 h
  exact ⟨a, h⟩

theorem mem_members_edit {e : Edit} : p ∈ (g.edit e).members ↔ p ∈ g.members ∨ p ∈ e.names := by
  simp only [mem_members, calls_edit]
  cases e with
  | declare q =>
    simp only [edit, declares_declare, Edit.names, List.mem_singleton, reduceCtorEq, or_false]
    tauto
  | call caller callee =>
    simp only [edit, declares_addCall, Edit.names, List.mem_cons, List.not_mem_nil, or_false,
      Edit.call.injEq, exists_or, eq_comm (a := callee)]
    tauto

/-- One procedure calls another exactly if an edit says so. -/
theorem calls_build : (build edits).Calls a b ↔ .call a b ∈ edits := by
  have hfold : ∀ g, (edits.foldl edit g).Calls a b ↔ g.Calls a b ∨ .call a b ∈ edits := by
    induction edits with
    | nil => simp
    | cons e edits ih =>
      intro g
      rw [List.foldl_cons, ih, calls_edit, List.mem_cons, or_assoc, eq_comm (a := e)]
  rw [build, hfold, or_iff_right not_calls_empty]

/-- The members of a graph are the procedures that its edits name. -/
theorem mem_members_build : p ∈ (build edits).members ↔ p ∈ edits.flatMap Edit.names := by
  have hfold : ∀ g, p ∈ (edits.foldl edit g).members ↔
      p ∈ g.members ∨ p ∈ edits.flatMap Edit.names := by
    induction edits with
    | nil => simp
    | cons e edits ih =>
      intro g
      rw [List.foldl_cons, ih, mem_members_edit, List.flatMap_cons, List.mem_append, or_assoc]
  have hempty : p ∉ empty.members := by
    rw [mem_members]
    rintro (h | ⟨a, h⟩)
    · exact not_declares_empty h
    · exact not_calls_empty h
  rw [build, hfold, or_iff_right hempty]

/-! ## What an order has -/

theorem Topological.nodup {l : List String} (h : g.Topological l) : l.Nodup := by
  induction l with
  | nil => exact List.nodup_nil
  | cons p rest ih => exact List.nodup_cons.2 ⟨h.2.1, ih h.2.2⟩

/-- In a topological list, callers come before their callees. -/
theorem Topological.idxOf_lt {l : List String} (h : g.Topological l) (ha : a ∈ l)
    (hab : g.Calls a b) : l.idxOf a < l.idxOf b := by
  induction l with
  | nil => cases ha
  | cons p rest ih =>
    have hb : b ∈ rest := h.mem_of_transGen ha (.single hab)
    have hpb : p ≠ b := fun heq => h.2.1 (heq ▸ hb)
    rw [List.idxOf_cons_ne rest hpb]
    rcases List.mem_cons.1 ha with rfl | ha
    · simp
    · have hpa : p ≠ a := fun heq => h.2.1 (heq ▸ ha)
      rw [List.idxOf_cons_ne rest hpa]
      exact Nat.succ_lt_succ (ih h.2.2 ha)

/-- The order lists the members of the graph: the procedures that are declared, and their
callees. -/
theorem mem_order {l : List String} (h : g.order = .ok l) : p ∈ l ↔ p ∈ g.members := by
  obtain ⟨hextends, hall⟩ := order_extends h
  constructor
  · intro hp
    exact (hextends.known p hp).resolve_left List.not_mem_nil
  · intro hp
    rcases mem_members.1 hp with hp | ⟨a, hap⟩
    · exact hall p (mem_procedures.2 hp)
    · have ha : a ∈ l := hall a (mem_procedures.2 (declares_of_calls hap))
      cases l with
      | nil => cases ha
      | cons q rest =>
        exact List.mem_cons_of_mem q (hextends.topological.mem_of_transGen ha (.single hap))

/-- **A graph has an order exactly if its calls have no cycle, and then a topological one.**
Whatever edits built the graph, no procedure that calls itself is missed, also not through others,
and no graph without such a one is refused. The order has every procedure that was declared, that
calls or that is called, each once and no other, and every caller before each of its callees. -/
theorem order_build (edits : List Edit) :
    ((∃ l, (build edits).order = .ok l) ↔
      ∀ a, ¬ Relation.TransGen (fun a b => Edit.call a b ∈ edits) a a) ∧
    ∀ l, (build edits).order = .ok l →
      (∀ p, l.count p = if p ∈ edits.flatMap Edit.names then 1 else 0) ∧
      ∀ a b, Edit.call a b ∈ edits → l.idxOf a < l.idxOf b := by
  have hcalls : (build edits).Calls = fun a b => Edit.call a b ∈ edits := by
    funext a b
    exact propext calls_build
  refine ⟨by rw [exists_order_iff, Acyclic, hcalls], fun l hl => ?_⟩
  have htop : (build edits).Topological l := (order_extends hl).1.topological
  constructor
  · intro p
    rw [htop.nodup.count]
    simp only [mem_order hl, mem_members_build]
  · intro a b hab
    have hcalled : (build edits).Calls a b := calls_build.2 hab
    have ha : a ∈ l := (topological_of_order hl).2 a (declares_of_calls hcalled)
    exact htop.idxOf_lt ha hcalled

/-- Two procedures that both call two others, through which a callee that is never declared is
reached on four ways. -/
def diamonds : List Edit :=
  [.call "left" "base", .call "main" "right", .declare "main", .call "main" "left",
    .call "right" "base", .call "test" "right", .call "test" "left", .call "main" "left"]

/-- How far down the procedures of `diamonds` are. -/
def level (p : String) : Nat := ["main", "test", "left", "right", "base"].idxOf p

def Edit.goesDown : Edit → Bool
  | declare _ => true
  | call caller callee => level caller < level callee

theorem order_build_diamonds :
    (∃ l, (build diamonds).order = .ok l ∧ l.count "base" = 1 ∧ l.count "main" = 1 ∧
      l.count "ghost" = 0 ∧ l.idxOf "test" < l.idxOf "left" ∧ l.idxOf "left" < l.idxOf "base") ∧
    ¬ ∃ l, (build [.declare "main", .call "main" "main"]).order = .ok l := by
  obtain ⟨hdiamonds, hlist⟩ := order_build diamonds
  obtain ⟨hself, -⟩ := order_build [.declare "main", .call "main" "main"]
  constructor
  · have hdown : ∀ e ∈ diamonds, e.goesDown := by decide
    have hacyclic : ∀ a, ¬ Relation.TransGen (fun a b => Edit.call a b ∈ diamonds) a a := by
      refine not_transGen_self_of_rank level fun a b hab => ?_
      simpa [Edit.goesDown] using hdown _ hab
    obtain ⟨l, hl⟩ := hdiamonds.2 hacyclic
    obtain ⟨hcount, hbefore⟩ := hlist l hl
    refine ⟨l, hl, ?_, ?_, ?_, hbefore _ _ (by decide), hbefore _ _ (by decide)⟩
    · rw [hcount, if_pos (by decide)]
    · rw [hcount, if_pos (by decide)]
    · rw [hcount, if_neg (by decide)]
  · intro h
    exact hself.1 h "main" (.single (by decide))

end CallGraph

end ProgramFacts
