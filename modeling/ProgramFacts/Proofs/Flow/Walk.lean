import ProgramFacts.Flow.Walk
import ProgramFacts.Proofs.Flow
import ProgramFacts.Proofs.Program.RoundTrip
import ProgramFacts.Proofs.Search
import Mathlib.Data.List.Perm.Subperm
/-!
# Control flow across procedures — what a walk meets

`Program.Walks` says what a walk with open calls does, told by the program alone. The open
calls of a walk are nested: each calls the procedure that the walk was in before the next was
entered (`Program.Nested`). Since no procedure calls itself, directly or through others, these
procedures are all different. So there are never more open calls than procedures, and never
more procedures are left at once: the bounds of the search are not met, and a search meets what
the program's walks meet (`mem_walkStates`, `mem_reach`).
-/

namespace ProgramFacts

/-- Where control goes from a statement, however many calls are open. -/
def Flow.advance (f : Flow) (s : State) : List State :=
  match f.entered? s.stmt with
  | some first => [⟨first, s.stmt :: s.stack⟩]
  | none => f.resume s.stmt s.stack

namespace Program

open ProgramFacts.Flow (State)

variable {p : Program} {q q' : String} {n m call : Nat} {stack : List Nat} {s t : State}

/-- **Where control goes once a statement is done**, with some calls open, the last first. It
goes on within the procedure; or the procedure is left, to go on after the last open call, and
if none is open after any call of it. -/
inductive Resumes (p : Program) : Nat → List Nat → State → Prop
  | next {n m : Nat} {stack : List Nat} (h : p.Next n m) : Resumes p n stack ⟨m, stack⟩
  | back {q : String} {n call : Nat} {stack : List Nat} {t : State} (hexit : p.Exit q n)
    (h : Resumes p call stack t) : Resumes p n (call :: stack) t
  | out {q : String} {n call : Nat} {t : State} (hexit : p.Exit q n) (hcall : p.CallOf q call)
    (h : Resumes p call [] t) : Resumes p n [] t

/-- **One step of a walk.** A call is entered; any other statement is done with. -/
inductive Walks (p : Program) : State → State → Prop
  | enter {q : String} {n m : Nat} {stack : List Nat} (hcall : p.CallOf q n)
    (hentry : p.Entry q m) : Walks p ⟨n, stack⟩ ⟨m, n :: stack⟩
  | resume {n : Nat} {stack : List Nat} {t : State} (hcall : ∀ q, ¬ p.CallOf q n)
    (h : p.Resumes n stack t) : Walks p ⟨n, stack⟩ t

/-! ## Nested calls -/

/-- Every open call is a call of the procedure that control is in, or that the call before it
is in. -/
def Nested (p : Program) : Nat → List Nat → Prop
  | _, [] => True
  | n, call :: stack => (∃ q, p.In q n ∧ p.CallOf q call) ∧ p.Nested call stack

theorem Nested.congr (h : p.Nested n stack) (hnm : ∀ q, p.In q n → p.In q m) :
    p.Nested m stack := by
  cases stack with
  | nil => trivial
  | cons call stack =>
    obtain ⟨⟨q, hn, hcall⟩, h⟩ := h
    exact ⟨⟨q, hnm q hn, hcall⟩, h⟩

/-- Calls stay nested as control goes back through them. -/
theorem Nested.of_resumes (hp : p.Consistent) (h : p.Resumes n stack t)
    (hn : p.Nested n stack) : p.Nested t.stmt t.stack := by
  induction h with
  | next hnext =>
    obtain ⟨q, hq, hm⟩ := hnext.exists_in
    refine hn.congr fun q' hq' => ?_
    rwa [hp.in_unique hq' hq]
  | back _ _ ih => exact ih hn.2
  | out _ _ _ ih => exact ih trivial

/-- A walk keeps the open calls nested. -/
theorem Nested.of_walks (hp : p.Consistent) (h : p.Walks s t) (hs : p.Nested s.stmt s.stack) :
    p.Nested t.stmt t.stack := by
  cases h with
  | enter hcall hentry => exact ⟨⟨_, hentry.mem, hcall⟩, hs⟩
  | resume _ h => exact hs.of_resumes hp h

/-- A call in a procedure makes it call. -/
theorem CallOf.calls (hp : p.Consistent) (h : p.CallOf q call) (hcall : p.In q' call) :
    p.Calls q' q := by
  obtain ⟨q'', k, h⟩ := h
  rw [hp.in_unique hcall ⟨_, k, h, rfl⟩]
  exact calls_of_has h

/-- Procedures of which each calls the one before, directly or through others. -/
def Rising (p : Program) (qs : List String) : Prop :=
  qs.Pairwise fun a b => Relation.TransGen p.Calls b a

/-- **No procedure is open twice**, since none calls itself. -/
theorem Rising.nodup (hp : p.Consistent) {qs : List String} (h : p.Rising qs) : qs.Nodup := by
  refine h.imp fun {a b} hab => ?_
  rintro rfl
  exact hp.acyclic a hab

/-- **No more procedures are on a way up than there are.** -/
theorem Rising.length_le {β : Type} (hp : p.Consistent) {qs : List String} (h : p.Rising qs)
    {names : Std.ExtTreeMap String β} (hmem : ∀ q ∈ qs, q ∈ names) : qs.length ≤ names.size := by
  have hsubset : qs ⊆ names.keys := fun q hq => Std.ExtTreeMap.mem_keys.2 (hmem q hq)
  rw [← Std.ExtTreeMap.length_keys]
  exact (List.subperm_of_subset (h.nodup hp) hsubset).length_le

/-- The procedures that the open calls are in rise from the one that control is in. -/
theorem Nested.exists_rising (hp : p.Consistent) (h : p.Nested n stack) (hn : p.In q n) :
    ∃ qs, stack.map (p.flow.procedureOf[·]?) = qs.map some ∧ p.Rising (q :: qs) := by
  induction stack generalizing n q with
  | nil => exact ⟨[], rfl, List.pairwise_singleton _ _⟩
  | cons call stack ih =>
    obtain ⟨⟨q₀, hn₀, hcall⟩, h⟩ := h
    obtain rfl := hp.in_unique hn hn₀
    obtain ⟨q', hq'⟩ := hcall.mem
    obtain ⟨qs, hqs, hrising⟩ := ih h hq'
    have hup : Relation.TransGen p.Calls q' q := .single (hcall.calls hp hq')
    refine ⟨q' :: qs, by simp [hp.procedureOf_iff.2 hq', hqs], List.pairwise_cons.2 ⟨?_, hrising⟩⟩
    refine List.forall_mem_cons.2 ⟨hup, fun q'' hq'' => ?_⟩
    exact ((List.pairwise_cons.1 hrising).1 q'' hq'').trans hup

/-! ## Leaving procedures -/

/-- With more depth nothing is lost. -/
theorem outward_mono {f : Flow} {depth depth' : Nat} (hdepth : depth ≤ depth')
    (h : m ∈ f.outward depth n) : m ∈ f.outward depth' n := by
  induction depth generalizing n depth' with
  | zero =>
    cases depth' with
    | zero => exact h
    | succ depth' => exact List.mem_append_left _ h
  | succ depth ih =>
    obtain ⟨depth', rfl⟩ := Nat.exists_eq_add_of_le' (Nat.lt_of_lt_of_le depth.succ_pos hdepth)
    rw [Flow.outward, List.mem_append] at h ⊢
    refine h.imp_right fun h => ?_
    split at h
    · obtain ⟨call, hcall, h⟩ := List.mem_flatMap.1 h
      exact List.mem_flatMap.2 ⟨call, hcall, ih (by omega) h⟩
    · cases h

/-- What is found going outward is where control goes on. -/
theorem resumes_of_outward (hp : p.Consistent) {depth : Nat}
    (h : m ∈ p.flow.outward depth n) : p.Resumes n [] ⟨m, []⟩ := by
  induction depth generalizing n with
  | zero => exact .next (mem_next.1 h)
  | succ depth ih =>
    rw [Flow.outward, List.mem_append] at h
    rcases h with h | h
    · exact .next (mem_next.1 h)
    · split at h
      · next q hleft =>
        obtain ⟨call, hcall, h⟩ := List.mem_flatMap.1 h
        exact .out (hp.left?_iff.1 hleft) (hp.mem_callers.1 hcall) (ih h)
      · cases h

theorem Resumes.stack_eq_nil (h : p.Resumes n stack t) (hstack : stack = []) :
    t.stack = [] := by
  induction h with
  | next => exact hstack
  | back => cases hstack
  | out _ _ _ ih => exact ih rfl

theorem Exit.mem_exits (h : p.Exit q n) : q ∈ p.flow.exits := by
  refine Classical.byContradiction fun hq => ?_
  have hn := mem_exitsFrom.2 h
  rw [Flow.exitsFrom, Std.ExtTreeMap.getD_eq_fallback hq] at hn
  exact Std.ExtTreeSet.not_mem_empty hn

/-- The procedures that are left one after the other rise from the one that control is in, and
as many steps outward follow them. -/
theorem Resumes.exists_rising (hp : p.Consistent) (h : p.Resumes n stack t) (hstack : stack = []) :
    ∃ qs, t.stmt ∈ p.flow.outward qs.length n ∧ p.Rising qs ∧ (∀ q ∈ qs, q ∈ p.flow.exits) ∧
      ∀ q ∈ qs, ∀ q', p.In q' n → Relation.ReflTransGen p.Calls q q' := by
  induction h with
  | next h => exact ⟨[], mem_next.2 h, .nil, by simp, by simp⟩
  | back => cases hstack
  | @out q n call t hexit hcall h ih =>
    obtain ⟨qs, hmem, hrising, hexits, hups⟩ := ih rfl
    -- the call is in a procedure that calls `q`, and what is left after that leads down to it
    obtain ⟨q', hq'⟩ := hcall.mem
    have hup : ∀ q'' ∈ qs, Relation.TransGen p.Calls q'' q := fun q'' hq'' =>
      .tail' (hups q'' hq'' q' hq') (hcall.calls hp hq')
    refine ⟨q :: qs, ?_, List.pairwise_cons.2 ⟨hup, hrising⟩,
      List.forall_mem_cons.2 ⟨hexit.mem_exits, hexits⟩, ?_⟩
    · rw [List.length_cons, Flow.outward, hp.left?_iff.2 hexit]
      exact List.mem_append_right _ (List.mem_flatMap.2 ⟨call, hp.mem_callers.2 hcall, hmem⟩)
    · intro q'' hq'' q₀ hq₀
      obtain rfl := hp.in_unique hq₀ hexit.mem
      rcases List.mem_cons.1 hq'' with rfl | hq''
      · exact .refl
      · exact (hup q'' hq'').to_reflTransGen

/-- **Nothing is missed by bounding how many procedures are left at once.** -/
theorem mem_outward (hp : p.Consistent) :
    m ∈ p.flow.outward p.flow.exits.size n ↔ p.Resumes n [] ⟨m, []⟩ := by
  constructor
  · exact resumes_of_outward hp
  · intro h
    obtain ⟨qs, hmem, hrising, hexits, -⟩ := h.exists_rising hp rfl
    exact outward_mono (hrising.length_le hp hexits) hmem

/-- **Where control goes on behind a statement** is found by going outward far enough. -/
theorem mem_resume (hp : p.Consistent) : t ∈ p.flow.resume n stack ↔ p.Resumes n stack t := by
  induction stack generalizing n with
  | nil =>
    rw [Flow.resume, List.mem_map]
    simp only [mem_outward hp]
    constructor
    · rintro ⟨m, h, rfl⟩
      exact h
    · intro h
      obtain ⟨m, stack⟩ := t
      obtain rfl : stack = [] := h.stack_eq_nil rfl
      exact ⟨m, h, rfl⟩
  | cons call stack ih =>
    rw [Flow.resume, List.mem_append, List.mem_map]
    constructor
    · rintro (⟨m, h, rfl⟩ | h)
      · exact .next (mem_next.1 h)
      · split at h
        · next q hleft => exact .back (hp.left?_iff.1 hleft) (ih.1 h)
        · cases h
    · intro h
      cases h with
      | next h => exact .inl ⟨_, mem_next.2 h, rfl⟩
      | back hexit h =>
        rw [hp.left?_iff.2 hexit]
        exact .inr (ih.2 h)

/-! ## Steps and walks -/

/-- A declared procedure has a statement to start at. -/
theorem exists_entry (hp : p.WellFormed) (hq : q ∈ p.procedures.map Procedure.name) :
    ∃ m, p.Entry q m := by
  obtain ⟨procedure, hprocedure, rfl⟩ := List.mem_map.1 hq
  obtain ⟨-, -, hne⟩ := hp.printable procedure hprocedure
  obtain ⟨m, hm⟩ := Stmt.exists_firstOf hne
  exact ⟨m, procedure, hprocedure, rfl, hm⟩

/-- Every called procedure can be entered. -/
theorem CallOf.exists_entry (hp : p.WellFormed) (h : p.CallOf q n) : ∃ m, p.Entry q m := by
  obtain ⟨q', k, h⟩ := h
  exact Program.exists_entry hp (hp.declared _ _ (calls_of_has h))

theorem In.mem_first (hp : p.WellFormed) (h : p.In q n) : q ∈ p.flow.first := by
  obtain ⟨s, k, ⟨procedure, hprocedure, rfl, -⟩, -⟩ := h
  obtain ⟨m, hm⟩ := exists_entry hp (List.mem_map_of_mem hprocedure)
  exact Std.ExtTreeMap.mem_iff_isSome_getElem?.2 (by rw [hp.first_iff.2 hm]; rfl)

/-- There are fewer open calls than procedures. -/
theorem Nested.length_lt (hp : p.WellFormed) (h : p.Nested n stack) (hn : p.In q n) :
    stack.length < p.flow.first.size := by
  obtain ⟨qs, hqs, hrising⟩ := h.exists_rising hp.toConsistent hn
  -- one procedure for every open call, and the one that control is in
  have hfirst : ∀ q' ∈ q :: qs, q' ∈ p.flow.first := by
    refine List.forall_mem_cons.2 ⟨hn.mem_first hp, fun q' hq' => ?_⟩
    obtain ⟨n', -, hn'⟩ := List.mem_map.1 (hqs ▸ List.mem_map_of_mem hq')
    exact (hp.procedureOf_iff.1 hn').mem_first hp
  have hle := hrising.length_le hp.toConsistent hfirst
  have hlength : stack.length = qs.length := by simpa using congrArg List.length hqs
  rw [List.length_cons, ← hlength] at hle
  exact hle

/-- **The steps of the flow are the steps of a walk.** -/
theorem mem_advance (hp : p.WellFormed) : t ∈ p.flow.advance s ↔ p.Walks s t := by
  obtain ⟨n, stack⟩ := s
  unfold Flow.advance
  split
  · next m hm =>
    obtain ⟨q, hcall, hentry⟩ := hp.entered?_iff.1 hm
    rw [List.mem_singleton]
    constructor
    · rintro rfl
      exact .enter hcall hentry
    · intro h
      cases h with
      | enter hcall' hentry' =>
        have hm' := hp.entered?_iff.2 ⟨_, hcall', hentry'⟩
        rw [hm] at hm'
        cases hm'
        rfl
      | resume hcall' => exact absurd hcall (hcall' q)
  · next hnone =>
    -- every call can be entered, so the statement is none
    have hcall : ∀ q, ¬ p.CallOf q n := by
      intro q hcall
      obtain ⟨m, hentry⟩ := hcall.exists_entry hp
      rw [hp.entered?_iff.2 ⟨q, hcall, hentry⟩] at hnone
      cases hnone
    rw [mem_resume hp.toConsistent]
    constructor
    · exact .resume hcall
    · intro h
      cases h with
      | enter hcall' => exact absurd hcall' (hcall _)
      | resume _ h => exact h

/-- **Nothing is missed by bounding the open calls.** -/
theorem step_eq_advance (hp : p.WellFormed) (hs : p.Nested s.stmt s.stack) :
    p.flow.step s = p.flow.advance s := by
  unfold Flow.step Flow.advance
  cases hm : p.flow.entered? s.stmt with
  | none => rfl
  | some m =>
    -- the statement is a call, and the stack has room for it
    obtain ⟨q, hcall, -⟩ := hp.entered?_iff.1 hm
    obtain ⟨q', hn⟩ := hcall.mem
    exact if_pos (hs.length_lt hp hn)

/-- The bound on the open calls cuts off no step, as calls are nested. -/
theorem mem_step (hp : p.WellFormed) (hs : p.Nested s.stmt s.stack) :
    t ∈ p.flow.step s ↔ p.Walks s t := by
  rw [step_eq_advance hp hs, mem_advance hp]

/-- A step of a walk from a statement that it may pass. -/
def Passes (p : Program) (stop : Nat → Bool) (s t : State) : Prop :=
  stop s.stmt = false ∧ p.Walks s t

/-- The search leads where a walk leads that does not pass where it stops. -/
theorem reflTransGen_leads_iff (hp : p.WellFormed) {stop : Nat → Bool}
    (hs : p.Nested s.stmt s.stack) :
    Relation.ReflTransGen (p.flow.walkSpace stop).Leads s t ↔
      Relation.ReflTransGen (p.Passes stop) s t := by
  -- the two relations agree where the calls are nested, and a walk keeps them so
  have hleads : ∀ {s t : State}, p.Nested s.stmt s.stack →
      ((p.flow.walkSpace stop).Leads s t ↔ p.Passes stop s t) := by
    intro s t hs
    show t ∈ (if stop s.stmt then [] else p.flow.step s) ↔ _
    rw [Passes, ← mem_step hp hs]
    cases stop s.stmt <;> simp
  constructor
  · intro h
    induction h using Relation.ReflTransGen.head_induction_on with
    | refl => exact .refl
    | head hstep _ ih =>
      have hstep := (hleads hs).1 hstep
      exact .head hstep (ih (hs.of_walks hp.toConsistent hstep.2))
  · intro h
    induction h using Relation.ReflTransGen.head_induction_on with
    | refl => exact .refl
    | head hstep _ ih =>
      exact .head ((hleads hs).2 hstep) (ih (hs.of_walks hp.toConsistent hstep.2))

/-- **A search meets the states that the walks of the program meet.** -/
theorem mem_walkStates (hp : p.WellFormed) {stop : Nat → Bool} :
    t ∈ p.flow.walkStates stop n ↔
      ∃ s, p.Walks ⟨n, []⟩ s ∧ Relation.ReflTransGen (p.Passes stop) s t := by
  have hstart : p.Nested n [] := trivial
  refine Search.Space.mem_visits.trans ?_
  constructor
  · rintro ⟨s, hs, h⟩
    have hs := (mem_step hp hstart).1 hs
    exact ⟨s, hs, (reflTransGen_leads_iff hp (hstart.of_walks hp.toConsistent hs)).1 h⟩
  · rintro ⟨s, hs, h⟩
    exact ⟨s, (mem_step hp hstart).2 hs,
      (reflTransGen_leads_iff hp (hstart.of_walks hp.toConsistent hs)).2 h⟩

/-- **Control can come to the statements that a walk of one step or more ends at.** -/
theorem mem_reach (hp : p.WellFormed) :
    m ∈ p.flow.reach n ↔ ∃ stack, Relation.TransGen p.Walks ⟨n, []⟩ ⟨m, stack⟩ := by
  have hpasses : p.Passes (fun _ => false) = p.Walks := by
    funext s t
    exact propext (and_iff_right rfl)
  rw [Flow.reach, Ordered.mem_ofList, Flow.walk, List.mem_map]
  simp only [mem_walkStates hp, hpasses]
  constructor
  · rintro ⟨⟨m, stack⟩, ⟨s, hs, h⟩, rfl⟩
    exact ⟨stack, .head' hs h⟩
  · rintro ⟨stack, h⟩
    exact ⟨⟨m, stack⟩, Relation.TransGen.head'_iff.1 h, rfl⟩

end Program

/-- What some states do not have, and their steps do not lead out of, no walk comes to. -/
theorem Flow.not_mem_reach_of_closed {f : Flow} {n m : Nat} (states : List State)
    (hstart : ∀ s ∈ f.step ⟨n, []⟩, s ∈ states)
    (hclosed : ∀ s ∈ states, ∀ t ∈ f.step s, t ∈ states) (hm : m ∉ states.map State.stmt) :
    m ∉ f.reach n := by
  intro h
  obtain ⟨t, ht, rfl⟩ := List.mem_map.1 (Ordered.mem_ofList.1 h)
  obtain ⟨s, hs, hst⟩ := Search.Space.mem_visits.1 ht
  have hall : ∀ t, Relation.ReflTransGen (f.walkSpace fun _ => false).Leads s t → t ∈ states := by
    intro t hst
    induction hst with
    | refl => exact hstart s hs
    | tail _ hstep ih =>
      simp only [Search.Space.Leads, Flow.walkSpace, Bool.false_eq_true, if_false] at hstep
      exact hclosed _ ih _ hstep
  exact hm (List.mem_map_of_mem (hall t hst))

end ProgramFacts
