import ProgramFacts.Proofs.CallGraph.Order
import ProgramFacts.Proofs.Flow.Steps
import Mathlib.Data.Set.Finite.List
/-!
# Control flow across procedures — nothing goes on for ever

Three recursions go from procedure to procedure, and none of them counts. The statements that a
procedure ends with are looked for in the procedures that it may end by calling (`Flow.EndsBy`).
When a procedure is left, control goes on after a call of it, which may leave the next procedure
(`Flow.Unwinds`). A walk enters every call that it comes to, and keeps the calls that are open
(`Flow.Reaches`).

All three end because no procedure calls itself, directly or through others. The first goes down
the calls and the second goes up, and neither can go round (`wellFounded_endsBy`,
`wellFounded_unwinds`). On a walk the open calls are in procedures of which each calls the next
(`Flow.Stacked`), so there are fewer of them than procedures, and there are finitely many states.
So the bounds in the definitions that look for these things are never met: what is found satisfies
the equations without them (`mem_terminals_iff`, `resume_eq`, `step_eq_advance`).
-/

namespace ProgramFacts

open ProgramFacts.Flow (State)

namespace Flow

variable (f : Flow)

/-- A procedure may end by calling another one. -/
def EndsBy (q callee : String) : Prop :=
  ∃ n ∈ f.exitsFrom q, f.callee[n]? = some callee

/-- Once a statement is done its procedure may be left: control goes on after the last open call,
and if none is open after any call of the procedure. -/
inductive Unwinds : State → State → Prop
  | back {q : String} {n call : Nat} {stack : List Nat} (hleft : f.left? n = some q) :
    Unwinds ⟨n, call :: stack⟩ ⟨call, stack⟩
  | out {q : String} {n call : Nat} (hleft : f.left? n = some q) (hcall : call ∈ f.callers q) :
    Unwinds ⟨n, []⟩ ⟨call, []⟩

/-- A walk from a statement comes to a state. -/
def Reaches (n : Nat) (s : State) : Prop :=
  Relation.TransGen (fun s t => t ∈ f.advance s) ⟨n, []⟩ s

/-- The open calls are in procedures, all different, of which each is called by the call that was
open before it. -/
structure Stacked (s : State) : Prop where
  inside : ∀ n ∈ s.stmt :: s.stack, n ∈ f.procedureOf
  calling : (s.stmt :: s.stack).IsChain fun n call => f.callee[call]? = f.procedureOf[n]?
  distinct : ((s.stmt :: s.stack).map (f.procedureOf[·]?)).Nodup

end Flow

namespace Program

variable {p : Program} {q q' : String} {n m call : Nat} {stack : List Nat} {s t : State}

/-! ## Up and down the calls -/

/-- There is no way down the calls that does not end. -/
theorem wellFounded_callees (hp : p.Consistent) : WellFounded (flip p.Calls) :=
  ⟨calls_induction hp fun a h => ⟨a, h⟩⟩

/-- There is no way up the calls that does not end. -/
theorem wellFounded_callers (hp : p.Consistent) : WellFounded p.Calls := by
  obtain ⟨order, horder⟩ := CallGraph.exists_order_iff.2 (acyclic_ofTree hp)
  obtain ⟨htopological, hall⟩ := CallGraph.topological_of_order horder
  refine Subrelation.wf ?_ (InvImage.wf order.idxOf Nat.lt_wfRel.wf)
  intro a b hab
  have hcalls := calls_ofTree.2 hab
  exact htopological.idxOf_lt (hall a (CallGraph.declares_of_calls hcalls)) hcalls

/-! ## The last statements of a procedure -/

theorem wellFounded_endsBy (hp : p.Consistent) : WellFounded (flip p.flow.EndsBy) := by
  refine Subrelation.wf ?_ (wellFounded_callees hp)
  rintro callee q ⟨n, hexit, hcallee⟩
  exact (hp.callee_iff.1 hcallee).calls hp (mem_exitsFrom.1 hexit).mem

/-- **A procedure ends with its exits**, and where an exit is a call, with what the called
procedure ends with. -/
theorem mem_terminals_iff (hp : p.Consistent) : m ∈ p.flow.terminals q ↔
    ∃ n ∈ p.flow.exitsFrom q, match p.flow.callee[n]? with
      | some callee => m ∈ p.flow.terminals callee
      | none => m = n := by
  have hplain : (∀ callee, ¬ p.CallOf callee m) ↔ p.flow.callee[m]? = none := by
    rw [Option.eq_none_iff_forall_ne_some]
    simp only [ne_eq, hp.callee_iff]
  simp only [mem_terminals hp, hplain]
  constructor
  · rintro ⟨⟨q', hchain, hexit⟩, hm⟩
    -- the chain of trailing calls is empty, or starts with a call that is an exit
    rcases hchain.cases_head with rfl | ⟨callee, ⟨n, hn, hcall⟩, hchain⟩
    · exact ⟨m, mem_exitsFrom.2 hexit, by rw [hm]⟩
    · refine ⟨n, mem_exitsFrom.2 hn, ?_⟩
      rw [hp.callee_iff.2 hcall]
      exact ⟨⟨q', hchain, hexit⟩, hm⟩
  · rintro ⟨n, hn, h⟩
    have hexit := mem_exitsFrom.1 hn
    cases hcallee : p.flow.callee[n]? with
    | none =>
      rw [hcallee] at h
      obtain rfl : m = n := h
      exact ⟨⟨q, .refl, hexit⟩, hcallee⟩
    | some callee =>
      rw [hcallee] at h
      obtain ⟨⟨q', hchain, hexit'⟩, hm⟩ := h
      exact ⟨⟨q', .head ⟨n, hexit, hp.callee_iff.1 hcallee⟩ hchain, hexit'⟩, hm⟩

/-! ## Leaving procedures -/

theorem wellFounded_unwinds (hp : p.Consistent) : WellFounded (flip p.flow.Unwinds) := by
  -- with no call open control goes up the calls
  have hin : ∀ q n, p.In q n → Acc (flip p.flow.Unwinds) ⟨n, []⟩ := by
    intro q
    induction q using (wellFounded_callers hp).induction with
    | h q ih =>
      intro n hn
      refine ⟨_, fun t ht => ?_⟩
      cases ht with
      | @out q' _ call hleft hcall =>
        obtain rfl := hp.in_unique hn (hp.left?_iff.1 hleft).mem
        have hcall := hp.mem_callers.1 hcall
        obtain ⟨caller, hcaller⟩ := hcall.mem
        exact ih caller (hcall.calls hp hcaller) call hcaller
  have hnil : ∀ n, Acc (flip p.flow.Unwinds) ⟨n, []⟩ := by
    intro n
    refine ⟨_, fun t ht => ?_⟩
    cases ht with
    | out hleft hcall => exact (hin _ n (hp.left?_iff.1 hleft).mem).inv (.out hleft hcall)
  refine ⟨fun ⟨n, stack⟩ => ?_⟩
  induction stack generalizing n with
  | nil => exact hnil n
  | cons call stack ih =>
    refine ⟨_, fun t ht => ?_⟩
    cases ht with
    | back => exact ih call

theorem Rising.concat {qs : List String} (h : p.Rising qs)
    (hq : ∀ q' ∈ qs, Relation.TransGen p.Calls q q') : p.Rising (qs ++ [q]) := by
  refine List.pairwise_append.2 ⟨h, List.pairwise_singleton _ _, fun q' hq' q'' hq'' => ?_⟩
  obtain rfl := List.mem_singleton.1 hq''
  exact hq q' hq'

/-- Once enough procedures have been left, one after the other, it makes no difference whether one
more may be left. -/
theorem outward_succ (hp : p.Consistent) {qs : List String} {depth : Nat} (hrising : p.Rising qs)
    (hexits : ∀ q ∈ qs, q ∈ p.flow.exits)
    (hups : ∀ q, p.In q n → ∀ q' ∈ qs, Relation.TransGen p.Calls q q')
    (hdepth : p.flow.exits.size ≤ qs.length + depth) :
    p.flow.outward (depth + 1) n = p.flow.outward depth n := by
  induction depth generalizing n qs with
  | zero =>
    have hleft : p.flow.left? n = none := by
      refine Option.eq_none_iff_forall_ne_some.2 fun q hleft => ?_
      -- there is no exit to leave `q` by, all of them have been used
      have hexit := hp.left?_iff.1 hleft
      have hmore := hrising.concat (hups q hexit.mem)
      have hle := hmore.length_le hp (List.forall_mem_append.2
        ⟨hexits, List.forall_mem_singleton.2 hexit.mem_exits⟩)
      simp only [List.length_append, List.length_singleton] at hle
      omega
    rw [Flow.outward, Flow.outward, hleft]
    exact List.append_nil _
  | succ depth ih =>
    rw [Flow.outward]
    conv => rhs; rw [Flow.outward]
    cases hleft : p.flow.left? n with
    | none => rfl
    | some q =>
      have hexit := hp.left?_iff.1 hleft
      have hq := hups q hexit.mem
      refine congrArg _ (List.flatMap_congr fun call hcall => ?_)
      have hcall := hp.mem_callers.1 hcall
      refine ih (hrising.concat hq) ?_ ?_ ?_
      · exact List.forall_mem_append.2 ⟨hexits, List.forall_mem_singleton.2 hexit.mem_exits⟩
      · intro caller hcaller
        have hup : Relation.TransGen p.Calls caller q := .single (hcall.calls hp hcaller)
        exact List.forall_mem_append.2 ⟨fun q' hq' => hup.trans (hq q' hq'),
          List.forall_mem_singleton.2 hup⟩
      · simp only [List.length_append, List.length_singleton]
        omega

/-- **Once a statement is done**, control goes on within its procedure, and if the procedure is
left, as it does once the call is done. -/
theorem resume_eq (hp : p.Consistent) (n : Nat) (stack : List Nat) : p.flow.resume n stack =
    (p.flow.next n).map (⟨·, stack⟩) ++ match p.flow.left? n, stack with
      | some _, call :: rest => p.flow.resume call rest
      | some q, [] => (p.flow.callers q).flatMap (p.flow.resume · [])
      | none, _ => [] := by
  cases stack with
  | cons call rest =>
    rw [Flow.resume]
    cases p.flow.left? n <;> rfl
  | nil =>
    have hstable : p.flow.outward (p.flow.exits.size + 1) n = p.flow.outward p.flow.exits.size n :=
      outward_succ hp .nil (by simp) (by simp) (by simp)
    rw [Flow.resume, ← hstable, Flow.outward, List.map_append]
    cases p.flow.left? n with
    | none => rfl
    | some q => simp [Flow.resume, List.map_flatMap]

/-! ## Walks -/

theorem In.mem_procedures (h : p.In q n) : q ∈ p.procedures.map Procedure.name := by
  obtain ⟨s, k, hs, -⟩ := h
  exact hs.mem_names

theorem Nested.isChain (hp : p.Consistent) (h : p.Nested n stack) :
    (n :: stack).IsChain fun n call => p.flow.callee[call]? = p.flow.procedureOf[n]? := by
  induction stack generalizing n with
  | nil => exact .singleton n
  | cons call stack ih =>
    obtain ⟨⟨q, hn, hcall⟩, h⟩ := h
    refine .cons_cons ?_ (ih h)
    rw [hp.callee_iff.2 hcall, hp.procedureOf_iff.2 hn]

/-- **The shape of nested calls**, and how many there can be. -/
theorem Nested.stacked (hp : p.Consistent) (h : p.Nested s.stmt s.stack) (hs : p.In q s.stmt) :
    p.flow.Stacked s ∧ s.stack.length < p.procedures.length := by
  obtain ⟨qs, hqs, hrising⟩ := h.exists_rising hp hs
  have hprocedures : (s.stmt :: s.stack).map (p.flow.procedureOf[·]?) = (q :: qs).map some := by
    rw [List.map_cons, List.map_cons, hqs, hp.procedureOf_iff.2 hs]
  have hnodup : (q :: qs).Nodup := hrising.nodup hp
  refine ⟨⟨?_, h.isChain hp, ?_⟩, ?_⟩
  · intro n hn
    have hsome := List.mem_map_of_mem (f := (p.flow.procedureOf[·]?)) hn
    rw [hprocedures] at hsome
    obtain ⟨q', -, hq'⟩ := List.mem_map.1 hsome
    exact Std.ExtTreeMap.mem_iff_isSome_getElem?.2 (by rw [← hq']; rfl)
  · rw [hprocedures]
    exact hnodup.map (Option.some_injective String)
  · have hsubset : q :: qs ⊆ p.procedures.map Procedure.name := by
      intro q' hq'
      have hsome := List.mem_map_of_mem (f := some) hq'
      rw [← hprocedures] at hsome
      obtain ⟨n, -, hn⟩ := List.mem_map.1 hsome
      exact (hp.procedureOf_iff.1 hn).mem_procedures
    have hle := (List.subperm_of_subset hnodup hsubset).length_le
    have hlength := congrArg List.length hprocedures
    simp only [List.length_map, List.length_cons] at hle hlength
    omega

/-- The walks through a program, with nothing to bound the open calls but that they are nested. -/
def nestedSpace (hp : p.WellFormed) : Search.Space State where
  next := p.flow.advance
  Within s := p.Nested s.stmt s.stack ∧ p.flow.Bounded s
  closed s hs t ht := by
    refine ⟨hs.1.of_walks hp.toConsistent ((mem_advance hp).1 ht), ?_⟩
    rw [← step_eq_advance hp hs.1] at ht
    exact Flow.bounded_of_step hs.2.2.1 hs.2.2.2 ht
  finite := by
    obtain ⟨all, hall⟩ := p.flow.exists_bounded_states
    exact ⟨all, fun s hs => hall s hs.2⟩

theorem within_of_advance (hp : p.WellFormed) (h : s ∈ p.flow.advance ⟨n, []⟩) :
    (nestedSpace hp).Within s := by
  have hstart : p.Nested n [] := trivial
  refine ⟨hstart.of_walks hp.toConsistent ((mem_advance hp).1 h), ?_⟩
  rw [← step_eq_advance hp (s := ⟨n, []⟩) hstart] at h
  exact Flow.bounded_of_step (s := ⟨n, []⟩) (by simp) (by simp) h

theorem within_of_reaches (hp : p.WellFormed) (h : p.flow.Reaches n s) :
    (nestedSpace hp).Within s ∧ ∃ q, p.In q s.stmt := by
  induction h with
  | single h => exact ⟨within_of_advance hp h, ((mem_advance hp).1 h).exists_in_target⟩
  | tail _ h ih =>
    exact ⟨(nestedSpace hp).closed _ ih.1 _ h, ((mem_advance hp).1 h).exists_in_target⟩

theorem finite_reaches (hp : p.WellFormed) (n : Nat) : {s | p.flow.Reaches n s}.Finite := by
  obtain ⟨all, hall⟩ := (nestedSpace hp).finite
  exact all.finite_toSet.subset fun s hs => hall s (within_of_reaches hp hs).1

/-- The tour that stops where it is told to is the one that looks for what control comes to. -/
theorem tours_walkStates (hp : p.WellFormed) (stop : Nat → Bool) (n : Nat) :
    Search.Tours p.flow.advance (fun met => !(met.map State.stmt).head?.any stop) []
      (p.flow.advance ⟨n, []⟩) (p.flow.walkStates stop n) := by
  have hstart : p.flow.step ⟨n, []⟩ = p.flow.advance ⟨n, []⟩ := step_eq_advance hp trivial
  have hsearch : Search.Tours (p.flow.walkSpace stop).next (fun _ => true) []
      (p.flow.step ⟨n, []⟩) (p.flow.walkStates stop n) := Search.Space.tours_visitsFrom
  rw [← hstart]
  have hstep : ∀ s, p.Nested s.stmt s.stack → (p.flow.walkSpace stop).next s =
      if stop s.stmt then [] else p.flow.advance s := by
    intro s hs
    rw [← step_eq_advance hp hs]
    rfl
  refine hsearch.congr (P := fun s => p.Nested s.stmt s.stack) ?_ ?_ ?_
  · intro s hs
    rw [hstart] at hs
    exact (within_of_advance hp hs).1
  · intro s hs t ht
    rw [hstep s hs] at ht
    split at ht
    · cases ht
    · exact hs.of_walks hp.toConsistent ((mem_advance hp).1 ht)
  · intro s met hs
    rw [if_pos rfl, hstep s hs]
    cases hstop : stop s.stmt <;> simp [hstop]

/-- **Whatever a visitor says, a walk ends**, and it has then met no state twice. -/
theorem exists_tour (hp : p.WellFormed) (n : Nat) (goesOn : List State → Bool) :
    ∃ met, Search.Tours p.flow.advance goesOn [] (p.flow.advance ⟨n, []⟩) met ∧ met.Nodup ∧
      ∀ s ∈ met, p.flow.Reaches n s := by
  obtain ⟨met, hmet⟩ := (nestedSpace hp).exists_tours goesOn [] (p.flow.advance ⟨n, []⟩)
    fun s hs => within_of_advance hp hs
  refine ⟨met, hmet, hmet.nodup List.nodup_nil, ?_⟩
  exact hmet.forall_mem (by simp) (fun s hs => .single hs) fun s hs t ht => hs.tail ht

/-- **Walks across procedures end.** In every program that was read:

* the statements that a procedure ends with are looked for down the calls, and control that leaves
  a procedure goes up the calls; neither goes on for ever, and what is found is what the recursion
  without a bound finds;
* wherever a walk starts, it only comes to states in which the last open call is a call of the
  procedure that control is in, and every call before it a call of the procedure that the next one
  is in, all these procedures being different. So fewer calls are open than there are procedures,
  and there are finitely many states;
* whatever a visitor says that is told the statements met so far, the walk ends, and has met no
  state twice. The walks that facts are made of are such walks. -/
theorem walk_ends {source : String} (h : parse source = .ok p) :
    (WellFounded (flip p.flow.EndsBy) ∧ ∀ q m, m ∈ p.flow.terminals q ↔
      ∃ n ∈ p.flow.exitsFrom q, match p.flow.callee[n]? with
        | some callee => m ∈ p.flow.terminals callee
        | none => m = n) ∧
    (WellFounded (flip p.flow.Unwinds) ∧ ∀ n stack, p.flow.resume n stack =
      (p.flow.next n).map (⟨·, stack⟩) ++ match p.flow.left? n, stack with
        | some _, call :: rest => p.flow.resume call rest
        | some q, [] => (p.flow.callers q).flatMap (p.flow.resume · [])
        | none, _ => []) ∧
    ∀ n,
      (∀ s, p.flow.Reaches n s → p.flow.Stacked s ∧ s.stack.length < p.procedures.length ∧
        p.flow.step s = p.flow.advance s) ∧
      {s | p.flow.Reaches n s}.Finite ∧
      (∀ visit : List Nat → Bool, ∃ met,
        Search.Tours p.flow.advance (fun met => visit (met.map State.stmt)) []
          (p.flow.advance ⟨n, []⟩) met ∧
        met.Nodup ∧ ∀ s ∈ met, p.flow.Reaches n s) ∧
      ∀ stop : Nat → Bool,
        Search.Tours p.flow.advance (fun met => !(met.map State.stmt).head?.any stop) []
          (p.flow.advance ⟨n, []⟩) (p.flow.walkStates stop n) := by
  have hp := wellFormed_of_parse h
  have hc := hp.toConsistent
  refine ⟨⟨wellFounded_endsBy hc, fun q m => mem_terminals_iff hc⟩,
    ⟨wellFounded_unwinds hc, resume_eq hc⟩, fun n => ⟨fun s hs => ?_, finite_reaches hp n,
      fun visit => exists_tour hp n _, fun stop => tours_walkStates hp stop n⟩⟩
  obtain ⟨⟨hnested, -⟩, q, hq⟩ := within_of_reaches hp hs
  obtain ⟨hstacked, hlength⟩ := hnested.stacked hc hq
  exact ⟨hstacked, hlength, step_eq_advance hp hnested⟩

theorem walk_ends_twoCallers :
    parse (twoCallers.print .minimal) = .ok twoCallers ∧
    twoCallers.flow.Reaches 1 ⟨6, [3, 1]⟩ ∧ twoCallers.flow.Stacked ⟨6, [3, 1]⟩ ∧
    twoCallers.flow.resume 6 [3, 1] = [⟨2, []⟩] ∧
    ∃ met, Search.Tours twoCallers.flow.advance (fun met => met.length < 2) []
      (twoCallers.flow.advance ⟨1, []⟩) met ∧ met.Nodup := by
  have hparse : parse (twoCallers.print .minimal) = .ok twoCallers :=
    parse_of_laid wellFormed_twoCallers (Token.laid_phrase _)
  obtain ⟨-, -, hwalks⟩ := walk_ends hparse
  obtain ⟨hstates, -, hvisit, -⟩ := hwalks 1
  have hreaches : twoCallers.flow.Reaches 1 ⟨6, [3, 1]⟩ :=
    .tail (.single (by decide +kernel : (⟨3, [1]⟩ : State) ∈ twoCallers.flow.advance ⟨1, []⟩))
      (by decide +kernel)
  obtain ⟨met, hmet, hnodup, -⟩ := hvisit fun visited => visited.length < 2
  refine ⟨hparse, hreaches, (hstates _ hreaches).1, by decide +kernel, met, ?_, hnodup⟩
  simpa using hmet

end Program

end ProgramFacts
