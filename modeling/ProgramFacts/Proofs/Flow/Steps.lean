import ProgramFacts.Proofs.Flow.Paths
/-!
# Control flow across procedures — single steps

A single step across procedures is found in two ways. The graph `Flow.linked` looks down from
a call to the statements that the called procedure ends with, through the calls that it may end
with; a step of a walk looks up from an exit to the calls of its procedure, through the calls
that are exits themselves. Both follow the same chain of trailing calls (`Program.EndsAt`),
from its two ends. So they find the same steps (`mem_linked`), and a walk is made of them.
-/

namespace ProgramFacts

namespace Program

open ProgramFacts.Flow (State)

variable {p : Program} {q q' : String} {n m call : Nat} {stack : List Nat} {s t : State}

/-! ## Trailing calls -/

/-- A procedure may end by calling another one. -/
def EndsCalling (p : Program) (q q' : String) : Prop :=
  ∃ n, p.Exit q n ∧ p.CallOf q' n

/-- A procedure ends at the exits of its own, and where the procedures end that it may end by
calling. -/
def EndsAt (p : Program) (q : String) (n : Nat) : Prop :=
  ∃ q', Relation.ReflTransGen p.EndsCalling q q' ∧ p.Exit q' n

/-- The procedures that have exits are listed with them. -/
theorem mem_toList_exits {exits : Std.ExtTreeSet Nat compare} (h : (q, exits) ∈ p.flow.exits.toList) :
    exits = p.flow.exitsFrom q := by
  have hget := Std.ExtTreeMap.mem_toList_iff_getElem?_eq_some.1 h
  rw [Flow.exitsFrom, Std.ExtTreeMap.getD_eq_getD_getElem?, hget, Option.getD_some]

theorem Exit.mem_toList_exits (h : p.Exit q n) : (q, p.flow.exitsFrom q) ∈ p.flow.exits.toList := by
  have hsome := Std.ExtTreeMap.mem_iff_isSome_getElem?.1 h.mem_exits
  obtain ⟨exits, hexits⟩ := Option.isSome_iff_exists.1 hsome
  have hmem := Std.ExtTreeMap.mem_toList_iff_getElem?_eq_some.2 hexits
  rw [← Program.mem_toList_exits hmem]
  exact hmem

theorem mem_tailCalls (hp : p.Consistent) :
    q' ∈ p.flow.tailCalls.next q ↔ p.EndsCalling q q' := by
  rw [Flow.tailCalls, Digraph.mem_next_ofRows]
  constructor
  · rintro ⟨row, hrow, rfl, hq'⟩
    obtain ⟨⟨q, exits⟩, hexits, rfl⟩ := List.mem_map.1 hrow
    obtain ⟨n, hn, hcallee⟩ := List.mem_filterMap.1 hq'
    rw [Program.mem_toList_exits hexits, Std.ExtTreeSet.mem_toList] at hn
    exact ⟨n, mem_exitsFrom.1 hn, hp.callee_iff.1 hcallee⟩
  · intro ⟨n, hexit, hcall⟩
    refine ⟨_, List.mem_map_of_mem hexit.mem_toList_exits, rfl, ?_⟩
    have hn := Std.ExtTreeSet.mem_toList.2 (mem_exitsFrom.2 hexit)
    exact List.mem_filterMap.2 ⟨n, hn, hp.callee_iff.2 hcall⟩

/-- **The statements that a procedure ends with** are the places where it ends, if they are no
calls. -/
theorem mem_terminals (hp : p.Consistent) :
    n ∈ p.flow.terminals q ↔ p.EndsAt q n ∧ ∀ callee, ¬ p.CallOf callee n := by
  have hplain : ∀ q', n ∈ p.flow.plainExits q' ↔
      p.Exit q' n ∧ ∀ callee, ¬ p.CallOf callee n := by
    intro q'
    rw [Flow.plainExits, List.mem_filter, Std.ExtTreeSet.mem_toList, mem_exitsFrom,
      Option.isNone_iff_eq_none, Option.eq_none_iff_forall_ne_some]
    simp only [ne_eq, hp.callee_iff]
  have hchain : ∀ q', q' ∈ q :: (p.flow.tailCalls.reach q).toList ↔
      Relation.ReflTransGen p.EndsCalling q q' := by
    intro q'
    rw [List.mem_cons, Std.ExtTreeSet.mem_toList, Digraph.mem_reach,
      Relation.reflTransGen_iff_eq_or_transGen]
    simp only [mem_tailCalls hp]
  rw [Flow.terminals, Ordered.mem_ofList, List.mem_flatMap]
  simp only [hplain, hchain, EndsAt]
  constructor
  · rintro ⟨q', hq', hexit, hcall⟩
    exact ⟨⟨q', hq', hexit⟩, hcall⟩
  · rintro ⟨⟨q', hq', hexit⟩, hcall⟩
    exact ⟨q', hq', hexit, hcall⟩

/-! ## Leaving without an open call -/

/-- What a procedure ends at leads on after the calls of the procedure. -/
theorem EndsAt.resumes (h : p.EndsAt q n) (hcall : p.CallOf q call) (hnext : p.Next call m) :
    p.Resumes n [] ⟨m, []⟩ := by
  obtain ⟨q', hchain, hexit⟩ := h
  -- the chain goes down from the call; control comes up from its lower end
  induction hchain generalizing n with
  | refl => exact .out hexit hcall (.next hnext)
  | tail _ hlast ih =>
    obtain ⟨last, hlastExit, hlastCall⟩ := hlast
    exact .out hexit hlastCall (ih hlastExit)

theorem Resumes.next_or_endsAt (h : p.Resumes n stack t) (hstack : stack = []) :
    p.Next n t.stmt ∨ ∃ q call, p.CallOf q call ∧ p.EndsAt q n ∧ p.Next call t.stmt := by
  induction h with
  | next hnext => exact .inl hnext
  | back => cases hstack
  | @out q n call t hexit hcall _ ih =>
    rcases ih rfl with hnext | ⟨q₀, call₀, hcall₀, ⟨q', hchain, hexit'⟩, hnext⟩
    · exact .inr ⟨q, call, hcall, ⟨q, .refl, hexit⟩, hnext⟩
    · -- the call that was left is a trailing call, and makes the chain one longer
      have hlonger : Relation.ReflTransGen p.EndsCalling q₀ q := .tail hchain ⟨call, hexit', hcall⟩
      exact .inr ⟨q₀, call₀, hcall₀, ⟨q, hlonger, hexit⟩, hnext⟩

/-- **Both ends of a chain of trailing calls** tell the same: with no call open control goes on
within the procedure, or after a call of a procedure that ends here. -/
theorem resumes_nil_iff : p.Resumes n [] ⟨m, []⟩ ↔
    p.Next n m ∨ ∃ q call, p.CallOf q call ∧ p.EndsAt q n ∧ p.Next call m := by
  constructor
  · intro h
    exact h.next_or_endsAt rfl
  · rintro (hnext | ⟨q, call, hcall, hends, hnext⟩)
    · exact .next hnext
    · exact hends.resumes hcall hnext

/-- A step of a walk that starts without an open call. -/
theorem walks_nil_iff : (∃ stack, p.Walks ⟨n, []⟩ ⟨m, stack⟩) ↔
    (∃ q, p.CallOf q n ∧ p.Entry q m) ∨
      (∀ q, ¬ p.CallOf q n) ∧ p.Resumes n [] ⟨m, []⟩ := by
  constructor
  · rintro ⟨stack, h⟩
    cases h with
    | enter hcall hentry => exact .inl ⟨_, hcall, hentry⟩
    | resume hcall h =>
      obtain rfl : stack = [] := h.stack_eq_nil rfl
      exact .inr ⟨hcall, h⟩
  · rintro (⟨q, hcall, hentry⟩ | ⟨hcall, h⟩)
    · exact ⟨[n], .enter hcall hentry⟩
    · exact ⟨[], .resume hcall h⟩

/-! ## The graph of single steps -/

/-- What a call is the cause of: the way into the procedure, and the ways back from where the
procedure ends. -/
theorem mem_links_call (hp : p.Consistent) (hcall : p.CallOf q call) :
    (∃ row ∈ p.flow.links call, row.1 = n ∧ m ∈ row.2) ↔
      (call = n ∧ p.Entry q m) ∨
        ((p.EndsAt q n ∧ ∀ callee, ¬ p.CallOf callee n) ∧ p.Next call m) := by
  rw [Flow.links, hp.callee_iff.2 hcall]
  simp only [List.exists_mem_cons_iff, Option.mem_toList, hp.first_iff]
  refine or_congr_right ?_
  constructor
  · rintro ⟨row, hrow, rfl, hm⟩
    obtain ⟨n, hn, rfl⟩ := List.mem_map.1 hrow
    exact ⟨(mem_terminals hp).1 (Std.ExtTreeSet.mem_toList.1 hn), mem_next.1 hm⟩
  · intro ⟨hends, hnext⟩
    have hn := Std.ExtTreeSet.mem_toList.2 ((mem_terminals hp).2 hends)
    exact ⟨_, List.mem_map_of_mem hn, rfl, mem_next.2 hnext⟩

theorem mem_links_of_not_call (hp : p.Consistent) (hcall : ∀ q, ¬ p.CallOf q call) :
    (∃ row ∈ p.flow.links call, row.1 = n ∧ m ∈ row.2) ↔ call = n ∧ p.Next call m := by
  have hnone : p.flow.callee[call]? = none := by
    rw [Option.eq_none_iff_forall_ne_some]
    exact fun q h => hcall q (hp.callee_iff.1 h)
  rw [Flow.links, hnone]
  simp [mem_next]

/-- **The graph of single steps has the steps of walks without an open call.** -/
theorem mem_linked (hp : p.Consistent) :
    m ∈ p.flow.linked.next n ↔ ∃ stack, p.Walks ⟨n, []⟩ ⟨m, stack⟩ := by
  have hrows : m ∈ p.flow.linked.next n ↔
      ∃ call, (∃ q, p.In q call) ∧ ∃ row ∈ p.flow.links call, row.1 = n ∧ m ∈ row.2 := by
    rw [Flow.linked, Digraph.mem_next_ofRows]
    simp only [List.mem_flatMap, mem_statements]
    constructor
    · intro ⟨row, ⟨call, hin, hrow⟩, hstep⟩
      exact ⟨call, hin, row, hrow, hstep⟩
    · intro ⟨call, hin, row, hrow, hstep⟩
      exact ⟨row, ⟨call, hin, hrow⟩, hstep⟩
  rw [hrows, walks_nil_iff, resumes_nil_iff]
  constructor
  · intro h
    obtain ⟨cause, -, hstep⟩ := h
    by_cases hcause : ∃ q, p.CallOf q cause
    · obtain ⟨q, hcall⟩ := hcause
      rcases (mem_links_call hp hcall).1 hstep with ⟨rfl, hentry⟩ | ⟨⟨hends, hplain⟩, hnext⟩
      · exact .inl ⟨q, hcall, hentry⟩
      · exact .inr ⟨hplain, .inr ⟨q, cause, hcall, hends, hnext⟩⟩
    · have hplain := not_exists.1 hcause
      obtain ⟨rfl, hnext⟩ := (mem_links_of_not_call hp hplain).1 hstep
      exact .inr ⟨hplain, .inl hnext⟩
  · rintro (⟨q, hcall, hentry⟩ | ⟨hplain, hnext | ⟨q, call, hcall, hends, hnext⟩⟩)
    · exact ⟨n, hcall.mem, (mem_links_call hp hcall).2 (.inl ⟨rfl, hentry⟩)⟩
    · obtain ⟨q, hin, -⟩ := hnext.exists_in
      exact ⟨n, ⟨q, hin⟩, (mem_links_of_not_call hp hplain).2 ⟨rfl, hnext⟩⟩
    · exact ⟨call, hcall.mem, (mem_links_call hp hcall).2 (.inr ⟨⟨hends, hplain⟩, hnext⟩)⟩

/-! ## Walks are made of single steps -/

/-- To go back to the last open call is to go back to some call of the procedure. -/
theorem Resumes.forget (hp : p.Consistent) (h : p.Resumes n stack t) (hn : p.Nested n stack) :
    p.Resumes n [] ⟨t.stmt, []⟩ := by
  induction h with
  | next hnext => exact .next hnext
  | back hexit _ ih =>
    obtain ⟨⟨q', hin, hcall⟩, hnested⟩ := hn
    obtain rfl := hp.in_unique hin hexit.mem
    exact .out hexit hcall (ih hnested)
  | out hexit hcall _ ih => exact .out hexit hcall (ih trivial)

/-- Every step of a walk is a single step across procedures. -/
theorem Walks.mem_linked (hp : p.Consistent) (h : p.Walks s t) (hs : p.Nested s.stmt s.stack) :
    t.stmt ∈ p.flow.linked.next s.stmt := by
  rw [Program.mem_linked hp, walks_nil_iff]
  cases h with
  | enter hcall hentry => exact .inl ⟨_, hcall, hentry⟩
  | resume hcall h => exact .inr ⟨hcall, h.forget hp hs⟩

/-- What a walk comes to, single steps come to. -/
theorem transGen_linked_of_walk (hp : p.Consistent) (h : Relation.TransGen p.Walks s t)
    (hs : p.Nested s.stmt s.stack) :
    Relation.TransGen (fun a b => b ∈ p.flow.linked.next a) s.stmt t.stmt := by
  induction h using Relation.TransGen.head_induction_on with
  | single hstep => exact .single (hstep.mem_linked hp hs)
  | head hstep _ ih => exact .head (hstep.mem_linked hp hs) (ih (hs.of_walks hp hstep))

/-- **Single steps across procedures agree, seen from the call or from the exit.** The facts of
a program that was read can be found. They say that one statement is next to another across
procedures exactly if the graph says so that looks down from calls through trailing calls, and
that is exactly if a walk gets there in one step from a state without open calls. So what is
next across procedures can be come to, and what can be come to is come to by such steps. -/
theorem nextBip_iff_step {source : String} (h : parse source = .ok p) :
    ∃ kb, FactBase.ofTree p.toTree = .ok kb ∧ ∀ a b,
      (kb.holds .nextBip (.stmt a) (.stmt b) ↔ b ∈ (Flow.ofTree p.toTree).linked.next a) ∧
      (b ∈ (Flow.ofTree p.toTree).linked.next a ↔
        ∃ stack, ⟨b, stack⟩ ∈ (Flow.ofTree p.toTree).step ⟨a, []⟩) ∧
      (kb.holds .nextBip (.stmt a) (.stmt b) → kb.holds .nextBipStar (.stmt a) (.stmt b)) ∧
      (kb.holds .nextBipStar (.stmt a) (.stmt b) →
        Relation.TransGen (fun x y => kb.holds .nextBip (.stmt x) (.stmt y)) a b) := by
  have hp := wellFormed_of_parse h
  obtain ⟨order, hkb⟩ := exists_factBase hp.toConsistent
  refine ⟨_, hkb, fun a b => ⟨FactBase.holds_nextBip, ?_, ?_, ?_⟩⟩
  · refine (mem_linked hp.toConsistent).trans (exists_congr fun stack => ?_)
    exact (mem_step (s := ⟨a, []⟩) hp trivial).symm
  · intro hnext
    obtain ⟨stack, hstep⟩ := (mem_linked hp.toConsistent).1 (FactBase.holds_nextBip.1 hnext)
    have hreach : b ∈ p.flow.reach a := (mem_reach hp).2 ⟨stack, .single hstep⟩
    exact FactBase.holds_nextBipStar.2 ⟨mem_statements_of_reach hp hreach, hreach⟩
  · intro hstar
    obtain ⟨stack, hwalk⟩ := (mem_reach hp).1 (FactBase.holds_nextBipStar.1 hstar).2
    simp only [FactBase.holds_nextBip]
    exact transGen_linked_of_walk hp.toConsistent hwalk trivial

/-- Out of two procedures at once, the outer of them left by its trailing call; and not on from
the trailing call itself. -/
theorem nextBip_twoCallers :
    parse (twoCallers.print .minimal) = .ok twoCallers ∧
    ∃ kb, FactBase.ofTree twoCallers.toTree = .ok kb ∧
      kb.holds .nextBip (.stmt 6) (.stmt 2) ∧ kb.holds .nextBipStar (.stmt 6) (.stmt 2) ∧
      ¬ kb.holds .nextBip (.stmt 3) (.stmt 2) := by
  have hparse : parse (twoCallers.print .minimal) = .ok twoCallers :=
    parse_of_laid wellFormed_twoCallers (Token.laid_phrase _)
  obtain ⟨kb, hkb, hsteps⟩ := nextBip_iff_step hparse
  have hout : kb.holds .nextBip (.stmt 6) (.stmt 2) := by
    obtain ⟨hholds, hstep, -⟩ := hsteps 6 2
    exact hholds.2 (hstep.2 ⟨[], by decide +kernel⟩)
  refine ⟨hparse, kb, hkb, hout, (hsteps 6 2).2.2.1 hout, fun hnext => ?_⟩
  have hsingle : (Flow.ofTree twoCallers.toTree).step ⟨3, []⟩ = [⟨6, [3]⟩] := by decide +kernel
  obtain ⟨hholds, hstep, -⟩ := hsteps 3 2
  obtain ⟨stack, hmem⟩ := hstep.1 (hholds.1 hnext)
  rw [hsingle] at hmem
  simp at hmem

end Program

end ProgramFacts
