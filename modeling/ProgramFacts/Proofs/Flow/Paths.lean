import ProgramFacts.Proofs.Flow.Completion
/-!
# Control flow across procedures — matched paths

A path across procedures is a list of moves: on within a procedure, into a called procedure,
or out of one or more procedures at once. It is matched if every return goes back to the call
that was entered last and not returned from, as far as there is one (`Flow.Matched`). These
paths are told by the program alone, without a stack of open calls, and they are what the
walks of the program take: control can come from one statement to another exactly if a matched
path leads there (`nextBipStar_iff_matched_path`).
-/

namespace ProgramFacts

/-! ## Entries and returns -/

namespace Flow

/-- Control crosses from one procedure to another: it enters by a call, or goes back to one. -/
inductive Crossing
  | enter (call : Nat)
  | back (call : Nat)

namespace Crossing

/-- What a crossing does to the calls that were entered and not returned from. -/
def apply (calls : List Nat) : Crossing → List Nat
  | .enter call => call :: calls
  | .back _ => calls.tail

end Crossing

/-- The calls that were entered and not returned from, the last first. -/
def unreturned (crossings : List Crossing) : List Nat :=
  crossings.foldl Crossing.apply []

/-- **Every return goes back to the last call that was entered and not returned from.** Where
there is no such call it may go back to any. -/
def Matched (crossings : List Crossing) : Prop :=
  ∀ before call after, crossings = before ++ .back call :: after →
    ∀ entered ∈ (unreturned before).head?, call = entered

variable {xs ys : List Crossing} {x : Crossing} {call : Nat}

/-- The last crossing opens a call, or closes the one that was opened last. -/
theorem unreturned_concat : unreturned (xs ++ [x]) = x.apply (unreturned xs) := by
  rw [unreturned, List.foldl_append]
  rfl

theorem matched_nil : Matched [] := by
  intro before call after h
  cases before <;> cases h

/-- The beginning of what is matched is matched. -/
theorem Matched.of_append (h : Matched (xs ++ ys)) : Matched xs := by
  rintro before call after rfl
  exact h before call (after ++ ys) (by simp)

/-- To be matched is to be matched up to the last crossing, and there. -/
theorem matched_concat : Matched (xs ++ [x]) ↔
    Matched xs ∧ ∀ call, x = .back call → ∀ entered ∈ (unreturned xs).head?, call = entered := by
  constructor
  · intro h
    refine ⟨h.of_append, ?_⟩
    rintro call rfl
    exact h xs call [] rfl
  · rintro ⟨hxs, hx⟩ before call after heq
    -- the return is the last crossing, or one of those before
    rcases List.eq_nil_or_concat after with rfl | ⟨after, y, rfl⟩
    · obtain ⟨rfl, hlast⟩ := List.append_inj' heq rfl
      exact hx call (List.singleton_inj.1 hlast)
    · rw [List.concat_eq_append, ← List.cons_append, ← List.append_assoc] at heq
      exact hxs before call after (List.append_inj' heq rfl).1

/-- A call can be entered anywhere. -/
theorem Matched.enter (h : Matched xs) : Matched (xs ++ [.enter call]) := by
  refine matched_concat.2 ⟨h, fun call' h' => ?_⟩
  cases h'

/-- Control goes back to the call that was entered last, and to any if none is open. -/
theorem Matched.back (h : Matched xs) (hcall : ∀ entered ∈ (unreturned xs).head?, call = entered) :
    Matched (xs ++ [.back call]) := by
  refine matched_concat.2 ⟨h, ?_⟩
  rintro _ ⟨⟩
  exact hcall

/-! ## Moves -/

/-- A move of control from a statement to another. -/
inductive Move
  | next (n m : Nat)
  | enter (call m : Nat)
  /-- Out of the procedures that are called by `calls`, the innermost first. -/
  | leave (n : Nat) (calls : List Nat) (m : Nat)

namespace Move

/-- The statement that a move starts at. -/
def source : Move → Nat
  | .next n _ | .enter n _ | .leave n _ _ => n

/-- The statement that a move leads to. -/
def target : Move → Nat
  | .next _ m | .enter _ m | .leave _ _ m => m

def crossings : Move → List Crossing
  | .next .. => []
  | .enter call _ => [.enter call]
  | .leave _ calls _ => calls.map .back

end Move

/-- The statements that a path passes, its ends left out. -/
def between (moves : List Move) : List Nat :=
  moves.tail.map Move.source

/-- The crossings of a path, in order. -/
def crossings (moves : List Move) : List Crossing :=
  moves.flatMap Move.crossings

/-- The crossings of a path come one move after the other. -/
theorem crossings_concat {moves : List Move} {x : Move} :
    crossings (moves ++ [x]) = crossings moves ++ x.crossings := by
  simp [crossings]

/-- With one more move, the statement that it starts from is between. -/
theorem between_concat {moves : List Move} {x : Move} (h : moves ≠ []) :
    between (moves ++ [x]) = between moves ++ [x.source] := by
  rw [between, List.tail_append_of_ne_nil h, List.map_append]
  rfl

end Flow

open ProgramFacts.Flow

namespace Program

/-- Control leaves the procedure of `n`, one of its exits, to go on after a call of it. If the
call is itself an exit of its procedure, control may leave that procedure too. -/
inductive Leaves (p : Program) : Nat → List Nat → Nat → Prop
  | back {q : String} {n call m : Nat} (hexit : p.Exit q n) (hcall : p.CallOf q call)
    (h : p.Next call m) : Leaves p n [call] m
  | outward {q : String} {n call m : Nat} {calls : List Nat} (hexit : p.Exit q n)
    (hcall : p.CallOf q call) (h : Leaves p call calls m) : Leaves p n (call :: calls) m

/-- **The moves that a program allows.** A statement that is no call leads on, a call leads into
the procedure it names, and an exit leads out of its procedure. -/
def Allows (p : Program) : Move → Prop
  | .next n m => (∀ q, ¬ p.CallOf q n) ∧ p.Next n m
  | .enter call m => ∃ q, p.CallOf q call ∧ p.Entry q m
  | .leave n calls m => p.Leaves n calls m

/-- **Paths of one move or more.** -/
inductive Path (p : Program) : Nat → List Move → Nat → Prop
  | single {x : Move} (h : p.Allows x) : Path p x.source [x] x.target
  | concat {n : Nat} {moves : List Move} {x : Move} (h : Path p n moves x.source)
    (hx : p.Allows x) : Path p n (moves ++ [x]) x.target

variable {p : Program} {q : String} {n m call : Nat} {calls stack : List Nat} {s t : State}
  {xs : List Crossing} {x : Move} {moves : List Move}

/-! ## A matched path is a walk -/

/-- Control goes back to a call that the path so far lets it go back to. -/
theorem resumes_back (hexit : p.Exit q n) (hcall : p.CallOf q call)
    (hxs : Matched (xs ++ [.back call]))
    (h : p.Resumes call (unreturned (xs ++ [.back call])) t) :
    p.Resumes n (unreturned xs) t := by
  have hentered := (matched_concat.1 hxs).2 call rfl
  rw [unreturned_concat] at h
  cases hstack : unreturned xs with
  | nil =>
    rw [hstack] at h
    exact .out hexit hcall h
  | cons entered stack =>
    rw [hstack] at h hentered
    obtain rfl := hentered entered rfl
    exact .back hexit h

/-- **To leave procedures one after the other is to resume** behind the call that control gets
back to. -/
theorem Leaves.resumes (h : p.Leaves n calls m) (hxs : Matched (xs ++ calls.map .back)) :
    p.Resumes n (unreturned xs) ⟨m, unreturned (xs ++ calls.map .back)⟩ := by
  induction h generalizing xs with
  | back hexit hcall h => exact resumes_back hexit hcall hxs (.next h)
  | outward hexit hcall h ih =>
    rw [List.map_cons, List.append_cons] at hxs ⊢
    exact resumes_back hexit hcall hxs.of_append (ih hxs)

/-- A move that does not leave a procedure at a call: calls are entered. -/
def EntersCalls (p : Program) : Move → Prop
  | .leave n _ _ => ∀ q, ¬ p.CallOf q n
  | _ => True

/-- An allowed move that enters its call is one step of a walk. -/
theorem walks_of_allows (h : p.Allows x) (hx : p.EntersCalls x)
    (hxs : Matched (xs ++ x.crossings)) :
    p.Walks ⟨x.source, unreturned xs⟩ ⟨x.target, unreturned (xs ++ x.crossings)⟩ := by
  cases x with
  | next n m =>
    obtain ⟨hcall, hnext⟩ := h
    rw [Move.crossings, List.append_nil]
    exact .resume hcall (.next hnext)
  | enter call m =>
    obtain ⟨q, hcall, hentry⟩ := h
    rw [Move.crossings, unreturned_concat]
    exact .enter hcall hentry
  | leave n calls m => exact .resume hx (Leaves.resumes h hxs)

/-- An allowed move can be walked. If control leaves a procedure at a call, the walk takes the
way through the procedure that is called. -/
theorem transGen_of_allows (hp : p.WellFormed) (h : p.Allows x)
    (hxs : Matched (xs ++ x.crossings)) :
    Relation.TransGen p.Walks ⟨x.source, unreturned xs⟩
      ⟨x.target, unreturned (xs ++ x.crossings)⟩ := by
  by_cases hx : p.EntersCalls x
  · exact .single (walks_of_allows h hx hxs)
  · cases x with
    | next | enter => exact absurd trivial hx
    | leave n calls m =>
      -- a walk never leaves at a call, but it can go through the procedure that is called
      obtain ⟨q, hcall⟩ := not_forall_not.1 hx
      exact transGen_of_call hp hcall (Leaves.resumes h hxs)

/-- **A matched path can be walked**, with the calls open that it has not come back from. -/
theorem transGen_of_path (hp : p.WellFormed) (h : p.Path n moves m)
    (hmoves : Matched (crossings moves)) :
    Relation.TransGen p.Walks ⟨n, []⟩ ⟨m, unreturned (crossings moves)⟩ := by
  induction h with
  | @single x h =>
    have hx : crossings [x] = [] ++ x.crossings := by simp [crossings]
    rw [hx] at hmoves ⊢
    exact transGen_of_allows hp h hmoves
  | concat h hx ih =>
    rw [crossings_concat] at hmoves ⊢
    exact (ih hmoves.of_append).trans (transGen_of_allows hp hx hmoves)

theorem Path.ne_nil (h : p.Path n moves m) : moves ≠ [] := by
  cases h <;> simp

/-- A matched path that enters its calls is walked move by move. -/
theorem exists_walk_of_path {stop : Nat → Bool} (h : p.Path n moves m)
    (henters : ∀ x ∈ moves, p.EntersCalls x) (hmoves : Matched (crossings moves))
    (hbetween : ∀ i ∈ between moves, stop i = false) :
    ∃ s, p.Walks ⟨n, []⟩ s ∧
      Relation.ReflTransGen (p.Passes stop) s ⟨m, unreturned (crossings moves)⟩ := by
  induction h with
  | @single x h =>
    have hx : crossings [x] = [] ++ x.crossings := by simp [crossings]
    rw [hx] at hmoves ⊢
    exact ⟨_, walks_of_allows h (henters x List.mem_cons_self) hmoves, .refl⟩
  | concat h hx ih =>
    rw [crossings_concat] at hmoves ⊢
    rw [between_concat h.ne_nil, List.forall_mem_append, List.forall_mem_singleton] at hbetween
    rw [List.forall_mem_append, List.forall_mem_singleton] at henters
    obtain ⟨s, hs, hwalk⟩ := ih henters.1 hmoves.of_append hbetween.1
    exact ⟨s, hs, .tail hwalk ⟨hbetween.2, walks_of_allows hx henters.2 hmoves⟩⟩

/-! ## A walk is a matched path -/

/-- Control comes from `n` to a state by leaving procedures, and a path with the crossings `xs`
stays matched. -/
def Returns (p : Program) (xs : List Crossing) (n : Nat) (t : State) : Prop :=
  ∃ calls, p.Leaves n calls t.stmt ∧ Matched (xs ++ calls.map .back) ∧
    unreturned (xs ++ calls.map .back) = t.stack

/-- One return, and what follows it. -/
theorem returns_back (hexit : p.Exit q n) (hcall : p.CallOf q call)
    (hxs : Matched (xs ++ [.back call]))
    (h : (p.Next call t.stmt ∧ t.stack = unreturned (xs ++ [.back call])) ∨
      p.Returns (xs ++ [.back call]) call t) : p.Returns xs n t := by
  rcases h with ⟨hnext, hstack⟩ | ⟨calls, hleaves, hcalls, hstack⟩
  · exact ⟨[call], .back hexit hcall hnext, hxs, hstack.symm⟩
  · rw [← List.append_cons, ← List.map_cons] at hcalls hstack
    exact ⟨call :: calls, .outward hexit hcall hleaves, hcalls, hstack⟩

/-- Control goes on within its procedure, or leaves it so that the path stays matched. -/
theorem Resumes.next_or_returns (hp : p.Consistent) (h : p.Resumes n stack t)
    (hn : p.Nested n stack) (hxs : Matched xs) (hstack : unreturned xs = stack) :
    (p.Next n t.stmt ∧ t.stack = stack) ∨ p.Returns xs n t := by
  induction h generalizing xs with
  | next h => exact .inl ⟨h, rfl⟩
  | @back q n call stack t hexit h ih =>
    -- the last open call is a call of the procedure that is left
    obtain ⟨⟨q', hn, hcall⟩, hnested⟩ := hn
    obtain rfl := hp.in_unique hn hexit.mem
    have hxs' : Matched (xs ++ [.back call]) := by
      refine hxs.back fun entered hentered => ?_
      rw [hstack] at hentered
      exact Option.some.inj hentered
    have hstack' : unreturned (xs ++ [.back call]) = stack := by
      rw [unreturned_concat, hstack]
      rfl
    exact .inr (returns_back hexit hcall hxs' (hstack' ▸ ih hnested hxs' hstack'))
  | @out q n call t hexit hcall h ih =>
    have hxs' : Matched (xs ++ [.back call]) := by
      refine hxs.back fun entered hentered => ?_
      rw [hstack] at hentered
      cases hentered
    have hstack' : unreturned (xs ++ [.back call]) = [] := by
      rw [unreturned_concat, hstack]
      rfl
    exact .inr (returns_back hexit hcall hxs' (hstack' ▸ ih trivial hxs' hstack'))

/-- A step of a walk is a move that keeps the path matched. -/
theorem Walks.exists_move (hp : p.Consistent) (h : p.Walks s t) (hs : p.Nested s.stmt s.stack)
    (hxs : Matched xs) (hstack : unreturned xs = s.stack) :
    ∃ x, x.source = s.stmt ∧ x.target = t.stmt ∧ p.Allows x ∧ p.EntersCalls x ∧
      Matched (xs ++ x.crossings) ∧ unreturned (xs ++ x.crossings) = t.stack := by
  cases h with
  | @enter q n m stack hcall hentry =>
    refine ⟨.enter n m, rfl, rfl, ⟨q, hcall, hentry⟩, trivial, hxs.enter, ?_⟩
    rw [Move.crossings, unreturned_concat, hstack]
    rfl
  | @resume n stack _ hcall h =>
    rcases h.next_or_returns hp hs hxs hstack with ⟨hnext, hstack'⟩ | ⟨calls, hleaves, hcalls, hstack'⟩
    · refine ⟨.next n t.stmt, rfl, rfl, ⟨hcall, hnext⟩, trivial, ?_⟩
      rw [Move.crossings, List.append_nil]
      exact ⟨hxs, hstack.trans hstack'.symm⟩
    · exact ⟨.leave n calls t.stmt, rfl, rfl, hleaves, hcall, hcalls, hstack'⟩

/-- A walk that stops at some statements is a path that does not pass them. -/
theorem exists_path_of_walk (hp : p.Consistent) {stop : Nat → Bool} (hs : p.Walks ⟨n, []⟩ s)
    (h : Relation.ReflTransGen (p.Passes stop) s t) :
    p.Nested t.stmt t.stack ∧ ∃ moves, p.Path n moves t.stmt ∧ (∀ x ∈ moves, p.EntersCalls x) ∧
      (∀ i ∈ between moves, stop i = false) ∧
      Matched (crossings moves) ∧ unreturned (crossings moves) = t.stack := by
  have hstart : p.Nested n [] := trivial
  induction h with
  | refl =>
    obtain ⟨x, hsource, htarget, hallows, henters, hmatched, hstack⟩ :=
      hs.exists_move hp hstart matched_nil rfl
    refine ⟨hstart.of_walks hp hs, [x], ?_, List.forall_mem_singleton.2 henters, by simp [between],
      ?_⟩
    · obtain rfl : x.source = n := hsource
      rw [← htarget]
      exact .single hallows
    · simpa [crossings] using ⟨hmatched, hstack⟩
  | tail _ hstep ih =>
    obtain ⟨hpasses, hstep⟩ := hstep
    obtain ⟨hnested, moves, hpath, hall, hbetween, hmoves, hunreturned⟩ := ih
    obtain ⟨x, hsource, htarget, hallows, henters, hmatched, hstack⟩ :=
      hstep.exists_move hp hnested hmoves hunreturned
    refine ⟨hnested.of_walks hp hstep, moves ++ [x], ?_, ?_, ?_, ?_⟩
    · rw [← htarget]
      exact .concat (hsource ▸ hpath) hallows
    · exact List.forall_mem_append.2 ⟨hall, List.forall_mem_singleton.2 henters⟩
    · rw [between_concat hpath.ne_nil]
      exact List.forall_mem_append.2 ⟨hbetween, List.forall_mem_singleton.2 (hsource ▸ hpasses)⟩
    · rw [crossings_concat]
      exact ⟨hmatched, hstack⟩

/-- **A walk meets what matched paths lead to** that enter every call and do not pass where the
walk stops. -/
theorem mem_walk (hp : p.WellFormed) {stop : Nat → Bool} :
    m ∈ p.flow.walk stop n ↔ ∃ moves, p.Path n moves m ∧ (∀ x ∈ moves, p.EntersCalls x) ∧
      Matched (crossings moves) ∧ ∀ i ∈ between moves, stop i = false := by
  rw [walk, List.mem_map]
  simp only [mem_walkStates hp]
  constructor
  · rintro ⟨t, ⟨s, hs, h⟩, rfl⟩
    obtain ⟨-, moves, hpath, henters, hbetween, hmatched, -⟩ :=
      exists_path_of_walk hp.toConsistent hs h
    exact ⟨moves, hpath, henters, hmatched, hbetween⟩
  · rintro ⟨moves, hpath, henters, hmatched, hbetween⟩
    exact ⟨_, exists_walk_of_path hpath henters hmatched hbetween, rfl⟩

theorem Walks.exists_in (h : p.Walks s t) : ∃ q, p.In q s.stmt := by
  cases h with
  | enter hcall => exact hcall.mem
  | resume _ h =>
    cases h with
    | next h =>
      obtain ⟨q, hn, -⟩ := h.exists_in
      exact ⟨q, hn⟩
    | back hexit => exact ⟨_, hexit.mem⟩
    | out hexit => exact ⟨_, hexit.mem⟩

theorem Resumes.exists_in (h : p.Resumes n stack t) : ∃ q, p.In q t.stmt := by
  induction h with
  | next h =>
    obtain ⟨q, -, hm⟩ := h.exists_in
    exact ⟨q, hm⟩
  | back _ _ ih => exact ih
  | out _ _ _ ih => exact ih

theorem Walks.exists_in_target (h : p.Walks s t) : ∃ q, p.In q t.stmt := by
  cases h with
  | enter _ hentry => exact ⟨_, hentry.mem⟩
  | resume _ h => exact h.exists_in

/-! ## Reaching -/

/-- **Control comes to what a matched path leads to**, whether the path enters every call or may
leave a procedure at a call that is an exit of it. -/
theorem mem_reach_iff_path (hp : p.WellFormed) :
    (m ∈ p.flow.reach n ↔ ∃ moves, p.Path n moves m ∧ Matched (crossings moves)) ∧
      (m ∈ p.flow.reach n ↔ ∃ moves, p.Path n moves m ∧ (∀ x ∈ moves, p.EntersCalls x) ∧
        Matched (crossings moves)) := by
  have henters : m ∈ p.flow.reach n ↔ ∃ moves, p.Path n moves m ∧
      (∀ x ∈ moves, p.EntersCalls x) ∧ Matched (crossings moves) := by
    rw [reach, Ordered.mem_ofList, mem_walk hp]
    simp
  refine ⟨⟨fun h => ?_, ?_⟩, henters⟩
  · obtain ⟨moves, hpath, -, hmatched⟩ := henters.1 h
    exact ⟨moves, hpath, hmatched⟩
  · rintro ⟨moves, hpath, hmatched⟩
    exact (mem_reach hp).2 ⟨_, transGen_of_path hp hpath hmatched⟩

/-- Only statements reach anything. -/
theorem mem_statements_of_reach (hp : p.WellFormed) (h : m ∈ p.flow.reach n) :
    n ∈ p.flow.statements := by
  obtain ⟨stack, h⟩ := (mem_reach hp).1 h
  obtain ⟨t, h, -⟩ := Relation.TransGen.head'_iff.1 h
  exact mem_statements.2 h.exists_in

/-- **What control can come to across procedures is what matched paths lead to.** The facts of a
program that was read can be found. They say that control can come from one statement to
another exactly if the walk with open calls gets there, and that is exactly if there is a
matched path of one move or more: on from a statement that is no call, from a call into the
procedure, or from an exit out of its procedure. It makes no difference whether a procedure
may also be left at a call that is an exit of it, or whether every call is entered. -/
theorem nextBipStar_iff_matched_path {source : String} (h : parse source = .ok p) :
    ∃ kb, FactBase.ofTree p.toTree = .ok kb ∧ ∀ a b,
      (kb.holds .nextBipStar (.stmt a) (.stmt b) ↔ b ∈ (Flow.ofTree p.toTree).reach a) ∧
      (b ∈ (Flow.ofTree p.toTree).reach a ↔
        ∃ moves, p.Path a moves b ∧ Matched (crossings moves)) ∧
      (b ∈ (Flow.ofTree p.toTree).reach a ↔
        ∃ moves, p.Path a moves b ∧ (∀ x ∈ moves, p.EntersCalls x) ∧
          Matched (crossings moves)) := by
  have hp := wellFormed_of_parse h
  obtain ⟨order, hkb⟩ := exists_factBase hp.toConsistent
  refine ⟨_, hkb, fun a b => ⟨?_, mem_reach_iff_path hp⟩⟩
  rw [FactBase.holds_nextBipStar]
  exact and_iff_right_of_imp (mem_statements_of_reach hp)

/-- A procedure that two others call, one of them as the last thing that it does. -/
def twoCallers : Program :=
  ⟨[⟨"first", [.call 1 "middle", .assign 2 "x" (.const "1")]⟩,
    ⟨"middle", [.call 3 "shared"]⟩,
    ⟨"second", [.call 4 "shared", .assign 5 "y" (.const "1")]⟩,
    ⟨"shared", [.assign 6 "z" (.const "1")]⟩]⟩

theorem wellFormed_twoCallers : twoCallers.WellFormed where
  toConsistent := consistent_of_rank
    (fun a => if a = "shared" then 2 else if a = "middle" then 1 else 0)
    (by simp [twoCallers]) (by decide) (by decide) (by decide)
  printable := by decide

/-- Into both procedures and back through both. -/
theorem path_twoCallers :
    twoCallers.Path 1 [.enter 1 3, .enter 3 6, .leave 6 [3, 1] 2] 2 ∧
      Matched (crossings [.enter 1 3, .enter 3 6, .leave 6 [3, 1] 2]) := by
  have hp := wellFormed_twoCallers.toConsistent
  have hmiddle : twoCallers.CallOf "middle" 1 := hp.callee_iff.1 (by decide +kernel)
  have hshared : twoCallers.CallOf "shared" 3 := hp.callee_iff.1 (by decide +kernel)
  have hleaves : twoCallers.Leaves 6 [3, 1] 2 :=
    .outward (mem_exitsFrom.1 (by decide +kernel)) hshared
      (.back (mem_exitsFrom.1 (by decide +kernel)) hmiddle (mem_next.1 (by decide +kernel)))
  have hfirst : twoCallers.Path 1 [.enter 1 3] 3 :=
    .single (x := .enter 1 3) ⟨_, hmiddle, hp.first_iff.1 (by decide +kernel)⟩
  have hsecond : twoCallers.Path 1 ([.enter 1 3] ++ [.enter 3 6]) 6 :=
    .concat (x := .enter 3 6) hfirst ⟨_, hshared, hp.first_iff.1 (by decide +kernel)⟩
  refine ⟨.concat (x := .leave 6 [3, 1] 2) hsecond hleaves, ?_⟩
  exact ((matched_nil.enter.enter).back (by simp [unreturned, Crossing.apply])).back
      (by simp [unreturned, Crossing.apply])

/-- Control comes back to the call that it came from, and to no other. -/
theorem nextBipStar_twoCallers :
    parse (twoCallers.print .minimal) = .ok twoCallers ∧
    2 ∈ (Flow.ofTree twoCallers.toTree).reach 1 ∧
    ¬ ∃ moves, twoCallers.Path 1 moves 5 ∧ Matched (crossings moves) := by
  have hparse : parse (twoCallers.print .minimal) = .ok twoCallers :=
    parse_of_laid wellFormed_twoCallers (Token.laid_phrase _)
  obtain ⟨kb, -, hreach⟩ := nextBipStar_iff_matched_path hparse
  refine ⟨hparse, (hreach 1 2).2.1.2 ⟨_, path_twoCallers⟩, fun h => ?_⟩
  refine not_mem_reach_of_closed [⟨3, [1]⟩, ⟨6, [3, 1]⟩, ⟨2, []⟩] ?_ ?_ ?_ ((hreach 1 5).2.1.2 h)
  · decide +kernel
  · decide +kernel
  · decide

end Program

end ProgramFacts
