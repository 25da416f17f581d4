import ProgramFacts.Flow
/-!
# Control flow across procedures

A call leads into the procedure it names, and the end of a procedure leads back to
what comes after the call. There are two ways to look at this. `Flow.linked` is a
graph of single steps: it looks down from a call to the statements that the called
procedure ends with. `Flow.walk` carries the open calls along, so that control
returns to the call that it came from; only a procedure that was not entered on the
walk may return to any of its calls.
-/

namespace ProgramFacts

namespace Flow

variable (f : Flow)

/-! ## Single steps -/

/-- From a procedure to the procedures that it may end by calling. -/
def tailCalls : Digraph String :=
  .ofRows (f.exits.toList.map fun (p, exits) => (p, exits.toList.filterMap (f.callee[·]?)))

/-- The exits of a procedure that are no calls. -/
def plainExits (procedure : String) : List Nat :=
  (f.exitsFrom procedure).toList.filter fun n => f.callee[n]?.isNone

/-- **The statements that a procedure ends with.** If it may end with a call, these are
the statements that the called procedure ends with. -/
def terminals (procedure : String) : Std.ExtTreeSet Nat :=
  .ofList ((procedure :: (f.tailCalls.reach procedure).toList).flatMap f.plainExits)

/-- The steps that a statement is the cause of. A call leads to the procedure it names
and makes that procedure lead back; any other statement leads on. -/
def links (n : Nat) : List (Nat × List Nat) :=
  match f.callee[n]? with
  | some callee =>
    (n, f.first[callee]?.toList) :: (f.terminals callee).toList.map (·, f.next n)
  | none => [(n, f.next n)]

/-- **Single steps across procedures.** -/
def linked : Digraph Nat :=
  .ofRows (f.statements.flatMap f.links)

/-! ## Walks with open calls -/

/-- A statement, and the calls that have been entered and not been left, the last
first. -/
structure State where
  stmt : Nat
  stack : List Nat
  deriving DecidableEq

/-- Where control goes after a statement if no call is open: to the next statements of
its procedure, and if the procedure is left, on after every call of it. The number
bounds how many procedures are left one after the other. -/
def outward : Nat → Nat → List Nat
  | 0, n => f.next n
  | depth + 1, n =>
    f.next n ++
      match f.left? n with
      | some procedure => (f.callers procedure).flatMap (outward depth)
      | none => []

/-- Where control goes once a statement is done: to the next statements of its
procedure, and if the procedure is left, on after the last open call. -/
def resume (n : Nat) : List Nat → List State
  | [] => (f.outward f.exits.size n).map fun m => ⟨m, []⟩
  | call :: rest =>
    (f.next n).map (fun m => ⟨m, call :: rest⟩) ++
      match f.left? n with
      | some _ => resume call rest
      | none => []

/-- Where control goes from a statement: a call of a procedure that has statements is
entered. No more calls are open than there are procedures to enter. -/
def step (s : State) : List State :=
  match f.entered? s.stmt with
  | some first => if s.stack.length < f.first.size then [⟨first, s.stmt :: s.stack⟩] else []
  | none => f.resume s.stmt s.stack

/-- The statements that control can come to, or can be called from. -/
def places : List Nat :=
  f.graph.targets ++ f.first.toList.map Prod.snd ++ f.callee.keys

/-- What holds of every state on a walk, and of finitely many states only. -/
def Bounded (s : State) : Prop :=
  s.stmt ∈ f.places ∧ (∀ n ∈ s.stack, n ∈ f.places) ∧ s.stack.length ≤ f.first.size

/-- There are finitely many lists of bounded length over finitely many items. -/
theorem exists_bounded_lists {α : Type} (items : List α) (k : Nat) :
    ∃ all : List (List α), ∀ l : List α, (∀ a ∈ l, a ∈ items) → l.length ≤ k → l ∈ all := by
  induction k with
  | zero => exact ⟨[[]], fun l _ h => by simp_all⟩
  | succ k ih =>
    obtain ⟨all, hall⟩ := ih
    refine ⟨[] :: items.flatMap fun a => all.map (a :: ·), fun l hl hk => ?_⟩
    cases l with
    | nil => exact List.mem_cons_self
    | cons a l =>
      refine List.mem_cons_of_mem _ (List.mem_flatMap.2 ⟨a, hl a List.mem_cons_self, ?_⟩)
      refine List.mem_map.2 ⟨l, hall l (fun b hb => hl b (List.mem_cons_of_mem a hb)) ?_, rfl⟩
      simpa using hk

theorem exists_bounded_states : ∃ all : List State, ∀ s, f.Bounded s → s ∈ all := by
  obtain ⟨lists, hlists⟩ := exists_bounded_lists f.places f.first.size
  refine ⟨f.places.flatMap fun n => lists.map fun stack => ⟨n, stack⟩, fun s hs => ?_⟩
  exact List.mem_flatMap.2 ⟨s.stmt, hs.1, List.mem_map.2 ⟨s.stack, hlists _ hs.2.1 hs.2.2, rfl⟩⟩

variable {f}

theorem mem_places_of_next {n m : Nat} (h : m ∈ f.next n) : m ∈ f.places :=
  List.mem_append_left _ (List.mem_append_left _ (Digraph.mem_targets h))

theorem mem_places_of_outward {depth n m : Nat} (h : m ∈ f.outward depth n) : m ∈ f.places := by
  induction depth generalizing n with
  | zero => exact mem_places_of_next h
  | succ depth ih =>
    rw [outward] at h
    rcases List.mem_append.1 h with h | h
    · exact mem_places_of_next h
    · split at h
      · obtain ⟨call, _, h⟩ := List.mem_flatMap.1 h
        exact ih h
      · cases h

theorem bounded_of_resume {n : Nat} {stack : List Nat} {s : State}
    (hstack : ∀ m ∈ stack, m ∈ f.places) (hsize : stack.length ≤ f.first.size)
    (h : s ∈ f.resume n stack) : f.Bounded s := by
  induction stack generalizing n with
  | nil =>
    obtain ⟨m, hm, rfl⟩ := List.mem_map.1 h
    exact ⟨mem_places_of_outward hm, by simp, by simp⟩
  | cons call rest ih =>
    rw [resume] at h
    rcases List.mem_append.1 h with h | h
    · obtain ⟨m, hm, rfl⟩ := List.mem_map.1 h
      exact ⟨mem_places_of_next hm, hstack, hsize⟩
    · split at h
      · exact ih (fun m hm => hstack m (List.mem_cons_of_mem call hm))
          (by simp at hsize; omega) h
      · cases h

theorem mem_places_of_entered? {n m : Nat} (h : f.entered? n = some m) :
    n ∈ f.places ∧ m ∈ f.places := by
  obtain ⟨p, hp, hm⟩ := Option.bind_eq_some_iff.1 h
  refine ⟨List.mem_append_right _ ?_, List.mem_append_left _ (List.mem_append_right _ ?_)⟩
  · exact Std.ExtTreeMap.mem_keys.2 (Std.ExtTreeMap.mem_iff_isSome_getElem?.2 (by simp [hp]))
  · exact List.mem_map.2 ⟨(p, m), Std.ExtTreeMap.mem_toList_iff_getElem?_eq_some.2 hm, rfl⟩

theorem bounded_of_step {s t : State} (hstack : ∀ m ∈ s.stack, m ∈ f.places)
    (hsize : s.stack.length ≤ f.first.size) (h : t ∈ f.step s) : f.Bounded t := by
  unfold step at h
  split at h
  · rename_i first hfirst
    obtain ⟨hn, hm⟩ := mem_places_of_entered? hfirst
    split at h
    · obtain rfl := List.mem_singleton.1 h
      refine ⟨hm, ?_, by simp; omega⟩
      intro m hm
      rcases List.mem_cons.1 hm with rfl | hm
      · exact hn
      · exact hstack m hm
    · cases h
  · exact bounded_of_resume hstack hsize h

variable (f)

/-- The walks that end at the statements where they are to stop. -/
def walkSpace (stop : Nat → Bool) : Search.Space State where
  next s := if stop s.stmt then [] else f.step s
  Within := f.Bounded
  closed s hs t ht := by
    split at ht
    · cases ht
    · exact bounded_of_step hs.2.1 hs.2.2 ht
  finite := f.exists_bounded_states

/-- The states on the walks from a statement, in the order of a breadth-first walk. -/
def walkStates (stop : Nat → Bool) (n : Nat) : List State :=
  (f.walkSpace stop).visits (f.step ⟨n, []⟩) fun _ h =>
    bounded_of_step (s := ⟨n, []⟩) (by simp) (by simp) h

/-- **The statements on the walks from a statement**, one for every state. -/
def walk (stop : Nat → Bool) (n : Nat) : List Nat :=
  (f.walkStates stop n).map State.stmt

/-- The statements that control can come to from a statement, calls matched with their
returns. -/
def reach (n : Nat) : Std.ExtTreeSet Nat :=
  .ofList (f.walk (fun _ => false) n)

end Flow

end ProgramFacts
