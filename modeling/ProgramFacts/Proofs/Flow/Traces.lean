import ProgramFacts.Proofs.Program.Coverage
import Mathlib.Computability.Language
/-!
# Control flow — structured executions

The statements of a procedure say which sequences of statements it may go through, without any
graph: `Stmt.traces` reads them off as a language over the numbers of statements. The graph says
it by steps from one statement to the next (`Flow.Through`). The two agree
(`trace_iff_through`). That a trace is a run along the steps goes by recursion on the statement.
For the converse a run is cut where it leaves a statement for the first time
(`Flow.Run.split`), which it can do to one place only.
-/

namespace ProgramFacts

open scoped Computability

/-! ## Traces -/

namespace Stmt

mutual

/-- **The traces of a statement.** A loop is met before its body is entered, each time, and once
more when it is done with. -/
def traces : Stmt → Language Nat
  | .assign n .. | .read n .. | .print n .. | .call n .. => {[n]}
  | .whileLoop n _ body => {[n]} * (tracesOf body * {[n]})∗
  | .ifElse n _ thenBody elseBody => {[n]} * (tracesOf thenBody + tracesOf elseBody)

/-- The traces of a list: one of each statement, in order. -/
def tracesOf : List Stmt → Language Nat
  | [] => 1
  | s :: ss => s.traces * tracesOf ss

end

/-- A trace that has to begin with `n` is `n` and then another trace. -/
theorem mem_singleton_mul {n : Nat} {xs : List Nat} {traces : Language Nat} :
    xs ∈ ({[n]} : Language Nat) * traces ↔ ∃ ys ∈ traces, n :: ys = xs := by
  rw [Language.mem_mul]
  constructor
  · rintro ⟨_, rfl, ys, hys, rfl⟩
    exact ⟨ys, hys, rfl⟩
  · rintro ⟨ys, hys, rfl⟩
    exact ⟨[n], rfl, ys, hys, rfl⟩

end Stmt

/-! ## Runs -/

namespace Flow

/-- **A run of control**, where `R` says where it goes from each statement: it starts at `n`,
meets `xs`, and goes to `k` after the last of them. -/
inductive Run (R : Nat → Option Nat → Prop) : Nat → List Nat → Option Nat → Prop
  | last {n : Nat} {k : Option Nat} (h : R n k) : Run R n [n] k
  | cons {n m : Nat} {xs : List Nat} {k : Option Nat} (h : R n (some m)) (hrest : Run R m xs k) :
    Run R n (n :: xs) k

namespace Run

variable {R : Nat → Option Nat → Prop} {n m : Nat} {xs ys : List Nat} {k dest : Option Nat}

theorem head?_eq (h : Run R n xs k) : xs.head? = some n := by
  cases h <;> rfl

theorem mem (h : Run R n xs k) : n ∈ xs :=
  List.mem_of_head? h.head?_eq

/-- Runs are put together where the one goes to the start of the other. -/
theorem append (h : Run R n xs (some m)) (h' : Run R m ys k) : Run R n (xs ++ ys) k := by
  generalize hm : some m = dest at h
  induction h with
  | last h =>
    subst hm
    exact .cons h h'
  | cons h _ ih => exact .cons h (ih hm)

/-- **A run stays among some statements until it leaves them for the first time**, to the one
place `k` that it can leave them to. -/
theorem split {S : Nat → Prop} (h : Run R n xs dest)
    (hclosed : ∀ m, S m → ∀ d, R m d → d = k ∨ ∃ m', d = some m' ∧ S m')
    (hdest : ∀ m, S m → dest ≠ some m) (hn : S n) :
    ∃ ys, Run R n ys k ∧ (∀ m ∈ ys, S m) ∧
      ((xs = ys ∧ dest = k) ∨ ∃ m zs, k = some m ∧ xs = ys ++ zs ∧ Run R m zs dest) := by
  induction h with
  | @last n dest h =>
    rcases hclosed n hn dest h with rfl | ⟨m, rfl, hm⟩
    · exact ⟨[n], .last h, List.forall_mem_singleton.2 hn, .inl ⟨rfl, rfl⟩⟩
    · exact absurd rfl (hdest m hm)
  | @cons n m xs dest h hrest ih =>
    rcases hclosed n hn (some m) h with rfl | ⟨m', hm', hm⟩
    · exact ⟨[n], .last h, List.forall_mem_singleton.2 hn, .inr ⟨m, xs, rfl, rfl, hrest⟩⟩
    · cases hm'
      obtain ⟨ys, hys, hall, hxs⟩ := ih hdest hm
      refine ⟨n :: ys, .cons h hys, List.forall_mem_cons.2 ⟨hn, hall⟩, ?_⟩
      rcases hxs with ⟨rfl, hk⟩ | ⟨m', zs, hk, rfl, hzs⟩
      · exact .inl ⟨rfl, hk⟩
      · exact .inr ⟨m', zs, hk, rfl, hzs⟩

end Run

end Flow

open ProgramFacts.Flow (Run)

namespace Stmt

variable {R : Nat → Option Nat → Prop} {n : Nat} {xs : List Nat} {k k' : Option Nat}
  {c : Condition} {s t : Stmt} {ss body thenBody elseBody : List Stmt}

/-- A statement of a list has one of its numbers. -/
theorem Occurs.mem_numbersOf (h : Occurs k ss t k') : t.number ∈ numbersOf ss := by
  rw [← map_number_preorderOf]
  exact List.mem_map_of_mem h.mem_preorderOf

/-- Each number of a list is that of a statement in it. -/
theorem exists_occurs_of_mem_numbersOf (k : Option Nat) (h : n ∈ numbersOf ss) :
    ∃ t k', Occurs k ss t k' ∧ t.number = n := by
  rw [← map_number_preorderOf] at h
  obtain ⟨t, ht, rfl⟩ := List.mem_map.1 h
  obtain ⟨k', ht⟩ := exists_occurs_of_mem_preorderOf k ss ht
  exact ⟨t, k', ht, rfl⟩

theorem mem_numbersOf_of_firstOf (h : firstOf ss = some n) : n ∈ numbersOf ss := by
  obtain ⟨t, _, ht, rfl⟩ := exists_occurs_of_firstOf (k := none) h
  exact ht.mem_numbersOf

/-- `R` says where control goes from the statements of a list that is followed by `k`, and their
numbers can be told from each other and from `k`. -/
structure Placed (R : Nat → Option Nat → Prop) (k : Option Nat) (ss : List Stmt) : Prop where
  exact : ∀ t k', Occurs k ss t k' → ∀ dest, R t.number dest ↔ t.Goes k' dest
  apart : ∀ n ∈ numbersOf ss, k ≠ some n
  nodup : (numbersOf ss).Nodup

namespace Placed

/-- The first statement is placed before the second, or before what follows the list. -/
theorem head (h : Placed R k (s :: ss)) : Placed R ((firstOf ss).or k) [s] where
  exact t k' ht := h.exact t k' (occurs_cons.2 (.inl ht))
  apart n hn heq := by
    have hn : n ∈ s.numbers := by simpa [numbersOf] using hn
    cases ss with
    | nil => exact h.apart n (List.mem_append_left _ hn) heq
    | cons t ss =>
      cases heq
      exact (List.nodup_append.1 h.nodup).2.2 _ hn _ (mem_numbersOf_of_firstOf rfl) rfl
  nodup := by simpa [numbersOf] using (List.nodup_append.1 h.nodup).1

theorem tail (h : Placed R k (s :: ss)) : Placed R k ss where
  exact t k' ht := h.exact t k' (.tail ht)
  apart n hn := h.apart n (List.mem_append_right _ hn)
  nodup := (List.nodup_append.1 h.nodup).2.1

/-- The body of a loop is placed before the loop itself. -/
theorem loop (h : Placed R k [.whileLoop n c body]) : Placed R (some n) body := by
  have hnodup : (n :: numbersOf body).Nodup := by simpa [numbersOf, numbers] using h.nodup
  refine ⟨fun t k' ht => h.exact t k' (.loop ht), ?_, hnodup.of_cons⟩
  rintro m hm ⟨⟩
  exact (List.nodup_cons.1 hnodup).1 hm

/-- A branch is placed before what follows the branching. -/
theorem thenBranch (h : Placed R k [.ifElse n c thenBody elseBody]) : Placed R k thenBody := by
  have hnodup : (n :: (numbersOf thenBody ++ numbersOf elseBody)).Nodup := by
    simpa [numbersOf, numbers] using h.nodup
  refine ⟨fun t k' ht => h.exact t k' (.thenBranch ht), fun m hm => h.apart m ?_, ?_⟩
  · simp [numbersOf, numbers, hm]
  · exact (List.nodup_append.1 hnodup.of_cons).1

theorem elseBranch (h : Placed R k [.ifElse n c thenBody elseBody]) : Placed R k elseBody := by
  have hnodup : (n :: (numbersOf thenBody ++ numbersOf elseBody)).Nodup := by
    simpa [numbersOf, numbers] using h.nodup
  refine ⟨fun t k' ht => h.exact t k' (.elseBranch ht), fun m hm => h.apart m ?_, ?_⟩
  · simp [numbersOf, numbers, hm]
  · exact (List.nodup_append.1 hnodup.of_cons).2.1

/-- Control stays among the statements of the list, or goes to where the list leads. -/
theorem closed (h : Placed R k ss) (hn : n ∈ numbersOf ss) (dest : Option Nat) (hdest : R n dest) :
    dest = k ∨ ∃ m, dest = some m ∧ m ∈ numbersOf ss := by
  obtain ⟨t, k', ht, rfl⟩ := exists_occurs_of_mem_numbersOf k hn
  rcases ht.goes ((h.exact t k' ht dest).1 hdest) with rfl | ⟨t', k'', ht', rfl⟩
  · exact .inl rfl
  · exact .inr ⟨_, rfl, ht'.mem_numbersOf⟩

end Placed

/-! ## Traces are runs -/

/-- Going around a loop, if the traces of the body are runs back to the loop. -/
theorem run_of_kstar {m : Nat} (hdone : R n k) (henter : R n (some m))
    (hbody : ∀ w ∈ tracesOf body, Run R m w (some n)) (h : xs ∈ (tracesOf body * {[n]})∗) :
    Run R n (n :: xs) k := by
  obtain ⟨rounds, rfl, hrounds⟩ := Language.mem_kstar.1 h
  clear h
  induction rounds with
  | nil => exact .last hdone
  | cons round rounds ih =>
    obtain ⟨hround, hmore⟩ := List.forall_mem_cons.1 hrounds
    obtain ⟨w, hw, _, rfl, rfl⟩ := Language.mem_mul.1 hround
    have hrest := ih hmore
    have hall : n :: ((w ++ [n]) :: rounds).flatten = n :: (w ++ n :: rounds.flatten) := by simp
    rw [hall]
    exact .cons henter ((hbody w hw).append hrest)

mutual

/-- **Every trace of a statement is a run** from it to what follows it. The induction is on the
statement, and for a loop also on how often it goes round. -/
theorem run_of_traces (k : Option Nat) (s : Stmt) (hs : Placed R k [s]) (hprintable : s.Printable)
    {xs : List Nat} (h : xs ∈ s.traces) : Run R s.number xs k := by
  have hgoes := hs.exact s k .head
  match s with
  | .assign n .. | .read n .. | .print n .. | .call n .. =>
    obtain rfl : xs = [n] := h
    exact .last ((hgoes k).2 (.done rfl))
  | .whileLoop n c body =>
    obtain ⟨-, hbody, hne⟩ := hprintable
    obtain ⟨m, hm⟩ := exists_firstOf hne
    obtain ⟨ys, hys, rfl⟩ := mem_singleton_mul.1 h
    exact run_of_kstar ((hgoes k).2 (.done rfl)) ((hgoes (some m)).2 (.loop hm))
      (fun w hw => run_of_tracesOf (some n) body hs.loop hbody hm hw) hys
  | .ifElse n c thenBody elseBody =>
    obtain ⟨-, ⟨hthen, hne⟩, helse, hne'⟩ := hprintable
    obtain ⟨ys, hys, rfl⟩ := mem_singleton_mul.1 h
    rcases (Language.mem_add _ _ _).1 hys with hys | hys
    · obtain ⟨m, hm⟩ := exists_firstOf hne
      exact .cons ((hgoes (some m)).2 (.thenBranch hm))
        (run_of_tracesOf k thenBody hs.thenBranch hthen hm hys)
    · obtain ⟨m, hm⟩ := exists_firstOf hne'
      exact .cons ((hgoes (some m)).2 (.elseBranch hm))
        (run_of_tracesOf k elseBody hs.elseBranch helse hm hys)

/-- A trace of a list is cut into those of its statements, which are runs that join. -/
theorem run_of_tracesOf (k : Option Nat) (ss : List Stmt) (hss : Placed R k ss)
    (hprintable : PrintableAll ss) {n : Nat} (hn : firstOf ss = some n) {xs : List Nat}
    (h : xs ∈ tracesOf ss) : Run R n xs k := by
  match ss with
  | [] => cases hn
  | s :: rest =>
    cases hn
    obtain ⟨ys, hys, zs, hzs, rfl⟩ := Language.mem_mul.1 h
    have hfirst := run_of_traces ((firstOf rest).or k) s hss.head hprintable.1 hys
    cases hrest : firstOf rest with
    | none =>
      obtain rfl : rest = [] := by simpa [firstOf] using hrest
      obtain rfl : zs = [] := hzs
      rw [List.append_nil]
      exact hfirst
    | some m =>
      rw [hrest] at hfirst
      exact hfirst.append (run_of_tracesOf k rest hss.tail hprintable.2 hrest hzs)

end

/-! ## Runs are traces -/

/-- A run that goes around a loop goes through traces of its body, if the runs through the body
are such. -/
theorem traces_loop_of_run (hs : Placed R k [.whileLoop n c body])
    (hbody : ∀ m w, firstOf body = some m → Run R m w (some n) → (∀ i ∈ w, some n ≠ some i) →
      w ∈ tracesOf body)
    (h : Run R n xs k) (havoid : ∀ m ∈ xs, k ≠ some m) :
    xs ∈ (Stmt.whileLoop n c body).traces := by
  -- by induction on the length, since what is left after one round is a run again
  induction hlength : xs.length using Nat.strong_induction_on generalizing xs with
  | _ length ih =>
    cases h with
    | last h => exact mem_singleton_mul.2 ⟨[], Language.nil_mem_kstar _, rfl⟩
    | @cons _ m ys _ h hrest =>
      have hm : firstOf body = some m := by
        cases (hs.exact _ k .head _).1 h with
        | done => exact absurd rfl (havoid m (List.mem_cons_of_mem n hrest.mem))
        | loop hm => exact hm
      obtain ⟨w, hw, hin, ⟨-, hk⟩ | ⟨_, zs, hn, rfl, hzs⟩⟩ := hrest.split
        (fun m hm => hs.loop.closed hm) (fun m hm => hs.apart m (by simp [numbersOf, numbers, hm]))
        (mem_numbersOf_of_firstOf hm)
      · exact absurd hk (hs.apart n (by simp [numbersOf, numbers]))
      · cases hn
        have hround := hbody _ w hm hw fun i hi => hs.loop.apart i (hin i hi)
        have hzs := ih zs.length (by simp at hlength; omega) hzs
          (fun i hi => havoid i (List.mem_cons_of_mem n (List.mem_append_right w hi))) rfl
        obtain ⟨rounds, hrounds, rfl⟩ := mem_singleton_mul.1 hzs
        refine mem_singleton_mul.2 ⟨_, ?_, rfl⟩
        rw [← Language.one_add_self_mul_kstar_eq_kstar, Language.mem_add, List.append_cons]
        exact .inr (Language.append_mem_mul (Language.append_mem_mul hround rfl) hrounds)

mutual

/-- **Every run that leaves a statement at its end is a trace of it.** The run is split where it
first leaves the body of a loop or a branch. -/
theorem traces_of_run (k : Option Nat) (s : Stmt) (hs : Placed R k [s]) {xs : List Nat}
    (h : Run R s.number xs k) (havoid : ∀ m ∈ xs, k ≠ some m) : xs ∈ s.traces := by
  have hgoes := hs.exact s k .head
  match s with
  | .assign n .. | .read n .. | .print n .. | .call n .. =>
    cases h with
    | last => rfl
    | @cons _ m ys _ h hrest =>
      cases (hgoes _).1 h with
      | done => exact absurd rfl (havoid m (List.mem_cons_of_mem n hrest.mem))
  | .whileLoop n c body =>
    exact traces_loop_of_run hs
      (fun m w hm hw hout => tracesOf_of_run (some n) body hs.loop hm hw hout) h havoid
  | .ifElse n c thenBody elseBody =>
    cases h with
    | last h =>
      -- control goes into a branch, which is not where it goes on after the branching
      cases (hgoes _).1 h with
      | done hbranching => cases hbranching
      | thenBranch hm => exact absurd rfl (hs.thenBranch.apart _ (mem_numbersOf_of_firstOf hm))
      | elseBranch hm => exact absurd rfl (hs.elseBranch.apart _ (mem_numbersOf_of_firstOf hm))
    | @cons _ m ys _ h hrest =>
      have hout : ∀ i ∈ ys, k ≠ some i := fun i hi => havoid i (List.mem_cons_of_mem n hi)
      refine mem_singleton_mul.2 ⟨ys, (Language.mem_add _ _ _).2 ?_, rfl⟩
      cases (hgoes _).1 h with
      | done hbranching => cases hbranching
      | thenBranch hm => exact .inl (tracesOf_of_run k thenBody hs.thenBranch hm hrest hout)
      | elseBranch hm => exact .inr (tracesOf_of_run k elseBody hs.elseBranch hm hrest hout)

/-- A run through a list is split where it first leaves the first statement. -/
theorem tracesOf_of_run (k : Option Nat) (ss : List Stmt) (hss : Placed R k ss) {n : Nat}
    (hn : firstOf ss = some n) {xs : List Nat} (h : Run R n xs k)
    (havoid : ∀ m ∈ xs, k ≠ some m) : xs ∈ tracesOf ss := by
  match ss with
  | [] => cases hn
  | s :: rest =>
    cases hn
    have hs := hss.head
    obtain ⟨ys, hys, hin, hxs⟩ := h.split (fun m hm => hs.closed hm)
      (fun m hm => hss.apart m (by simp_all [numbersOf])) (mem_numbersOf_of_firstOf rfl)
    have hfirst := traces_of_run ((firstOf rest).or k) s hs hys fun m hm => hs.apart m (hin m hm)
    match rest with
    | [] =>
      rcases hxs with ⟨rfl, -⟩ | ⟨m, zs, hm, rfl, hzs⟩
      · exact Language.mem_mul.2 ⟨xs, hfirst, [], rfl, List.append_nil xs⟩
      · exact absurd hm (havoid m (List.mem_append_right ys hzs.mem))
    | t :: rest =>
      rcases hxs with ⟨-, hk⟩ | ⟨m, zs, hm, rfl, hzs⟩
      · exact absurd hk (hss.tail.apart t.number (mem_numbersOf_of_firstOf rfl))
      · cases hm
        refine Language.append_mem_mul hfirst (tracesOf_of_run k (t :: rest) hss.tail rfl hzs ?_)
        exact fun i hi => havoid i (List.mem_append_right ys hi)

end

/-! ## Every statement is on a trace -/

mutual

/-- Every statement has a trace. -/
theorem exists_traces (s : Stmt) : ∃ xs, xs ∈ s.traces := by
  match s with
  | .assign n .. | .read n .. | .print n .. | .call n .. => exact ⟨[n], rfl⟩
  | .whileLoop n c body => exact ⟨[n], mem_singleton_mul.2 ⟨[], Language.nil_mem_kstar _, rfl⟩⟩
  | .ifElse n c thenBody elseBody =>
    obtain ⟨xs, hxs⟩ := exists_tracesOf thenBody
    exact ⟨n :: xs, mem_singleton_mul.2 ⟨xs, .inl hxs, rfl⟩⟩

theorem exists_tracesOf (ss : List Stmt) : ∃ xs, xs ∈ tracesOf ss := by
  match ss with
  | [] => exact ⟨[], rfl⟩
  | s :: ss =>
    obtain ⟨xs, hxs⟩ := exists_traces s
    obtain ⟨ys, hys⟩ := exists_tracesOf ss
    exact ⟨xs ++ ys, Language.append_mem_mul hxs hys⟩

end

/-- A trace of a statement meets the statement. -/
theorem number_mem_of_traces (h : xs ∈ s.traces) : s.number ∈ xs := by
  cases s with
  | assign n | read n | print n | call n =>
    obtain rfl : xs = [n] := h
    exact List.mem_singleton_self n
  | whileLoop | ifElse =>
    obtain ⟨ys, -, rfl⟩ := mem_singleton_mul.1 h
    exact List.mem_cons_self

/-- **Every statement of a list is met by some trace of the list.** -/
theorem Occurs.exists_trace (h : Occurs k ss t k') : ∃ xs ∈ tracesOf ss, t.number ∈ xs := by
  -- what is on a trace of one statement is on a trace of the list
  have hfirst : ∀ {s : Stmt} {ss : List Stmt}, (∃ xs ∈ s.traces, t.number ∈ xs) →
      ∃ xs ∈ tracesOf (s :: ss), t.number ∈ xs := by
    rintro s ss ⟨xs, hxs, ht⟩
    obtain ⟨ys, hys⟩ := exists_tracesOf ss
    exact ⟨xs ++ ys, Language.append_mem_mul hxs hys, List.mem_append_left _ ht⟩
  induction h with
  | @head k s ss =>
    obtain ⟨xs, hxs⟩ := exists_traces s
    exact hfirst ⟨xs, hxs, number_mem_of_traces hxs⟩
  | @tail k k' s t ss _ ih =>
    obtain ⟨xs, hxs⟩ := exists_traces s
    obtain ⟨ys, hys, ht⟩ := ih hfirst
    exact ⟨xs ++ ys, Language.append_mem_mul hxs hys, List.mem_append_right _ ht⟩
  | @loop k k' n c t body ss _ ih =>
    obtain ⟨w, hw, ht⟩ := ih hfirst
    have hround : w ++ [n] ∈ (tracesOf body * {[n]})∗ :=
      Language.mem_kstar.2 ⟨[w ++ [n]], by simp, List.forall_mem_singleton.2
        (Language.append_mem_mul hw rfl)⟩
    exact hfirst ⟨n :: (w ++ [n]), mem_singleton_mul.2 ⟨_, hround, rfl⟩, by simp [ht]⟩
  | @thenBranch k k' n c t thenBody elseBody ss _ ih =>
    obtain ⟨w, hw, ht⟩ := ih hfirst
    exact hfirst ⟨n :: w, mem_singleton_mul.2 ⟨w, .inl hw, rfl⟩, List.mem_cons_of_mem n ht⟩
  | @elseBranch k k' n c t thenBody elseBody ss _ ih =>
    obtain ⟨w, hw, ht⟩ := ih hfirst
    exact hfirst ⟨n :: w, mem_singleton_mul.2 ⟨w, .inr hw, rfl⟩, List.mem_cons_of_mem n ht⟩

end Stmt

/-! ## Ways through a procedure -/

/-- **A way through a procedure**: from its first statement to an exit, each statement followed
by one that control may go to next. -/
structure Flow.Through (f : Flow) (q : String) (xs : List Nat) : Prop where
  starts : xs.head? = f.first[q]?
  steps : xs.IsChain fun n m => m ∈ f.next n
  ends : ∃ n ∈ xs.getLast?, n ∈ f.exitsFrom q

namespace Program

variable {p : Program} {q : String} {n : Nat} {xs : List Nat} {procedure : Procedure}

/-- In the procedure `q` control goes from a statement to `dest`. -/
def Leads (p : Program) (q : String) (n : Nat) (dest : Option Nat) : Prop :=
  ∃ s k, p.Has q s k ∧ s.number = n ∧ s.Goes k dest

/-- In a consistent program the flow places the body of each procedure. -/
theorem Consistent.placed (hp : p.Consistent) (h : procedure ∈ p.procedures) :
    Stmt.Placed (p.Leads procedure.name) none procedure.body where
  exact t k ht dest := by
    have hhas : p.Has procedure.name t k := ⟨procedure, h, rfl, ht⟩
    constructor
    · rintro ⟨s, k', hs, hn, hgoes⟩
      have hsite := hp.site_inj (mem_sites.2 ⟨_, s, k', hs, rfl⟩)
        (mem_sites.2 ⟨_, t, k, hhas, rfl⟩) hn
      exact Stmt.mem_targets_site.1 (hsite ▸ Stmt.mem_targets_site.2 hgoes)
    · exact fun hgoes => ⟨t, k, hhas, rfl, hgoes⟩
  apart _ _ := by simp
  nodup := (List.nodup_flatMap.1 hp.nodup_numbers).1 procedure h

/-- A run that leaves a procedure is a chain of steps to an exit. -/
theorem chain_of_run (h : Run (p.Leads q) n xs none) :
    xs.IsChain p.Next ∧ ∃ m ∈ xs.getLast?, p.Exit q m := by
  generalize hk : none = k at h
  induction h with
  | @last n k h =>
    subst hk
    exact ⟨.singleton n, n, rfl, h⟩
  | @cons n m xs k h hrest ih =>
    obtain ⟨hsteps, hends⟩ := ih hk
    obtain ⟨s, k', hs, hn, hgoes⟩ := h
    obtain ⟨ys, rfl⟩ := List.head?_eq_some_iff.1 hrest.head?_eq
    exact ⟨.cons_cons ⟨q, s, k', hs, hn, hgoes⟩ hsteps, by rwa [List.getLast?_cons_cons]⟩

/-- And a chain of steps to an exit is such a run. -/
theorem run_of_chain (hp : p.Consistent) (hn : p.In q n) (hsteps : (n :: xs).IsChain p.Next)
    (hends : ∃ m ∈ (n :: xs).getLast?, p.Exit q m) : Run (p.Leads q) n (n :: xs) none := by
  induction xs generalizing n with
  | nil =>
    obtain ⟨m, hm, hexit⟩ := hends
    cases hm
    exact .last hexit
  | cons m xs ih =>
    obtain ⟨hnext, hsteps⟩ := List.isChain_cons_cons.1 hsteps
    rw [List.getLast?_cons_cons] at hends
    -- control stays in the procedure
    obtain ⟨q', hn', hm⟩ := hnext.exists_in
    obtain rfl := hp.in_unique hn hn'
    obtain ⟨q', s, k, hs, hsn, hgoes⟩ := hnext
    obtain rfl := hp.in_unique hn ⟨s, k, hs, hsn⟩
    exact .cons ⟨s, k, hs, hsn, hgoes⟩ (ih hm hsteps hends)

/-- **The traces of a procedure are the runs through it**, as far as the steps of the flow tell
them. -/
theorem mem_tracesOf_iff (hp : p.WellFormed) (h : procedure ∈ p.procedures) :
    xs ∈ Stmt.tracesOf procedure.body ↔ p.flow.Through procedure.name xs := by
  obtain ⟨-, hprintable, hne⟩ := hp.printable procedure h
  obtain ⟨n, hn⟩ := Stmt.exists_firstOf hne
  have hentry : p.Entry procedure.name n := ⟨procedure, h, rfl, hn⟩
  have hfirst : p.flow.first[procedure.name]? = some n := hp.first_iff.2 hentry
  have hplaced := hp.placed h
  constructor
  · intro hxs
    have hrun := Stmt.run_of_tracesOf none procedure.body hplaced hprintable hn hxs
    obtain ⟨hsteps, m, hm, hexit⟩ := chain_of_run hrun
    exact ⟨by rw [hrun.head?_eq, hfirst], hsteps.imp fun _ _ => mem_next.2,
      m, hm, mem_exitsFrom.2 hexit⟩
  · rintro ⟨hstarts, hsteps, m, hm, hexit⟩
    rw [hfirst] at hstarts
    obtain ⟨ys, rfl⟩ := List.head?_eq_some_iff.1 hstarts
    have hrun := run_of_chain hp.toConsistent hentry.mem (hsteps.imp fun _ _ => mem_next.1)
      ⟨m, hm, mem_exitsFrom.1 hexit⟩
    exact Stmt.tracesOf_of_run none procedure.body hplaced hn hrun (by simp)

/-- **The control flow of a program realises its structured executions.** For every procedure of
a program that was read, the traces of its body are the ways through it from its first statement
to an exit. Hence every statement is on such a way, and there is an exit. -/
theorem trace_iff_through {source : String} (h : parse source = .ok p) :
    ∀ procedure ∈ p.procedures,
      (∀ xs, xs ∈ Stmt.tracesOf procedure.body ↔
        (Flow.ofTree p.toTree).Through procedure.name xs) ∧
      (Flow.ofTree p.toTree).first[procedure.name]? = Stmt.firstOf procedure.body ∧
      (∀ n ∈ Stmt.numbersOf procedure.body,
        ∃ xs, (Flow.ofTree p.toTree).Through procedure.name xs ∧ n ∈ xs) ∧
      ∃ n, n ∈ (Flow.ofTree p.toTree).exitsFrom procedure.name := by
  have hp := wellFormed_of_parse h
  intro procedure hprocedure
  obtain ⟨-, -, hne⟩ := hp.printable procedure hprocedure
  obtain ⟨n, hn⟩ := Stmt.exists_firstOf hne
  have hthrough : ∀ n ∈ Stmt.numbersOf procedure.body,
      ∃ xs, (Flow.ofTree p.toTree).Through procedure.name xs ∧ n ∈ xs := by
    intro n hn
    obtain ⟨t, k, ht, rfl⟩ := Stmt.exists_occurs_of_mem_numbersOf none hn
    obtain ⟨xs, hxs, ht⟩ := ht.exists_trace
    exact ⟨xs, (mem_tracesOf_iff hp hprocedure).1 hxs, ht⟩
  refine ⟨fun xs => mem_tracesOf_iff hp hprocedure, ?_, hthrough, ?_⟩
  · rw [hn]
    exact hp.first_iff.2 ⟨procedure, hprocedure, rfl, hn⟩
  · obtain ⟨xs, ⟨-, -, m, -, hm⟩, -⟩ := hthrough n (Stmt.mem_numbersOf_of_firstOf hn)
    exact ⟨m, hm⟩

/-- Once around the loop, and not past the assignment in it. -/
theorem trace_sharedCallee :
    parse (sharedCallee.print .minimal) = .ok sharedCallee ∧
    ∃ procedure ∈ sharedCallee.procedures, procedure.name = "main" ∧
      [1, 2, 3, 4, 5, 2] ∈ Stmt.tracesOf procedure.body ∧
      [1, 2, 3, 5, 2] ∉ Stmt.tracesOf procedure.body := by
  have hmain : sharedCallee.procedures[0] ∈ sharedCallee.procedures := List.getElem_mem _
  obtain ⟨htraces, -⟩ := trace_iff_through parse_sharedCallee _ hmain
  refine ⟨parse_sharedCallee, _, hmain, rfl, (htraces _).2 ⟨?_, ?_, 2, rfl, ?_⟩, fun h => ?_⟩
  · decide +kernel
  · decide +kernel
  · decide +kernel
  · obtain ⟨-, hsteps, -⟩ := (htraces _).1 h
    revert hsteps
    decide +kernel

end Program

end ProgramFacts
