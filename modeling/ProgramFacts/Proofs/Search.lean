import ProgramFacts.Search
import Mathlib.Data.List.Nodup
import Mathlib.Logic.Relation
import Mathlib.Tactic.Tauto
/-!
# Breadth-first search — what is met

A search meets exactly the states that its starts lead to, and each of them once.
The invariant of the search is that whatever follows a met state has been met or is
waiting in the queue (`Space.Covered`); when the queue is empty the met states are
closed, so nothing that can be reached was missed.

A tour (`Tours`) is a search that asks at every state whether to go on past it. Whatever it
is told, it ends if it keeps to finitely many states (`Space.exists_tours`), and meets none
of them twice.
-/

namespace ProgramFacts

namespace Search

namespace Space

variable {α : Type} {S : Space α}

/-- One step of a search. -/
def Leads (S : Space α) (x y : α) : Prop :=
  y ∈ S.next x

/-- Whether some start leads to a state, in any number of steps. -/
def Reaches (S : Space α) (starts : List α) (y : α) : Prop :=
  ∃ x ∈ starts, Relation.ReflTransGen S.Leads x y

/-- What follows a met state has been met or is waiting. -/
def Covered (S : Space α) (met queue : List α) : Prop :=
  ∀ x ∈ met, ∀ y ∈ S.next x, y ∈ met ∨ y ∈ queue

theorem not_reaches_nil {y : α} : ¬ S.Reaches [] y := by
  rintro ⟨x, hx, -⟩
  cases hx

theorem reaches_cons {x y : α} {queue : List α} :
    S.Reaches (x :: queue) y ↔ Relation.ReflTransGen S.Leads x y ∨ S.Reaches queue y := by
  simp [Reaches]

theorem reaches_append {y : α} {starts queue : List α} :
    S.Reaches (starts ++ queue) y ↔ S.Reaches starts y ∨ S.Reaches queue y := by
  simp only [Reaches, List.mem_append, or_and_right, exists_or]

/-- To go on from a state is to stay, or to go on from a state after it. -/
theorem reflTransGen_iff {x y : α} :
    Relation.ReflTransGen S.Leads x y ↔ y = x ∨ S.Reaches (S.next x) y := by
  rw [Relation.ReflTransGen.cases_head_iff]
  exact or_congr eq_comm Iff.rfl

/-- From met states nothing is reached but met states and what the queue leads to. -/
theorem Covered.reach {met queue : List α} (h : S.Covered met queue) {x y : α}
    (hx : x ∈ met) (hxy : Relation.ReflTransGen S.Leads x y) : y ∈ met ∨ S.Reaches queue y := by
  induction hxy using Relation.ReflTransGen.head_induction_on with
  | refl => exact .inl hx
  | head hstep hrest ih =>
    rcases h _ hx _ hstep with hmet | hqueue
    · exact ih hmet
    · exact .inr ⟨_, hqueue, hrest⟩

variable [DecidableEq α]

/-- **What a search meets**, from any point of it on. -/
theorem mem_visitsFrom {met queue : List α} {h : ∀ x ∈ queue, S.Within x}
    (hcov : S.Covered met queue) {y : α} :
    y ∈ S.visitsFrom met queue h ↔ y ∈ met ∨ S.Reaches queue y := by
  fun_induction visitsFrom S met queue h with
  | case1 met => simp [not_reaches_nil]
  | case2 met x rest _ hx _ ih =>
    have hcov' : S.Covered met rest := by
      intro z hz w hw
      rcases hcov z hz w hw with hmet | hqueue
      · exact .inl hmet
      · rcases List.mem_cons.1 hqueue with rfl | hrest
        · exact .inl hx
        · exact .inr hrest
    rw [ih hcov', reaches_cons]
    constructor
    · exact Or.imp_right .inr
    · rintro (hmet | hxy | hrest)
      · exact .inl hmet
      · exact hcov'.reach hx hxy
      · exact .inr hrest
  | case3 met x rest _ _ _ ih =>
    have hcov' : S.Covered (x :: met) (rest ++ S.next x) := by
      intro z hz w hw
      rcases List.mem_cons.1 hz with rfl | hz
      · exact .inr (List.mem_append_right _ hw)
      · rcases hcov z hz w hw with hmet | hqueue
        · exact .inl (List.mem_cons_of_mem _ hmet)
        · rcases List.mem_cons.1 hqueue with rfl | hrest
          · exact .inl List.mem_cons_self
          · exact .inr (List.mem_append_left _ hrest)
    rw [ih hcov', reaches_cons, reaches_append, reflTransGen_iff, List.mem_cons]
    tauto

/-- **A search meets exactly what its starts lead to.** -/
theorem mem_visits {starts : List α} {h : ∀ x ∈ starts, S.Within x} {y : α} :
    y ∈ S.visits starts h ↔ S.Reaches starts y := by
  unfold visits
  rw [mem_visitsFrom (fun x hx => by cases hx)]
  simp

end Space

/-! ## Tours -/

section Tours

variable {α : Type}

/-- **A whole tour**, from the states met so far, the last first, and those that wait in the
queue, to all the states that are met in the end, in the order in which they are met. At every
new state `goesOn` is told the states met so far, and says whether to go on past the last. -/
inductive Tours (next : α → List α) (goesOn : List α → Bool) : List α → List α → List α → Prop
  | done {met : List α} : Tours next goesOn met [] met.reverse
  | again {met queue all : List α} {x : α} (hx : x ∈ met) (h : Tours next goesOn met queue all) :
    Tours next goesOn met (x :: queue) all
  | visit {met queue all : List α} {x : α} (hx : x ∉ met)
    (h : Tours next goesOn (x :: met) (queue ++ if goesOn (x :: met) then next x else []) all) :
    Tours next goesOn met (x :: queue) all

variable {next next' : α → List α} {goesOn goesOn' : List α → Bool} {met queue all : List α}

/-- **No state is met twice.** -/
theorem Tours.nodup (h : Tours next goesOn met queue all) (hmet : met.Nodup) : all.Nodup := by
  induction h with
  | done => exact List.nodup_reverse.2 hmet
  | again _ _ ih => exact ih hmet
  | visit hx _ ih => exact ih (List.nodup_cons.2 ⟨hx, hmet⟩)

/-- **A tour keeps to what it starts from** and what follows. -/
theorem Tours.forall_mem {P : α → Prop} (h : Tours next goesOn met queue all)
    (hmet : ∀ x ∈ met, P x) (hqueue : ∀ x ∈ queue, P x)
    (hclosed : ∀ x, P x → ∀ y ∈ next x, P y) : ∀ x ∈ all, P x := by
  induction h with
  | done => simpa using hmet
  | again _ _ ih => exact ih hmet (List.forall_mem_cons.1 hqueue).2
  | @visit met queue all x _ _ ih =>
    obtain ⟨hx, hqueue⟩ := List.forall_mem_cons.1 hqueue
    refine ih (List.forall_mem_cons.2 ⟨hx, hmet⟩) (List.forall_mem_append.2 ⟨hqueue, ?_⟩)
    split
    · exact hclosed x hx
    · simp

/-- Two ways to say what follows make the same tour if they agree where it comes to. -/
theorem Tours.congr {P : α → Prop} (h : Tours next goesOn met queue all)
    (hqueue : ∀ x ∈ queue, P x) (hclosed : ∀ x, P x → ∀ y ∈ next x, P y)
    (heq : ∀ x met, P x → (if goesOn (x :: met) then next x else []) =
      if goesOn' (x :: met) then next' x else []) : Tours next' goesOn' met queue all := by
  induction h with
  | done => exact .done
  | again hx _ ih => exact .again hx (ih (List.forall_mem_cons.1 hqueue).2)
  | @visit met queue all x hnew _ ih =>
    obtain ⟨hx, hqueue⟩ := List.forall_mem_cons.1 hqueue
    refine .visit hnew ?_
    rw [← heq x met hx]
    refine ih (List.forall_mem_append.2 ⟨hqueue, ?_⟩)
    split
    · exact hclosed x hx
    · simp

variable [DecidableEq α]

/-- **A tour that keeps to finitely many states ends**, whatever it is told. -/
theorem Space.exists_tours (S : Space α) (goesOn : List α → Bool) (met queue : List α)
    (h : ∀ x ∈ queue, S.Within x) : ∃ all, Tours S.next goesOn met queue all := by
  match queue, h with
  | [], _ => exact ⟨met.reverse, .done⟩
  | x :: rest, h =>
    obtain ⟨hx, hrest⟩ := List.forall_mem_cons.1 h
    by_cases hmet : x ∈ met
    · obtain ⟨all, hall⟩ := S.exists_tours goesOn met rest hrest
      exact ⟨all, .again hmet hall⟩
    · have hnext : ∀ y ∈ if goesOn (x :: met) then S.next x else [], S.Within y := by
        split
        · exact S.closed x hx
        · simp
      have hlt := unmet_cons_lt hx hmet
      obtain ⟨all, hall⟩ := S.exists_tours goesOn (x :: met) _
        (List.forall_mem_append.2 ⟨hrest, hnext⟩)
      exact ⟨all, .visit hmet hall⟩
termination_by (S.unmet met, queue.length)
decreasing_by
  · exact Prod.Lex.right _ (by simp)
  · exact Prod.Lex.left _ _ hlt

/-- A search is a tour that always goes on. -/
theorem Space.tours_visitsFrom {S : Space α} {h : ∀ x ∈ queue, S.Within x} :
    Tours S.next (fun _ => true) met queue (S.visitsFrom met queue h) := by
  fun_induction visitsFrom S met queue h with
  | case1 met => exact .done
  | case2 met x rest _ hx _ ih => exact .again hx ih
  | case3 met x rest _ hx _ ih => exact .visit hx ih

end Tours

end Search

end ProgramFacts
