/-!
# Breadth-first search

A search space says which states follow a state, and what keeps the search within
finitely many of them. `Space.visits` lists the states that are met from some
starts, in the order in which they are met and each of them once. It needs no
bound on the number of steps: every state that is met leaves one state fewer.
-/

namespace ProgramFacts

namespace Search

/-- If one test passes wherever another does, and once more besides, it passes more
often. -/
theorem countP_lt_countP {α : Type} {p q : α → Bool} {l : List α} {a : α}
    (hpq : ∀ x ∈ l, q x → p x) (ha : a ∈ l) (hp : p a) (hq : ¬ q a) :
    l.countP q < l.countP p := by
  induction l with
  | nil => cases ha
  | cons x xs ih =>
    have hxs := List.countP_mono_left (l := xs) fun y hy => hpq y (List.mem_cons_of_mem x hy)
    rcases List.mem_cons.1 ha with rfl | ha
    · simp only [List.countP_cons, hp, hq]
      simp
      omega
    · have := ih (fun y hy => hpq y (List.mem_cons_of_mem x hy)) ha
      have hx := hpq x List.mem_cons_self
      rw [List.countP_cons, List.countP_cons]
      by_cases hqx : q x
      · rw [if_pos hqx, if_pos (hx hqx)]
        omega
      · rw [if_neg hqx]
        omega

/-- States, what follows each, and why there are only finitely many of them. -/
structure Space (α : Type) where
  next : α → List α
  /-- The states that the search keeps to. -/
  Within : α → Prop
  closed : ∀ x, Within x → ∀ y ∈ next x, Within y
  finite : ∃ all : List α, ∀ x, Within x → x ∈ all

namespace Space

variable {α : Type} [DecidableEq α]

/-- How many states have not been met. -/
noncomputable def unmet (S : Space α) (met : List α) : Nat :=
  S.finite.choose.countP (· ∉ met)

theorem unmet_cons_lt {S : Space α} {met : List α} {x : α} (hx : S.Within x) (h : x ∉ met) :
    S.unmet (x :: met) < S.unmet met := by
  refine countP_lt_countP (a := x) ?_ (S.finite.choose_spec x hx) (by simpa using h) (by simp)
  intro y _
  simp only [List.mem_cons, decide_eq_true_eq]
  exact fun hy hmet => hy (.inr hmet)

/-- The states met so far, the last first, and those that are met from the queue. -/
def visitsFrom (S : Space α) (met queue : List α) (h : ∀ x ∈ queue, S.Within x) : List α :=
  match queue, h with
  | [], _ => met.reverse
  | x :: rest, h =>
    if _hx : x ∈ met then S.visitsFrom met rest fun y hy => h y (List.mem_cons_of_mem x hy)
    else
      S.visitsFrom (x :: met) (rest ++ S.next x) fun y hy =>
        (List.mem_append.1 hy).elim (fun hy => h y (List.mem_cons_of_mem x hy))
          (S.closed x (h x List.mem_cons_self) y)
termination_by (S.unmet met, queue.length)
decreasing_by
  · exact Prod.Lex.right _ (by simp)
  · exact Prod.Lex.left _ _ (unmet_cons_lt (h x List.mem_cons_self) _hx)

/-- **The states that are met from the starts**, in the order in which they are met. -/
def visits (S : Space α) (starts : List α) (h : ∀ x ∈ starts, S.Within x) : List α :=
  S.visitsFrom [] starts h

end Space

end Search

end ProgramFacts
