import Mathlib.Data.List.Induction
import Mathlib.Data.List.Nodup
import Mathlib.Order.Lattice
/-!
# Lists — first occurrences and stable sorting

`List.eraseDups` keeps the items that have not come before (`eraseDups_eq_map`). A stable sort by
keys leaves items with one key as they are (`filter_mergeSort`), so they come out in the order that
they had before (`pairwise_mergeSort_of_pairwise`). What a sorted list has of each key determines it
(`eq_of_filter_eq`), and to drop repetitions is to drop them among the items of each key; hence they
can be dropped before sorting or after (`eraseDups_mergeSort`).
-/

namespace ProgramFacts

namespace Sorting

variable {α : Type}

/-! ## First occurrences -/

section FirstOccurrences

variable [DecidableEq α] {l : List α}

/-- One more item is kept if it is new. -/
theorem eraseDups_concat (l : List α) (a : α) :
    (l ++ [a]).eraseDups = if a ∈ l then l.eraseDups else l.eraseDups ++ [a] := by
  rw [List.eraseDups_append]
  by_cases ha : a ∈ l <;> simp [List.removeAll, ha, List.eraseDups_cons]

theorem nodup_eraseDups (l : List α) : l.eraseDups.Nodup := by
  induction l using List.reverseRecOn with
  | nil => simp
  | append_singleton l a ih =>
    rw [eraseDups_concat]
    split
    · exact ih
    · next ha =>
      rw [← List.concat_eq_append]
      exact List.Nodup.concat (mt List.mem_eraseDups.1 ha) ih

theorem eraseDups_sublist (l : List α) : l.eraseDups.Sublist l := by
  induction l using List.reverseRecOn with
  | nil => simp
  | append_singleton l a ih =>
    rw [eraseDups_concat]
    split
    · exact ih.trans (List.sublist_append_left l [a])
    · exact ih.append_right [a]

theorem eraseDups_of_nodup (h : l.Nodup) : l.eraseDups = l :=
  (eraseDups_sublist l).eq_of_length
    ((List.perm_ext_iff_of_nodup (nodup_eraseDups l) h).2 fun _ => List.mem_eraseDups).length_eq

/-- Repetitions can be dropped before a choice or after. -/
theorem filter_eraseDups (p : α → Bool) (l : List α) :
    l.eraseDups.filter p = (l.filter p).eraseDups := by
  induction l using List.reverseRecOn with
  | nil => rfl
  | append_singleton l a ih =>
    rw [eraseDups_concat, List.filter_append]
    cases ha : p a with
    | true =>
      have hmem : a ∈ l.filter p ↔ a ∈ l := by simp [ha]
      rw [List.filter_singleton, ha, Bool.cond_true, eraseDups_concat]
      simp only [hmem]
      split
      · exact ih
      · rw [List.filter_append, List.filter_singleton, ha, ih, Bool.cond_true]
    | false =>
      rw [List.filter_singleton, ha, Bool.cond_false, List.append_nil, ← ih]
      split
      · rfl
      · rw [List.filter_append, List.filter_singleton, ha, Bool.cond_false, List.append_nil]

/-- **What is kept are the first occurrences**, in the order of the list. -/
theorem eraseDups_eq_map (l : List α) :
    l.eraseDups = (l.zipIdx.filter fun x => x.1 ∉ l.take x.2).map Prod.fst := by
  induction l using List.reverseRecOn with
  | nil => rfl
  | append_singleton l a ih =>
    have hbefore : (l.zipIdx.filter fun x => x.1 ∉ (l ++ [a]).take x.2) =
        l.zipIdx.filter fun x => x.1 ∉ l.take x.2 := by
      refine List.filter_congr fun x hx => ?_
      have hlt := List.snd_lt_of_mem_zipIdx hx
      rw [List.take_append_of_le_length (by omega)]
    rw [eraseDups_concat, List.zipIdx_append, List.filter_append, List.map_append, hbefore, ← ih]
    by_cases ha : a ∈ l <;> simp [ha]

end FirstOccurrences

/-! ## Stable sorting -/

section StableSorting

variable {κ : Type} [LinearOrder κ] {key : α → κ} {l l' : List α}

/-- Items compared by their keys. -/
def byKey (key : α → κ) (a b : α) : Bool :=
  key a ≤ key b

theorem byKey_iff {a b : α} : byKey key a b ↔ key a ≤ key b :=
  decide_eq_true_iff

theorem byKey_trans (key : α → κ) (a b c : α) (hab : byKey key a b) (hbc : byKey key b c) :
    byKey key a c :=
  byKey_iff.2 (le_trans (byKey_iff.1 hab) (byKey_iff.1 hbc))

theorem byKey_total (key : α → κ) (a b : α) : byKey key a b || byKey key b a := by
  rw [Bool.or_eq_true, byKey_iff, byKey_iff]
  exact le_total (key a) (key b)

theorem pairwise_mergeSort (key : α → κ) (l : List α) :
    (l.mergeSort (byKey key)).Pairwise fun a b => key a ≤ key b :=
  (List.pairwise_mergeSort (byKey_trans key) (byKey_total key) l).imp byKey_iff.1

/-- **Items with one key stay in order.** -/
theorem filter_mergeSort (key : α → κ) (k : κ) (l : List α) :
    (l.mergeSort (byKey key)).filter (key · = k) = l.filter (key · = k) := by
  have hpairwise : (l.filter (key · = k)).Pairwise fun a b => byKey key a b := by
    refine List.pairwise_of_forall_mem_list fun a ha b hb => byKey_iff.2 (le_of_eq ?_)
    rw [of_decide_eq_true (List.mem_filter.1 ha).2, of_decide_eq_true (List.mem_filter.1 hb).2]
  have hsub : (l.filter (key · = k)).Sublist ((l.mergeSort (byKey key)).filter (key · = k)) := by
    have := List.sublist_mergeSort (byKey_trans key) (byKey_total key) hpairwise List.filter_sublist
    simpa using this.filter (key · = k)
  have hlength := ((List.mergeSort_perm l (byKey key)).filter (key · = k)).length_eq
  exact (hsub.eq_of_length hlength.symm).symm

/-- **A sorted list is determined by what it has of each key.** -/
theorem eq_of_filter_eq (h : l.Pairwise fun a b => key a ≤ key b)
    (h' : l'.Pairwise fun a b => key a ≤ key b)
    (hkeys : ∀ k, l.filter (key · = k) = l'.filter (key · = k)) : l = l' := by
  induction l generalizing l' with
  | nil =>
    cases l' with
    | nil => rfl
    | cons b l' => simpa using hkeys (key b)
  | cons a l ih =>
    cases l' with
    | nil => simpa using hkeys (key a)
    | cons b l' =>
      have hmem : ∀ c, c ∈ a :: l ↔ c ∈ b :: l' := fun c => by
        have hc : ∀ l : List α, c ∈ l.filter (key · = key c) ↔ c ∈ l := by simp
        rw [← hc (a :: l), hkeys, hc]
      -- both lists start with their least key, and with the first item that has it
      have hab : key a = key b := by
        apply le_antisymm
        · rcases List.mem_cons.1 ((hmem b).2 List.mem_cons_self) with rfl | hb
          · exact le_refl _
          · exact List.rel_of_pairwise_cons h hb
        · rcases List.mem_cons.1 ((hmem a).1 List.mem_cons_self) with rfl | ha
          · exact le_refl _
          · exact List.rel_of_pairwise_cons h' ha
      have hfirst := hkeys (key a)
      rw [List.filter_cons_of_pos (by simp), List.filter_cons_of_pos (by simp [hab])] at hfirst
      obtain ⟨rfl, -⟩ := List.cons.inj hfirst
      refine congrArg (a :: ·) (ih h.of_cons h'.of_cons fun k => ?_)
      have hk := hkeys k
      by_cases hak : key a = k <;> simpa [hak] using hk

/-- **Repetitions can be dropped before sorting or after.** -/
theorem eraseDups_mergeSort [DecidableEq α] (key : α → κ) (l : List α) :
    (l.mergeSort (byKey key)).eraseDups = l.eraseDups.mergeSort (byKey key) := by
  refine eq_of_filter_eq ((pairwise_mergeSort key l).sublist (eraseDups_sublist _))
    (pairwise_mergeSort key l.eraseDups) fun k => ?_
  rw [filter_eraseDups, filter_mergeSort, filter_mergeSort, filter_eraseDups]

/-- **Sorting goes by keys, and by the order before among items with one key.** -/
theorem pairwise_mergeSort_of_pairwise {R : α → α → Prop} (h : l.Pairwise R) :
    (l.mergeSort (byKey key)).Pairwise fun a b => key a < key b ∨ key a = key b ∧ R a b := by
  refine List.pairwise_iff_forall_sublist.2 fun {a b} hab => ?_
  have hle := List.pairwise_iff_forall_sublist.1 (pairwise_mergeSort key l) hab
  rcases lt_or_eq_of_le hle with hlt | heq
  · exact .inl hlt
  · have hclass := hab.filter (key · = key b)
    rw [filter_mergeSort, List.filter_eq_self.2 (by simp [heq])] at hclass
    exact .inr ⟨heq, List.pairwise_iff_forall_sublist.1 h (hclass.trans List.filter_sublist)⟩

end StableSorting

end Sorting

end ProgramFacts
