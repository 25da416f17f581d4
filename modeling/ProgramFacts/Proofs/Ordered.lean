import Std.Data.ExtTreeMap
import Std.Data.ExtTreeSet
/-!
# Ordered sets and maps from lists

What is in a set that is built from a list and listed again is what was in the list.
A map that is built from a list whose keys are all different has exactly the entries
of the list.
-/

namespace ProgramFacts

namespace Ordered

variable {α β : Type} {cmp : α → α → Ordering} [Std.TransCmp cmp] [Std.LawfulEqCmp cmp]
variable [DecidableEq α]

theorem mem_toList_ofList {l : List α} {a : α} :
    a ∈ (Std.ExtTreeSet.ofList l cmp).toList ↔ a ∈ l := by
  rw [Std.ExtTreeSet.mem_toList, Std.ExtTreeSet.mem_ofList, List.contains_iff_mem]

theorem mem_ofList {l : List α} {a : α} : a ∈ Std.ExtTreeSet.ofList l cmp ↔ a ∈ l := by
  rw [Std.ExtTreeSet.mem_ofList, List.contains_iff_mem]

omit [DecidableEq α] [Std.LawfulEqCmp cmp] in
/-- Ascending lists are equal if they have the same items. -/
theorem eq_of_ascending {l l' : List α} (h : l.Pairwise fun a b => cmp a b = .lt)
    (h' : l'.Pairwise fun a b => cmp a b = .lt) (hmem : ∀ a, a ∈ l ↔ a ∈ l') : l = l' := by
  have hnodup : ∀ {l : List α}, l.Pairwise (fun a b => cmp a b = .lt) → l.Nodup := fun h =>
    h.imp fun hlt heq => by simp [heq, Std.ReflCmp.compare_self] at hlt
  refine List.Perm.eq_of_pairwise (fun a b _ _ hlt hgt => ?_) h h'
    ((List.perm_ext_iff_of_nodup (hnodup h) (hnodup h')).2 hmem)
  rw [Std.OrientedCmp.gt_of_lt hgt] at hlt
  cases hlt

omit [DecidableEq α] in
/-- **A map keeps the entries of a list** whose keys are all different. -/
theorem getElem?_ofList {l : List (α × β)} (h : (l.map Prod.fst).Nodup) {k : α} {v : β} :
    (Std.ExtTreeMap.ofList l cmp)[k]? = some v ↔ (k, v) ∈ l := by
  have hdistinct : l.Pairwise fun a b => ¬ cmp a.1 b.1 = .eq := by
    refine (List.pairwise_map.1 h).imp fun hne heq => hne ?_
    exact Std.LawfulEqCmp.eq_of_compare heq
  constructor
  · intro hv
    classical
    have hmem : k ∈ Std.ExtTreeMap.ofList l cmp :=
      Std.ExtTreeMap.mem_iff_isSome_getElem?.2 (by simp [hv])
    rw [Std.ExtTreeMap.mem_ofList, List.contains_iff_mem] at hmem
    obtain ⟨⟨k', v'⟩, hl, rfl⟩ := List.mem_map.1 hmem
    have hself : cmp k' k' = .eq := Std.ReflCmp.compare_self
    rw [Std.ExtTreeMap.getElem?_ofList_of_mem hself hdistinct hl] at hv
    exact Option.some.inj hv ▸ hl
  · exact fun hl => Std.ExtTreeMap.getElem?_ofList_of_mem Std.ReflCmp.compare_self hdistinct hl

/-- A map that is built from keys has what is said of each key, however often it is named. -/
theorem getElem?_ofList_map {keys : List α} {f : α → β} {k : α} :
    (Std.ExtTreeMap.ofList (keys.map fun a => (a, f a)) cmp)[k]? =
      if k ∈ keys then some (f k) else none := by
  have hinsert : ∀ m : Std.ExtTreeMap α β cmp,
      (m.insertMany (keys.map fun a => (a, f a)))[k]? = if k ∈ keys then some (f k) else m[k]? := by
    induction keys with
    | nil => simp
    | cons a keys ih =>
      intro m
      rw [List.map_cons, Std.ExtTreeMap.insertMany_cons, ih, Std.ExtTreeMap.getElem?_insert]
      by_cases hk : k = a
      · subst hk
        simp [Std.ReflCmp.compare_self]
      · have hne : ¬ cmp a k = .eq := fun heq => hk (Std.LawfulEqCmp.eq_of_compare heq).symm
        simp [hk, hne]
  rw [Std.ExtTreeMap.ofList_eq_insertMany_empty, hinsert]
  simp

omit [DecidableEq α] in
theorem nodup_toList {s : Std.ExtTreeSet α cmp} : s.toList.Nodup :=
  Std.ExtTreeSet.distinct_toList.imp fun {a b} hne (heq : a = b) =>
    hne (heq ▸ Std.ReflCmp.compare_self)

omit [DecidableEq α] in
/-- **A map keeps what some items say**, if each of them speaks of a key of its own. -/
theorem getElem?_ofList_filterMap {γ : Type} {l : List γ} {key : γ → α} {value : γ → Option β}
    (h : (l.map key).Nodup) {k : α} {v : β} :
    (Std.ExtTreeMap.ofList (l.filterMap fun x => (value x).map (key x, ·)) cmp)[k]? = some v ↔
      ∃ x ∈ l, key x = k ∧ value x = some v := by
  have hkeys : (l.filterMap fun x => (value x).map (key x, ·)).map Prod.fst =
      (l.filter fun x => (value x).isSome).map key := by
    clear h
    induction l with
    | nil => rfl
    | cons x l ih => cases hx : value x <;> simp [hx, ih]
  have hnodup : ((l.filterMap fun x => (value x).map (key x, ·)).map Prod.fst).Nodup := by
    rw [hkeys]
    exact (List.filter_sublist.map key).nodup h
  rw [getElem?_ofList hnodup, List.mem_filterMap]
  simp only [Option.map_eq_some_iff, Prod.mk.injEq]
  constructor
  · rintro ⟨x, hx, _, hv, rfl, rfl⟩
    exact ⟨x, hx, rfl, hv⟩
  · rintro ⟨x, hx, rfl, hv⟩
    exact ⟨x, hx, v, hv, rfl, rfl⟩

end Ordered

end ProgramFacts
