import ProgramFacts.Proofs.Search
import ProgramFacts.Proofs.Table.Bag
import ProgramFacts.Table.Group
/-!
# Groups of tables — nothing is lost by joining apart

Joining all tables and joining group by group come to the same: either way the
results have no synonym in common, have together the synonyms of the tables, and hold
together where all the tables hold (`Joined`). For groups this rests on links being
mutual, so that a group is a whole component of the graph of links, and on a
component being left only along a link.
-/

namespace ProgramFacts

namespace Table

/-! ## Joining all of a list -/

/-- One list of tables as the outcome of joining those of another. -/
structure Joined (ts us : List Table) : Prop where
  regular : ∀ u ∈ us, u.Regular
  apart : us.Pairwise Apart
  has_iff : ∀ s, (∃ u ∈ us, u.has s) ↔ ∃ t ∈ ts, t.has s
  holds_iff : ∀ ρ, (∀ u ∈ us, u.Holds ρ) ↔ ∀ t ∈ ts, t.Holds ρ

/-- **All tables in one.** -/
theorem joined_joinOne {ts : List Table} (hts : ∀ t ∈ ts, t.Regular) : Joined ts (joinOne ts) := by
  cases ts with
  | nil => exact ⟨by simp [joinOne, joinAll?], by simp [joinOne, joinAll?], by simp [joinOne, joinAll?],
      by simp [joinOne, joinAll?]⟩
  | cons t ts =>
    have h : BagJoin (t :: ts) (ts.foldl join t) := .of_joinAll? hts rfl
    exact ⟨by simpa [joinOne, joinAll?] using h.regular, by simp [joinOne, joinAll?],
      by simpa [joinOne, joinAll?] using h.has_iff, by simpa [joinOne, joinAll?] using h.holds_iff⟩

/-! ## Links -/

variable {ts : List Table} {sort : Bool} {i j : Nat}

theorem shares_iff {t u : Table} : t.shares u ↔ ∃ s, t.has s ∧ u.has s := by
  simp only [shares, List.any_eq_true, mem_synonyms]

/-- Two places are linked if they differ and their tables share a synonym. -/
theorem linked_iff : linked ts i j ↔
    i ≠ j ∧ ∃ t u s, ts[i]? = some t ∧ ts[j]? = some u ∧ t.has s ∧ u.has s := by
  simp only [linked, Bool.and_eq_true, decide_eq_true_eq]
  refine and_congr_right fun _ => ?_
  cases hi : ts[i]? <;> cases hj : ts[j]? <;> simp [shares_iff]

theorem linked_symm (h : linked ts i j) : linked ts j i := by
  obtain ⟨hne, t, u, s, hi, hj, ht, hu⟩ := linked_iff.1 h
  exact linked_iff.2 ⟨hne.symm, u, t, s, hj, hi, hu, ht⟩

/-- The order of heights loses no place. -/
theorem mem_byHeight {places : List Nat} : i ∈ byHeight ts sort places ↔ i ∈ places := by
  unfold byHeight
  split
  · exact (List.mergeSort_perm _ _).mem_iff
  · exact Iff.rfl

/-- The neighbours of a place are those that it is linked to. -/
theorem mem_neighbours : j ∈ neighbours ts sort i ↔ linked ts i j := by
  rw [neighbours, mem_byHeight, List.mem_filter, List.mem_range, and_iff_right_iff_imp]
  intro h
  obtain ⟨-, -, u, -, -, hj, -, -⟩ := linked_iff.1 h
  exact (List.getElem?_eq_some_iff.1 hj).1

/-- Whether links lead from one place to another. -/
def Connected (ts : List Table) : Nat → Nat → Prop :=
  Relation.ReflTransGen fun i j => linked ts i j = true

theorem Connected.symm (h : Connected ts i j) : Connected ts j i := by
  induction h with
  | refl => exact .refl
  | tail _ hlink ih => exact .head (linked_symm hlink) ih

/-- **A group is a component.** -/
theorem mem_groupOf {i : Fin ts.length} : j ∈ groupOf ts sort i ↔ Connected ts i j := by
  have hleads : (linkSpace ts sort).Leads = fun i j => linked ts i j = true := by
    funext i j
    exact propext mem_neighbours
  rw [groupOf, Search.Space.mem_visits, Search.Space.Reaches, hleads]
  simp [Connected]

/-! ## Groups -/

/-- Places that no link leads out of. -/
def Closed (ts : List Table) (done : List Nat) : Prop :=
  ∀ i ∈ done, ∀ j, linked ts i j → j ∈ done

/-- What is closed has all that is connected to it. -/
theorem Closed.connected {done : List Nat} (h : Closed ts done) (hi : i ∈ done)
    (hij : Connected ts i j) : j ∈ done := by
  induction hij with
  | refl => exact hi
  | tail _ hlink ih => exact h _ ih _ hlink

/-- A group is closed. -/
theorem closed_groupOf {i : Fin ts.length} : Closed ts (groupOf ts sort i) := by
  intro j hj k hlink
  rw [mem_groupOf] at hj ⊢
  exact hj.tail hlink

theorem Closed.append {group done : List Nat} (hgroup : Closed ts group) (hdone : Closed ts done) :
    Closed ts (group ++ done) := by
  intro j hj k hlink
  rcases List.mem_append.1 hj with hj | hj
  · exact List.mem_append_left _ (hgroup j hj k hlink)
  · exact List.mem_append_right _ (hdone j hj k hlink)

/-- What is known of the groups that are found once some places are done with. -/
structure Grouping (ts : List Table) (done places : List Nat) (groups : List (List Nat)) :
    Prop where
  closed : ∀ group ∈ groups, Closed ts group
  fresh : ∀ group ∈ groups, ∀ i ∈ group, i < ts.length ∧ i ∉ done
  nonempty : ∀ group ∈ groups, group ≠ []
  disjoint : groups.Pairwise fun group group' => ∀ i ∈ group, i ∉ group'
  covers : ∀ i ∈ places, i < ts.length → i ∈ done ∨ ∃ group ∈ groups, i ∈ group

/-- A place is in the group that is found from it, and a group found from a fresh place
is fresh. -/
theorem fresh_of_mem_groupOf {done : List Nat} (hdone : Closed ts done) {i : Fin ts.length}
    (hi : i.val ∉ done) (hj : j ∈ groupOf ts sort i) : j < ts.length ∧ j ∉ done := by
  rw [mem_groupOf] at hj
  refine ⟨?_, fun hjd => hi (hdone.connected hjd hj.symm)⟩
  rcases Relation.ReflTransGen.cases_tail hj with rfl | ⟨k, -, hlink⟩
  · exact i.isLt
  · exact lt_of_mem_neighbours ts (mem_neighbours.2 hlink : j ∈ neighbours ts sort k)

/-- **The groups part the places that are not done with.** -/
theorem grouping_groupsFrom {done places : List Nat} (hdone : Closed ts done) :
    Grouping ts done places (groupsFrom ts sort done places) := by
  induction places generalizing done with
  | nil => exact ⟨by simp [groupsFrom], by simp [groupsFrom], by simp [groupsFrom],
      by simp [groupsFrom], by simp⟩
  | cons i places ih =>
    rw [groupsFrom]
    split
    -- a place not yet in a group opens one, and the rest is grouped with it done
    · next h =>
      have hgroup : Closed ts (groupOf ts sort ⟨i, h.1⟩) := closed_groupOf
      have hself : i ∈ groupOf ts sort ⟨i, h.1⟩ := mem_groupOf.2 .refl
      have ih := ih (hgroup.append hdone)
      refine ⟨?_, ?_, ?_, ?_, ?_⟩
      · rintro group (_ | ⟨_, hmem⟩)
        · exact hgroup
        · exact ih.closed group hmem
      · rintro group (_ | ⟨_, hmem⟩) j hj
        · exact fresh_of_mem_groupOf hdone h.2 hj
        · obtain ⟨hlt, hnot⟩ := ih.fresh group hmem j hj
          exact ⟨hlt, fun hjd => hnot (List.mem_append_right _ hjd)⟩
      · rintro group (_ | ⟨_, hmem⟩)
        · exact List.ne_nil_of_mem hself
        · exact ih.nonempty group hmem
      · refine List.pairwise_cons.2 ⟨fun group hmem j hj hj' => ?_, ih.disjoint⟩
        exact (ih.fresh group hmem j hj').2 (List.mem_append_left _ hj)
      · rintro j (_ | ⟨_, hmem⟩) hlt
        · exact .inr ⟨_, List.mem_cons_self, hself⟩
        · rcases ih.covers j hmem hlt with hdone' | ⟨group, hgroup', hj⟩
          · rcases List.mem_append.1 hdone' with hj | hj
            · exact .inr ⟨_, List.mem_cons_self, hj⟩
            · exact .inl hj
          · exact .inr ⟨group, List.mem_cons_of_mem _ hgroup', hj⟩
    -- a place that is done, or no place of `ts`, is passed over
    · next h =>
      have ih := ih hdone
      refine ⟨ih.closed, ih.fresh, ih.nonempty, ih.disjoint, ?_⟩
      rintro j (_ | ⟨_, hmem⟩) hlt
      · exact .inl (Classical.byContradiction fun hnot => h ⟨hlt, hnot⟩)
      · exact ih.covers j hmem hlt

/-- **The groups of all tables**: disjoint, each closed under links, and every place is
in one. -/
theorem grouping_groupPlaces :
    Grouping ts [] (List.range ts.length) (groupPlaces ts sort) := by
  have h : Grouping ts [] (byHeight ts sort (List.range ts.length)) (groupPlaces ts sort) :=
    grouping_groupsFrom (by simp [Closed])
  exact ⟨h.closed, h.fresh, h.nonempty, h.disjoint, fun i hi => h.covers i (mem_byHeight.2 hi)⟩

/-! ## Joined groups -/

/-- The tables at the places of a group. -/
theorem mem_tablesAt {places : List Nat} {t : Table} :
    t ∈ places.filterMap (ts[·]?) ↔ ∃ i ∈ places, ts[i]? = some t :=
  List.mem_filterMap

/-- A group is joined to the join of its tables. -/
theorem bagJoin_group (hts : ∀ t ∈ ts, t.Regular) {places : List Nat} {u : Table}
    (h : joinAll? (places.filterMap (ts[·]?)) = some u) :
    BagJoin (places.filterMap (ts[·]?)) u := by
  refine .of_joinAll? (fun t ht => ?_) h
  obtain ⟨i, -, hi⟩ := mem_tablesAt.1 ht
  exact hts t (List.mem_of_getElem? hi)

/-- What a group is joined to. -/
theorem joinAll?_group (hts : ∀ t ∈ ts, t.Regular) {places : List Nat} {u : Table}
    (h : joinAll? (places.filterMap (ts[·]?)) = some u) :
    u.Regular ∧ (∀ s, u.has s ↔ ∃ i ∈ places, ∃ t, ts[i]? = some t ∧ t.has s) ∧
      ∀ ρ, u.Holds ρ ↔ ∀ i ∈ places, ∀ t, ts[i]? = some t → t.Holds ρ := by
  have hu := bagJoin_group hts h
  refine ⟨hu.regular, fun s => ?_, fun ρ => ?_⟩
  · rw [hu.has_iff]
    simp only [mem_tablesAt]
    constructor
    · rintro ⟨t, ⟨i, hi, hit⟩, hs⟩
      exact ⟨i, hi, t, hit, hs⟩
    · rintro ⟨i, hi, t, hit, hs⟩
      exact ⟨t, ⟨i, hi, hit⟩, hs⟩
  · rw [hu.holds_iff]
    simp only [mem_tablesAt]
    exact ⟨fun h i hi t hit => h t ⟨i, hi, hit⟩, fun h t ⟨i, hi, hit⟩ => h i hi t hit⟩

/-- A group that is not empty is joined to something. -/
theorem exists_joinAll?_group {done places : List Nat} {groups : List (List Nat)}
    (h : Grouping ts done places groups) {group : List Nat} (hgroup : group ∈ groups) :
    ∃ u, joinAll? (group.filterMap (ts[·]?)) = some u := by
  obtain ⟨i, hi⟩ := List.exists_mem_of_ne_nil group (h.nonempty group hgroup)
  have hlt := (h.fresh group hgroup i hi).1
  have hmem : ts[i] ∈ group.filterMap (ts[·]?) :=
    mem_tablesAt.2 ⟨i, hi, List.getElem?_eq_getElem hlt⟩
  cases hlist : group.filterMap (ts[·]?) with
  | nil => rw [hlist] at hmem; cases hmem
  | cons t rest => exact ⟨_, rfl⟩

/-- **The tables of each group in one.** -/
theorem joined_joinGroups (hts : ∀ t ∈ ts, t.Regular) : Joined ts (joinGroups ts sort) := by
  have hgroups : Grouping ts [] (List.range ts.length) (groupPlaces ts sort) :=
    grouping_groupPlaces
  have hplace : ∀ {t}, t ∈ ts → ∃ group ∈ groupPlaces ts sort, ∃ i ∈ group, ts[i]? = some t := by
    intro t ht
    obtain ⟨i, hi, rfl⟩ := List.getElem_of_mem ht
    rcases hgroups.covers i (List.mem_range.2 hi) hi with hnil | ⟨group, hgroup, hmem⟩
    · cases hnil
    · exact ⟨group, hgroup, i, hmem, List.getElem?_eq_getElem hi⟩
  refine ⟨?_, ?_, fun s => ?_, fun ρ => ?_⟩
  · intro u hu
    obtain ⟨group, -, hjoin⟩ := List.mem_filterMap.1 hu
    exact (joinAll?_group hts hjoin).1
  · rw [joinGroups, List.pairwise_filterMap]
    refine hgroups.disjoint.imp_of_mem fun {group group'} hgroup hgroup' hdisjoint => ?_
    intro u hu u' hu' s hs hs'
    obtain ⟨i, hi, t, hit, ht⟩ := ((joinAll?_group hts hu).2.1 s).1 hs
    obtain ⟨i', hi', t', hit', ht'⟩ := ((joinAll?_group hts hu').2.1 s).1 hs'
    -- the two places differ and share a synonym, so a link leads out of the first group
    have hne : i ≠ i' := fun h => hdisjoint i hi (h ▸ hi')
    have hlink : linked ts i i' := linked_iff.2 ⟨hne, t, t', s, hit, hit', ht, ht'⟩
    exact hdisjoint i' (hgroups.closed group hgroup i hi i' hlink) hi'
  · constructor
    · rintro ⟨u, hu, hs⟩
      obtain ⟨group, -, hjoin⟩ := List.mem_filterMap.1 hu
      obtain ⟨i, -, t, hit, ht⟩ := ((joinAll?_group hts hjoin).2.1 s).1 hs
      exact ⟨t, List.mem_of_getElem? hit, ht⟩
    · rintro ⟨t, ht, hs⟩
      obtain ⟨group, hgroup, i, hi, hit⟩ := hplace ht
      obtain ⟨u, hjoin⟩ := exists_joinAll?_group hgroups hgroup
      exact ⟨u, List.mem_filterMap.2 ⟨group, hgroup, hjoin⟩,
        ((joinAll?_group hts hjoin).2.1 s).2 ⟨i, hi, t, hit, hs⟩⟩
  · constructor
    · intro h t ht
      obtain ⟨group, hgroup, i, hi, hit⟩ := hplace ht
      obtain ⟨u, hjoin⟩ := exists_joinAll?_group hgroups hgroup
      have hu := h u (List.mem_filterMap.2 ⟨group, hgroup, hjoin⟩)
      exact ((joinAll?_group hts hjoin).2.2 ρ).1 hu i hi t hit
    · intro h u hu
      obtain ⟨group, -, hjoin⟩ := List.mem_filterMap.1 hu
      exact ((joinAll?_group hts hjoin).2.2 ρ).2 fun i _ t hit => h t (List.mem_of_getElem? hit)

end Table

end ProgramFacts
