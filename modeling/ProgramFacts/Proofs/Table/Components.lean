import ProgramFacts.Proofs.Table.Group
import Mathlib.Combinatorics.SimpleGraph.Connectivity.Connected
/-!
# Groups of tables — components and bags

The groups of some tables are the components of the graph in which tables that share a synonym
are adjacent, one group for each component (`exists_component_equiv`). Every table is in exactly
one group, once. Hence the product of the groups and the join of all tables are joins of the same
tables, and have the same rows with the same repetitions.
-/

namespace ProgramFacts

namespace Table

variable {ts : List Table} {sort : Bool}

/-! ## The graph of tables -/

/-- **The graph of tables**: two of them are adjacent if they share a synonym. -/
def linkGraph (ts : List Table) : SimpleGraph (Fin ts.length) where
  Adj i j := i ≠ j ∧ ∃ s, ts[i].has s ∧ ts[j].has s
  symm := ⟨fun _ _ ⟨hne, s, hi, hj⟩ => ⟨hne.symm, s, hj, hi⟩⟩
  loopless := ⟨fun i h => h.1 rfl⟩

theorem linkGraph_adj {i j : Fin ts.length} : (linkGraph ts).Adj i j ↔ linked ts i j := by
  rw [linked_iff]
  simp [linkGraph, Fin.ext_iff]

theorem lt_of_linked {i j : Nat} (h : linked ts i j) : j < ts.length :=
  lt_of_mem_neighbours ts (mem_neighbours.2 h : j ∈ neighbours ts false i)

/-- Links lead where the graph does. -/
theorem reachable_iff {i j : Fin ts.length} : (linkGraph ts).Reachable i j ↔ Connected ts i j := by
  rw [SimpleGraph.reachable_iff_reflTransGen]
  constructor
  · intro h
    exact h.lift Fin.val fun _ _ => linkGraph_adj.1
  · intro h
    have hpath : ∀ k (hk : k < ts.length), Connected ts i k →
        Relation.ReflTransGen (linkGraph ts).Adj i ⟨k, hk⟩ := by
      intro k hk h
      induction h with
      | refl => exact .refl
      | @tail l k _ hlink ih =>
        have hl : l < ts.length := lt_of_linked (linked_symm hlink)
        exact (ih hl).tail (linkGraph_adj.2 hlink)
    exact hpath j j.isLt h

/-! ## Groups and components -/

/-- A group is all that is connected to one of its places. -/
theorem exists_groupOf {done places group : List Nat}
    (h : group ∈ groupsFrom ts sort done places) : ∃ i, group = groupOf ts sort i := by
  induction places generalizing done with
  | nil => cases h
  | cons i places ih =>
    rw [groupsFrom] at h
    split at h
    · rcases List.mem_cons.1 h with rfl | h
      · exact ⟨_, rfl⟩
      · exact ih h
    · exact ih h

/-- No place is twice in a group. -/
theorem nodup_groupOf (i : Fin ts.length) : (groupOf ts sort i).Nodup :=
  Search.Space.tours_visitsFrom.nodup List.nodup_nil

/-- No place is in two groups. -/
theorem group_unique {k l : Fin (groupPlaces ts sort).length} {i : Nat}
    (hk : i ∈ (groupPlaces ts sort)[k]) (hl : i ∈ (groupPlaces ts sort)[l]) : k = l := by
  have hdisjoint := List.pairwise_iff_getElem.1
    (grouping_groupPlaces : Grouping ts [] _ (groupPlaces ts sort)).disjoint
  rcases Nat.lt_trichotomy k l with hlt | heq | hgt
  · exact absurd hl (hdisjoint k l k.isLt l.isLt hlt i hk)
  · exact Fin.ext heq
  · exact absurd hk (hdisjoint l k l.isLt k.isLt hgt i hl)

/-- **The groups of places are the components.** -/
theorem exists_place_equiv (ts : List Table) (sort : Bool) : ∃ component :
    Fin (groupPlaces ts sort).length ≃ (linkGraph ts).ConnectedComponent,
    ∀ k (i : Fin ts.length), i.val ∈ (groupPlaces ts sort)[k] ↔
      (linkGraph ts).connectedComponentMk i = component k := by
  have hgroups : Grouping ts [] (List.range ts.length) (groupPlaces ts sort) :=
    grouping_groupPlaces
  have hseed : ∀ k : Fin (groupPlaces ts sort).length,
      ∃ i, (groupPlaces ts sort)[k] = groupOf ts sort i :=
    fun k => exists_groupOf (List.getElem_mem k.isLt)
  choose seed hseed using hseed
  have hmem : ∀ k (i : Fin ts.length), i.val ∈ (groupPlaces ts sort)[k] ↔
      (linkGraph ts).connectedComponentMk i = (linkGraph ts).connectedComponentMk (seed k) := by
    intro k i
    rw [hseed, mem_groupOf, SimpleGraph.ConnectedComponent.eq, ← reachable_iff]
    exact SimpleGraph.reachable_comm
  refine ⟨.ofBijective (fun k => (linkGraph ts).connectedComponentMk (seed k)) ⟨?_, ?_⟩, hmem⟩
  · intro k l heq
    exact group_unique ((hmem k (seed k)).2 rfl) ((hmem l (seed k)).2 heq)
  · intro c
    obtain ⟨i, rfl⟩ := c.exists_rep
    rcases hgroups.covers i (List.mem_range.2 i.isLt) i.isLt with hnil | ⟨group, hgroup, hi⟩
    · cases hnil
    · obtain ⟨k, hk, rfl⟩ := List.getElem_of_mem hgroup
      exact ⟨⟨k, hk⟩, ((hmem ⟨k, hk⟩ i).1 hi).symm⟩

/-! ## Joined groups -/

theorem forall₂_filterMap {α β : Type} {f : α → Option β} {l : List α}
    (h : ∀ a ∈ l, ∃ b, f a = some b) : List.Forall₂ (fun a b => f a = some b) l (l.filterMap f) := by
  induction l with
  | nil => exact .nil
  | cons a l ih =>
    obtain ⟨⟨b, hb⟩, hl⟩ := List.forall_mem_cons.1 h
    rw [List.filterMap_cons_some hb]
    exact .cons hb (ih hl)

/-- Every group is joined to one table. -/
theorem forall₂_joinGroups : List.Forall₂
    (fun places u => joinAll? (places.filterMap (ts[·]?)) = some u)
    (groupPlaces ts sort) (joinGroups ts sort) :=
  forall₂_filterMap fun _ hgroup => exists_joinAll?_group grouping_groupPlaces hgroup

/-- **One table for each component**, with the synonyms of the tables in it. -/
theorem exists_component_equiv (hts : ∀ t ∈ ts, t.Regular) : ∃ component :
    Fin (joinGroups ts sort).length ≃ (linkGraph ts).ConnectedComponent,
    ∀ k s, (joinGroups ts sort)[k].has s ↔
      ∃ i, (linkGraph ts).connectedComponentMk i = component k ∧ ts[i].has s := by
  have hjoin : List.Forall₂ _ (groupPlaces ts sort) (joinGroups ts sort) := forall₂_joinGroups
  obtain ⟨component, hcomponent⟩ := exists_place_equiv ts sort
  refine ⟨(finCongr hjoin.length_eq.symm).trans component, fun k s => ?_⟩
  have hk : k.val < (groupPlaces ts sort).length := by
    rw [hjoin.length_eq]
    exact k.isLt
  have hplaces := hcomponent ⟨k, hk⟩
  refine ((joinAll?_group hts (hjoin.get hk k.isLt)).2.1 s).trans ⟨?_, ?_⟩
  · rintro ⟨i, hi, t, hit, ht⟩
    obtain ⟨hlt, rfl⟩ := List.getElem?_eq_some_iff.1 hit
    exact ⟨⟨i, hlt⟩, (hplaces ⟨i, hlt⟩).1 hi, ht⟩
  · rintro ⟨i, hi, ht⟩
    exact ⟨i, (hplaces i).2 hi, ts[i], List.getElem?_eq_getElem i.isLt, ht⟩

/-- **Every place is in one group, once.** -/
theorem flatten_groupPlaces_perm (ts : List Table) (sort : Bool) :
    (groupPlaces ts sort).flatten.Perm (List.range ts.length) := by
  have hgroups : Grouping ts [] (List.range ts.length) (groupPlaces ts sort) :=
    grouping_groupPlaces
  have hnodup : (groupPlaces ts sort).flatten.Nodup := by
    refine List.nodup_flatten.2 ⟨fun group hgroup => ?_, ?_⟩
    · obtain ⟨i, rfl⟩ := exists_groupOf hgroup
      exact nodup_groupOf i
    · exact hgroups.disjoint.imp fun h i hi hi' => h i hi hi'
  refine (List.perm_ext_iff_of_nodup hnodup List.nodup_range).2 fun i => ?_
  rw [List.mem_flatten, List.mem_range]
  constructor
  · rintro ⟨group, hgroup, hi⟩
    exact (hgroups.fresh group hgroup i hi).1
  · intro hi
    exact (hgroups.covers i (List.mem_range.2 hi) hi).resolve_left List.not_mem_nil

theorem filterMap_range_getElem? (ts : List Table) :
    (List.range ts.length).filterMap (ts[·]?) = ts := by
  induction ts with
  | nil => rfl
  | cons t ts ih =>
    rw [List.length_cons, List.range_succ_eq_map, List.filterMap_cons, List.filterMap_map]
    exact congrArg (t :: ·) ih

/-- **What joins the groups joins the tables.** -/
theorem BagJoin.of_joinGroups (hts : ∀ t ∈ ts, t.Regular) {u : Table}
    (h : BagJoin (joinGroups ts sort) u) : BagJoin ts u := by
  have hgroup : List.Forall₂ BagJoin
      ((groupPlaces ts sort).map fun places => places.filterMap (ts[·]?)) (joinGroups ts sort) := by
    rw [List.forall₂_map_left_iff]
    exact forall₂_joinGroups.imp fun _ _ hu => bagJoin_group hts hu
  have hflatten := h.flatten hgroup
  rw [← List.filterMap_flatten] at hflatten
  have hperm := (flatten_groupPlaces_perm ts sort).filterMap (ts[·]?)
  rw [filterMap_range_getElem?] at hperm
  exact hflatten.perm hperm

/-- Tables are never joined to nothing. -/
theorem joinGroups_ne_nil (hts : ts ≠ []) : joinGroups ts sort ≠ [] := by
  intro hnil
  have hjoin : List.Forall₂ _ (groupPlaces ts sort) (joinGroups ts sort) := forall₂_joinGroups
  rw [hnil, List.forall₂_nil_right_iff] at hjoin
  have hperm := flatten_groupPlaces_perm ts sort
  rw [hjoin, List.flatten_nil, List.nil_perm, List.range_eq_nil, List.length_eq_zero_iff] at hperm
  exact hts hperm

theorem Apart.symm {t u : Table} (h : t.Apart u) : u.Apart t :=
  fun s hu ht => h s ht hu

/-- **Joining by groups is joining.** The tables that the groups are joined to have no synonym in
common, and there is one of them for each component of the graph of tables. Their product, in
whatever order, has the same rows as the join of all tables, with the same repetitions. -/
theorem joinGroups_exact (hts : ∀ t ∈ ts, t.Regular) (sort : Bool) :
    (joinGroups ts sort).Pairwise Apart ∧
    (∃ component : Fin (joinGroups ts sort).length ≃ (linkGraph ts).ConnectedComponent,
      ∀ k s, (joinGroups ts sort)[k].has s ↔
        ∃ i, (linkGraph ts).connectedComponentMk i = component k ∧ ts[i].has s) ∧
    (ts ≠ [] → ∃ m, joinOne ts = [m] ∧ ∀ us : List Table, us.Perm (joinGroups ts sort) →
      (us.foldl cross empty).synonyms = m.synonyms ∧
        (us.foldl cross empty).rows.Perm m.rows) := by
  have hjoined : Joined ts (joinGroups ts sort) := joined_joinGroups hts
  refine ⟨hjoined.apart, exists_component_equiv hts, fun hne => ?_⟩
  obtain ⟨t, rest, rfl⟩ := List.exists_cons_of_ne_nil hne
  refine ⟨rest.foldl join t, rfl, fun us hus => ?_⟩
  have hregular : ∀ u ∈ us, u.Regular := fun u hu => hjoined.regular u (hus.mem_iff.1 hu)
  have hapart : us.Pairwise Apart := (hus.pairwise_iff Apart.symm).2 hjoined.apart
  have hne' : us ≠ [] := by
    rintro rfl
    exact joinGroups_ne_nil hne hus.symm.eq_nil
  have hproduct := (BagJoin.of_foldl_cross hne' hregular hapart).perm hus
  exact (hproduct.of_joinGroups hts).same_rows (.of_joinAll? hts rfl)

/-- Two tables that share a synonym, with rows that are repeated, and one that stands alone. -/
def twoAndOne : List Table :=
  [.single "v" [.name "x", .name "y", .name "x"], .single "p" [.name "main"],
    .pair "s" "v" [(.stmt 1, .name "x"), (.stmt 4, .name "x"), (.stmt 1, .name "x")]]

theorem regular_twoAndOne : ∀ t ∈ twoAndOne, t.Regular := by
  simp only [twoAndOne, List.forall_mem_cons]
  exact ⟨(regular_single ..).1, (regular_single ..).1, (regular_pair (by decide) _).1,
    fun _ h => absurd h List.not_mem_nil⟩

/-- Two tables that share a synonym, and one by itself. -/
theorem joinGroups_twoAndOne : ∃ m, joinOne twoAndOne = [m] ∧
    ∀ us : List Table, us.Perm (joinGroups twoAndOne true) →
      (us.foldl cross empty).synonyms = m.synonyms ∧ (us.foldl cross empty).rows.Perm m.rows :=
  (joinGroups_exact regular_twoAndOne true).2.2 (List.cons_ne_nil _ _)

end Table

end ProgramFacts
