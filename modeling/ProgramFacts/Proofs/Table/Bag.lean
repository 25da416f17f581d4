import ProgramFacts.Proofs.Table.Join
import Mathlib.Algebra.BigOperators.Ring.List
import Mathlib.Algebra.GroupWithZero.Nat
/-!
# Tables as bags of rows

A row of a regular table is a map from its synonyms to values, and how often it is in the table is
what `Table.multiplicity` counts. So tables with the same synonyms and the same multiplicities have
the same rows, equally often (`Regular.rows_perm`). `BagJoin` says what it is to be the join of
several tables in this sense; as multiplicities are multiplied, the order of the tables and the way
they are put together make no difference.
-/

namespace ProgramFacts

namespace Table

variable {t u v : Table} {ts us : List Table} {ρ ρ' : Valuation}

/-! ## Rows -/

/-- Rows are equal if they have the same values for the synonyms. -/
theorem rowOf_eq_iff {names : List String} :
    rowOf names ρ = rowOf names ρ' ↔ ∀ s ∈ names, ρ s = ρ' s := by
  simp [rowOf]

/-- **A row is in a table as often as its values are met.** -/
theorem Regular.count_rows (h : t.Regular) (ρ : Valuation) :
    t.rows.count (rowOf t.synonyms ρ) = t.multiplicity ρ := by
  rw [rows, List.count_eq_countP, List.countP_map, multiplicity]
  refine List.countP_congr fun i hi => ?_
  rw [Function.comp_apply, h.row_eq (List.mem_range.1 hi), beq_iff_eq, rowOf_eq_iff, agreesAt_iff]
  simp only [mem_synonyms]

/-- Every row of a regular table has a value for each synonym. -/
theorem Regular.exists_of_mem_rows (h : t.Regular) {r : Row} (hr : r ∈ t.rows) :
    ∃ ρ, r = rowOf t.synonyms ρ := by
  obtain ⟨i, hi, rfl⟩ := List.mem_map.1 hr
  exact ⟨t.valuation i, h.row_eq (List.mem_range.1 hi)⟩

theorem synonyms_eq (h : ∀ s, t.has s ↔ u.has s) : t.synonyms = u.synonyms := by
  refine Ordered.eq_of_ascending Std.ExtTreeMap.ordered_keys Std.ExtTreeMap.ordered_keys fun s => ?_
  exact mem_synonyms.trans ((h s).trans mem_synonyms.symm)

/-- **The same multiplicities make the same bag of rows.** -/
theorem Regular.rows_perm (ht : t.Regular) (hu : u.Regular) (hsynonyms : t.synonyms = u.synonyms)
    (h : ∀ ρ, t.multiplicity ρ = u.multiplicity ρ) : t.rows.Perm u.rows := by
  rw [List.perm_iff_count]
  intro r
  by_cases hr : ∃ ρ, r = rowOf t.synonyms ρ
  · obtain ⟨ρ, rfl⟩ := hr
    rw [ht.count_rows, h, hsynonyms, hu.count_rows]
  · have ht' : r ∉ t.rows := fun hmem => hr (ht.exists_of_mem_rows hmem)
    have hu' : r ∉ u.rows := fun hmem => hr (hsynonyms ▸ hu.exists_of_mem_rows hmem)
    rw [List.count_eq_zero_of_not_mem ht', List.count_eq_zero_of_not_mem hu']

/-! ## Bag joins -/

/-- **One table as the join of several**, with repetitions: it has all their synonyms, and a row
as often as the rows that it is made of can be chosen. -/
structure BagJoin (ts : List Table) (u : Table) : Prop where
  regular : u.Regular
  has_iff : ∀ s, u.has s ↔ ∃ t ∈ ts, t.has s
  multiplicity_eq : ∀ ρ, u.multiplicity ρ = (ts.map (·.multiplicity ρ)).prod

namespace BagJoin

theorem single (h : t.Regular) : BagJoin [t] t :=
  ⟨h, by simp, by simp⟩

/-- **To join one more table multiplies by its rows.** -/
theorem join (h : BagJoin ts t) (hu : u.Regular) : BagJoin (ts ++ [u]) (t.join u) where
  regular := h.regular.join hu
  has_iff s := by
    rw [h.regular.has_join hu, h.has_iff]
    simp [or_and_right, exists_or]
  multiplicity_eq ρ := by
    rw [h.regular.multiplicity_join hu, h.multiplicity_eq]
    simp

/-- So does the product with one more, if it shares no synonym with the others. -/
theorem cross (h : BagJoin ts t) (hu : u.Regular) (hapart : ∀ t ∈ ts, t.Apart u) :
    BagJoin (ts ++ [u]) (t.cross u) := by
  have hapart' : t.Apart u := by
    intro s hs
    obtain ⟨t', ht', hs'⟩ := (h.has_iff s).1 hs
    exact hapart t' ht' s hs'
  rw [← join_eq_cross hapart']
  exact h.join hu

/-- **Joining from left to right.** -/
theorem foldl_join (h : BagJoin ts t) (hus : ∀ u ∈ us, u.Regular) :
    BagJoin (ts ++ us) (us.foldl Table.join t) := by
  induction us generalizing ts t with
  | nil => simpa using h
  | cons u us ih =>
    obtain ⟨hu, hus⟩ := List.forall_mem_cons.1 hus
    rw [List.append_cons]
    exact ih (h.join hu) hus

/-- **Products from left to right**, of tables that have no synonym in common. -/
theorem foldl_cross (h : BagJoin ts t) (hus : ∀ u ∈ us, u.Regular)
    (hapart : (ts ++ us).Pairwise Apart) : BagJoin (ts ++ us) (us.foldl Table.cross t) := by
  induction us generalizing ts t with
  | nil => simpa using h
  | cons u us ih =>
    obtain ⟨hu, hus⟩ := List.forall_mem_cons.1 hus
    have hts : ∀ t ∈ ts, t.Apart u := fun t ht =>
      (List.pairwise_append.1 hapart).2.2 t ht u List.mem_cons_self
    rw [List.append_cons] at hapart ⊢
    exact ih (h.cross hu hts) hus hapart

/-- The order of the tables makes no difference. -/
theorem perm (h : BagJoin ts t) (hperm : ts.Perm us) : BagJoin us t where
  regular := h.regular
  has_iff s := by
    rw [h.has_iff]
    simp only [hperm.mem_iff]
  multiplicity_eq ρ := by
    rw [h.multiplicity_eq, (hperm.map _).prod_eq]

/-- **Joining joins** is joining all of what they are made of. -/
theorem flatten {tss : List (List Table)} (h : BagJoin us t) (hus : List.Forall₂ BagJoin tss us) :
    BagJoin tss.flatten t where
  regular := h.regular
  has_iff s := by
    rw [h.has_iff]
    clear h
    induction hus with
    | nil => simp
    | cons hu _ ih => simp [hu.has_iff, ih, or_and_right, exists_or]
  multiplicity_eq ρ := by
    rw [h.multiplicity_eq]
    clear h
    induction hus with
    | nil => rfl
    | cons hu _ ih =>
      rw [List.map_cons, List.prod_cons, ih, hu.multiplicity_eq, List.flatten_cons,
        List.map_append, List.prod_append]

/-- **There is one join**, up to the order of its rows. -/
theorem same_rows (h : BagJoin ts u) (h' : BagJoin ts v) :
    u.synonyms = v.synonyms ∧ u.rows.Perm v.rows := by
  have hsynonyms : u.synonyms = v.synonyms :=
    synonyms_eq fun s => (h.has_iff s).trans (h'.has_iff s).symm
  refine ⟨hsynonyms, h.regular.rows_perm h'.regular hsynonyms fun ρ => ?_⟩
  rw [h.multiplicity_eq, h'.multiplicity_eq]

/-- What is joined holds of what all tables hold of. -/
theorem holds_iff (h : BagJoin ts u) (ρ : Valuation) : u.Holds ρ ↔ ∀ t ∈ ts, t.Holds ρ := by
  simp only [Table.holds_iff, h.multiplicity_eq, Nat.pos_iff_ne_zero]
  simp [List.prod_eq_zero_iff]

/-- Joining from left to right joins all tables. -/
theorem of_joinAll? (hts : ∀ t ∈ ts, t.Regular) (h : joinAll? ts = some u) : BagJoin ts u := by
  cases ts with
  | nil => cases h
  | cons t ts =>
    obtain ⟨ht, hts⟩ := List.forall_mem_cons.1 hts
    obtain rfl := Option.some.inj h
    exact (single ht).foldl_join hts

/-- **So does the product of tables that share nothing.** -/
theorem of_foldl_cross (hne : ts ≠ []) (hts : ∀ t ∈ ts, t.Regular) (hapart : ts.Pairwise Apart) :
    BagJoin ts (ts.foldl Table.cross Table.empty) := by
  cases ts with
  | nil => exact absurd rfl hne
  | cons t ts =>
    obtain ⟨ht, hts⟩ := List.forall_mem_cons.1 hts
    have hfirst : Table.empty.cross t = t := if_pos rfl
    rw [List.foldl_cons, hfirst]
    exact (single ht).foldl_cross hts hapart

end BagJoin

/-! ## Natural joins -/

/-- **A join is the natural join of bags.** It has the synonyms of both tables, in columns that are
equally long, and a row as often as the parts of the row in either table, multiplied. So neither the
order of tables nor the way they are put together makes a difference, and where no synonym is
shared, all pairs of rows are there. -/
theorem join_natural (ht : t.Regular) (hu : u.Regular) :
    (t.join u).Regular ∧
    (∀ s, s ∈ (t.join u).synonyms ↔ s ∈ t.synonyms ∨ s ∈ u.synonyms) ∧
    (∀ ρ, (t.join u).rows.count (rowOf (t.join u).synonyms ρ) =
      t.rows.count (rowOf t.synonyms ρ) * u.rows.count (rowOf u.synonyms ρ)) ∧
    ((t.join u).synonyms = (u.join t).synonyms ∧ (t.join u).rows.Perm (u.join t).rows) ∧
    (∀ v : Table, v.Regular → ((t.join u).join v).synonyms = (t.join (u.join v)).synonyms ∧
      ((t.join u).join v).rows.Perm (t.join (u.join v)).rows) ∧
    (t.Apart u → (t.join u).rows.length = t.height * u.height) := by
  have hjoin : BagJoin [t, u] (t.join u) := (BagJoin.single ht).join hu
  have hswapped : BagJoin [t, u] (u.join t) := ((BagJoin.single hu).join ht).perm (.swap t u [])
  refine ⟨hjoin.regular, fun s => ?_, fun ρ => ?_, hjoin.same_rows hswapped, fun v hv => ?_,
    fun hapart => ?_⟩
  · simp only [mem_synonyms, ht.has_join hu]
  · rw [hjoin.regular.count_rows, ht.count_rows, hu.count_rows, ht.multiplicity_join hu]
  · have hleft : BagJoin [t, u, v] ((t.join u).join v) := hjoin.join hv
    have hinner : BagJoin [u, v] (u.join v) := (BagJoin.single hu).join hv
    have hright : BagJoin [t, u.join v] (t.join (u.join v)) := (BagJoin.single ht).join (hu.join hv)
    exact hleft.same_rows (hright.flatten (.cons (.single ht) (.cons hinner .nil)))
  · rw [rows, List.length_map, List.length_range, join_eq_cross hapart, (ht.cross hu).2]

/-- Where variables are used, with a row that is repeated. -/
def useSites : Table :=
  .pair "s" "v" [(.stmt 1, .name "x"), (.stmt 2, .name "x"), (.stmt 1, .name "x")]

/-- Which procedures variables belong to. -/
def ownerNames : Table :=
  .pair "v" "p" [(.name "x", .name "main"), (.name "x", .name "sub")]

/-- The row of a statement, a variable and a procedure. -/
def useByMain : Valuation := fun s =>
  if s = "s" then .stmt 1 else if s = "v" then .name "x" else .name "main"

/-- A row that is there twice meets one that is there once. -/
theorem join_natural_useSites :
    useSites.Regular ∧ ownerNames.Regular ∧
    (useSites.join ownerNames).rows.count
      [⟨"p", .name "main"⟩, ⟨"s", .stmt 1⟩, ⟨"v", .name "x"⟩] = 2 * 1 := by
  have huses : useSites.Regular := (regular_pair (by decide) _).1
  have howners : ownerNames.Regular := (regular_pair (by decide) _).1
  exact ⟨huses, howners, (join_natural huses howners).2.2.1 useByMain⟩

end Table

end ProgramFacts
