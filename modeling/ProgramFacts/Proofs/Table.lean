import ProgramFacts.Proofs.Ordered
import ProgramFacts.Table
import Mathlib.Data.List.Nodup
/-!
# Tables — what their rows say

A table is read as a bag of rows, and a row as a choice of an element for each synonym
of the table. `Table.multiplicity` counts the rows that agree with a valuation, which
gives an element to every synonym there could be; `Table.Holds` asks for one such row.
A table is *regular* if it has a column at all and its columns are equally long: then
every row has a value for every synonym, `Table.valuation`.
-/

namespace ProgramFacts

/-- A choice of an element for every synonym. -/
abbrev Valuation := String → Element

namespace Table

variable (t : Table)

/-- A table with a column, whose columns are equally long. -/
structure Regular : Prop where
  exists_has : ∃ s, t.has s
  size_eq : ∀ (s : String) (column : Array Element), t.columns[s]? = some column →
    column.size = t.height

/-- The values in a row, by their synonyms. -/
def valuation (i : Nat) : Valuation := fun s =>
  (t.columns.getD s #[])[i]?.getD default

/-- Whether a row has the values that a valuation gives to the synonyms of the table. -/
def agreesAt (ρ : Valuation) (i : Nat) : Bool :=
  t.synonyms.all fun s => t.valuation i s = ρ s

/-- The row that has the values of a valuation. -/
def rowOf (names : List String) (ρ : Valuation) : Row :=
  names.map fun s => ⟨s, ρ s⟩

/-- How many rows agree with a valuation. -/
def multiplicity (ρ : Valuation) : Nat :=
  (List.range t.height).countP (t.agreesAt ρ)

/-- Whether some row agrees with a valuation. -/
def Holds (ρ : Valuation) : Prop :=
  ∃ i < t.height, t.agreesAt ρ i

variable {t} {ρ : Valuation} {i : Nat} {s : String}

/-! ## Columns -/

theorem mem_synonyms : s ∈ t.synonyms ↔ t.has s := by
  rw [synonyms, Std.ExtTreeMap.mem_keys, has, Std.ExtTreeMap.contains_iff_mem]

theorem nodup_synonyms : t.synonyms.Nodup :=
  Std.ExtTreeMap.nodup_keys

theorem has_iff : t.has s ↔ ∃ column, t.columns[s]? = some column := by
  rw [has, Std.ExtTreeMap.contains_iff_mem, Std.ExtTreeMap.mem_iff_isSome_getElem?,
    Option.isSome_iff_exists]

theorem agreesAt_iff : t.agreesAt ρ i ↔ ∀ s, t.has s → t.valuation i s = ρ s := by
  simp only [agreesAt, List.all_eq_true, mem_synonyms, decide_eq_true_eq]

theorem holds_iff : t.Holds ρ ↔ 0 < t.multiplicity ρ := by
  simp only [Holds, multiplicity, List.countP_pos_iff, List.mem_range]

/-- A table says nothing of synonyms that it does not have. -/
theorem holds_congr {ρ' : Valuation} (h : ∀ s, t.has s → ρ s = ρ' s) :
    t.Holds ρ ↔ t.Holds ρ' := by
  simp only [Holds, agreesAt_iff]
  refine exists_congr fun i => and_congr_right fun _ => forall₂_congr fun s hs => ?_
  rw [h s hs]

/-- A row agrees with its own values. -/
theorem holds_valuation (hi : i < t.height) : t.Holds (t.valuation i) :=
  ⟨i, hi, agreesAt_iff.2 fun _ _ => rfl⟩

theorem columnList_eq_select : t.columnList = t.select t.synonyms := by
  rw [columnList, select, synonyms, ← Std.ExtTreeMap.map_fst_toList_eq_keys, List.filterMap_map,
    ← List.filterMap_eq_map]
  refine List.filterMap_congr fun p hp => ?_
  exact (Std.ExtTreeMap.mem_toList_iff_getElem?_eq_some.1 hp).symm

/-- The height of a table is the common size of its columns. -/
theorem regular_of_sizes {n : Nat} (hhas : ∃ s, t.has s)
    (h : ∀ (s : String) (column : Array Element), t.columns[s]? = some column →
      column.size = n) :
    t.Regular ∧ t.height = n := by
  have hheight : t.height = n := by
    obtain ⟨s, hs⟩ := hhas
    obtain ⟨column, hcolumn⟩ := has_iff.1 hs
    have hne : t.columns.toList ≠ [] :=
      List.ne_nil_of_mem (Std.ExtTreeMap.mem_toList_iff_getElem?_eq_some.2 hcolumn)
    obtain ⟨⟨s', column'⟩, rest, hlist⟩ := List.exists_cons_of_ne_nil hne
    have hmem : (s', column') ∈ t.columns.toList := by rw [hlist]; exact List.mem_cons_self
    have := h s' column' (Std.ExtTreeMap.mem_toList_iff_getElem?_eq_some.1 hmem)
    simpa [height, columnList, hlist] using this
  exact ⟨⟨hhas, fun s column hs => by rw [h s column hs, hheight]⟩, hheight⟩

namespace Regular

/-- Every row of a regular table has a value for every synonym. -/
theorem getElem?_column (h : t.Regular) {column : Array Element}
    (hs : t.columns[s]? = some column) (hi : i < t.height) :
    column[i]? = some (t.valuation i s) := by
  have hsize : i < column.size := by rw [h.size_eq s column hs]; exact hi
  simp [valuation, Std.ExtTreeMap.getD_eq_getD_getElem?, hs, hsize]

/-- What stands at a place of chosen columns. -/
theorem valuesAt_select (h : t.Regular) {names : List String} (hnames : ∀ s ∈ names, t.has s)
    (hi : i < t.height) : valuesAt (t.select names) i = names.map (t.valuation i) := by
  rw [valuesAt, select, List.filterMap_filterMap, ← List.filterMap_eq_map]
  refine List.filterMap_congr fun s hs => ?_
  obtain ⟨column, hcolumn⟩ := has_iff.1 (hnames s hs)
  rw [hcolumn, Option.bind_some, h.getElem?_column hcolumn hi, Function.comp_apply]

/-- A row has a cell for every synonym. -/
theorem row_eq (h : t.Regular) (hi : i < t.height) :
    t.row i = rowOf t.synonyms (t.valuation i) := by
  rw [row, rowOf, synonyms, ← Std.ExtTreeMap.map_fst_toList_eq_keys, List.map_map,
    ← List.filterMap_eq_map]
  refine List.filterMap_congr fun p hp => ?_
  obtain ⟨s, column⟩ := p
  simp [h.getElem?_column (Std.ExtTreeMap.mem_toList_iff_getElem?_eq_some.1 hp) hi]

/-- The value of a synonym in a row. -/
theorem valueIn?_row (h : t.Regular) (hi : i < t.height) :
    valueIn? (t.row i) s = if t.has s then some (t.valuation i s) else none := by
  rw [valueIn?, h.row_eq hi, rowOf, List.find?_map, Option.map_map]
  by_cases hs : t.has s
  · have hfind : t.synonyms.find? ((fun c : Cell => decide (c.synonym = s)) ∘
        fun s => ⟨s, t.valuation i s⟩) = some s := by
      have hsome : (t.synonyms.find? ((fun c : Cell => decide (c.synonym = s)) ∘
          fun s => ⟨s, t.valuation i s⟩)).isSome := by
        rw [List.find?_isSome]
        exact ⟨s, mem_synonyms.2 hs, by simp⟩
      obtain ⟨s', hs'⟩ := Option.isSome_iff_exists.1 hsome
      have : s' = s := by simpa using List.find?_some hs'
      rw [hs', this]
    rw [hfind, if_pos hs]
    rfl
  · rw [if_neg hs, Option.map_eq_none_iff, List.find?_eq_none]
    intro s' hs' heq
    have : s' = s := by simpa using heq
    exact hs (this ▸ mem_synonyms.1 hs')

/-- The distinct elements of a column are those that its rows have. -/
theorem mem_distinct (h : t.Regular) (hs : t.has s) {a : Element} :
    a ∈ t.distinct s ↔ ∃ ρ, t.Holds ρ ∧ ρ s = a := by
  obtain ⟨column, hcolumn⟩ := has_iff.1 hs
  have hmem : a ∈ t.distinct s ↔ ∃ i < t.height, t.valuation i s = a := by
    rw [distinct, Ordered.mem_toList_ofList, Std.ExtTreeMap.getD_eq_getD_getElem?, hcolumn,
      Option.getD_some, List.mem_iff_getElem?]
    simp only [Array.getElem?_toList]
    constructor
    · rintro ⟨i, hi⟩
      have hlt : i < t.height := by
        rw [← h.size_eq s column hcolumn]
        exact (Array.getElem?_eq_some_iff.1 hi).1
      exact ⟨i, hlt, Option.some.inj ((h.getElem?_column hcolumn hlt).symm.trans hi)⟩
    · rintro ⟨i, hi, rfl⟩
      exact ⟨i, h.getElem?_column hcolumn hi⟩
  rw [hmem]
  constructor
  · rintro ⟨i, hi, rfl⟩
    exact ⟨t.valuation i, holds_valuation hi, rfl⟩
  · rintro ⟨ρ, ⟨i, hi, hρ⟩, rfl⟩
    exact ⟨i, hi, agreesAt_iff.1 hρ s hs⟩

end Regular

end Table

end ProgramFacts
