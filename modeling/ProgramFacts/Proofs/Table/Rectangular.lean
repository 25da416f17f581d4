import ProgramFacts.Proofs.Table.Bag
/-!
# Tables — rectangular, unless a name is repeated

The operations on tables keep their columns equally long (`Rectangular`), but for one: a synonym
that a projection names twice gets two values for every row, and its column grows out of step with
the others. `Made allowed` says that a table comes out of the operations, with the projections
that are allowed. Where projections name each synonym once (`NamesOnce`), every table is
rectangular. And these are just the projections that are exact, with every binding of the synonyms
that they keep, once (`projects_iff`).
-/

namespace ProgramFacts

namespace Table

variable {t u : Table} {names : List String} {s : String}

/-! ## Rectangular tables -/

/-- **All columns are equally long.** -/
def Rectangular (t : Table) : Prop :=
  ∀ (s s' : String) (column column' : Array Element), t.columns[s]? = some column →
    t.columns[s']? = some column' → column.size = column'.size

theorem rectangular_of_sizes {n : Nat} (h : ∀ (s : String) (column : Array Element),
    t.columns[s]? = some column → column.size = n) : t.Rectangular :=
  fun _ _ _ _ hs hs' => (h _ _ hs).trans (h _ _ hs').symm

theorem Regular.rectangular (h : t.Regular) : t.Rectangular :=
  rectangular_of_sizes h.size_eq

/-- A table with a column is rectangular if it is regular. -/
theorem Rectangular.regular (h : t.Rectangular) (hs : ∃ s, t.has s) : t.Regular := by
  obtain ⟨s, column, hcolumn⟩ := hs.imp fun _ => has_iff.1
  exact (regular_of_sizes hs fun s' column' h' => h s' s column' column h' hcolumn).1

theorem columns_isEmpty (h : ¬ ∃ s, t.has s) : t.columns.isEmpty := by
  rw [Std.ExtTreeMap.isEmpty_iff, Std.ExtTreeMap.eq_empty_iff_forall_not_mem]
  exact fun s hs => h ⟨s, Std.ExtTreeMap.contains_iff_mem.2 hs⟩

theorem height_eq_zero (h : ¬ ∃ s, t.has s) : t.height = 0 := by
  have hempty : t.columns = ∅ := Std.ExtTreeMap.isEmpty_iff.1 (columns_isEmpty h)
  rw [height, columnList, hempty]
  rfl

theorem rectangular_empty : empty.Rectangular :=
  fun _ _ _ _ h _ => by simp [empty] at h

theorem rectangular_single (s : String) (values : List Element) : (single s values).Rectangular :=
  (regular_single s values).1.rectangular

/-- Two columns of the same rows, or one of them if they have the same synonym. -/
theorem rectangular_pair (l r : String) (rows : List (Element × Element)) :
    (pair l r rows).Rectangular := by
  refine rectangular_of_sizes fun s column h => (?_ : column.size = rows.length)
  rw [pair, Std.ExtTreeMap.getElem?_insert, Std.ExtTreeMap.getElem?_insert] at h
  split at h
  · obtain rfl := Option.some.inj h
    simp
  · split at h
    · obtain rfl := Option.some.inj h
      simp
    · simp at h

namespace Rectangular

/-- A product of rectangular tables is rectangular, also if they share synonyms. -/
theorem cross (ht : t.Rectangular) (hu : u.Rectangular) : (t.cross u).Rectangular := by
  by_cases hts : ∃ s, t.has s
  · by_cases hus : ∃ s, u.has s
    · exact ((ht.regular hts).cross (hu.regular hus)).1.rectangular
    · obtain ⟨s, hs⟩ := hts
      rwa [Table.cross, if_neg (by simp [columns_isEmpty_eq_false hs]),
        if_pos (columns_isEmpty hus)]
  · rwa [Table.cross, if_pos (columns_isEmpty hts)]

/-- And so is a join. -/
theorem join (ht : t.Rectangular) (hu : u.Rectangular) : (t.join u).Rectangular := by
  by_cases hapart : t.Apart u
  · rw [join_eq_cross hapart]
    exact ht.cross hu
  · obtain ⟨s, hst, hsu⟩ : ∃ s, t.has s ∧ u.has s := by simpa [Apart] using hapart
    exact ((ht.regular ⟨s, hst⟩).join (hu.regular ⟨s, hsu⟩)).rectangular

end Rectangular

/-! ## Columns of a projection -/

theorem length_filterMap_zip {row : List Element} (hrow : row.length = names.length) :
    ((names.zip row).filterMap fun (name, value) => if name = s then some value else none).length =
      names.count s := by
  induction names generalizing row with
  | nil => rfl
  | cons name names ih =>
    obtain ⟨a, row, rfl⟩ := List.exists_cons_of_length_eq_add_one hrow
    have ih := ih (show row.length = names.length by simpa using hrow)
    by_cases hname : name = s
    · simp [hname, ih]
    · simp [hname, ih]

/-- A synonym gets a value from a row each time that it is named. -/
theorem length_columnOf {rows : List (List Element)}
    (hrows : ∀ row ∈ rows, row.length = names.length) :
    (columnOf names rows s).length = rows.length * names.count s := by
  induction rows with
  | nil => simp [columnOf]
  | cons row rows ih =>
    obtain ⟨hrow, hrows⟩ := List.forall_mem_cons.1 hrows
    have ih : (List.flatMap _ rows).length = _ := ih hrows
    rw [columnOf, List.flatMap_cons, List.length_append, length_filterMap_zip hrow, ih,
      List.length_cons, Nat.succ_mul, Nat.add_comm]

namespace Regular

variable (h : t.Regular)

include h

/-- **The columns of a projection**, whose lengths depend on how often synonyms are named. -/
theorem size_project {column : Array Element} (hs : (t.project names).columns[s]? = some column) :
    column.size = (t.projectedRows names).length * (names.filter t.has).count s := by
  obtain ⟨-, rfl⟩ := getElem?_ofRows.1 hs
  exact length_columnOf h.length_of_mem_projectedRows

/-- A projection of a table with rows has rows. -/
theorem projectedRows_eq_nil_iff : t.projectedRows names = [] ↔ t.height = 0 := by
  simp only [List.eq_nil_iff_forall_not_mem, h.mem_projectedRows]
  constructor
  · intro hnone
    exact Nat.eq_zero_of_not_pos fun hpos => hnone _ ⟨0, hpos, rfl⟩
  · rintro hheight row ⟨i, hi, -⟩
    omega

/-- **A projection is rectangular** exactly if its synonyms are all named equally often, or there
are no rows. -/
theorem rectangular_project_iff : (t.project names).Rectangular ↔
    t.height = 0 ∨ ∀ s ∈ names.filter t.has, ∀ s' ∈ names.filter t.has,
      (names.filter t.has).count s = (names.filter t.has).count s' := by
  constructor
  · intro hrect
    refine or_iff_not_imp_left.2 fun hheight s hs s' hs' => ?_
    have hpos : 0 < (t.projectedRows names).length :=
      List.length_pos_iff.2 (mt h.projectedRows_eq_nil_iff.1 hheight)
    obtain ⟨column, hcolumn⟩ := has_iff.1 (has_ofRows.2 hs : (t.project names).has s)
    obtain ⟨column', hcolumn'⟩ := has_iff.1 (has_ofRows.2 hs' : (t.project names).has s')
    have hsize := hrect s s' column column' hcolumn hcolumn'
    rw [h.size_project hcolumn, h.size_project hcolumn'] at hsize
    exact Nat.eq_of_mul_eq_mul_left hpos hsize
  · rintro (hheight | hcount) s s' column column' hs hs'
    · rw [h.size_project hs, h.size_project hs', h.projectedRows_eq_nil_iff.2 hheight]
      simp
    · rw [h.size_project hs, h.size_project hs',
        hcount s (getElem?_ofRows.1 hs).1 s' (getElem?_ofRows.1 hs').1]

end Regular

/-! ## Exact projections -/

/-- A row without the cells of other synonyms than those given. -/
def restrict (names : List String) (r : Row) : Row :=
  r.filter (·.synonym ∈ names)

/-- **One table as the exact projection of another**: it is rectangular, it has the synonyms that
are named and there, and each binding of them that is in a row of the other table is in one of its
rows. As a table without columns has no rows, a binding binds something. -/
structure Projects (t : Table) (names : List String) (u : Table) : Prop where
  rectangular : u.Rectangular
  has_iff : ∀ s, u.has s ↔ s ∈ names ∧ t.has s
  nodup_rows : u.rows.Nodup
  mem_rows : ∀ r, r ∈ u.rows ↔ r ≠ [] ∧ ∃ r' ∈ t.rows, restrict names r' = r

/-- No synonym of the table is named twice, or the table has no rows anyway. -/
def NamesOnce (t : Table) (names : List String) : Prop :=
  t.isEmpty ∨ (names.filter t.has).Nodup

instance (t : Table) (names : List String) : Decidable (t.NamesOnce names) :=
  inferInstanceAs (Decidable (_ ∨ _))

theorem isEmpty_iff : t.isEmpty ↔ t.height = 0 := by
  simp [isEmpty]

theorem rows_eq_nil_iff : t.rows = [] ↔ t.height = 0 := by
  simp [rows]

theorem restrict_rowOf (l : List String) (ρ : Valuation) :
    restrict names (rowOf l ρ) = rowOf (l.filter (· ∈ names)) ρ := by
  simp [restrict, rowOf, List.filter_map, Function.comp_def]

/-- A projection has its synonyms in the order of the table. -/
theorem synonyms_project : (t.project names).synonyms = t.synonyms.filter (· ∈ names) := by
  refine Ordered.eq_of_ascending Std.ExtTreeMap.ordered_keys
    (Std.ExtTreeMap.ordered_keys.filter _) fun s => ?_
  show s ∈ (t.project names).synonyms ↔ s ∈ t.synonyms.filter _
  rw [List.mem_filter, mem_synonyms, mem_synonyms, Regular.has_project, decide_eq_true_eq, and_comm]

/-- The rows of a regular table are those of the valuations that it holds of. -/
theorem Regular.mem_rows (h : t.Regular) {r : Row} :
    r ∈ t.rows ↔ ∃ ρ, t.Holds ρ ∧ rowOf t.synonyms ρ = r := by
  rw [rows, List.mem_map]
  constructor
  · rintro ⟨i, hi, rfl⟩
    have hi := List.mem_range.1 hi
    exact ⟨t.valuation i, holds_valuation hi, (h.row_eq hi).symm⟩
  · rintro ⟨ρ, ⟨i, hi, hρ⟩, rfl⟩
    refine ⟨i, List.mem_range.2 hi, ?_⟩
    rw [h.row_eq hi, rowOf_eq_iff]
    exact fun s hs => agreesAt_iff.1 hρ s (mem_synonyms.1 hs)

/-- The bindings in the rows of a table, of the synonyms that are named. -/
theorem Regular.restrict_rows (h : t.Regular) {r : Row} :
    (∃ r' ∈ t.rows, restrict names r' = r) ↔
      ∃ ρ, t.Holds ρ ∧ rowOf (t.project names).synonyms ρ = r := by
  simp only [h.mem_rows, synonyms_project]
  constructor
  · rintro ⟨_, ⟨ρ, hρ, rfl⟩, rfl⟩
    exact ⟨ρ, hρ, (restrict_rowOf ..).symm⟩
  · rintro ⟨ρ, hρ, rfl⟩
    exact ⟨_, ⟨ρ, hρ, rfl⟩, restrict_rowOf ..⟩

/-- Without rows there are no bindings. -/
theorem projects_of_rows_eq_nil (hu : u.Rectangular) (hhas : ∀ s, u.has s ↔ s ∈ names ∧ t.has s)
    (hrows : u.rows = []) (ht : ∀ r ∈ t.rows, restrict names r = []) : t.Projects names u where
  rectangular := hu
  has_iff := hhas
  nodup_rows := by simp [hrows]
  mem_rows r := by
    simp only [hrows, List.not_mem_nil, false_iff]
    rintro ⟨hne, r', hr', rfl⟩
    exact hne (ht r' hr')

/-- A projection does not look at names that the table does not have. -/
theorem project_filter : t.project (names.filter t.has) = t.project names := by
  simp [project]

/-- **A projection that names a synonym, and none twice, is exact.** -/
theorem Regular.projects (h : t.Regular) (hnodup : (names.filter t.has).Nodup)
    (hkept : names.filter t.has ≠ []) : t.Projects names (t.project names) := by
  have hkept' : (names.filter t.has).filter t.has ≠ [] := by simpa using hkept
  have hproject : (t.project names).Regular := project_filter ▸ h.project hnodup hkept'
  have hholds : ∀ ρ, (t.project names).Holds ρ ↔
      ∃ ρ', t.Holds ρ' ∧ ∀ s ∈ names.filter t.has, t.has s → ρ' s = ρ s := fun ρ =>
    project_filter ▸ h.holds_project hnodup hkept'
  refine ⟨hproject.rectangular, fun s => Regular.has_project, ?_, fun r => ?_⟩
  · rw [List.nodup_iff_count_le_one]
    intro r
    by_cases hr : r ∈ (t.project names).rows
    · obtain ⟨ρ, -, rfl⟩ := hproject.mem_rows.1 hr
      rw [hproject.count_rows, project_eq_ofRows,
        multiplicity_ofRows hnodup hkept h.length_of_mem_projectedRows]
      exact List.nodup_iff_count_le_one.1 nodup_projectedRows _
    · rw [List.count_eq_zero_of_not_mem hr]
      exact Nat.zero_le 1
  · rw [hproject.mem_rows, h.restrict_rows]
    constructor
    · rintro ⟨ρ, hρ, rfl⟩
      obtain ⟨ρ', hρ', heq⟩ := (hholds ρ).1 hρ
      obtain ⟨s, hs⟩ := hproject.exists_has
      refine ⟨List.ne_nil_of_mem (List.mem_map_of_mem (mem_synonyms.2 hs)), ρ', hρ', ?_⟩
      refine rowOf_eq_iff.2 fun s hs => ?_
      have hs := has_ofRows.1 (mem_synonyms.1 hs)
      exact heq s hs (List.mem_filter.1 hs).2
    · rintro ⟨-, ρ, hρ, rfl⟩
      exact ⟨ρ, (hholds ρ).2 ⟨ρ, hρ, fun _ _ _ => rfl⟩, rfl⟩

/-- Where no synonym is kept, nothing is left of a row. -/
theorem restrict_eq_nil (hkept : names.filter t.has = []) {r : Row} (hr : r ∈ t.rows) :
    restrict names r = [] := by
  obtain ⟨i, -, rfl⟩ := List.mem_map.1 hr
  refine List.filter_eq_nil_iff.2 fun c hc => ?_
  obtain ⟨⟨s, column⟩, hcolumn, hc⟩ := List.mem_filterMap.1 hc
  obtain ⟨a, -, rfl⟩ := Option.map_eq_some_iff.1 hc
  have hs : t.has s := has_iff.2 ⟨column, Std.ExtTreeMap.mem_toList_iff_getElem?_eq_some.1 hcolumn⟩
  simpa [hs] using List.filter_eq_nil_iff.1 hkept s

/-- **A projection that names no synonym twice is exact.** -/
theorem Rectangular.projects (ht : t.Rectangular) (h : t.NamesOnce names) :
    t.Projects names (t.project names) := by
  by_cases hkept : names.filter t.has = []
  · have hnone : ¬ ∃ s, (t.project names).has s := by
      rintro ⟨s, hs⟩
      have hs := has_ofRows.1 hs
      simp [hkept] at hs
    refine projects_of_rows_eq_nil ?_ (fun s => Regular.has_project)
      (rows_eq_nil_iff.2 (height_eq_zero hnone)) fun r hr => restrict_eq_nil hkept hr
    exact fun s _ _ _ hs => absurd ⟨s, has_iff.2 ⟨_, hs⟩⟩ hnone
  · obtain ⟨s, hs⟩ := List.exists_mem_of_ne_nil _ hkept
    have hregular : t.Regular := ht.regular ⟨s, (List.mem_filter.1 hs).2⟩
    rcases h with hempty | hnodup
    · have hheight : t.height = 0 := isEmpty_iff.1 hempty
      have hsizes := regular_of_sizes ⟨s, (has_ofRows.2 hs : (t.project names).has s)⟩
        fun s column hcolumn => (hregular.size_project hcolumn).trans
          (by rw [hregular.projectedRows_eq_nil_iff.2 hheight, List.length_nil, Nat.zero_mul])
      refine projects_of_rows_eq_nil hsizes.1.rectangular (fun s => Regular.has_project)
        (rows_eq_nil_iff.2 hsizes.2) fun r hr => ?_
      rw [rows_eq_nil_iff.2 hheight] at hr
      cases hr
    · exact hregular.projects hnodup hkept

/-- **Only such projections are exact.** The values of the kept synonyms tell a row of an exact
projection, so it has no more rows than there are such values; but each time that a synonym is
named, its column gets as many. -/
theorem Rectangular.namesOnce_of_projects (ht : t.Rectangular)
    (h : t.Projects names (t.project names)) : t.NamesOnce names := by
  by_contra hnot
  obtain ⟨hrows, hrepeated⟩ := not_or.1 hnot
  obtain ⟨s, hs⟩ : ∃ s, 1 < (names.filter t.has).count s := by
    simpa [List.nodup_iff_count_le_one] using hrepeated
  have hmem : s ∈ names.filter t.has := List.count_pos_iff.1 (by omega)
  have hregular : t.Regular := ht.regular ⟨s, (List.mem_filter.1 hmem).2⟩
  have hhas : (t.project names).has s := has_ofRows.2 hmem
  have hpos : 0 < (t.projectedRows names).length :=
    List.length_pos_iff.2 (mt hregular.projectedRows_eq_nil_iff.1 (mt isEmpty_iff.2 hrows))
  have hheight : (t.project names).rows.length =
      (t.projectedRows names).length * (names.filter t.has).count s := by
    obtain ⟨column, hcolumn⟩ := has_iff.1 hhas
    rw [← hregular.size_project hcolumn, (h.rectangular.regular ⟨s, hhas⟩).size_eq s column hcolumn]
    simp [rows]
  have hsubset : (t.project names).rows ⊆ (t.projectedRows names).map fun row =>
      rowOf (t.project names).synonyms fun s =>
        row[(names.filter t.has).idxOf s]?.getD default := by
    intro r hr
    obtain ⟨ρ, ⟨i, hi, hρ⟩, rfl⟩ := hregular.restrict_rows.1 ((h.mem_rows r).1 hr).2
    refine List.mem_map.2 ⟨_, hregular.mem_projectedRows.2 ⟨i, hi, rfl⟩, ?_⟩
    refine rowOf_eq_iff.2 fun s hs => ?_
    have hs := has_ofRows.1 (mem_synonyms.1 hs)
    simp [List.idxOf_lt_length_of_mem hs, agreesAt_iff.1 hρ s (List.mem_filter.1 hs).2]
  have hle := h.nodup_rows.length_le_of_subset hsubset
  rw [hheight, List.length_map] at hle
  have hlt := Nat.mul_lt_mul_of_pos_left hs hpos
  omega

/-- **The exact projections** of a rectangular table are those that name no synonym twice. -/
theorem Rectangular.projects_iff (ht : t.Rectangular) :
    t.Projects names (t.project names) ↔ t.NamesOnce names :=
  ⟨ht.namesOnce_of_projects, ht.projects⟩

/-! ## Tables from operations -/

/-- **Tables that come out of the operations**, where `allowed` says on which names a table may be
projected. -/
inductive Made (allowed : Table → List String → Prop) : Table → Prop
  | empty : Made allowed empty
  | single (s : String) (values : List Element) : Made allowed (single s values)
  | pair (l r : String) (rows : List (Element × Element)) : Made allowed (pair l r rows)
  | cross {t u : Table} (ht : Made allowed t) (hu : Made allowed u) : Made allowed (t.cross u)
  | join {t u : Table} (ht : Made allowed t) (hu : Made allowed u) : Made allowed (t.join u)
  | project {t : Table} {names : List String} (ht : Made allowed t) (hnames : allowed t names) :
    Made allowed (t.project names)

/-- **Every table that is made so is rectangular**, as each operation keeps it. -/
theorem Made.rectangular (h : Made NamesOnce t) : t.Rectangular := by
  induction h with
  | empty => exact rectangular_empty
  | single s values => exact rectangular_single s values
  | pair l r rows => exact rectangular_pair l r rows
  | cross _ _ ht hu => exact ht.cross hu
  | join _ _ ht hu => exact ht.join hu
  | project _ hnames ht => exact (ht.projects hnames).rectangular

/-- **Tables stay rectangular as long as projections name each synonym once**, and it is just then
that a projection has each binding of the synonyms it keeps, once. -/
theorem made_rectangular (h : Made NamesOnce t) :
    t.Rectangular ∧ ∀ names, t.Projects names (t.project names) ↔ t.NamesOnce names :=
  ⟨h.rectangular, fun _ => h.rectangular.projects_iff⟩

/-- Two columns, with a value that is repeated. -/
def twoColumns : Table :=
  pair "w" "a" [(.stmt 1, .stmt 2), (.stmt 1, .stmt 3), (.stmt 2, .stmt 4)]

/-- A name that the table does not have may be repeated, but one that it has may not. -/
theorem made_rectangular_twoColumns :
    Made NamesOnce (twoColumns.project ["w", "z", "z"]) ∧
    (twoColumns.project ["w", "z", "z"]).Rectangular ∧
    (twoColumns.project ["w", "z", "z"]).Projects ["w"]
      ((twoColumns.project ["w", "z", "z"]).project ["w"]) ∧
    ¬ (twoColumns.project ["w", "z", "z"]).Projects ["w", "w"]
      ((twoColumns.project ["w", "z", "z"]).project ["w", "w"]) := by
  have hmade : Made NamesOnce (twoColumns.project ["w", "z", "z"]) :=
    .project (.pair ..) (by decide)
  obtain ⟨hrectangular, hprojects⟩ := made_rectangular hmade
  exact ⟨hmade, hrectangular, (hprojects _).2 (by decide), mt (hprojects _).1 (by decide)⟩

/-- **A name that is repeated** gets every value again: a projection on one column then has each
of its bindings twice, and of two columns the one that is named twice is twice as long. -/
theorem not_exact_repeatedName :
    (Made (fun _ _ => True) (twoColumns.project ["w", "w"]) ∧
      (twoColumns.project ["w", "w"]).rows = [[⟨"w", .stmt 1⟩], [⟨"w", .stmt 1⟩],
        [⟨"w", .stmt 2⟩], [⟨"w", .stmt 2⟩]] ∧
      ¬ twoColumns.Projects ["w", "w"] (twoColumns.project ["w", "w"])) ∧
    Made (fun _ _ => True) (twoColumns.project ["a", "w", "a"]) ∧
    ¬ (twoColumns.project ["a", "w", "a"]).Rectangular := by
  refine ⟨⟨.project (.pair ..) trivial, ?_⟩, .project (.pair ..) trivial, fun h => ?_⟩
  · have hrows : (twoColumns.project ["w", "w"]).rows = [[⟨"w", .stmt 1⟩], [⟨"w", .stmt 1⟩],
        [⟨"w", .stmt 2⟩], [⟨"w", .stmt 2⟩]] := by decide +kernel
    refine ⟨hrows, fun h => absurd h.nodup_rows ?_⟩
    rw [hrows]
    decide
  · have hregular : twoColumns.Regular := (regular_pair (by decide) _).1
    rcases hregular.rectangular_project_iff.1 h with hheight | hcount
    · exact absurd hheight (by decide)
    · exact absurd (hcount "a" (by decide) "w" (by decide)) (by decide)

end Table

end ProgramFacts
