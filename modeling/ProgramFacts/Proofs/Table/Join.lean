import ProgramFacts.Proofs.Table
import Mathlib.Data.List.Count
/-!
# Tables — joins count rows

Each way of making a table is told by how often it agrees with a valuation. A table of
rows agrees as often as the row of the valuation occurs among them; a product of
tables without common synonyms and a join multiply (`Regular.multiplicity_cross`,
`Regular.multiplicity_join`); a projection holds where some row of the table agrees on
the synonyms that are kept.
-/

namespace ProgramFacts

namespace Table

variable {t u : Table} {ρ : Valuation}

/-! ## Tables of rows -/

/-- The values of one row in the column of a synonym: the one at its place. -/
theorem filterMap_zip {names : List String} (hnames : names.Nodup) {s : String}
    (hs : s ∈ names) {row : List Element} (hrow : row.length = names.length) :
    ((names.zip row).filterMap fun (name, value) => if name = s then some value else none) =
      [row[names.idxOf s]?.getD default] := by
  induction names generalizing row with
  | nil => cases hs
  | cons name names ih =>
    obtain ⟨a, row, rfl⟩ := List.exists_cons_of_length_eq_add_one hrow
    rw [List.nodup_cons] at hnames
    by_cases hname : name = s
    · subst hname
      have hnone : (names.zip row).filterMap
          (fun (name', value) => if name' = name then some value else none) = [] := by
        rw [List.filterMap_eq_nil_iff]
        rintro ⟨name', value⟩ hmem
        have hne : name' ≠ name := fun h => hnames.1 (h ▸ (List.of_mem_zip hmem).1)
        simp [hne]
      simp [hnone]
    · have hs' : s ∈ names := (List.mem_cons.1 hs).resolve_left (Ne.symm hname)
      have hrow' : row.length = names.length := by simpa using hrow
      simp [hname, ih hnames.2 hs' hrow', List.idxOf_cons_ne _ hname]

/-- The column of a synonym in a table of rows. -/
theorem columnOf_eq {names : List String} (hnames : names.Nodup) {s : String} (hs : s ∈ names)
    {rows : List (List Element)} (hrows : ∀ row ∈ rows, row.length = names.length) :
    columnOf names rows s = rows.map fun row => row[names.idxOf s]?.getD default := by
  induction rows with
  | nil => rfl
  | cons row rows ih =>
    rw [columnOf, List.flatMap_cons, filterMap_zip hnames hs (hrows row List.mem_cons_self),
      List.map_cons, List.singleton_append]
    exact congrArg _ (ih fun r hr => hrows r (List.mem_cons_of_mem _ hr))

/-- The columns of a table of rows. -/
theorem getElem?_ofRows {names : List String} {rows : List (List Element)} {s : String}
    {column : Array Element} :
    (ofRows names rows).columns[s]? = some column ↔
      s ∈ names ∧ (columnOf names rows s).toArray = column := by
  rw [ofRows, Ordered.getElem?_ofList_map, Option.ite_none_right_eq_some, Option.some_inj]

theorem has_ofRows {names : List String} {rows : List (List Element)} {s : String} :
    (ofRows names rows).has s ↔ s ∈ names := by
  rw [has_iff]
  simp only [getElem?_ofRows]
  exact ⟨fun ⟨_, hs, _⟩ => hs, fun hs => ⟨_, hs, rfl⟩⟩

/-- A table of complete rows is regular, and its rows are counted by its height. -/
theorem regular_ofRows {names : List String} (hnames : names.Nodup) (hne : names ≠ [])
    {rows : List (List Element)} (hrows : ∀ row ∈ rows, row.length = names.length) :
    (ofRows names rows).Regular ∧ (ofRows names rows).height = rows.length := by
  refine regular_of_sizes ?_ fun s column hcolumn => ?_
  · obtain ⟨s, hs⟩ := List.exists_mem_of_ne_nil names hne
    exact ⟨s, has_ofRows.2 hs⟩
  · obtain ⟨hs, rfl⟩ := getElem?_ofRows.1 hcolumn
    simp [columnOf_eq hnames hs hrows]

/-- The rows of a table of rows are those it was made of. -/
theorem agreesAt_ofRows {names : List String} (hnames : names.Nodup)
    {rows : List (List Element)} (hrows : ∀ row ∈ rows, row.length = names.length) {i : Nat}
    (hi : i < rows.length) :
    (ofRows names rows).agreesAt ρ i ↔ rows[i]? = some (names.map ρ) := by
  have hvalue : ∀ s ∈ names, (ofRows names rows).valuation i s =
      rows[i][names.idxOf s]?.getD default := by
    intro s hs
    simp [valuation, Std.ExtTreeMap.getD_eq_getD_getElem?, getElem?_ofRows.2 ⟨hs, rfl⟩,
      columnOf_eq hnames hs hrows, hi]
  have hlength := hrows rows[i] (List.getElem_mem hi)
  rw [agreesAt_iff, List.getElem?_eq_getElem hi, Option.some_inj]
  simp only [has_ofRows]
  constructor
  · intro h
    refine List.ext_getElem (by simpa using hlength) fun j hj hj' => ?_
    have hj'' : j < names.length := by simpa using hj'
    have := h names[j] (List.getElem_mem hj'')
    rw [hvalue _ (List.getElem_mem hj''), hnames.idxOf_getElem, List.getElem?_eq_getElem hj,
      Option.getD_some] at this
    rw [this, List.getElem_map]
  · intro h s hs
    have hidx : names.idxOf s < names.length := List.idxOf_lt_length_of_mem hs
    rw [hvalue s hs, h, List.getElem?_map, List.getElem?_eq_getElem hidx, List.getElem_idxOf]
    rfl

/-- Counting the places of an item is counting the item. -/
theorem countP_getElem? {α : Type} [BEq α] [LawfulBEq α] (l : List α) (a : α) :
    (List.range l.length).countP (fun i => l[i]? == some a) = l.count a := by
  induction l with
  | nil => rfl
  | cons x xs ih =>
    rw [List.length_cons, List.range_succ_eq_map, List.countP_cons, List.countP_map,
      List.count_cons, ← ih]
    congr 1

/-- **A table of rows agrees with a valuation as often as its row occurs.** -/
theorem multiplicity_ofRows {names : List String} (hnames : names.Nodup) (hne : names ≠ [])
    {rows : List (List Element)} (hrows : ∀ row ∈ rows, row.length = names.length) :
    (ofRows names rows).multiplicity ρ = rows.count (names.map ρ) := by
  rw [multiplicity, (regular_ofRows hnames hne hrows).2, ← countP_getElem?]
  refine List.countP_congr fun i hi => ?_
  rw [agreesAt_ofRows hnames hrows (List.mem_range.1 hi), beq_iff_eq]

/-- **A table of rows holds of the valuations that give its synonyms one of the rows.** -/
theorem holds_ofRows {names : List String} (hnames : names.Nodup) (hne : names ≠ [])
    {rows : List (List Element)} (hrows : ∀ row ∈ rows, row.length = names.length) :
    (ofRows names rows).Holds ρ ↔ names.map ρ ∈ rows := by
  rw [holds_iff, multiplicity_ofRows hnames hne hrows, List.count_pos_iff]

/-! ## One and two columns -/

theorem length_of_mem_singles (values : List Element) :
    ∀ row ∈ values.map fun a => [a], row.length = 1 := by
  simp

theorem length_of_mem_pairs (rows : List (Element × Element)) :
    ∀ row ∈ rows.map fun p => [p.1, p.2], row.length = 2 := by
  intro row hrow
  obtain ⟨p, -, rfl⟩ := List.mem_map.1 hrow
  rfl

/-- One column is a table of rows of one. -/
theorem single_eq_ofRows (s : String) (values : List Element) :
    single s values = ofRows [s] (values.map fun a => [a]) := by
  have hcolumn : columnOf [s] (values.map fun a => [a]) s = values := by
    rw [columnOf_eq (List.nodup_singleton s) List.mem_cons_self (length_of_mem_singles values)]
    simp [Function.comp_def]
  rw [single, ofRows, List.map_singleton, hcolumn]
  rfl

/-- Two columns are a table of rows of two, if they have different synonyms. -/
theorem pair_eq_ofRows {l r : String} (h : l ≠ r) (rows : List (Element × Element)) :
    pair l r rows = ofRows [l, r] (rows.map fun p => [p.1, p.2]) := by
  have hnodup : [l, r].Nodup := by simpa using h
  have hleft : columnOf [l, r] (rows.map fun p => [p.1, p.2]) l = rows.map Prod.fst := by
    rw [columnOf_eq hnodup List.mem_cons_self (length_of_mem_pairs rows)]
    simp [Function.comp_def]
  have hright : columnOf [l, r] (rows.map fun p => [p.1, p.2]) r = rows.map Prod.snd := by
    rw [columnOf_eq hnodup (by simp) (length_of_mem_pairs rows)]
    simp [Function.comp_def, List.idxOf_cons_ne _ h]
  rw [pair, ofRows, List.map_cons, List.map_singleton, hleft, hright]
  rfl

theorem has_single {s s' : String} {values : List Element} :
    (single s values).has s' ↔ s' = s := by
  rw [single_eq_ofRows, has_ofRows, List.mem_singleton]

/-- A table of one column is regular, and as high as the column is long. -/
theorem regular_single (s : String) (values : List Element) :
    (single s values).Regular ∧ (single s values).height = values.length := by
  have := regular_ofRows (List.nodup_singleton s) (List.cons_ne_nil _ _)
    (length_of_mem_singles values)
  rwa [← single_eq_ofRows, List.length_map] at this

/-- It holds of the valuations that give the synonym one of its elements. -/
theorem holds_single {s : String} {values : List Element} :
    (single s values).Holds ρ ↔ ρ s ∈ values := by
  rw [single_eq_ofRows, holds_ofRows (List.nodup_singleton s) (List.cons_ne_nil _ _)
    (length_of_mem_singles values)]
  simp

theorem has_pair {l r s : String} (h : l ≠ r) {rows : List (Element × Element)} :
    (pair l r rows).has s ↔ s = l ∨ s = r := by
  rw [pair_eq_ofRows h, has_ofRows]
  simp

/-- A table of two columns is regular too. -/
theorem regular_pair {l r : String} (h : l ≠ r) (rows : List (Element × Element)) :
    (pair l r rows).Regular ∧ (pair l r rows).height = rows.length := by
  have hnodup : [l, r].Nodup := by simpa using h
  have := regular_ofRows hnodup (List.cons_ne_nil _ _) (length_of_mem_pairs rows)
  rwa [← pair_eq_ofRows h, List.length_map] at this

/-- It holds of the valuations that give the synonyms one of its pairs. -/
theorem holds_pair {l r : String} (h : l ≠ r) {rows : List (Element × Element)} :
    (pair l r rows).Holds ρ ↔ (ρ l, ρ r) ∈ rows := by
  have hnodup : [l, r].Nodup := by simpa using h
  rw [pair_eq_ofRows h, holds_ofRows hnodup (List.cons_ne_nil _ _) (length_of_mem_pairs rows)]
  simp

/-! ## Projections -/

/-- The values of the kept synonyms in the rows of a table, each once. -/
def projectedRows (t : Table) (names : List String) : List (List Element) :=
  (Std.ExtTreeSet.ofList
    ((List.range t.height).map (valuesAt (t.select (names.filter t.has))))).toList

section Projections

variable {names : List String}

theorem project_eq_ofRows :
    t.project names = ofRows (names.filter t.has) (t.projectedRows names) := rfl

theorem nodup_projectedRows : (t.projectedRows names).Nodup :=
  Ordered.nodup_toList

namespace Regular

/-- The rows of a projection are the rows of the table, as far as its synonyms are kept. -/
theorem mem_projectedRows (h : t.Regular) {row : List Element} :
    row ∈ t.projectedRows names ↔
      ∃ i < t.height, (names.filter t.has).map (t.valuation i) = row := by
  rw [projectedRows, Ordered.mem_toList_ofList, List.mem_map]
  refine exists_congr fun i => ?_
  rw [List.mem_range]
  refine and_congr_right fun hi => ?_
  rw [h.valuesAt_select (fun s hs => (List.mem_filter.1 hs).2) hi]

theorem length_of_mem_projectedRows (h : t.Regular) :
    ∀ row ∈ t.projectedRows names, row.length = (names.filter t.has).length := by
  intro row hrow
  obtain ⟨i, -, rfl⟩ := h.mem_projectedRows.1 hrow
  exact List.length_map _

/-- A projection has the synonyms that are named and there. -/
theorem has_project {s : String} :
    (t.project names).has s ↔ s ∈ names ∧ t.has s := by
  rw [project, has_ofRows, List.mem_filter]

/-- A projection on a synonym that the table has is regular. -/
theorem project (h : t.Regular) (hnames : names.Nodup) (hne : names.filter t.has ≠ []) :
    (t.project names).Regular :=
  (regular_ofRows (hnames.filter _) hne h.length_of_mem_projectedRows).1

/-- **A projection holds where the table agrees on the synonyms that are kept.** -/
theorem holds_project (h : t.Regular) (hnames : names.Nodup) (hne : names.filter t.has ≠ []) :
    (t.project names).Holds ρ ↔
      ∃ ρ', t.Holds ρ' ∧ ∀ s ∈ names, t.has s → ρ' s = ρ s := by
  rw [project_eq_ofRows, holds_ofRows (hnames.filter _) hne h.length_of_mem_projectedRows,
    h.mem_projectedRows]
  simp only [List.map_inj_left, List.mem_filter]
  constructor
  · rintro ⟨i, hi, heq⟩
    exact ⟨t.valuation i, holds_valuation hi, fun s hs hhas => heq s ⟨hs, hhas⟩⟩
  · rintro ⟨ρ', ⟨i, hi, hρ'⟩, heq⟩
    refine ⟨i, hi, fun s hs => ?_⟩
    rw [agreesAt_iff.1 hρ' s hs.2, heq s hs.1 hs.2]

end Regular

end Projections

/-! ## Products

Row `k` of a product is row `k / n` of the first table beside row `k % n` of the second,
where `n` is the height of the second. -/

/-- Where an element is if each is repeated `n` times before the next comes. -/
theorem getElem?_flatMap_replicate {α : Type} {n : Nat} (hn : 0 < n) (l : List α) (k : Nat) :
    (l.flatMap (List.replicate n ·))[k]? = l[k / n]? := by
  induction l generalizing k with
  | nil => rfl
  | cons a l ih =>
    rw [List.flatMap_cons]
    rcases Nat.lt_or_ge k n with hk | hk
    · rw [List.getElem?_append_left (by simpa using hk), Nat.div_eq_of_lt hk]
      simp [hk]
    · rw [List.getElem?_append_right (by simpa using hk), List.length_replicate, ih,
        Nat.div_eq_sub_div hn hk, List.getElem?_cons_succ]

/-- Where an element is if the list is repeated as a whole. -/
theorem getElem?_flatten_replicate {α : Type} (l : List α) {m k : Nat} (hk : k < m * l.length) :
    (List.replicate m l).flatten[k]? = l[k % l.length]? := by
  induction m generalizing k with
  | zero => simp at hk
  | succ m ih =>
    rw [List.replicate_succ, List.flatten_cons]
    rcases Nat.lt_or_ge k l.length with hlt | hge
    · rw [List.getElem?_append_left hlt, Nat.mod_eq_of_lt hlt]
    · have hk' : k - l.length < m * l.length := by
        rw [Nat.succ_mul] at hk
        omega
      rw [List.getElem?_append_right hge, ih hk', Nat.mod_eq_sub_mod hge]

/-- Two tests on a quotient and a remainder are passed independently. -/
theorem countP_range_mul (p q : Nat → Bool) (m n : Nat) :
    (List.range (m * n)).countP (fun k => p (k / n) && q (k % n)) =
      (List.range m).countP p * (List.range n).countP q := by
  induction m with
  | zero => simp
  | succ m ih =>
    have hblock : ((List.range n).map (m * n + ·)).countP (fun k => p (k / n) && q (k % n)) =
        if p m then (List.range n).countP q else 0 := by
      rw [List.countP_map]
      have hcongr : (List.range n).countP
          ((fun k => p (k / n) && q (k % n)) ∘ (m * n + ·)) =
            (List.range n).countP fun j => p m && q j := by
        refine List.countP_congr fun j hj => ?_
        have hj := List.mem_range.1 hj
        have hdiv : (m * n + j) / n = m := by
          rw [Nat.mul_comm, Nat.mul_add_div (by omega), Nat.div_eq_of_lt hj, Nat.add_zero]
        have hmod : (m * n + j) % n = j := by
          rw [Nat.mul_comm, Nat.mul_add_mod, Nat.mod_eq_of_lt hj]
        simp [hdiv, hmod]
      rw [hcongr]
      cases p m <;> simp
    rw [Nat.succ_mul, List.range_add, List.countP_append, ih, hblock, List.range_succ,
      List.countP_append, List.countP_singleton, Nat.add_mul]
    cases p m <;> simp

/-- Two tables without a common synonym. -/
def Apart (t u : Table) : Prop :=
  ∀ s, t.has s → ¬ u.has s

theorem columns_isEmpty_eq_false {s : String} (h : t.has s) : t.columns.isEmpty = false :=
  Std.ExtTreeMap.isEmpty_eq_false_iff.2
    (Std.ExtTreeMap.ne_empty_of_mem (Std.ExtTreeMap.contains_iff_mem.1 h))

/-- A column of a product is a column of the second table, repeated as a whole, or else one of the
first, with each element repeated. -/
theorem getElem?_cross (ht : ∃ s, t.has s) (hu : ∃ s, u.has s) (s : String) :
    (t.cross u).columns[s]? =
      (u.columns[s]?.map fun column => (Array.replicate t.height column).flatten).or
        (t.columns[s]?.map fun column => column.flatMap (Array.replicate u.height ·)) := by
  obtain ⟨_, ht⟩ := ht
  obtain ⟨_, hu⟩ := hu
  simp [cross, columns_isEmpty_eq_false ht, columns_isEmpty_eq_false hu,
    Std.ExtTreeMap.getElem?_union, Std.ExtTreeMap.getElem?_map]

/-- A product has the synonyms of both tables. -/
theorem has_cross (ht : ∃ s, t.has s) (hu : ∃ s, u.has s) {s : String} :
    (t.cross u).has s ↔ t.has s ∨ u.has s := by
  simp only [has, Std.ExtTreeMap.contains_eq_isSome_getElem?, getElem?_cross ht hu]
  simp [or_comm]

namespace Regular

/-- The columns of a product, by where they come from. -/
theorem cross_column (ht : t.Regular) (hu : u.Regular) {s : String} {column : Array Element}
    (h : (t.cross u).columns[s]? = some column) :
    column.size = t.height * u.height ∧ ∀ k < t.height * u.height,
      column[k]? = some (if u.has s then u.valuation (k % u.height) s
        else t.valuation (k / u.height) s) := by
  rw [getElem?_cross ht.exists_has hu.exists_has] at h
  have hpos : ∀ {k}, k < t.height * u.height → 0 < u.height := fun {k} hk =>
    Nat.pos_of_ne_zero fun h0 => by simp [h0] at hk
  cases hs : u.columns[s]? with
  | some c =>
    -- a column of `u` is repeated whole
    have hc := hu.size_eq s c hs
    rw [hs, Option.map_some, Option.some_or, Option.some_inj] at h
    subst h
    refine ⟨by simp [hc], fun k hk => ?_⟩
    have hlength : c.toList.length = u.height := hc
    rw [if_pos (has_iff.2 ⟨c, hs⟩), ← hu.getElem?_column hs (Nat.mod_lt _ (hpos hk)),
      ← Array.getElem?_toList, ← Array.getElem?_toList, Array.toList_flatten, Array.toList_replicate,
      List.map_replicate, getElem?_flatten_replicate _ (by rw [hlength]; exact hk), hlength]
  | none =>
    -- a column of `t` has each of its rows repeated
    have hhas : ¬ u.has s := fun h => by
      obtain ⟨c, hc⟩ := has_iff.1 h
      simp [hs] at hc
    rw [hs, Option.map_none, Option.none_or, Option.map_eq_some_iff] at h
    obtain ⟨c, hs', rfl⟩ := h
    have hc : c.toList.length = t.height := ht.size_eq s c hs'
    refine ⟨?_, fun k hk => ?_⟩
    · rw [← Array.length_toList, Array.toList_flatMap, List.length_flatMap]
      simp [hc]
    rw [if_neg hhas, ← ht.getElem?_column hs' ((Nat.div_lt_iff_lt_mul (hpos hk)).2 hk),
      ← Array.getElem?_toList, ← Array.getElem?_toList, Array.toList_flatMap]
    simp only [Array.toList_replicate]
    rw [getElem?_flatMap_replicate (hpos hk)]

/-- **A product of regular tables is regular**, and has a row for each pair of rows. -/
theorem cross (ht : t.Regular) (hu : u.Regular) :
    (t.cross u).Regular ∧ (t.cross u).height = t.height * u.height := by
  refine regular_of_sizes ?_ fun s column h => (ht.cross_column hu h).1
  obtain ⟨s, hs⟩ := ht.exists_has
  exact ⟨s, (has_cross ht.exists_has hu.exists_has).2 (.inl hs)⟩

/-- **A product multiplies**, if no synonym is in both tables. -/
theorem multiplicity_cross (ht : t.Regular) (hu : u.Regular) (h : t.Apart u) :
    (t.cross u).multiplicity ρ = t.multiplicity ρ * u.multiplicity ρ := by
  obtain ⟨hregular, hheight⟩ := ht.cross hu
  rw [multiplicity, multiplicity, multiplicity, hheight, ← countP_range_mul]
  refine List.countP_congr fun k hk => ?_
  have hk := List.mem_range.1 hk
  have hvalue : ∀ s, (t.cross u).has s → (t.cross u).valuation k s =
      if u.has s then u.valuation (k % u.height) s else t.valuation (k / u.height) s := by
    intro s hs
    obtain ⟨column, hcolumn⟩ := has_iff.1 hs
    have hat := hregular.getElem?_column hcolumn (by rw [hheight]; exact hk)
    exact Option.some.inj (hat.symm.trans ((ht.cross_column hu hcolumn).2 k hk))
  rw [Bool.and_eq_true, agreesAt_iff, agreesAt_iff, agreesAt_iff]
  constructor
  · intro hρ
    refine ⟨fun s hs => ?_, fun s hs => ?_⟩
    · have hs' := (has_cross ht.exists_has hu.exists_has).2 (.inl hs)
      rw [← hρ s hs', hvalue s hs', if_neg (h s hs)]
    · have hs' := (has_cross ht.exists_has hu.exists_has).2 (.inr hs)
      rw [← hρ s hs', hvalue s hs', if_pos hs]
  · rintro ⟨hρt, hρu⟩ s hs
    rw [hvalue s hs]
    split
    · next hus => exact hρu s hus
    · next hus =>
      exact hρt s (((has_cross ht.exists_has hu.exists_has).1 hs).resolve_right hus)

/-- **A product holds of what both tables hold of**, if they share no synonym. -/
theorem holds_cross (ht : t.Regular) (hu : u.Regular) (h : t.Apart u) :
    (t.cross u).Holds ρ ↔ t.Holds ρ ∧ u.Holds ρ := by
  rw [holds_iff, holds_iff, holds_iff, ht.multiplicity_cross hu h]
  simp only [Nat.pos_iff_ne_zero, ne_eq, Nat.mul_eq_zero, not_or]

end Regular

/-- A table that is put together piece by piece, from none: which synonyms it has, and,
once it has any, where it holds. -/
structure Spans (t : Table) (S : String → Prop) (H : Valuation → Prop) : Prop where
  has_iff : ∀ s, t.has s ↔ S s
  regular : (∃ s, t.has s) → t.Regular
  holds_iff : ∀ ρ, ((∃ s, t.has s) → t.Holds ρ) ↔ H ρ

namespace Spans

variable {S S' : String → Prop} {H H' : Valuation → Prop}

/-- The table without columns leaves every synonym free. -/
theorem empty : Table.empty.Spans (fun _ => False) fun _ => True := by
  have hhas : ∀ s, ¬ Table.empty.has s := by simp [has, Table.empty]
  have hnone : ¬ ∃ s, Table.empty.has s := not_exists.2 hhas
  exact ⟨fun s => iff_false_intro (hhas s), fun h => absurd h hnone,
    fun ρ => iff_true_intro fun h => absurd h hnone⟩

theorem congr (h : t.Spans S H) (hS : ∀ s, S s ↔ S' s) (hH : ∀ ρ, H ρ ↔ H' ρ) :
    t.Spans S' H' :=
  ⟨fun s => (h.has_iff s).trans (hS s), h.regular, fun ρ => (h.holds_iff ρ).trans (hH ρ)⟩

/-- **A product adds a piece** that shares no synonym with what is there. -/
theorem cross (h : t.Spans S H) (hu : u.Regular) (hapart : ∀ s, S s → ¬ u.has s) :
    (t.cross u).Spans (fun s => S s ∨ u.has s) fun ρ => H ρ ∧ u.Holds ρ := by
  by_cases hhas : ∃ s, t.has s
  · have ht := h.regular hhas
    have hapart' : t.Apart u := fun s hs => hapart s ((h.has_iff s).1 hs)
    have hregular := (ht.cross hu).1
    refine ⟨fun s => ?_, fun _ => hregular, fun ρ => ?_⟩
    · rw [has_cross hhas hu.exists_has, h.has_iff]
    · rw [imp_iff_right hregular.exists_has, ht.holds_cross hu hapart', ← h.holds_iff ρ,
        imp_iff_right hhas]
  · have hempty : t.columns.isEmpty := by
      rw [Std.ExtTreeMap.isEmpty_iff, Std.ExtTreeMap.eq_empty_iff_forall_not_mem]
      exact fun s hs => hhas ⟨s, Std.ExtTreeMap.contains_iff_mem.2 hs⟩
    have hcross : t.cross u = u := by rw [Table.cross, if_pos hempty]
    rw [hcross]
    refine ⟨fun s => ?_, fun _ => hu, fun ρ => ?_⟩
    · rw [or_iff_right fun hs => hhas ⟨s, (h.has_iff s).2 hs⟩]
    · rw [imp_iff_right hu.exists_has, ← h.holds_iff ρ, and_iff_right fun hs => absurd hs hhas]

end Spans

/-! ## Joins -/

/-- A value that is met `c` times at some places, and not at the others. -/
theorem count_flatMap_of_ite {α β : Type} [BEq β] {f : α → List β} {p : α → Bool} {c : Nat} {b : β}
    (h : ∀ a, (f a).count b = if p a then c else 0) (l : List α) :
    (l.flatMap f).count b = l.countP p * c := by
  induction l with
  | nil => simp
  | cons a l ih =>
    rw [List.flatMap_cons, List.count_append, ih, h, List.countP_cons, Nat.add_mul, Nat.add_comm]
    split <;> simp

/-- The synonyms that two tables share. -/
def shared (t u : Table) : List String :=
  t.synonyms.filter u.has

/-- The synonyms of a join: those of the first table, and what the second adds. -/
def joinSynonyms (t u : Table) : List String :=
  t.synonyms ++ u.synonyms.filter (!t.has ·)

/-- The rows of a join: each row of the first table with every row of the second that
agrees with it on the shared synonyms. -/
def joinRows (t u : Table) : List (List Element) :=
  (List.range t.height).flatMap fun i =>
    (List.range u.height).filterMap fun j =>
      if (t.shared u).map (u.valuation j) = (t.shared u).map (t.valuation i) then
        some (t.synonyms.map (t.valuation i) ++
          (u.synonyms.filter (!t.has ·)).map (u.valuation j))
      else none

theorem mem_shared {s : String} : s ∈ t.shared u ↔ t.has s ∧ u.has s := by
  rw [shared, List.mem_filter, mem_synonyms]

/-- A join has the synonyms of both tables. -/
theorem mem_joinSynonyms {s : String} : s ∈ t.joinSynonyms u ↔ t.has s ∨ u.has s := by
  simp only [joinSynonyms, List.mem_append, List.mem_filter, mem_synonyms, Bool.not_eq_true']
  by_cases hs : t.has s <;> simp [hs]

theorem nodup_joinSynonyms : (t.joinSynonyms u).Nodup := by
  refine List.Nodup.append nodup_synonyms (nodup_synonyms.filter _) fun s hs hs' => ?_
  simp [mem_synonyms.1 hs] at hs'

/-- Every row of a join has a value for each of its synonyms. -/
theorem length_of_mem_joinRows : ∀ row ∈ t.joinRows u, row.length = (t.joinSynonyms u).length := by
  intro row hrow
  simp only [joinRows, List.mem_flatMap, List.mem_filterMap, Option.ite_none_right_eq_some,
    Option.some_inj] at hrow
  obtain ⟨i, -, j, -, -, rfl⟩ := hrow
  simp [joinSynonyms]

theorem shared_eq_nil_iff : t.shared u = [] ↔ t.Apart u := by
  simp only [List.eq_nil_iff_forall_not_mem, mem_shared, not_and]
  rfl

/-- Tables that share no synonym are joined as their product. -/
theorem join_eq_cross (h : t.Apart u) : t.join u = t.cross u := by
  have hnil : t.synonyms.filter u.has = [] := shared_eq_nil_iff.2 h
  simp [join, hnil]

namespace Regular

variable (ht : t.Regular) (hu : u.Regular)

include ht in
theorem joinSynonyms_ne_nil : t.joinSynonyms u ≠ [] := by
  obtain ⟨s, hs⟩ := ht.exists_has
  exact List.ne_nil_of_mem (mem_joinSynonyms.2 (.inl hs))

include ht hu

/-- Others are joined as the table of the rows that match. -/
theorem join_eq_ofRows (h : ¬ t.Apart u) :
    t.join u = ofRows (t.joinSynonyms u) (t.joinRows u) := by
  have hne : (t.synonyms.filter u.has).isEmpty = false := by
    rw [List.isEmpty_eq_false_iff]
    exact fun hnil => h (shared_eq_nil_iff.1 hnil)
  have hsharedt : ∀ s ∈ t.synonyms.filter u.has, t.has s := fun s hs => (mem_shared.1 hs).1
  have hsharedu : ∀ s ∈ t.synonyms.filter u.has, u.has s := fun s hs => (mem_shared.1 hs).2
  have hextra : ∀ s ∈ u.synonyms.filter (!t.has ·), u.has s := fun s hs =>
    mem_synonyms.1 (List.mem_filter.1 hs).1
  simp only [join, hne, Bool.false_eq_true, if_false, joinSynonyms, joinRows]
  congr 1
  refine List.flatMap_congr fun i hi => ?_
  have hi := List.mem_range.1 hi
  rw [getD_grouped, List.filterMap_map, ht.valuesAt_select hsharedt hi, columnList_eq_select,
    ht.valuesAt_select (fun s hs => mem_synonyms.1 hs) hi, List.map_filterMap]
  refine List.filterMap_congr fun j hj => ?_
  have hj := List.mem_range.1 hj
  simp only [Function.comp_apply, hu.valuesAt_select hsharedu hj, hu.valuesAt_select hextra hj]
  split
  · next h => rw [if_pos (by exact h), Option.map_some]
  · next h => rw [if_neg (by exact h), Option.map_none]

/-- **A join has the synonyms of both tables**, whether they share some or not. -/
theorem has_join {s : String} : (t.join u).has s ↔ t.has s ∨ u.has s := by
  by_cases h : t.Apart u
  · rw [join_eq_cross h, has_cross ht.exists_has hu.exists_has]
  · rw [ht.join_eq_ofRows hu h, has_ofRows, mem_joinSynonyms]

/-- **A join of regular tables is regular.** -/
theorem join : (t.join u).Regular := by
  by_cases h : t.Apart u
  · rw [join_eq_cross h]
    exact (ht.cross hu).1
  · rw [ht.join_eq_ofRows hu h]
    exact (regular_ofRows nodup_joinSynonyms ht.joinSynonyms_ne_nil length_of_mem_joinRows).1

omit ht hu in
/-- A row of a join agrees with a valuation if both rows it is made of do. -/
theorem joinRow_eq_iff {i j : Nat} :
    ((if (t.shared u).map (u.valuation j) = (t.shared u).map (t.valuation i) then
        some (t.synonyms.map (t.valuation i) ++
          (u.synonyms.filter (!t.has ·)).map (u.valuation j))
      else none) == some ((t.joinSynonyms u).map ρ)) = true ↔
    t.agreesAt ρ i ∧ u.agreesAt ρ j := by
  have happend : ∀ {l₁ l₂ r₁ r₂ : List Element}, l₁.length = l₂.length →
      (l₁ ++ r₁ = l₂ ++ r₂ ↔ l₁ = l₂ ∧ r₁ = r₂) := fun hlength =>
    ⟨fun h => List.append_inj h hlength, fun ⟨hl, hr⟩ => by rw [hl, hr]⟩
  rw [beq_iff_eq, Option.ite_none_right_eq_some, Option.some_inj, joinSynonyms, List.map_append,
    happend (by simp)]
  simp only [List.map_inj_left, mem_synonyms, agreesAt_iff, mem_shared, List.mem_filter]
  constructor
  · rintro ⟨hshared, ht, hextra⟩
    refine ⟨ht, fun s hs => ?_⟩
    by_cases hst : t.has s
    · rw [hshared s ⟨hst, hs⟩, ht s hst]
    · exact hextra s ⟨hs, by simpa using hst⟩
  · rintro ⟨ht, hu⟩
    refine ⟨fun s hs => ?_, ht, fun s hs => hu s hs.1⟩
    rw [ht s hs.1, hu s hs.2]

omit ht hu in
/-- What a row of the first table brings into a join: nothing if it does not agree with
the valuation, else a row for each row of the second table that does. -/
theorem count_joinRow {i : Nat} :
    ((List.range u.height).filterMap fun j =>
      if (t.shared u).map (u.valuation j) = (t.shared u).map (t.valuation i) then
        some (t.synonyms.map (t.valuation i) ++
          (u.synonyms.filter (!t.has ·)).map (u.valuation j))
      else none).count ((t.joinSynonyms u).map ρ) =
    if t.agreesAt ρ i then u.multiplicity ρ else 0 := by
  rw [List.count_filterMap]
  split
  · next hi =>
    refine List.countP_congr fun j _ => ?_
    rw [joinRow_eq_iff]
    simp [hi]
  · next hi =>
    rw [List.countP_eq_zero]
    intro j _ hj
    exact hi (joinRow_eq_iff.1 hj).1

/-- **A join multiplies.** -/
theorem multiplicity_join : (t.join u).multiplicity ρ = t.multiplicity ρ * u.multiplicity ρ := by
  by_cases h : t.Apart u
  · rw [join_eq_cross h, ht.multiplicity_cross hu h]
  · rw [ht.join_eq_ofRows hu h, multiplicity_ofRows nodup_joinSynonyms ht.joinSynonyms_ne_nil
      length_of_mem_joinRows, joinRows]
    exact count_flatMap_of_ite (fun i => count_joinRow) _

end Regular

end Table

end ProgramFacts
