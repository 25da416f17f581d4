import ProgramFacts.Element
import Std.Data.ExtTreeMap
import Std.Data.ExtTreeSet
/-!
# Tables

A table has a column of elements for each of its synonyms; what stands at one place of
every column is a row. Tables are joined in two ways: `Table.cross` pairs every row
of the one with every row of the other, and `Table.join` only those that agree on the
synonyms they share. `Table.project` keeps some of the synonyms, and each row once.
The columns of a table need not have the same length: naming a synonym twice in a
projection fills its column twice.
-/

namespace ProgramFacts

/-- A synonym and the element in its column. -/
@[ext]
structure Cell where
  synonym : String
  value : Element
  deriving DecidableEq

namespace Cell

instance : Ord Cell where
  compare := compareLex (compareOn synonym) (compareOn value)

instance : Std.TransOrd Cell :=
  inferInstanceAs (Std.TransCmp (compareLex (compareOn synonym) (compareOn value)))

instance : Std.LawfulEqOrd Cell where
  eq_of_compare {a b} h := by
    obtain ⟨h₁, h₂⟩ := compareLex_eq_eq.1 h
    exact Cell.ext (Std.LawfulEqCmp.eq_of_compare h₁) (Std.LawfulEqCmp.eq_of_compare h₂)

end Cell

/-- The cells at one place of every column, by ascending synonym. -/
abbrev Row := List Cell

/-- Columns of elements, one for each synonym. -/
structure Table where
  columns : Std.ExtTreeMap String (Array Element)

namespace Table

/-- The table without columns. -/
def empty : Table := ⟨∅⟩

/-- The table of one column. -/
def single (synonym : String) (values : List Element) : Table :=
  ⟨(∅ : Std.ExtTreeMap String (Array Element)).insert synonym values.toArray⟩

/-- The table of two columns. -/
def pair (left right : String) (rows : List (Element × Element)) : Table :=
  ⟨((∅ : Std.ExtTreeMap String (Array Element)).insert left (rows.map Prod.fst).toArray).insert
    right (rows.map Prod.snd).toArray⟩

/-- The values that rows have for a synonym, the synonyms of the rows being listed in
the order of their values. -/
def columnOf (synonyms : List String) (rows : List (List Element)) (s : String) : List Element :=
  rows.flatMap fun row =>
    (synonyms.zip row).filterMap fun (name, value) => if name = s then some value else none

/-- The table of rows, whose values are in the order of the synonyms. -/
def ofRows (synonyms : List String) (rows : List (List Element)) : Table :=
  ⟨.ofList (synonyms.map fun s => (s, (columnOf synonyms rows s).toArray))⟩

variable (t : Table)

/-- The synonyms, in ascending order. -/
def synonyms : List String :=
  t.columns.keys

/-- The columns, by ascending synonym. -/
def columnList : List (Array Element) :=
  t.columns.toList.map Prod.snd

/-- How many rows there are: as many as the first column has elements. -/
def height : Nat :=
  (t.columnList.head?.map Array.size).getD 0

/-- Whether there is no row. -/
def isEmpty : Bool :=
  t.height = 0

/-- Whether a synonym has a column. -/
def has (s : String) : Bool :=
  t.columns.contains s

/-- The elements of a column, each once, in ascending order. -/
def distinct (s : String) : List Element :=
  (Std.ExtTreeSet.ofList (t.columns.getD s #[]).toList).toList

/-- What stands at one place of some columns. -/
def valuesAt (columns : List (Array Element)) (i : Nat) : List Element :=
  columns.filterMap (·[i]?)

/-- A row of a table. -/
def row (i : Nat) : Row :=
  t.columns.toList.filterMap fun (s, column) => column[i]?.map (⟨s, ·⟩)

/-- **The rows of a table.** -/
def rows : List Row :=
  (List.range t.height).map t.row

/-- The rows in ascending order, with repetitions. -/
def sortedRows : List Row :=
  t.rows.mergeSort fun r s => (compare r s).isLE

/-- The rows in ascending order, each once. -/
def distinctRows : List Row :=
  (Std.ExtTreeSet.ofList t.rows).toList

/-- The value of a synonym in a row. -/
def valueIn? (r : Row) (s : String) : Option Element :=
  (r.find? (·.synonym = s)).map Cell.value

/-- Whether two tables have a synonym in common. -/
def shares (u : Table) : Bool :=
  t.synonyms.any u.has

/-- The columns of those of the given synonyms that have one. -/
def select (names : List String) : List (Array Element) :=
  names.filterMap (t.columns[·]?)

/-- **Keeps the given synonyms**, and of rows that then are equal only one; the rows are
in ascending order. -/
def project (names : List String) : Table :=
  let kept := names.filter t.has
  let columns := t.select kept
  let rows := Std.ExtTreeSet.ofList ((List.range t.height).map (valuesAt columns))
  ofRows kept rows.toList

/-- **Every row of the one with every row of the other.** A table without columns adds
nothing. If a synonym is in both, the second table has it. -/
def cross (u : Table) : Table :=
  if t.columns.isEmpty then u
  else if u.columns.isEmpty then t
  else
    ⟨(t.columns.map fun _ column => column.flatMap (Array.replicate u.height ·)) ∪
      (u.columns.map fun _ column => (Array.replicate t.height column).flatten)⟩

/-! ## Joining on shared synonyms -/

/-- Items with equal keys together, in the order in which they come. -/
def grouped {α : Type} (items : List (List Element × α)) :
    Std.ExtTreeMap (List Element) (List α) :=
  items.foldr (fun (key, a) m => m.insert key (a :: m.getD key [])) ∅

/-- **Grouping is filtering by the key.** -/
theorem getD_grouped {α : Type} (items : List (List Element × α)) (key : List Element) :
    (grouped items).getD key [] =
      items.filterMap fun (k, a) => if k = key then some a else none := by
  induction items with
  | nil => rfl
  | cons item items ih =>
    obtain ⟨k, a⟩ := item
    by_cases h : k = key
    · subst h
      simpa [grouped, Std.ExtTreeMap.getD_insert] using ih
    · simpa [grouped, Std.ExtTreeMap.getD_insert, h] using ih

/-- **The rows of either table that agree on the shared synonyms**, those of the first
table in their order, each with the matching rows of the second in theirs. -/
def join (u : Table) : Table :=
  let shared := t.synonyms.filter u.has
  if shared.isEmpty then t.cross u
  else
    let extra := u.synonyms.filter (!t.has ·)
    let keys := u.select shared
    let extras := u.select extra
    let partners := grouped ((List.range u.height).map fun i =>
      (valuesAt keys i, valuesAt extras i))
    let keys := t.select shared
    let values := t.columnList
    ofRows (t.synonyms ++ extra) <|
      (List.range t.height).flatMap fun i =>
        (partners.getD (valuesAt keys i) []).map (valuesAt values i ++ ·)

/-- Several tables joined from left to right. -/
def joinAll? : List Table → Option Table
  | [] => none
  | t :: ts => some (ts.foldl join t)

end Table

end ProgramFacts
