import Std.Data.ExtTreeMap
/-!
# Elements

What facts speak of and what queries answer: a statement, given by its number, or a
name. Statements come before names, statements in the order of their numbers and
names in the order of their characters.
-/

namespace ProgramFacts

/-- A statement or a name. -/
inductive Element where
  | stmt (number : Nat)
  | name (text : String)
  deriving DecidableEq, Inhabited

namespace Element

instance : Ord Element where
  compare
    | stmt m, stmt n => compare m n
    | stmt _, name _ => .lt
    | name _, stmt _ => .gt
    | name s, name t => compare s t

@[simp]
theorem compare_stmt (m n : Nat) : compare (stmt m) (stmt n) = compare m n := rfl

@[simp]
theorem compare_name (s t : String) : compare (name s) (name t) = compare s t := rfl

instance : Std.TransOrd Element where
  eq_swap {a b} := by
    cases a <;> cases b <;> try rfl
    · simpa using Std.OrientedCmp.eq_swap
    · simpa using Std.OrientedCmp.eq_swap
  isLE_trans {a b c} := by
    cases a <;> cases b <;> cases c <;> try (intros; contradiction)
    · simpa using Std.TransCmp.isLE_trans
    · intros; rfl
    · intros; rfl
    · simpa using Std.TransCmp.isLE_trans

instance : Std.LawfulEqOrd Element where
  compare_self {a} := by
    cases a <;> simp
  eq_of_compare {a b} h := by
    cases a <;> cases b <;> try contradiction
    · simpa using h
    · simpa using h

/-- Pairs are ordered by their first elements, then by their second ones. -/
def pairOrder : Element × Element → Element × Element → Ordering :=
  compareLex (compareOn Prod.fst) (compareOn Prod.snd)

instance : Std.TransCmp pairOrder :=
  inferInstanceAs (Std.TransCmp (compareLex (compareOn Prod.fst) (compareOn Prod.snd)))

instance : Std.LawfulEqCmp pairOrder where
  eq_of_compare {a b} h := by
    obtain ⟨h₁, h₂⟩ := compareLex_eq_eq.1 h
    exact Prod.ext (Std.LawfulEqCmp.eq_of_compare h₁) (Std.LawfulEqCmp.eq_of_compare h₂)

/-- The number of a statement. -/
def stmt? : Element → Option Nat
  | stmt n => some n
  | name _ => none

/-- The text of a name. -/
def name? : Element → Option String
  | stmt _ => none
  | name s => some s

/-- An element as it is shown. -/
def text : Element → String
  | stmt n => toString n
  | name s => s

end Element

end ProgramFacts
