import ProgramFacts.Reading
/-!
# Text — names and numerals

A name is a letter followed by letters and digits, a numeral is a run of digits,
both in ASCII. Beside the two classes stand the longest name and the longest
numeral at the front of a text: `takeName?` and `takeNumeral?` lose nothing, so what
they read and what they leave always append to the text.
-/

namespace ProgramFacts

namespace Text

/-- A letter followed by letters and digits. -/
def isName : List Char → Bool
  | [] => false
  | c :: cs => c.isAlpha && cs.all Char.isAlphanum

/-- One digit or more, and nothing else. -/
def isNumeral : List Char → Bool
  | [] => false
  | c :: cs => c.isDigit && cs.all Char.isDigit

/-- The longest name at the front. -/
def takeName? : (cs : List Char) → Option (Reading (List Char) cs)
  | [] => none
  | c :: cs =>
    if c.isAlpha then
      some ⟨c :: cs.takeWhile Char.isAlphanum, cs.dropWhile Char.isAlphanum,
        Nat.lt_succ_of_le (List.dropWhile_suffix _).length_le⟩
    else none

/-- The longest numeral at the front. -/
def takeNumeral? : (cs : List Char) → Option (Reading (List Char) cs)
  | [] => none
  | c :: cs =>
    if c.isDigit then
      some ⟨c :: cs.takeWhile Char.isDigit, cs.dropWhile Char.isDigit,
        Nat.lt_succ_of_le (List.dropWhile_suffix _).length_le⟩
    else none

/-- A given word at the front, which is not empty. -/
def takeWord? (word cs : List Char) : Option (Reading Unit cs) :=
  if h : word ≠ [] ∧ word <+: cs then
    some ⟨(), cs.drop word.length, by
      have h₁ := List.length_pos_iff.2 h.1
      have h₂ := h.2.length_le
      simp only [List.length_drop]
      omega⟩
  else none

/-- What follows a given word at the front, empty or not. -/
def after? : List Char → List Char → Option (List Char)
  | [], cs => some cs
  | _ :: _, [] => none
  | w :: ws, c :: cs => if w = c then after? ws cs else none

/-- **The longest name loses nothing**, and it is a name. -/
theorem takeName?_eq_some {cs : List Char} {r : Reading (List Char) cs}
    (h : takeName? cs = some r) : r.value ++ r.rest = cs ∧ isName r.value := by
  cases cs with
  | nil => simp [takeName?] at h
  | cons c cs =>
    simp only [takeName?] at h
    split at h
    · next hc => cases h; simp [isName, hc, List.takeWhile_append_dropWhile]
    · cases h

/-- **The longest numeral loses nothing**, and it is a numeral. -/
theorem takeNumeral?_eq_some {cs : List Char} {r : Reading (List Char) cs}
    (h : takeNumeral? cs = some r) : r.value ++ r.rest = cs ∧ isNumeral r.value := by
  cases cs with
  | nil => simp [takeNumeral?] at h
  | cons c cs =>
    simp only [takeNumeral?] at h
    split at h
    · next hc => cases h; simp [isNumeral, hc, List.takeWhile_append_dropWhile]
    · cases h

theorem eq_of_takeWord? {word cs : List Char} {r : Reading Unit cs}
    (h : takeWord? word cs = some r) : cs = word ++ r.rest := by
  simp only [takeWord?] at h
  split at h
  · next hw =>
    cases h
    obtain ⟨tail, rfl⟩ := hw.2
    simp
  · cases h

theorem after?_eq_some {word cs rest : List Char} :
    after? word cs = some rest ↔ cs = word ++ rest := by
  induction word generalizing cs with
  | nil => simp [after?]
  | cons w ws ih =>
    cases cs with
    | nil => simp [after?]
    | cons c cs =>
      by_cases hw : w = c
      · simp [after?, hw, ih]
      · simp [after?, hw, Ne.symm hw]

end Text

end ProgramFacts
