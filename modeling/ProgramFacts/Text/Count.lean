/-!
# Text — counts

A count is written with one digit or more, after a plus sign if one likes, and has to
be below 2^64. `readCount` reads a text from its front and reports the first thing
that is wrong: a character that is no digit, or the digit that makes the count too
large.
-/

namespace ProgramFacts

namespace Text

/-- Why a text is no count. -/
inductive CountFault
  | empty
  | noDigit
  | tooLarge
  deriving DecidableEq

/-- The words for a fault. -/
def CountFault.message : CountFault → String
  | .empty => "cannot parse integer from empty string"
  | .noDigit => "invalid digit found in string"
  | .tooLarge => "number too large to fit in target type"

/-- Counts are below this number. -/
def countLimit : Nat := Nat.pow 2 64

/-- The value of a digit. -/
def digitValue (c : Char) : Nat :=
  c.toNat - '0'.toNat

/-- The number that digits denote after the digits that denote `value`. -/
def denotedFrom (value : Nat) (digits : List Char) : Nat :=
  digits.foldl (fun n c => 10 * n + digitValue c) value

/-- The number that digits denote. -/
def denoted (digits : List Char) : Nat :=
  denotedFrom 0 digits

/-- Reads digits after those that denote `value`. -/
def readDigits (value : Nat) : List Char → Except CountFault Nat
  | [] => .ok value
  | c :: cs =>
    let grown := 10 * value + digitValue c
    if !c.isDigit then .error .noDigit
    else if countLimit ≤ grown then .error .tooLarge
    else readDigits grown cs

/-- **Reads a count.** -/
def readCount : List Char → Except CountFault Nat
  | [] => .error .empty
  | ['+'] => .error .noDigit
  | '+' :: cs => readDigits 0 cs
  | cs => readDigits 0 cs

/-- The count that a text denotes, if it is one. -/
def count? (s : String) : Option Nat :=
  (readCount s.toList).toOption

end Text

end ProgramFacts
