import ProgramFacts.Text.Count
import ProgramFacts.Text.Word
/-!
# JSON — numbers

A number has digits before the point, maybe some after it, and maybe a power of ten.
Its digits are gathered into a significand below 2^64: from the first digit on that does
not fit, digits before the point count as factors of ten, and digits after it do not
count. The number is then the significand times a power of ten, both taken as doubles.
A number is out of range if this product is (`isDouble`), which may differ from what the
written digits say by the three roundings on the way.
-/

namespace ProgramFacts

namespace Json

/-! ## Doubles -/

/-- **The double nearest to a number**, of two the one with an even last digit, as if
there were no largest double. A double has 53 binary digits. -/
def nearestDouble (n : Nat) : Nat :=
  let unit := Nat.pow 2 (n.log2 - 52)
  let quotient := n / unit
  let remainder := n % unit
  if 2 * remainder < unit ∨ (2 * remainder = unit ∧ quotient % 2 = 0) then quotient * unit
  else (quotient + 1) * unit

/-- Doubles are below this number. -/
def doubleLimit : Nat := Nat.pow 2 1024

/-- The largest power of ten that is a double. -/
def maxPower : Nat := 308

/-- Whether the product of a significand and a power of ten is a double. -/
def isDouble (significand : Nat) (power : Int) : Bool :=
  significand = 0 ||
    match power with
    | .ofNat p =>
      p ≤ maxPower &&
        nearestDouble (nearestDouble significand * nearestDouble (Nat.pow 10 p)) < doubleLimit
    | .negSucc _ => true

/-! ## Significands -/

/-- Appends digits to a number as long as it stays below 2^64, and gives the digits that
are left. -/
def gather (n : Nat) : List Char → Nat × List Char
  | [] => (n, [])
  | c :: cs =>
    let grown := 10 * n + Text.digitValue c
    if grown < Text.countLimit then gather grown cs else (n, c :: cs)

/-- Whether the number with these digits before and after the point, times a power of
ten, is a double. -/
def inRange (whole fraction : List Char) (power : Int) : Bool :=
  let (significand, dropped) := gather 0 whole
  let (significand, ignored) := gather significand fraction
  isDouble significand (power + dropped.length - (fraction.length - ignored.length))

/-! ## Written numbers -/

/-- The digits after a decimal point, if there is one. -/
def takeFraction? (cs : List Char) : Option (List Char × List Char) :=
  match cs with
  | '.' :: cs => (Text.takeNumeral? cs).map fun r => (r.value, r.rest)
  | cs => some ([], cs)

/-- A power of ten, if there is one. -/
def takePower? (cs : List Char) : Option (Int × List Char) :=
  match cs with
  | 'e' :: cs | 'E' :: cs =>
    let (negative, cs) :=
      match cs with
      | '-' :: cs => (true, cs)
      | '+' :: cs => (false, cs)
      | cs => (false, cs)
    (Text.takeNumeral? cs).map fun r =>
      let n : Int := Text.denoted r.value
      (if negative then -n else n, r.rest)
  | cs => some (0, cs)

/-- Whether digits are those of a number before the point: no zero comes first, unless it
is the only digit. -/
def isWhole : List Char → Bool
  | '0' :: _ :: _ => false
  | digits => !digits.isEmpty

/-- A number, as it is written. -/
def takeNumber? (cs : List Char) : Option (Reading String cs) := do
  let unsigned :=
    match cs with
    | '-' :: cs => cs
    | cs => cs
  let whole ← Text.takeNumeral? unsigned
  let (fraction, rest) ← takeFraction? whole.rest
  let (power, rest) ← takePower? rest
  if h : rest.length < cs.length then
    if isWhole whole.value && inRange whole.value fraction power then
      return ⟨String.ofList (cs.take (cs.length - rest.length)), rest, h⟩
    else none
  else none

end Json

end ProgramFacts
