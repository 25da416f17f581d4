import ProgramFacts.Json
import ProgramFacts.Json.Number
/-!
# JSON — reading text

`Json.read?` accepts exactly the texts that the grammar of JSON allows, with two limits:
lists and objects are nested at most 127 deep, and a number has to be in the range of
doubles. Escaped characters outside the basic plane come as two halves, and no half
stands alone.
-/

namespace ProgramFacts

/-- A reading of an input that is no longer than another one. -/
def Reading.within {τ α : Type} {inner input : List τ} (h : inner.length ≤ input.length)
    (r : Reading α inner) : Reading α input :=
  ⟨r.value, r.rest, Nat.lt_of_lt_of_le r.shorter h⟩

namespace Json

/-- The white space of JSON. -/
def isSpace (c : Char) : Bool :=
  c = ' ' || c = '\n' || c = '\t' || c = '\r'

/-- The text from its first character that is no white space. -/
def skip (cs : List Char) : List Char :=
  cs.dropWhile isSpace

theorem length_skip_le (cs : List Char) : (skip cs).length ≤ cs.length :=
  (List.dropWhile_suffix isSpace).length_le

/-- A given mark, after white space. -/
def takeMark? (c : Char) (cs : List Char) : Option (Reading Unit cs) :=
  (Reading.item? c (skip cs)).map (·.within (length_skip_le cs))

/-! ## Strings -/

/-- The value of a digit to base sixteen. -/
def hexValue? (c : Char) : Option Nat :=
  if c.isDigit then some (c.toNat - '0'.toNat)
  else if 'a' ≤ c ∧ c ≤ 'f' then some (c.toNat - 'a'.toNat + 10)
  else if 'A' ≤ c ∧ c ≤ 'F' then some (c.toNat - 'A'.toNat + 10)
  else none

/-- A code unit, written as four digits to base sixteen. -/
def takeUnit? : (cs : List Char) → Option (Reading Nat cs)
  | a :: b :: c :: d :: rest => do
    let a ← hexValue? a
    let b ← hexValue? b
    let c ← hexValue? c
    let d ← hexValue? d
    return ⟨((a * 16 + b) * 16 + c) * 16 + d, rest, by simp only [List.length_cons]; omega⟩
  | _ => none

/-- The second half of a character outside the basic plane. -/
def takeLowHalf? : (cs : List Char) → Option (Reading Nat cs)
  | '\\' :: 'u' :: cs => do
    let unit ← takeUnit? cs
    if 0xDC00 ≤ unit.value ∧ unit.value < 0xE000 then
      return unit.within (by simp only [List.length_cons]; omega)
    else none
  | _ => none

/-- A character that is written by its code. -/
def takeCoded? (cs : List Char) : Option (Reading Char cs) := do
  let unit ← takeUnit? cs
  if 0xD800 ≤ unit.value ∧ unit.value < 0xDC00 then
    let low ← takeLowHalf? unit.rest
    return ⟨Char.ofNat (0x10000 + (unit.value - 0xD800) * 0x400 + (low.value - 0xDC00)),
      low.rest, Nat.lt_trans low.shorter unit.shorter⟩
  else if 0xDC00 ≤ unit.value ∧ unit.value < 0xE000 then none
  else return unit.map Char.ofNat

/-- What follows a backslash. -/
def takeEscaped? : (cs : List Char) → Option (Reading Char cs)
  | '"' :: _ => some (.one '"')
  | '\\' :: _ => some (.one '\\')
  | '/' :: _ => some (.one '/')
  | 'b' :: _ => some (.one '\x08')
  | 'f' :: _ => some (.one '\x0c')
  | 'n' :: _ => some (.one '\n')
  | 'r' :: _ => some (.one '\r')
  | 't' :: _ => some (.one '\t')
  | 'u' :: cs => (takeCoded? cs).map (·.within (Nat.le_succ _))
  | _ => none

/-- The characters of a string, to the quote that ends it. -/
def takeChars? (cs : List Char) : Option (Reading (List Char) cs) :=
  match cs with
  | [] => none
  | '"' :: _ => some (.one [])
  | '\\' :: cs => do
    let c ← takeEscaped? cs
    let more ← takeChars? c.rest
    return ⟨c.value :: more.value, more.rest,
      Nat.lt_succ_of_lt (Nat.lt_trans more.shorter c.shorter)⟩
  | c :: cs =>
    if c.toNat < 0x20 then none
    else do
      let more ← takeChars? cs
      return ⟨c :: more.value, more.rest, Nat.lt_succ_of_lt more.shorter⟩
termination_by cs.length
decreasing_by
  · exact Nat.lt_succ_of_lt c.shorter
  · exact Nat.lt_succ_self _

/-- A string in quotes. -/
def takeString? (cs : List Char) : Option (Reading String cs) := do
  let opening ← Reading.item? '"' cs
  let text ← takeChars? opening.rest
  return ⟨String.ofList text.value, text.rest, Nat.lt_trans text.shorter opening.shorter⟩

/-! ## Values -/

/-- How deep lists and objects may be nested. -/
def depthLimit : Nat := 127

/-- A word that stands for a value. -/
def takeLiteral? (cs : List Char) : Option (Reading Json cs) :=
  (Text.takeWord? "null".toList cs).map (·.map fun _ => .null) <|>
    (Text.takeWord? "true".toList cs).map (·.map fun _ => .bool true) <|>
    (Text.takeWord? "false".toList cs).map (·.map fun _ => .bool false)

/-- A value that is no list and no object. -/
def takeScalar? (cs : List Char) : Option (Reading Json cs) :=
  (takeString? cs).map (·.map .string) <|> takeLiteral? cs <|>
    (takeNumber? cs).map (·.map .number)

mutual

/-- A value, with the given depth left for lists and objects. -/
def takeValue? (depth : Nat) (cs : List Char) : Option (Reading Json cs) :=
  match takeMark? '[' cs, takeMark? '\x7b' cs with
  | some opening, _ =>
    if depth = 0 then none
    else
      match takeMark? ']' opening.rest with
      | some closing =>
        some ⟨.array [], closing.rest, Nat.lt_trans closing.shorter opening.shorter⟩
      | none => do
        let items ← takeItems? (depth - 1) opening.rest
        return ⟨.array items.value, items.rest, Nat.lt_trans items.shorter opening.shorter⟩
  | none, some opening =>
    if depth = 0 then none
    else
      match takeMark? '\x7d' opening.rest with
      | some closing =>
        some ⟨.object [], closing.rest, Nat.lt_trans closing.shorter opening.shorter⟩
      | none => do
        let fields ← takeFields? (depth - 1) opening.rest
        return ⟨.object fields.value, fields.rest, Nat.lt_trans fields.shorter opening.shorter⟩
  | none, none => (takeScalar? (skip cs)).map (·.within (length_skip_le cs))
termination_by (cs.length, 0)
decreasing_by
  · exact Prod.Lex.left _ _ opening.shorter
  · exact Prod.Lex.left _ _ opening.shorter

/-- Items, to the bracket that ends the list. -/
def takeItems? (depth : Nat) (cs : List Char) : Option (Reading (List Json) cs) := do
  let item ← takeValue? depth cs
  match takeMark? ',' item.rest with
  | some comma =>
    let more ← takeItems? depth comma.rest
    return ⟨item.value :: more.value, more.rest,
      Nat.lt_trans more.shorter (Nat.lt_trans comma.shorter item.shorter)⟩
  | none =>
    let closing ← takeMark? ']' item.rest
    return ⟨[item.value], closing.rest, Nat.lt_trans closing.shorter item.shorter⟩
termination_by (cs.length, 1)
decreasing_by
  · exact Prod.Lex.right _ (by decide)
  · exact Prod.Lex.left _ _ (Nat.lt_trans comma.shorter item.shorter)

/-- Fields, to the brace that ends the object. -/
def takeFields? (depth : Nat) (cs : List Char) : Option (Reading (List (String × Json)) cs) := do
  let key ← (takeString? (skip cs)).map (·.within (length_skip_le cs))
  let colon ← takeMark? ':' key.rest
  let value ← takeValue? depth colon.rest
  have shorter : value.rest.length < cs.length :=
    Nat.lt_trans value.shorter (Nat.lt_trans colon.shorter key.shorter)
  match takeMark? ',' value.rest with
  | some comma =>
    let more ← takeFields? depth comma.rest
    return ⟨(key.value, value.value) :: more.value, more.rest,
      Nat.lt_trans more.shorter (Nat.lt_trans comma.shorter shorter)⟩
  | none =>
    let closing ← takeMark? '\x7d' value.rest
    return ⟨[(key.value, value.value)], closing.rest, Nat.lt_trans closing.shorter shorter⟩
termination_by (cs.length, 1)
decreasing_by
  · exact Prod.Lex.left _ _ (Nat.lt_trans colon.shorter key.shorter)
  · exact Prod.Lex.left _ _ (Nat.lt_trans comma.shorter shorter)

end

/-- **The value of a text**, if the text is JSON. -/
def read? (text : String) : Option Json := do
  let value ← takeValue? depthLimit text.toList
  if (skip value.rest).isEmpty then return value.value else none

end Json

end ProgramFacts
