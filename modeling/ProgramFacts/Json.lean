/-!
# JSON

JSON values, and the text that a value is written as: two spaces of indentation for
every level, each item on a line of its own, and `[]` for a list without items. Of
the characters in a string only quotes, backslashes and control characters are
escaped.
-/

namespace ProgramFacts

/-- A JSON value. A number is kept as it is written, an object with its fields in
order. -/
inductive Json
  | null
  | bool (value : Bool)
  | number (text : String)
  | string (text : String)
  | array (items : List Json)
  | object (fields : List (String × Json))

namespace Json

/-- A natural number. -/
def nat (n : Nat) : Json :=
  .number (toString n)

/-- A list of strings. -/
def strings (texts : List String) : Json :=
  .array (texts.map .string)

/-! ## Writing -/

/-- A digit to base sixteen. -/
def hexDigit (n : Nat) : Char :=
  if n < 10 then Char.ofNat ('0'.toNat + n) else Char.ofNat ('a'.toNat + (n - 10))

/-- A character inside a string. -/
def escape (c : Char) : List Char :=
  match c with
  | '"' => ['\\', '"']
  | '\\' => ['\\', '\\']
  | '\x08' => ['\\', 'b']
  | '\x0c' => ['\\', 'f']
  | '\n' => ['\\', 'n']
  | '\r' => ['\\', 'r']
  | '\t' => ['\\', 't']
  | c =>
    if c.toNat < 0x20 then
      ['\\', 'u', '0', '0', hexDigit (c.toNat / 16), hexDigit (c.toNat % 16)]
    else [c]

/-- A string in quotes. -/
def quote (s : String) : String :=
  String.ofList ('"' :: s.toList.flatMap escape ++ ['"'])

/-- The start of a line at a level. -/
def newLine (level : Nat) : String :=
  "\n" ++ String.ofList (List.replicate (2 * level) ' ')

/-- Items between brackets, each on its own line. -/
def enclose (level : Nat) (opening closing : String) (items : List String) : String :=
  if items.isEmpty then opening ++ closing
  else
    opening ++ ",".intercalate (items.map (newLine (level + 1) ++ ·)) ++ newLine level ++ closing

mutual

/-- A value that starts at a level. -/
def renderAt (level : Nat) : Json → String
  | .null => "null"
  | .bool true => "true"
  | .bool false => "false"
  | .number text => text
  | .string text => quote text
  | .array items => enclose level "[" "]" (renderItems (level + 1) items)
  | .object fields => enclose level "\x7b" "\x7d" (renderFields (level + 1) fields)

/-- The items of a list. -/
def renderItems (level : Nat) : List Json → List String
  | [] => []
  | item :: items => renderAt level item :: renderItems level items

/-- The fields of an object. -/
def renderFields (level : Nat) : List (String × Json) → List String
  | [] => []
  | (key, value) :: fields =>
    (quote key ++ ": " ++ renderAt level value) :: renderFields level fields

end

/-- **The text of a value.** -/
def render (value : Json) : String :=
  renderAt 0 value

end Json

end ProgramFacts
