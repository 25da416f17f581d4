/-!
# YAML — flat mappings

A flat mapping has one key to a line, a colon, and plain text as its value. All keys
begin in one column; lines may be blank or hold a comment. A value that a comment does
not end goes on in the lines that are indented further. `Yaml.read?` accepts such
texts and nothing else of YAML: what YAML would quote, list or nest is refused.

Which white space may stand where depends on what came before, so reading a line leaves
behind what may happen to the last value (`Tail`): tabs do not indent a key, but they
may stand in a line that a value could still go on in.
-/

namespace ProgramFacts

namespace Yaml

/-! ## Characters and lines -/

/-- The characters that a text may hold. -/
def isAllowed (c : Char) : Bool :=
  let n := c.toNat
  n = 0x9 || n = 0xA || n = 0xD || (0x20 ≤ n && n ≤ 0x7E) || n = 0x85 ||
    (0xA0 ≤ n && n ≤ 0xFFFD) || 0x10000 ≤ n

/-- The characters that end a line. -/
def isBreak (c : Char) : Bool :=
  let n := c.toNat
  n = 0xA || n = 0xD || n = 0x85 || n = 0x2028 || n = 0x2029

/-- The characters that part words on a line. -/
def isBlank (c : Char) : Bool :=
  c = ' ' || c = '\t'

/-- A mark that may stand before a text and before each of its lines. -/
def byteOrderMark : Char := '\ufeff'

/-- The lines of a text, after a line that has begun with the given characters, the last
first. -/
def linesFrom (begun : List Char) : List Char → List (List Char)
  | [] => [begun.reverse]
  | '\r' :: '\n' :: cs => begun.reverse :: linesFrom [] cs
  | c :: cs => if isBreak c then begun.reverse :: linesFrom [] cs else linesFrom (c :: begun) cs

/-- The lines of a text. -/
def lines (cs : List Char) : List (List Char) :=
  linesFrom [] cs

/-! ## Plain text -/

/-- Whether a word ends before the given characters. -/
def endsWord (cs : List Char) : Bool :=
  cs.head?.all isBlank

/-- The characters that no plain text begins with. -/
def indicators : List Char :=
  "\t,[]\x7b\x7d#&*!|>'\"%@\x60".toList

/-- Whether plain text can begin here. -/
def beginsPlain : List Char → Bool
  | [] => false
  | c :: cs =>
    if c = '-' || c = '?' || c = ':' then !endsWord cs else !indicators.contains c

/-- Plain text on a line, and what comes after it: a colon that ends a word, a comment
that begins one, or nothing. -/
def takePlain (afterBlank : Bool) : List Char → List Char × List Char
  | [] => ([], [])
  | c :: cs =>
    if (c = '#' && afterBlank) || (c = ':' && endsWord cs) then ([], c :: cs)
    else
      let (text, after) := takePlain (isBlank c) cs
      (c :: text, after)

/-- Text without blanks at its end. -/
def trimEnd (text : List Char) : String :=
  String.ofList (text.reverse.dropWhile isBlank).reverse

/-- Whether a line parts one document from another. -/
def isMarker : List Char → Bool
  | '-' :: '-' :: '-' :: cs => endsWord cs
  | '.' :: '.' :: '.' :: cs => endsWord cs
  | _ => false

/-! ## Lines, one after the other -/

/-- What may happen to the last value. -/
inductive Tail
  /-- It is complete, or there is none. -/
  | closed
  /-- It has not begun. -/
  | awaited
  /-- It may go on in the next line. -/
  | running
  deriving DecidableEq

/-- What has been read. -/
structure State where
  /-- The column that the keys begin in. -/
  column? : Option Nat := none
  /-- Keys and values, the last first. -/
  fields : List (String × String) := []
  tail : Tail := .closed

namespace State

/-- The fields with more text for the last value. -/
def withText (text : String) : List (String × String) → List (String × String)
  | [] => []
  | (key, value) :: rest => (key, if value = "" then text else value ++ " " ++ text) :: rest

/-- Reads text of the last value to the end of its line. No colon ends it. -/
def extend (s : State) (cs : List Char) : Option State :=
  let (text, after) := takePlain false cs
  let fields := withText (trimEnd text) s.fields
  match after with
  | [] => some { s with fields, tail := .running }
  | '#' :: _ => some { s with fields, tail := .closed }
  | _ => none

/-- How many characters may stand between the begin of a key and its colon. -/
def keyLimit : Nat := 1024

/-- Reads a key, and what its line has of the value. -/
def addField (s : State) (column : Nat) (cs : List Char) : Option State :=
  let (key, after) := takePlain false cs
  match after with
  | ':' :: value =>
    let s : State :=
      { column? := some column, fields := (trimEnd key, "") :: s.fields, tail := .awaited }
    let value := value.dropWhile isBlank
    if keyLimit < key.length then none
    else if value.isEmpty || value.head? = some '#' then some s
    else if beginsPlain value then s.extend value
    else none
  | _ => none

/-- Reads a line that the last value does not go on in. -/
def readFresh (s : State) (line : List Char) : Option State :=
  let unmarked := if line.head? = some byteOrderMark then line.tail else line
  let text := unmarked.dropWhile (· = ' ')
  let column := line.length - text.length
  if text.isEmpty || text.head? = some '#' then
    some { s with tail := if s.tail = .awaited then .awaited else .closed }
  else if !beginsPlain text || (column = 0 && isMarker text) then none
  else
    match s.column? with
    | none => s.addField column text
    | some keys =>
      if column = keys then s.addField column text
      else if keys < column && s.tail = .awaited then s.extend text
      else none

/-- Reads a line that the last value may go on in, if the line is indented further than
the keys. Up to there no tab indents it. -/
def readRunning (s : State) (line : List Char) : Option State :=
  let keys := s.column?.getD 0
  let blanks := line.takeWhile isBlank
  let text := line.dropWhile isBlank
  if (blanks.take (keys + 1)).contains '\t' then none
  else if text.isEmpty then some s
  else if text.head? = some '#' then some { s with tail := .closed }
  else if keys < blanks.length then s.extend text
  else s.readFresh line

/-- Reads a line. -/
def readLine (s : State) (line : List Char) : Option State :=
  if s.tail = .running then s.readRunning line else s.readFresh line

end State

/-- **The keys and values of a flat mapping**, in the order in which they are written. -/
def read? (text : String) : Option (List (String × String)) := do
  let cs := text.toList
  let cs := if cs.head? = some byteOrderMark then cs.tail else cs
  guard (cs.all isAllowed)
  let s ← (lines cs).foldlM State.readLine {}
  return s.fields.reverse

end Yaml

end ProgramFacts
