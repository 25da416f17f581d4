import ProgramFacts.Json
import ProgramFacts.Profile
/-!
# Batches

A batch file holds cases of five lines each: an id and a comment, declarations, the
rest of a query, the expected answers, and a time limit. Blank lines count inside a
case and are skipped between cases. A line ends with a line feed, or with a carriage
return and a line feed; the last one needs no end, and nothing comes after an end that
is the last character. `Batch.parse` reads a file, `Case.judge` compares the answer to
a case with what was expected, and a `Report` sums up.
-/

namespace ProgramFacts

/-! ## Lines -/

namespace Text

/-- A line without a carriage return at its end. -/
def dropReturn (line : List Char) : List Char :=
  if line.getLast? = some '\r' then line.dropLast else line

/-- The lines of a text, after a line that has begun with the given characters, the last
first. -/
def linesFrom (begun : List Char) : List Char → List (List Char)
  | [] => if begun.isEmpty then [] else [begun.reverse]
  | '\n' :: cs => dropReturn begun.reverse :: linesFrom [] cs
  | c :: cs => linesFrom (c :: begun) cs

/-- **The lines of a text.** -/
def lines (s : String) : List String :=
  (linesFrom [] s.toList).map String.ofList

end Text

/-! ## Cases -/

/-- A query with the answers it should have. -/
structure Case where
  id : String
  comment : String
  query : String
  expected : Std.ExtTreeSet String
  /-- The time limit, in milliseconds. -/
  timeout : Nat

namespace Batch

/-- Why a batch file cannot be read. -/
inductive Fault
  | incomplete (header : String) (count : Nat)
  | badTimeout (text id : String) (cause : Text.CountFault)
  deriving DecidableEq

/-- The words for a fault, and then those for what lies behind it. -/
def Fault.reasons : Fault → List String
  | .incomplete header count => [s!"case '{header}' ends after {count} of its five lines"]
  | .badTimeout text id cause => [s!"invalid timeout '{text}' in case {id}", cause.message]

/-- The id and the comment of a case, parted by the first hyphen. -/
def splitHeader (header : String) : String × String :=
  let cs := header.toList
  match cs.dropWhile (· ≠ '-') with
  | [] => (header, "")
  | _ :: comment =>
    (String.ofList (Text.trim (cs.takeWhile (· ≠ '-'))), String.ofList (Text.trim comment))

/-- The expected answers: parted by commas, or none at all. -/
def parseAnswers (line : String) : Std.ExtTreeSet String :=
  if line.toList.map Char.toLower = "none".toList then ∅
  else
    let answers := (line.toList.splitOn ',').map fun piece => String.ofList (Text.trim piece)
    .ofList (answers.filter (· ≠ ""))

/-- The case of five trimmed lines. -/
def parseCase (header declarations select answers timeout : String) : Except Fault Case :=
  let (id, comment) := splitHeader header
  match Text.readCount timeout.toList with
  | .error cause => .error (.badTimeout timeout id cause)
  | .ok timeout =>
    .ok {
      id, comment, timeout
      query := if declarations = "" then select else s!"{declarations} {select}"
      expected := parseAnswers answers }

/-- The cases of trimmed lines. -/
def parseLines : List String → Except Fault (List Case)
  | [] => .ok []
  | "" :: rest => parseLines rest
  | header :: declarations :: select :: answers :: timeout :: rest => do
    let case ← parseCase header declarations select answers timeout
    let cases ← parseLines rest
    return case :: cases
  | header :: rest => .error (.incomplete header (rest.length + 1))

/-- **The cases of a batch file.** -/
def parse (content : String) : Except Fault (List Case) :=
  parseLines ((Text.lines content).map Text.trimString)

/-- The cases in a file with the given content, or the reason why it cannot be read.
A failure is told in words, the outermost cause first. -/
def load (file : String) (content : Except String String) : Except (List String) (List Case) :=
  match content with
  | .error reason => .error [s!"reading query file {file}", reason]
  | .ok text => (parse text).mapError fun fault => s!"parsing query file {file}" :: fault.reasons

end Batch

/-! ## Verdicts -/

/-- What became of a case. -/
structure CaseOutcome extends Case where
  actual : Std.ExtTreeSet String
  /-- Why the query has no answer. -/
  error : Option String
  /-- The time that was spent, in nanoseconds. -/
  elapsed : Nat

namespace CaseOutcome

variable (o : CaseOutcome)

def timedOut : Bool :=
  o.timeout * 1000000 < o.elapsed

def passed : Bool :=
  o.actual = o.expected && !o.timedOut

def elapsedMs : Nat :=
  o.elapsed / 1000000

def toJson : Json :=
  .object <| [("id", .string o.id), ("comment", .string o.comment), ("query", .string o.query),
      ("expected", .strings o.expected.toList), ("actual", .strings o.actual.toList)] ++
    (o.error.map fun e => ("error", Json.string e)).toList ++
    [("elapsed_ms", .nat o.elapsedMs), ("timed_out", .bool o.timedOut), ("passed", .bool o.passed)]

/-- Answers on one line. -/
def listed (answers : Std.ExtTreeSet String) : String :=
  if answers.isEmpty then "none" else ", ".intercalate answers.toList

/-- The lines that tell of a case. -/
def summary : List String :=
  let status := if o.passed then "PASSED" else "FAILED"
  s!"  {status} {o.id} - {o.comment} ({o.elapsedMs} ms)" ::
    if o.passed then []
    else
      [s!"      expected: {listed o.expected}", s!"      actual:   {listed o.actual}"] ++
        (o.error.map fun e => s!"      error:    {e}").toList ++
        (if o.timedOut then ["      timed out"] else [])

end CaseOutcome

/-- **The outcome of a case** that was answered within a time. A query without an answer
counts as one with no answers. -/
def Case.judge (c : Case) (answer : Except QueryError Answer) (elapsed : Nat) : CaseOutcome :=
  match answer with
  | .ok a => { c with actual := .ofList a.lines, error := none, elapsed }
  | .error e => { c with actual := ∅, error := some e.message, elapsed }

/-! ## Reports -/

/-- The outcomes of all cases. -/
structure Report where
  outcomes : List CaseOutcome

namespace Report

variable (r : Report)

def total : Nat :=
  r.outcomes.length

def passed : Nat :=
  r.outcomes.countP CaseOutcome.passed

def failed : Nat :=
  r.outcomes.countP (!·.passed)

def toJson : Json :=
  .object [("total", .nat r.total), ("passed", .nat r.passed), ("failed", .nat r.failed),
    ("cases", .array (r.outcomes.map CaseOutcome.toJson))]

/-- The lines that tell of all cases, and how many of them passed. -/
def summary : List String :=
  r.outcomes.flatMap CaseOutcome.summary ++ ["", s!"{r.passed}/{r.total} passed"]

end Report

end ProgramFacts
