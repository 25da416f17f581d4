import ProgramFacts.Batch
import ProgramFacts.Command.Arguments
import ProgramFacts.FactBase.Extraction
import ProgramFacts.Profile.Reader
import ProgramFacts.Program.Parser
/-!
# Commands

What the commands do, in terms of what they need from the world: files, settings from
outside, and the time that an answer takes. A `Host` provides these. `Command.run`
goes from a command line to what is written to the two outputs and the exit code. Trees
are written as JSON: a node is an object, and fields that it does not have, and an empty
list of children, are left out.
-/

namespace ProgramFacts

/-! ## Trees as JSON -/

namespace Tree

mutual

/-- A tree as JSON. -/
def toJson : Tree → Json
  | ⟨kind, value, number, rpn, children⟩ =>
    .object <| ("kind", .string kind.name) ::
      (value.map fun v => ("value", Json.string v)).toList ++
      (number.map fun n => ("statement_number", Json.nat n)).toList ++
      (rpn.map fun words => ("rpn", Json.strings words)).toList ++
      match toJsons children with
      | [] => []
      | items => [("children", .array items)]

/-- Several trees as JSON. -/
def toJsons : List Tree → List Json
  | [] => []
  | t :: ts => t.toJson :: toJsons ts

end

end Tree

/-! ## Hosts -/

/-- What commands need from the world. Files are given by their paths, and failures come
in words. -/
structure Host (m : Type → Type) where
  read : String → m (Except String String)
  write : String → String → m (Except String Unit)
  /-- The text of a setting from outside. -/
  setting? : String → m (Option String)
  /-- A value, and how long it took, in nanoseconds. -/
  timed : {α : Type} → (Unit → α) → m (α × Nat)

/-- A failure in words, and the reasons behind it, each behind the one before. -/
structure Failure where
  headline : String
  reasons : List String

namespace Failure

/-- A reason with its lines indented. -/
def indented (lead continued reason : String) : String :=
  lead ++ ("\n" ++ continued).intercalate (reason.splitOn "\n")

/-- The reasons, one below the other, numbered if there are several. -/
def listing : List String → List String
  | [reason] => [indented "    " "    " reason]
  | reasons => reasons.mapIdx fun i reason => indented s!"    {i}: " "       " reason

/-- The text of a failure. -/
def text (f : Failure) : String :=
  let cause :=
    if f.reasons.isEmpty then []
    else ["", "Caused by:"] ++ listing f.reasons
  "\n".intercalate (s!"Error: {f.headline}" :: cause) ++ "\n"

end Failure

/-- What a command leaves behind besides files. -/
structure Outcome where
  code : Nat := 0
  out : String := ""
  err : String := ""

namespace Outcome

/-- Lines of text. -/
def unlines (lines : List String) : String :=
  String.join (lines.map (· ++ "\n"))

def ofLines (lines : List String) : Outcome :=
  { out := unlines lines }

/-- A failure after some lines. -/
def fail (headline : String) (reasons : List String) (lines : List String := []) : Outcome :=
  { code := 1, out := unlines lines, err := (Failure.mk headline reasons).text }

end Outcome

namespace Command

variable {m : Type → Type} [Monad m] (host : Host m)

/-- The flags that come from outside. -/
def flags : m Flags := do
  let bip ← host.setting? "SPA_ENABLE_BIP"
  let plain ← host.setting? "SPA_DISABLE_OPTIMIZER"
  return { enableBip := bip.any Flags.isOn, disableOptimizer := plain.any Flags.isOn }

/-- The profile in a file, or the default one, under the flags from outside. -/
def loadProfile : Option String → m (Except Outcome Profile)
  | none => return .ok (Profile.withFlags {} (← flags host))
  | some file => do
    match Profile.load file (← host.read file) with
    | .error e => return .error (.fail e.message e.reasons)
    | .ok profile => return .ok (profile.withFlags (← flags host))

/-- The text of a program. -/
def readSource (file : String) : m (Except Outcome String) := do
  return (← host.read file).mapError fun reason =>
    .fail s!"reading SIMPLE source {file}" [reason]

/-- The facts of a program in a file. -/
def loadFacts (file : String) : m (Except Outcome FactBase) := do
  let text ← readSource host file
  return do
    let program ← (Program.parse (← text)).mapError refuse
    (FactBase.ofTree program.toTree).mapError refuse
where
  refuse (e : SourceError) : Outcome :=
    .fail s!"building knowledge base for {file}" [e.message]

/-- Reads a program and tells its size, or writes its tree to a file. -/
def parseFile (source : String) (output : Option String) : m Outcome := do
  match ← readSource host source with
  | .error outcome => return outcome
  | .ok text =>
    match Program.parse text with
    | .error e => return .fail s!"parsing {source}" [e.message]
    | .ok program =>
      let tree := program.toTree
      match output with
      | none =>
        return .ofLines [s!"OK {source}", s!"  Procedures: {tree.children.length}",
          s!"  Statements: {tree.statementCount}"]
      | some file =>
        match ← host.write file tree.toJson.render with
        | .error reason => return .fail s!"writing {file}" [reason]
        | .ok () => return .ofLines [s!"AST saved to: {file}"]

/-- Answers one query. A query without an answer is no failure of the command. -/
def answerOne (source text : String) (profile : Option String) (plain : Bool) : m Outcome := do
  match ← loadProfile host profile with
  | .error outcome => return outcome
  | .ok profile =>
    let profile := if plain then { profile with optimize := false } else profile
    match ← loadFacts host source with
    | .error outcome => return outcome
    | .ok kb =>
      match profile.ask kb text with
      | .ok answer => return .ofLines answer.lines
      | .error e => return { err := s!"error: {e.message}\n" }

/-- Answers the queries of a batch. -/
def judgeAll (profile : Profile) (kb : FactBase) (cases : List Case) : m Report := do
  let outcomes ← cases.mapM fun c => do
    let (answer, elapsed) ← host.timed fun _ => profile.ask kb c.query
    return c.judge answer elapsed
  return ⟨outcomes⟩

/-- Runs a batch, tells the outcome of each case, and writes a report to a file if
asked. -/
def runBatch (source queries : String) (profile output : Option String) : m Outcome := do
  match ← loadProfile host profile with
  | .error outcome => return outcome
  | .ok profile =>
    match ← loadFacts host source with
    | .error outcome => return outcome
    | .ok kb =>
      match Batch.load queries (← host.read queries) with
      | .error reasons => return .fail (reasons.headD "") reasons.tail
      | .ok cases =>
        let report ← judgeAll host profile kb cases
        match output with
        | none => return .ofLines report.summary
        | some file =>
          match ← host.write file report.toJson.render with
          | .error reason =>
            return .fail s!"writing batch report {file}" [reason] report.summary
          | .ok () => return .ofLines (report.summary ++ [s!"Report saved to: {file}"])

/-- How the program is called. -/
def usage : String :=
  "usage: simple-spa parse SOURCE | query SOURCE QUERY | batch SOURCE QUERIES\n"

/-- **Does what a command line asks for.** -/
def run (args : List String) : m Outcome :=
  match ofArguments args with
  | .error .version => return { out := "simple-spa 0.1.0\n" }
  | .error .help => return { out := usage }
  | .error .misuse => return { code := 2, err := usage }
  | .ok (.parse source output) => parseFile host source output
  | .ok (.query source text profile plain) => answerOne host source text profile plain
  | .ok (.batch source queries profile output) => runBatch host source queries profile output

end Command

end ProgramFacts
