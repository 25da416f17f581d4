import ProgramFacts.Json.Reader
import ProgramFacts.Profile
import ProgramFacts.Yaml
/-!
# Profiles — reading files

A profile is written as a JSON object, or as a flat mapping in YAML; which of the two
tells the extension of the file's name. A switch that is not set keeps its default, one
that is set twice or to anything but a truth value is refused, and keys that are no
switches do not matter.
-/

namespace ProgramFacts

namespace Profile

/-! ## Switches -/

/-- The setting of a switch among all settings, or the default. A setting that is no truth
value, or that is not the only one, is refused. -/
def setting? (settings : List (String × Option Bool)) (switch : String) (default : Bool) :
    Option Bool :=
  match settings.filter (·.1 = switch) with
  | [] => some default
  | [(_, setting)] => setting
  | _ => none

/-- The profile with the given settings. -/
def ofSettings? (settings : List (String × Option Bool)) : Option Profile := do
  let optimize ← setting? settings "optimize" true
  let dedup ← setting? settings "dedup_clauses" true
  let sort ← setting? settings "sort_clauses" true
  let group ← setting? settings "group_before_merge" true
  let smallFirst ← setting? settings "sort_before_bfs" true
  let bip ← setting? settings "enable_bip" false
  return { optimize, strategy := { dedup, sort, group, smallFirst }, bip }

/-! ## JSON -/

/-- The truth value that a value is. -/
def truth? : Json → Option Bool
  | .bool b => some b
  | _ => none

/-- The profile that a JSON text holds, which has to be an object. -/
def ofJson? (text : String) : Option Profile := do
  match ← Json.read? text with
  | .object fields => ofSettings? (fields.map fun (key, value) => (key, truth? value))
  | _ => none

/-! ## YAML -/

/-- The spellings of truth values. -/
def yamlTruth? (s : String) : Option Bool :=
  if ["true", "True", "TRUE"].contains s then some true
  else if ["false", "False", "FALSE"].contains s then some false
  else none

/-- The profile that a YAML text holds. -/
def ofYaml? (text : String) : Option Profile := do
  let fields ← Yaml.read? text
  ofSettings? (fields.map fun (key, value) => (key, yamlTruth? value))

/-! ## Files -/

/-- Why no profile comes from a file. -/
inductive LoadError
  | unreadable (file reason : String)
  | invalidJson (file : String)
  | invalidYaml (file : String)
  | unknownExtension (file : String)
  deriving DecidableEq

/-- The words for a cause. -/
def LoadError.message : LoadError → String
  | .unreadable file _ => s!"reading engine profile {file}"
  | .invalidJson file => s!"parsing json engine profile {file}"
  | .invalidYaml file => s!"parsing yaml engine profile {file}"
  | .unknownExtension file => s!"unsupported engine profile extension for {file}"

/-- What lies behind a cause. -/
def LoadError.reasons : LoadError → List String
  | .unreadable _ reason => [reason]
  | .invalidJson _ => ["the text is no JSON object of truth values"]
  | .invalidYaml _ => ["a line is no switch with a truth value"]
  | .unknownExtension _ => []

/-- The last part of a path that names something. -/
def fileName (path : String) : String :=
  ((path.splitOn "/").filter fun part => part ≠ "" ∧ part ≠ ".").getLast?.getD ""

/-- The extension of a file's name: what follows its last point, which is not its first
character. -/
def extension? (path : String) : Option String :=
  let name := (fileName path).toList
  let tail := name.reverse.takeWhile (· ≠ '.')
  if name = "..".toList ∨ name.length ≤ tail.length + 1 then none
  else some (String.ofList tail.reverse)

/-- **The profile in a file** with the given content, or the reason why it cannot be
read. The content comes first: a file that cannot be read has no extension to speak
of. -/
def load (file : String) (content : Except String String) : Except LoadError Profile :=
  match content with
  | .error reason => .error (.unreadable file reason)
  | .ok text =>
    match extension? file with
    | some "json" => (ofJson? text).elim (.error (.invalidJson file)) .ok
    | some "yaml" | some "yml" => (ofYaml? text).elim (.error (.invalidYaml file)) .ok
    | _ => .error (.unknownExtension file)

end Profile

end ProgramFacts
