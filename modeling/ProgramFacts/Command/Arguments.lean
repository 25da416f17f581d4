/-!
# The command line

A command line names one of three commands, with its arguments and options in any
order. An option has a long name, most have a letter too; letters may be run
together, and a value may follow directly. Whatever follows two hyphens is an
argument. No option is given twice. Words are read from the left, so that a request for
help is met only if nothing before it is wrong.
-/

namespace ProgramFacts

/-- What to do. A file is given by its path. -/
inductive Command
  | parse (source : String) (output : Option String)
  | query (source text : String) (profile : Option String) (plain : Bool)
  | batch (source queries : String) (profile output : Option String)
  deriving DecidableEq

namespace Command

/-- Options. -/
inductive Switch
  | verbose | noOptimize | profile | output | help | version
  deriving DecidableEq

namespace Switch

def long : Switch → String
  | .verbose => "verbose" | .noOptimize => "no-optimize" | .profile => "profile"
  | .output => "output" | .help => "help" | .version => "version"

def letter? : Switch → Option Char
  | .verbose => some 'v' | .noOptimize => none | .profile => some 'p'
  | .output => some 'o' | .help => some 'h' | .version => some 'V'

/-- Whether the option has a value. -/
def takesValue : Switch → Bool
  | .profile | .output => true
  | _ => false

end Switch

/-- The commands. -/
inductive Verb
  | parse | query | batch
  deriving DecidableEq

namespace Verb

def ofText? : String → Option Verb
  | "parse" => some .parse
  | "query" => some .query
  | "batch" => some .batch
  | _ => none

/-- The options of a command. -/
def switches : Verb → List Switch
  | .parse => [.output, .verbose, .help]
  | .query => [.profile, .noOptimize, .verbose, .help]
  | .batch => [.profile, .output, .verbose, .help]

/-- How many arguments a command has. -/
def arity : Verb → Nat
  | .parse => 1
  | .query | .batch => 2

/-- How many of them, from the first on, are paths. -/
def pathCount : Verb → Nat
  | .parse | .query => 1
  | .batch => 2

/-- Whether a text can be the argument at a place. A path is not empty. -/
def admits (verb : Verb) (place : Nat) (text : String) : Bool :=
  place < verb.arity && (text ≠ "" || verb.pathCount ≤ place)

end Verb

/-- Why a command line does not lead to a command. -/
inductive Refusal
  | help
  | version
  | misuse
  deriving DecidableEq

/-- The options and arguments that were given. -/
structure Given where
  switches : List (Switch × String) := []
  arguments : List String := []

namespace Given

/-- The value of an option. -/
def value? (g : Given) (s : Switch) : Option String :=
  (g.switches.find? (·.1 = s)).map Prod.snd

/-- Adds an option, which must not be there. A value is a path and not empty. -/
def add (g : Given) (s : Switch) (value : String) : Except Refusal Given :=
  match s with
  | .help => .error .help
  | .version => .error .version
  | _ =>
    if (g.value? s).isSome || (s.takesValue && value = "") then .error .misuse
    else .ok { g with switches := g.switches ++ [(s, value)] }

/-- Adds an argument, if the command has such a one. -/
def addArgument (verb : Verb) (g : Given) (text : String) : Except Refusal Given :=
  if verb.admits g.arguments.length text then .ok { g with arguments := g.arguments ++ [text] }
  else .error .misuse

end Given

/-- Whether a word cannot be the value of an option before it. -/
def isOption (word : String) : Bool :=
  match word.toList with
  | '-' :: _ :: _ => true
  | _ => false

/-- What a word on the command line turns out to be. -/
inductive Reading
  /-- Options, which end with one that waits for its value. -/
  | waits (g : Given) (s : Switch)
  | done (g : Given)

/-- Reads a long option, without its hyphens. -/
def readLong (known : List Switch) (g : Given) (text : List Char) : Except Refusal Reading :=
  let name := text.takeWhile (· ≠ '=')
  let value := text.dropWhile (· ≠ '=')
  match known.find? (·.long.toList = name) with
  | none => .error .misuse
  | some s =>
    match s.takesValue, value with
    | true, _ :: value => .done <$> g.add s (String.ofList value)
    | true, [] => .ok (.waits g s)
    | false, [] => .done <$> g.add s ""
    | false, _ :: _ => .error .misuse

/-- Reads letters that were run together. -/
def readLetters (known : List Switch) (g : Given) : List Char → Except Refusal Reading
  | [] => .ok (.done g)
  | c :: cs =>
    match known.find? (·.letter? = some c) with
    | none => .error .misuse
    | some s =>
      if s.takesValue then
        match cs with
        | [] => .ok (.waits g s)
        | '=' :: value => .done <$> g.add s (String.ofList value)
        | value => .done <$> g.add s (String.ofList value)
      else do readLetters known (← g.add s "") cs

/-- Reads a word after its first hyphen: a long option after a second one, letters
otherwise. -/
def readOptions (known : List Switch) (g : Given) (c : Char) (cs : List Char) :
    Except Refusal Reading :=
  if c = '-' then readLong known g cs else readLetters known g (c :: cs)

/-- Reads the words after a command. -/
def readWords (verb : Verb) (g : Given) : List String → Except Refusal Given
  | [] => .ok g
  | word :: words =>
    match word.toList with
    | ['-', '-'] => words.foldlM (Given.addArgument verb) g
    | '-' :: c :: cs => do
      match ← readOptions verb.switches g c cs with
      | .done g => readWords verb g words
      | .waits g s =>
        match words with
        | [] => throw .misuse
        | value :: words =>
          if isOption value then throw .misuse
          else readWords verb (← g.add s value) words
    | _ => do readWords verb (← g.addArgument verb word) words

/-- The command of a verb with what was given. -/
def ofGiven (verb : Verb) (g : Given) : Except Refusal Command :=
  match verb, g.arguments with
  | .parse, [source] => .ok (.parse source (g.value? .output))
  | .query, [source, text] =>
    .ok (.query source text (g.value? .profile) (g.value? .noOptimize).isSome)
  | .batch, [source, queries] =>
    .ok (.batch source queries (g.value? .profile) (g.value? .output))
  | _, _ => .error .misuse

/-- The options that may stand before a command. -/
def leading : List Switch := [.verbose, .help, .version]

/-- Reads what help is asked for: in general, or on one command. -/
def readHelp : List String → Refusal
  | [] => .help
  | [word] => if word = "help" || (Verb.ofText? word).isSome then .help else .misuse
  | _ => .misuse

/-- Reads options to the command, and then the command. -/
def readLeading (g : Given) : List String → Except Refusal Command
  | [] => .error .misuse
  | word :: words =>
    match word.toList with
    | ['-', '-'] => .error .misuse
    | '-' :: c :: cs => do
      match ← readOptions leading g c cs with
      | .done g => readLeading g words
      | .waits _ _ => throw .misuse
    | _ =>
      if word = "help" then .error (readHelp words)
      else
        match Verb.ofText? word with
        | none => .error .misuse
        | some verb => do ofGiven verb (← readWords verb {} words)

/-- **The command that a command line asks for.** -/
def ofArguments (args : List String) : Except Refusal Command :=
  readLeading {} args

end Command

end ProgramFacts
