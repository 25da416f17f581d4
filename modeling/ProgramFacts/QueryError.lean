import ProgramFacts.Clause
import ProgramFacts.Element
import ProgramFacts.SourceError
/-!
# Errors in queries

A query is written with words, quoted text, numbers and single marks. Which words are
keywords depends on where they stand, so to a token all words are alike. A query is
malformed, asks for a relation that is switched off, or is well formed and means
nothing. A fault of the last kind does not stop the reading of a query: it is noted,
and reported when an answer is asked for.
-/

namespace ProgramFacts

/-! ## Tokens -/

/-- A token of a query. -/
inductive QueryToken
  | word (text : String)
  /-- Quoted text without its quotes and the white space inside them. -/
  | quoted (text : String)
  | number (digits : String)
  | mark (c : Char)
  deriving DecidableEq

/-- A token as it is shown. -/
def QueryToken.text : QueryToken → String
  | .word s => s
  | .quoted s => s!"\"{s}\""
  | .number digits => digits
  | .mark c => c.toString

/-! ## Faults -/

/-- What a reader of queries was looking for. -/
inductive Expectation
  | mark (c : Char)
  | word (text : String)
  | anyName
  | argument
  | expression
  deriving DecidableEq

def Expectation.text : Expectation → String
  | .mark c => s!"'{c}'"
  | .word s => s!"'{s}'"
  | .anyName => "a name"
  | .argument => "a clause argument"
  | .expression => "a pattern expression"

/-- Why query text is malformed. -/
inductive QueryFault
  | strayCharacter (near : String)
  | noSelect
  | unknownEntity (word : String)
  | unknownAttribute (word : String)
  | unknownRelation (word : String)
  | unexpected (wanted : Expectation) (found : Option QueryToken)
  | noClause (found : QueryToken)
  | numberTooLarge (digits : String)
  | invalidName (text : String)
  | numberInPattern
  | invalidExpression (text : String) (cause : SourceError)
  | wildcardCompared
  deriving DecidableEq

def QueryFault.message : QueryFault → String
  | .strayCharacter near => s!"unexpected character near '{near}'"
  | .noSelect => "missing Select clause"
  | .unknownEntity word => s!"unknown design entity '{word}'"
  | .unknownAttribute word => s!"unknown attribute '{word}'"
  | .unknownRelation word => s!"unknown relation '{word}'"
  | .unexpected wanted (some found) => s!"expected {wanted.text} but found '{found.text}'"
  | .unexpected wanted none => s!"expected {wanted.text} but the query ended"
  | .noClause found => s!"expected such that, pattern or with but found '{found.text}'"
  | .numberTooLarge digits => s!"statement number {digits} out of range"
  | .invalidName text => s!"invalid name \"{text}\""
  | .numberInPattern => "pattern variable must be a synonym, name or wildcard"
  | .invalidExpression text cause => s!"invalid pattern expression \"{text}\": {cause.message}"
  | .wildcardCompared => "wildcards are not allowed in with clauses"

/-- What can be recorded of a statement. -/
inductive Record
  | calledProcedure | readVariable | printedVariable
  deriving DecidableEq

def Record.text : Record → String
  | .calledProcedure => "called procedure"
  | .readVariable => "read variable"
  | .printedVariable => "printed variable"

/-- Why a well-formed query means nothing. -/
inductive SemanticFault
  | declaredTwice (name : String)
  | undeclared (name : String)
  | attributeMisapplied (attr : Attribute) (synonym : Synonym)
  | wrongArity (arity : Nat) (synonym : Synonym)
  | expressionMisplaced (name : String)
  | attributeMissing (name : String)
  | invalidArgument (argument : Argument) (relation : Relation)
  | noPatternStatement (name : String)
  | invalidPattern (clause : Clause)
  | incomparable (argument : Argument)
  | nameWithNumber (clause : Clause)
  | noStatement (value : Element)
  | notRecorded (value : Element) (record : Record)
  /-- A fault that came with the query, in words. -/
  | stated (words : String)
  deriving DecidableEq

def SemanticFault.message : SemanticFault → String
  | .declaredTwice name => s!"synonym '{name}' declared more than once"
  | .undeclared name => s!"synonym '{name}' is not declared"
  | .attributeMisapplied attr synonym =>
    s!"attribute {attr.text} does not apply to {synonym.entity.text} '{synonym.name}'"
  | .wrongArity arity synonym =>
    s!"pattern with {arity} arguments is not valid for {synonym.entity.text} '{synonym.name}'"
  | .expressionMisplaced name =>
    s!"only assignment patterns may constrain an expression, not '{name}'"
  | .attributeMissing name => s!"'{name}' needs an attribute in a with clause"
  | .invalidArgument argument relation =>
    s!"'{argument.text}' is not a valid argument of {relation.text}"
  | .noPatternStatement name => s!"pattern synonym '{name}' must be an assign, while or if"
  | .invalidPattern clause => s!"invalid {clause.text}"
  | .incomparable argument => s!"'{argument.text}' cannot be compared in a with clause"
  | .nameWithNumber clause => s!"{clause.text} compares a name with an integer"
  | .noStatement value => s!"'{value.text}' is not a statement number"
  | .notRecorded value record => s!"statement {value.text} has no {record.text}"
  | .stated words => words

/-- Why a query has no answer. -/
inductive QueryError
  | malformed (fault : QueryFault)
  | disabled (relation : Relation)
  | meaningless (fault : SemanticFault)
  deriving DecidableEq

namespace QueryError

def kind : QueryError → ErrorKind
  | .malformed _ => .malformedQuery
  | .disabled _ => .configuration
  | .meaningless _ => .meaningless

/-- The words for a cause, led by those of its kind. -/
def message (e : QueryError) : String :=
  e.kind.lead ++
    match e with
    | .malformed fault => fault.message
    | .disabled relation => s!"relation {relation.text} is disabled; set SPA_ENABLE_BIP to enable it"
    | .meaningless fault => fault.message

end QueryError

end ProgramFacts
