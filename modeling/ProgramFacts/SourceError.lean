import ProgramFacts.Reading
import ProgramFacts.Token
import ProgramFacts.Tree.Kind
/-!
# Why a program is refused

`SourceError` lists the causes, from a stray character to a recursive call, and
`SourceError.message` is the one place where they are put into words. Expressions
and conditions have cause types of their own, since queries meet them too. Every
failure belongs to one of six kinds (`ErrorKind`), and its message opens with the words
of its kind.
-/

namespace ProgramFacts

/-- Where a failure comes from. -/
inductive ErrorKind
  /-- Malformed program text. -/
  | malformedProgram
  /-- A program that breaks a rule about the whole of it. -/
  | invalidProgram
  /-- A malformed arithmetic expression. -/
  | invalidExpression
  /-- Malformed query text. -/
  | malformedQuery
  /-- A query that is well formed and means nothing. -/
  | meaningless
  /-- A feature that is switched off. -/
  | configuration
  deriving DecidableEq

/-- The words that open a message of a kind. -/
def ErrorKind.lead : ErrorKind → String
  | .malformedProgram => "syntax error: "
  | .invalidProgram => "invalid program: "
  | .invalidExpression => "invalid expression: "
  | .malformedQuery => "invalid query syntax: "
  | .meaningless => "semantic error: "
  | .configuration => "configuration error: "

/-- Why a run of tokens is no arithmetic expression. -/
inductive ExpressionFault
  /-- A token of no use in arithmetic, met before anything else is checked. -/
  | foreign (t : Token)
  /-- Two neighbours that cannot stand together, in the whole run. -/
  | neighbours (left right : Token) (run : List Token)
  /-- Operands and operators do not alternate. -/
  | misplaced (t : Token) (run : List Token)
  /-- The run does not end on an operand. -/
  | unfinished (run : List Token)
  | unmatchedClose (run : List Token)
  | unmatchedOpen (run : List Token)
  /-- A token of no use in arithmetic, met while ordering the operators. -/
  | unorderable (t : Token)
  /-- An operator in postfix order with fewer than two operands before it. -/
  | starved (t : Token)
  /-- A token with no place in postfix order. -/
  | notPostfix (t : Token)
  /-- A postfix run that leaves no tree, or more than one. -/
  | notOneTree (run : List Token)
  deriving DecidableEq

open Token in
/-- The words for an expression's fault. -/
def ExpressionFault.message : ExpressionFault → String
  | .foreign t => s!"'{t.text}' is not allowed in an arithmetic expression"
  | .neighbours l r run => s!"'{l.text}' cannot be followed by '{r.text}' in '{phrase run}'"
  | .misplaced t run => s!"unexpected '{t.text}' in '{phrase run}'"
  | .unfinished run => s!"expression '{phrase run}' must end with an operand"
  | .unmatchedClose run => s!"unmatched ')' in '{phrase run}'"
  | .unmatchedOpen run => s!"unmatched '(' in '{phrase run}'"
  | .unorderable t =>
    s!"{t.kind.name} '{t.text}' is not allowed in an arithmetic expression"
  | .starved t => s!"operator '{t.text}' is missing an operand"
  | .notPostfix t => s!"unexpected '{t.text}' in postfix expression"
  | .notOneTree run =>
    s!"postfix expression '{phrase run}' does not reduce to a single tree"

/-- Why a run of tokens is no condition. -/
inductive ConditionFault
  | notWithoutParen
  | trailingAfterNot
  | noOpening
  | noConnective
  | noOpeningAfterConnective
  | trailing
  | unbalanced
  | severalRelations
  | nestedRelation
  | noRelation
  deriving DecidableEq

/-- The words for a condition's fault. -/
def ConditionFault.message : ConditionFault → String
  | .notWithoutParen => "'!' must be followed by '('"
  | .trailingAfterNot => "trailing tokens after '!(...)'"
  | .noOpening => "expected '(' or '!'"
  | .noConnective => "expected '&&' or '||'"
  | .noOpeningAfterConnective => "expected '(' after conditional operator"
  | .trailing => "trailing tokens after conditional expression"
  | .unbalanced => "unbalanced parentheses"
  | .severalRelations => "more than one relational operator"
  | .nestedRelation => "relational operator inside parentheses"
  | .noRelation => "missing relational operator"

/-- Why program text, a run of tokens or a tree is refused. -/
inductive SourceError
  | invalidToken (kind : TokenKind) (text : String)
  | unexpectedInput (near : String)
  | strayCharacter (near : String)
  /-- A fault inside an expression or a condition of the program text. -/
  | embedded (cause : SourceError) (near : String)
  | unexpectedToken (expected : TokenKind) (found : Token) (ahead : List Token)
  | endOfInput (expected : TokenKind)
  | noProcedure
  | emptyBody (procedure : String)
  | noStatement (ahead : List Token) (number : Nat)
  | unterminatedCondition
  | emptyCondition
  | condition (fault : ConditionFault) (run : List Token)
  | expression (fault : ExpressionFault)
  | duplicateProcedure (name : String)
  | undeclaredCallee (caller callee : String)
  | recursiveCall (caller callee : String)
  | callCycle (name : String)
  | notAProgram (kind : NodeKind)
  deriving DecidableEq

namespace SourceError

/-- The kind of a cause. -/
def kind : SourceError → ErrorKind
  | .expression _ => .invalidExpression
  | .duplicateProcedure _ | .undeclaredCallee _ _ | .recursiveCall _ _ | .callCycle _
    | .notAProgram _ => .invalidProgram
  | _ => .malformedProgram

open Token in
/-- The words for a cause, led by those of its kind. -/
def message (e : SourceError) : String :=
  e.kind.lead ++
    match e with
    | .invalidToken kind text => s!"'{text}' is not a valid {kind.name} token"
    | .unexpectedInput near => s!"unexpected input near '{near}'"
    | .strayCharacter near => s!"unrecognised character in expression near '{near}'"
    | .embedded cause near => s!"{message cause} (in '{near}')"
    | .unexpectedToken kind found ahead =>
      s!"expected {kind.name} but found '{found.text}' before '{context ahead}'"
    | .endOfInput kind => s!"expected {kind.name} but reached end of input"
    | .noProcedure => "program must declare at least one procedure"
    | .emptyBody procedure => s!"statement list in procedure '{procedure}' is empty"
    | .noStatement ahead number =>
      s!"unexpected '{context ahead}' at start of statement {number}"
    | .unterminatedCondition => "unterminated condition: missing ')'"
    | .emptyCondition => "empty conditional expression"
    | .condition fault run => s!"{fault.message} in condition '{phrase run}'"
    | .expression fault => fault.message
    | .duplicateProcedure name => s!"procedure '{name}' is declared more than once"
    | .undeclaredCallee caller callee =>
      s!"procedure '{caller}' calls undeclared procedure '{callee}'"
    | .recursiveCall caller callee => s!"recursive call from '{caller}' to '{callee}'"
    | .callCycle name => s!"recursive call cycle through procedure '{name}'"
    | .notAProgram kind => s!"design extraction needs a Program node, got {kind.name}"

end SourceError

/-! ## Taking tokens

The two ways in which a single token is asked for: by kind and spelling, and by
kind at the front of a run. -/

namespace Token

/-- The token of a kind that is written `s`, or the reason why there is none. -/
def make (kind : TokenKind) (s : String) : Except SourceError Token :=
  match ofText? kind s with
  | some t => .ok t
  | none => .error (.invalidToken kind s)

/-- The token at the front, if it has the kind that is asked for. -/
def expect (kind : TokenKind) : (ts : List Token) → Except SourceError (Reading Token ts)
  | [] => .error (.endOfInput kind)
  | t :: ts => if t.kind = kind then .ok (.one t) else .error (.unexpectedToken kind t ts)

theorem eq_of_expect {kind : TokenKind} {ts : List Token} {r : Reading Token ts}
    (h : expect kind ts = .ok r) : ts = r.value :: r.rest ∧ r.value.kind = kind := by
  cases ts with
  | nil => cases h
  | cons t ts =>
    simp only [expect] at h
    split at h
    · next hkind => cases h; exact ⟨rfl, hkind⟩
    · cases h

theorem expect_cons {kind : TokenKind} {t : Token} {ts : List Token} (h : t.kind = kind) :
    expect kind (t :: ts) = .ok (.one t) := by
  simp [expect, h]

end Token

end ProgramFacts
