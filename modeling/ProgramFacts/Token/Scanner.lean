import ProgramFacts.SourceError
import ProgramFacts.Text.Blank
/-!
# Tokens of expressions and conditions

Text inside an assignment or a condition is read one token at a time, with white
space allowed before each. A condition knows the comparisons and the logical
operators besides those of arithmetic, and prefers the longer spelling: `>=` is
one token.
-/

namespace ProgramFacts

namespace Token

/-- Which operators a piece of text may use: those of arithmetic, or all of them. -/
inductive Vocabulary
  | arithmetic
  | condition
  deriving DecidableEq

/-- A name or a numeral at the front. -/
def takeOperand? (cs : List Char) : Option (Reading Token cs) :=
  (Text.takeName? cs).map (·.map fun name => .var (String.ofList name)) <|>
    (Text.takeNumeral? cs).map (·.map fun digits => .const (String.ofList digits))

/-- A comparison or a logical operator at the front, the longest that fits. -/
def takeComparison? : (cs : List Char) → Option (Reading Token cs)
  | '>' :: '=' :: _ => some (.two (.rel .ge))
  | '<' :: '=' :: _ => some (.two (.rel .le))
  | '=' :: '=' :: _ => some (.two (.rel .eq))
  | '!' :: '=' :: _ => some (.two (.rel .ne))
  | '>' :: _ => some (.one (.rel .gt))
  | '<' :: _ => some (.one (.rel .lt))
  | '&' :: '&' :: _ => some (.two (.logic .and))
  | '|' :: '|' :: _ => some (.two (.logic .or))
  | '!' :: _ => some (.one (.logic .not))
  | _ => none

/-- An arithmetic operator or a parenthesis at the front. -/
def takeArithmetic? : (cs : List Char) → Option (Reading Token cs)
  | '+' :: _ => some (.one (.arith .add))
  | '-' :: _ => some (.one (.arith .sub))
  | '*' :: _ => some (.one (.arith .mul))
  | '/' :: _ => some (.one (.arith .div))
  | '%' :: _ => some (.one (.arith .mod))
  | '(' :: _ => some (.one .leftParen)
  | ')' :: _ => some (.one .rightParen)
  | _ => none

/-- The token at the front of an expression or a condition. -/
def take? (words : Vocabulary) (cs : List Char) : Option (Reading Token cs) :=
  match words with
  | .arithmetic => takeOperand? cs <|> takeArithmetic? cs
  | .condition => takeOperand? cs <|> takeComparison? cs <|> takeArithmetic? cs

/-- All tokens of an expression or a condition. The first character that starts
none, with the text from there on, is what a failure reports. -/
def scan (words : Vocabulary) (cs : List Char) : Except SourceError (List Token) :=
  let cs' := Text.trimStart cs
  if cs'.isEmpty then .ok []
  else
    match take? words cs' with
    | none => .error (.strayCharacter (String.ofList cs'))
    | some t => do
      let ts ← scan words t.rest
      return t.value :: ts
termination_by cs.length
decreasing_by exact Nat.lt_of_lt_of_le t.shorter (Text.length_trimStart_le cs)

end Token

end ProgramFacts
