import ProgramFacts.Expr.Postorder
import ProgramFacts.Token.Scanner
/-!
# Expressions — reading infix text

Putting a run into postorder cannot see where a parenthesis or an operator is
misplaced, so two checks come first: which tokens may stand side by side, and that
operands and operators alternate. `Expr.parse` then gives the tree together with
the postorder it was built from.
-/

namespace ProgramFacts

namespace Expr

/-- Tokens that arithmetic has a use for. -/
def allows : Token → Bool
  | .var _ | .const _ | .arith _ | .leftParen | .rightParen => true
  | _ => false

/-- Whether two tokens cannot stand side by side, judged by their parentheses. -/
def clash (left right : Token) : Bool :=
  match left with
  | .leftParen => right.isOperator || right.kind == .rightParen
  | .rightParen => right.isOperand || right.kind == .leftParen
  | _ =>
    (left.isOperator && right.kind == .rightParen) ||
      (left.isOperand && right.kind == .leftParen)

/-- No two neighbours clash. -/
def checkNeighbours (run : List Token) : Except ExpressionFault Unit :=
  match (run.zip run.tail).find? fun (left, right) => clash left right with
  | some (left, right) => .error (.neighbours left right run)
  | none => .ok ()

/-- Operands and operators alternate from here on, an operand first if `operand`, and
an operand comes last. -/
def checkAlternationFrom (run : List Token) (operand : Bool) :
    List Token → Except ExpressionFault Unit
  | [] => if operand then .error (.unfinished run) else .ok ()
  | t :: ts =>
    if t.isParen then checkAlternationFrom run operand ts
    else if if operand then t.isOperand else t.isOperator then
      checkAlternationFrom run (!operand) ts
    else .error (.misplaced t run)

/-- Parentheses apart, operands and operators alternate, with an operand at either
end. -/
def checkAlternation (run : List Token) : Except ExpressionFault Unit :=
  checkAlternationFrom run true run

/-- An expression and the postorder it was read from. -/
structure Parsed where
  tree : Expr
  postorder : List Token
  deriving DecidableEq

/-- The words of the postorder. -/
def Parsed.rpn (p : Parsed) : List String :=
  p.postorder.map Token.text

/-- **Reads an infix run.** -/
def parse (run : List Token) : Except ExpressionFault Parsed :=
  match run.find? (!allows ·) with
  | some t => .error (.foreign t)
  | none => do
    checkNeighbours run
    checkAlternation run
    let out ← Token.toPostorder run
    let tree ← ofPostorder out
    return ⟨tree, out⟩

/-- Reads infix text. -/
def parseText (s : String) : Except SourceError Parsed := do
  let run ← Token.scan .arithmetic s.toList
  (parse run).mapError .expression

end Expr

end ProgramFacts
