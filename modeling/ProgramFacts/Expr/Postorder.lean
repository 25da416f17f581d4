import ProgramFacts.Program
import ProgramFacts.SourceError
/-!
# Expressions — to postorder and back

`Token.toPostorder` puts an infix run into postorder with a stack of operators and
open parentheses: an operator first lets go of those that bind at least as tightly,
so equal operators group to the left. `Expr.ofPostorder` builds the tree of a run
in postorder with a stack of trees. Both are defined on every run of tokens, also
on runs that are no expression.
-/

namespace ProgramFacts

/-! ## From infix to postorder -/

/-- What waits on the stack while a run is put into postorder. -/
inductive Pending
  | operator (op : ArithOp)
  | paren
  deriving DecidableEq

namespace Pending

/-- Whether a pending operator goes out before `op` comes in. -/
def yieldsTo (op : ArithOp) : Pending → Bool
  | .operator pending => op.precedence ≤ pending.precedence
  | .paren => false

/-- The operators down to the first open parenthesis, and what lies below it. -/
def untilParen? : List Pending → Option (List Token × List Pending)
  | [] => none
  | .paren :: rest => some ([], rest)
  | .operator op :: rest =>
    match untilParen? rest with
    | none => none
    | some (ops, below) => some (.arith op :: ops, below)

/-- All pending operators, unless a parenthesis is still open. -/
def drain? : List Pending → Option (List Token)
  | [] => some []
  | .paren :: _ => none
  | .operator op :: rest => (drain? rest).map (.arith op :: ·)

/-- The operators of a stack. -/
def operators (stack : List Pending) : List Token :=
  stack.filterMap fun
    | .operator op => some (.arith op)
    | .paren => none

end Pending

/-- The postorder of what is still to come, given the stack. Failures quote the whole
`run`. -/
def Token.toPostorderFrom (run : List Token) :
    List Pending → List Token → Except ExpressionFault (List Token)
  | stack, [] =>
    match Pending.drain? stack with
    | some ops => .ok ops
    | none => .error (.unmatchedOpen run)
  | stack, .var name :: ts => do
    let out ← toPostorderFrom run stack ts
    return .var name :: out
  | stack, .const digits :: ts => do
    let out ← toPostorderFrom run stack ts
    return .const digits :: out
  | stack, .arith op :: ts => do
    let ready := stack.takeWhile (Pending.yieldsTo op)
    let waiting := stack.dropWhile (Pending.yieldsTo op)
    let out ← toPostorderFrom run (.operator op :: waiting) ts
    return Pending.operators ready ++ out
  | stack, .leftParen :: ts => toPostorderFrom run (.paren :: stack) ts
  | stack, .rightParen :: ts =>
    match Pending.untilParen? stack with
    | none => .error (.unmatchedClose run)
    | some (ops, below) => do
      let out ← toPostorderFrom run below ts
      return ops ++ out
  | _, t :: _ => .error (.unorderable t)

/-- **An infix run in postorder.** -/
def Token.toPostorder (run : List Token) : Except ExpressionFault (List Token) :=
  Token.toPostorderFrom run [] run

/-! ## From postorder to the tree -/

/-- The tree of what is still to come, given the trees so far, the last on top.
Failures quote the whole `run`. -/
def Expr.ofPostorderFrom (run : List Token) :
    List Expr → List Token → Except ExpressionFault Expr
  | [e], [] => .ok e
  | _, [] => .error (.notOneTree run)
  | stack, .var name :: ts => ofPostorderFrom run (.var name :: stack) ts
  | stack, .const digits :: ts => ofPostorderFrom run (.const digits :: stack) ts
  | right :: left :: stack, .arith op :: ts =>
    ofPostorderFrom run (.bin op left right :: stack) ts
  | _, .arith op :: _ => .error (.starved (.arith op))
  | _, t :: _ => .error (.notPostfix t)

/-- **The tree of a run in postorder.** -/
def Expr.ofPostorder (run : List Token) : Except ExpressionFault Expr :=
  Expr.ofPostorderFrom run [] run

end ProgramFacts
