import ProgramFacts.Token
/-!
# Programs of SIMPLE

A program is a list of procedures, and a procedure is a name with a list of
statements. Statements assign, read, print and call; a loop and a branching hold
statements of their own. Every statement has a number, by which facts about it are
told.

An expression is a variable, a constant, or an operator over two expressions.
`Expr.postorder` writes its tokens with both operands before the operator; the
order fixes the tree, so no parentheses are needed. A condition compares two
expressions, or negates a condition, or joins two.
-/

namespace ProgramFacts

/-! ## Expressions -/

/-- An arithmetic expression. -/
inductive Expr
  | var (name : String)
  | const (digits : String)
  | bin (op : ArithOp) (left right : Expr)
  deriving DecidableEq

namespace Expr

/-- The tokens of an expression, operands before their operator. -/
def postorder : Expr → List Token
  | .var name => [.var name]
  | .const digits => [.const digits]
  | .bin op left right => left.postorder ++ right.postorder ++ [.arith op]

/-- The words of an expression, operands before their operator. -/
def rpn (e : Expr) : List String :=
  e.postorder.map Token.text

end Expr

/-! ## Conditions -/

/-- The two ways to join conditions. -/
inductive Connective
  | and | or
  deriving DecidableEq

/-- The logical operator of a connective. -/
def Connective.toOp : Connective → LogicOp
  | .and => .and
  | .or => .or

/-- A condition of a loop or a branching. -/
inductive Condition
  | compare (op : RelOp) (left right : Expr)
  | not (inner : Condition)
  | join (op : Connective) (left right : Condition)
  deriving DecidableEq

/-! ## Statements and procedures -/

/-- A numbered statement. -/
inductive Stmt
  | assign (number : Nat) (target : String) (value : Expr)
  | read (number : Nat) (name : String)
  | print (number : Nat) (name : String)
  | call (number : Nat) (callee : String)
  | whileLoop (number : Nat) (condition : Condition) (body : List Stmt)
  | ifElse (number : Nat) (condition : Condition) (thenBody elseBody : List Stmt)

/-- The number of a statement. -/
def Stmt.number : Stmt → Nat
  | .assign n .. | .read n .. | .print n .. | .call n .. | .whileLoop n .. | .ifElse n .. => n

/-- A named list of statements. -/
structure Procedure where
  name : String
  body : List Stmt

/-- A list of procedures. -/
structure Program where
  procedures : List Procedure

end ProgramFacts
