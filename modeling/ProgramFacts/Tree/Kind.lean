/-!
# Trees — the kinds of nodes

A program travels between tools as a tree of labelled nodes. This file names the
labels; `Tree` builds the trees.
-/

namespace ProgramFacts

/-- What a node of a tree stands for. -/
inductive NodeKind
  | program | procedure | statementList
  | call | read | print | assign | whileLoop | ifElse
  | variableRef | constant | expressionOp | conditionalOp | relationalOp
  deriving DecidableEq

namespace NodeKind

/-- The name of a kind, as trees in text spell it. -/
def name : NodeKind → String
  | .program => "Program"
  | .procedure => "Procedure"
  | .statementList => "StatementList"
  | .call => "Call"
  | .read => "Read"
  | .print => "Print"
  | .assign => "Assign"
  | .whileLoop => "While"
  | .ifElse => "If"
  | .variableRef => "Variable"
  | .constant => "Constant"
  | .expressionOp => "ExpressionOp"
  | .conditionalOp => "ConditionalExpressionOp"
  | .relationalOp => "RelativeExpressionOp"

def all : List NodeKind :=
  [.program, .procedure, .statementList, .call, .read, .print, .assign, .whileLoop, .ifElse,
    .variableRef, .constant, .expressionOp, .conditionalOp, .relationalOp]

/-- The kind of a given name. -/
def ofName? (s : String) : Option NodeKind :=
  all.find? (·.name == s)

/-- The six kinds of statements. -/
def isStatement : NodeKind → Bool
  | .call | .read | .print | .assign | .whileLoop | .ifElse => true
  | _ => false

end NodeKind

end ProgramFacts
