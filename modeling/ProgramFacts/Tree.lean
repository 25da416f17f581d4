import ProgramFacts.Program
import ProgramFacts.Tree.Kind
import Std.Data.ExtTreeSet
/-!
# Trees

The form in which programs are exchanged: labelled nodes with optional fields. A
tree need not come from a program, so whatever is computed from one is defined on
every tree. `Program.toTree` writes a program as a tree; `Tree.nodes` lists the
nodes below a node in preorder, and the sets of names and constants are read off
that list.
-/

namespace ProgramFacts

/-- A labelled node and the trees below it. -/
structure Tree where
  kind : NodeKind
  /-- A name, a numeral or an operator. -/
  value : Option String := none
  /-- The number of a statement. -/
  number : Option Nat := none
  /-- The words of an assigned expression, operands before their operator. -/
  rpn : Option (List String) := none
  children : List Tree := []

namespace Tree

/-- A node with a value and nothing below it. -/
def leaf (kind : NodeKind) (value : String) : Tree :=
  { kind, value := some value }

mutual

/-- The node itself and all nodes below it, in preorder. -/
def nodes : Tree → List Tree
  | t@⟨_, _, _, _, children⟩ => t :: nodesOf children

/-- The nodes of a list of trees, in preorder. -/
def nodesOf : List Tree → List Tree
  | [] => []
  | t :: ts => t.nodes ++ nodesOf ts

end

/-- The values of the nodes of one kind, in preorder. -/
def values (kind : NodeKind) (t : Tree) : List String :=
  t.nodes.filterMap fun node => if node.kind = kind then node.value else none

/-- The names of the variables in a tree. -/
def variableNames (t : Tree) : Std.ExtTreeSet String :=
  .ofList (t.values .variableRef)

/-- The constants in a tree. -/
def constants (t : Tree) : Std.ExtTreeSet String :=
  .ofList (t.values .constant)

/-- How many statements there are in a tree. -/
def statementCount (t : Tree) : Nat :=
  t.nodes.countP (·.kind.isStatement)

end Tree

/-! ## Programs as trees -/

/-- An expression as a tree. -/
def Expr.toTree : Expr → Tree
  | .var name => .leaf .variableRef name
  | .const digits => .leaf .constant digits
  | .bin op left right =>
    { Tree.leaf .expressionOp op.text with children := [left.toTree, right.toTree] }

/-- A condition as a tree. -/
def Condition.toTree : Condition → Tree
  | .compare op left right =>
    { Tree.leaf .relationalOp op.text with children := [left.toTree, right.toTree] }
  | .not inner => { Tree.leaf .conditionalOp LogicOp.not.text with children := [inner.toTree] }
  | .join op left right =>
    { Tree.leaf .conditionalOp op.toOp.text with children := [left.toTree, right.toTree] }

/-- A list of trees under one node. -/
def Tree.statementList (children : List Tree) : Tree :=
  { kind := .statementList, children }

mutual

/-- A statement as a tree. -/
def Stmt.toTree : Stmt → Tree
  | .assign n target value =>
    { kind := .assign, number := some n, rpn := some value.rpn,
      children := [.leaf .variableRef target, value.toTree] }
  | .read n name =>
    { kind := .read, number := some n, children := [.leaf .variableRef name] }
  | .print n name =>
    { kind := .print, number := some n, children := [.leaf .variableRef name] }
  | .call n callee => { Tree.leaf .call callee with number := some n }
  | .whileLoop n condition body =>
    { kind := .whileLoop, number := some n,
      children := [condition.toTree, .statementList (Stmt.toTrees body)] }
  | .ifElse n condition thenBody elseBody =>
    { kind := .ifElse, number := some n,
      children := [condition.toTree, .statementList (Stmt.toTrees thenBody),
        .statementList (Stmt.toTrees elseBody)] }

/-- Statements as trees. -/
def Stmt.toTrees : List Stmt → List Tree
  | [] => []
  | s :: ss => s.toTree :: Stmt.toTrees ss

end

/-- A procedure as a tree. -/
def Procedure.toTree (p : Procedure) : Tree :=
  { Tree.leaf .procedure p.name with children := [.statementList (Stmt.toTrees p.body)] }

/-- **A program as a tree.** -/
def Program.toTree (p : Program) : Tree :=
  { kind := .program, children := p.procedures.map Procedure.toTree }

end ProgramFacts
