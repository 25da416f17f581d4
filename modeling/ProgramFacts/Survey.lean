import ProgramFacts.Entity
import ProgramFacts.Tree
import Std.Data.ExtTreeMap
/-!
# Surveys

A survey visits every numbered statement of a program and finds out which variables
it uses and modifies, itself or through what it contains and calls. A statement has
effects of its own; the effects of a compound statement are those of all statements
in it, and a call has the effects of the procedure it calls. Procedures are
therefore visited after the procedures that they call.
-/

namespace ProgramFacts

/-- The kind of statement that a node stands for. -/
def NodeKind.statementKind? : NodeKind → Option StatementKind
  | .assign => some .assign
  | .whileLoop => some .whileLoop
  | .ifElse => some .ifElse
  | .call => some .call
  | .read => some .read
  | .print => some .print
  | _ => none

namespace Tree

/-! ## The parts of a statement -/

/-- The variable that an assignment, a read or a print begins with. -/
def subject (t : Tree) : String :=
  (t.children.head?.bind value).getD ""

/-- The expression of an assignment, the condition of a loop or a branching. -/
def formula? (t : Tree) : Option Tree :=
  match t.kind with
  | .assign => t.children[1]?
  | .whileLoop | .ifElse => t.children.head?
  | _ => none

/-- The variables of the expression or the condition. -/
def formulaVariables (t : Tree) : Std.ExtTreeSet String :=
  (t.formula?.map variableNames).getD ∅

/-- The constants of the expression or the condition. -/
def formulaConstants (t : Tree) : Std.ExtTreeSet String :=
  (t.formula?.map constants).getD ∅

/-- The name of the procedure that a call calls. -/
def calleeName (t : Tree) : String :=
  t.value.getD ""

/-- The statement lists in a loop or a branching. -/
def branches (t : Tree) : List Tree :=
  match t.kind with
  | .whileLoop | .ifElse => t.children.drop 1
  | _ => []

/-- The numbers of the statements of a list, as they follow each other. -/
def numbers (list : Tree) : List Nat :=
  list.children.filterMap number

end Tree

/-! ## Visits -/

/-- A numbered statement, and the numbers of the statements that contain it, the
outermost first. -/
structure Visit where
  ancestors : List Nat
  number : Nat
  statement : Tree

namespace Visit

mutual

/-- The visits of a statement and of all statements in it, in preorder. -/
def ofStatement (ancestors : List Nat) : Tree → List Visit
  | ⟨_, _, none, _, _⟩ => []
  | t@⟨kind, _, some n, _, children⟩ =>
    ⟨ancestors, n, t⟩ ::
      match kind, children with
      | .whileLoop, _ :: branches => ofLists (ancestors ++ [n]) branches
      | .ifElse, _ :: branches => ofLists (ancestors ++ [n]) branches
      | _, _ => []

/-- The visits of a statement list. -/
def ofList (ancestors : List Nat) : Tree → List Visit
  | ⟨_, _, _, _, statements⟩ => ofStatements ancestors statements

/-- The visits of the statements of one list. -/
def ofStatements (ancestors : List Nat) : List Tree → List Visit
  | [] => []
  | t :: ts => ofStatement ancestors t ++ ofStatements ancestors ts

/-- The visits of several lists. -/
def ofLists (ancestors : List Nat) : List Tree → List Visit
  | [] => []
  | list :: lists => ofList ancestors list ++ ofLists ancestors lists

end

end Visit

/-! ## Effects -/

/-- The variables that something uses, and those that it modifies. -/
structure Effects where
  uses : Std.ExtTreeSet String := ∅
  modifies : Std.ExtTreeSet String := ∅

namespace Effects

/-- The effects of procedures, by name. -/
abbrev Table := Std.ExtTreeMap String Effects

variable (table : Table)

/-- The variables that a statement uses by itself, or through the procedure it calls. -/
def ownUses (t : Tree) : List String :=
  match t.kind with
  | .assign | .whileLoop | .ifElse => t.formulaVariables.toList
  | .print => [t.subject]
  | .call => (table.getD t.calleeName {}).uses.toList
  | _ => []

/-- The variables that a statement modifies by itself, or through the procedure it
calls. -/
def ownModifies (t : Tree) : List String :=
  match t.kind with
  | .assign | .read => [t.subject]
  | .call => (table.getD t.calleeName {}).modifies.toList
  | _ => []

/-- The effects of the visited statements taken together. -/
def total (visits : List Visit) : Effects where
  uses := .ofList (visits.flatMap fun v => ownUses table v.statement)
  modifies := .ofList (visits.flatMap fun v => ownModifies table v.statement)

/-- The effects of a statement and all statements in it. -/
def ofStatement (t : Tree) : Effects :=
  total table (Visit.ofStatement [] t)

/-- All variables that are used or modified. -/
def touched (e : Effects) : List String :=
  e.uses.toList ++ e.modifies.toList

end Effects

/-- A visited statement and its effects. -/
structure Finding extends Visit where
  effects : Effects

/-- What the visits of some procedures found. -/
structure Survey where
  /-- The effects of the visited procedures. -/
  procedures : Effects.Table := ∅
  /-- The visited statements, in the order of the visits. -/
  findings : List Finding := []
  /-- The visited statement lists. -/
  lists : List Tree := []

namespace Survey

/-- Visits the body of a procedure, knowing the effects of those visited before. -/
def visit (s : Survey) (name : String) (procedure : Tree) : Survey :=
  let bodies := procedure.children.take 1
  let visits := bodies.flatMap (Visit.ofList [])
  { procedures := s.procedures.insert name (.total s.procedures visits)
    findings := s.findings ++
      visits.map fun v => { v with effects := .ofStatement s.procedures v.statement }
    lists := s.lists ++ bodies ++ visits.flatMap (·.statement.branches) }

/-- The procedures that have a name. If a name occurs twice, the last is kept. -/
def namedProcedures (root : Tree) : Std.ExtTreeMap String Tree :=
  .ofList (root.children.filterMap fun p => p.value.map (·, p))

/-- **The survey of a program**: `order` lists every caller before its callees, and is
followed from its end. -/
def ofTree (root : Tree) (order : List String) : Survey :=
  order.foldr
    (fun name s =>
      match (namedProcedures root)[name]? with
      | some procedure => s.visit name procedure
      | none => s)
    {}

end Survey

end ProgramFacts
