import ProgramFacts.Digraph
import ProgramFacts.Tree
/-!
# Control flow

Control goes from a statement to the statement that follows it, from a loop also
into its body and from the end of the body back to the loop, and from a branching
into one of its branches. `Tree.sites` finds every numbered statement of a program
together with the place where control goes once the statement is done; the graph
`Flow.ofTree` and the exits of the procedures are read off these places. If a number
or a name occurs twice, what is said last is kept.
-/

namespace ProgramFacts

namespace Tree

/-- The number of the first statement of a list. -/
def firstNumber (list : Tree) : Option Nat :=
  list.children.head?.bind number

/-- The statement lists that control enters from a statement: the body of a loop, and
the branches of a branching. -/
def bodies (t : Tree) : List Tree :=
  match t.kind with
  | .whileLoop => (t.children.drop 1).take 1
  | .ifElse => t.children.drop 1
  | _ => []

end Tree

/-- A numbered statement of a procedure, and where control goes once it is done:
to another statement, or out of the procedure. -/
structure Site where
  procedure : String
  number : Nat
  statement : Tree
  after : Option Nat

namespace Site

mutual

/-- The site of a statement, and those below it. -/
def ofStatement (procedure : String) (after : Option Nat) : Tree → List Site
  | ⟨_, _, none, _, _⟩ => []
  | t@⟨kind, _, some n, _, children⟩ =>
    ⟨procedure, n, t, after⟩ ::
      match kind, children with
      | .whileLoop, _ :: body :: _ => ofList procedure (some n) body
      | .ifElse, _ :: branches => ofLists procedure after branches
      | _, _ => []

/-- The sites of a statement list. -/
def ofList (procedure : String) (after : Option Nat) : Tree → List Site
  | ⟨_, _, _, _, statements⟩ => ofStatements procedure after statements

/-- The sites of the statements of one list: each statement is followed by the next. -/
def ofStatements (procedure : String) (after : Option Nat) : List Tree → List Site
  | [] => []
  | t :: ts =>
    ofStatement procedure ((ts.head?.bind Tree.number).or after) t ++
      ofStatements procedure after ts

/-- The sites of several lists that go on at one place. -/
def ofLists (procedure : String) (after : Option Nat) : List Tree → List Site
  | [] => []
  | list :: lists => ofList procedure after list ++ ofLists procedure after lists

end

/-- Where control goes from a statement, `none` being out of the procedure. A loop is
entered or done with; a branching is always entered. -/
def targets (s : Site) : List (Option Nat) :=
  let entries := (s.statement.bodies.filterMap Tree.firstNumber).map some
  match s.statement.kind with
  | .whileLoop => entries ++ [s.after]
  | .ifElse => entries
  | _ => [s.after]

/-- The statements that control goes to within the procedure. -/
def next (s : Site) : List Nat :=
  s.targets.filterMap id

/-- Whether control may leave the procedure here. -/
def leaves (s : Site) : Bool :=
  s.targets.contains none

/-- The procedure that a call enters. -/
def callee? (s : Site) : Option String :=
  if s.statement.kind = .call then s.statement.value else none

end Site

namespace Tree

/-- The name that a procedure goes by; one without a name goes by the empty text. -/
def procedureName (procedure : Tree) : String :=
  procedure.value.getD ""

/-- The number of the first statement of a procedure. -/
def entry? (procedure : Tree) : Option Nat :=
  procedure.children.head?.bind firstNumber

/-- **The sites of a program**, procedure by procedure. -/
def sites (root : Tree) : List Site :=
  root.children.flatMap fun procedure =>
    match procedure.children.head? with
    | some body => Site.ofList procedure.procedureName none body
    | none => []

end Tree

/-- How control flows within the procedures of a program, and what it takes to follow
a call. -/
structure Flow where
  /-- From every statement to the statements that control may go to next. -/
  graph : Digraph Nat
  /-- The procedure that a statement belongs to. -/
  procedureOf : Std.ExtTreeMap Nat String
  /-- The statement that a procedure starts at. -/
  first : Std.ExtTreeMap String Nat
  /-- The statements at which control may leave a procedure. -/
  exits : Std.ExtTreeMap String (Std.ExtTreeSet Nat)
  /-- The procedure that a statement calls. -/
  callee : Std.ExtTreeMap Nat String

namespace Flow

/-- The exits of every procedure that has some. -/
def exitsOf (sites : List Site) : Std.ExtTreeMap String (Std.ExtTreeSet Nat) :=
  (sites.filter Site.leaves).foldl
    (fun exits s => exits.insert s.procedure ((exits.getD s.procedure ∅).insert s.number)) ∅

/-- **The control flow of a program.** -/
def ofTree (root : Tree) : Flow :=
  let sites := root.sites
  { graph := .ofRows (sites.map fun s => (s.number, s.next))
    procedureOf := .ofList (sites.map fun s => (s.number, s.procedure))
    first := .ofList (root.children.filterMap fun p => p.entry?.map (p.procedureName, ·))
    exits := exitsOf sites
    callee := .ofList (sites.filterMap fun s => s.callee?.map (s.number, ·)) }

variable (f : Flow)

/-- The statements, in ascending order. -/
def statements : List Nat :=
  f.graph.nodes

/-- The statements that control may go to next within the procedure, in ascending
order. -/
def next (n : Nat) : List Nat :=
  f.graph.next n

/-- The exits of a procedure. -/
def exitsFrom (procedure : String) : Std.ExtTreeSet Nat :=
  f.exits.getD procedure ∅

/-- The calls of a procedure, in ascending order. -/
def callers (procedure : String) : List Nat :=
  f.callee.toList.filterMap fun (n, callee) => if callee = procedure then some n else none

/-- The procedure that control leaves after a statement, if it may. -/
def left? (n : Nat) : Option String :=
  f.procedureOf[n]?.filter fun procedure => (f.exitsFrom procedure).contains n

/-- The first statement of the procedure that a statement calls. -/
def entered? (n : Nat) : Option Nat :=
  f.callee[n]?.bind (f.first[·]?)

end Flow

end ProgramFacts
