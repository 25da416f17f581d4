import ProgramFacts.Flow.Walk
import ProgramFacts.Survey
/-!
# Data flow

An assignment affects another one if the value it assigns may be used there: control
can get from the one to the other without passing a statement that overwrites the
variable. Within a procedure a call overwrites whatever the called procedure
modifies (`Dataflow.affects`). Across procedures control follows the call, and only
assignments and reads overwrite (`Dataflow.affectsBip`).
-/

namespace ProgramFacts

/-- The variable that is assigned, and those that the assigned value is made of. -/
structure Assignment where
  target : String
  used : Std.ExtTreeSet String

/-- The target and the used variables of an assignment in a tree. -/
def Assignment.ofTree (t : Tree) : Assignment :=
  ⟨t.subject, t.formulaVariables⟩

/-- What single statements do to variables. If a number occurs twice, what is found
last is kept. -/
structure Dataflow where
  assignments : Std.ExtTreeMap Nat Assignment
  /-- The variable that a statement reads. -/
  reads : Std.ExtTreeMap Nat String
  /-- The statements that are calls. -/
  calls : Std.ExtTreeSet Nat
  /-- The variables that a statement modifies, directly or through what is in it. -/
  modified : Std.ExtTreeMap Nat (Std.ExtTreeSet String)

namespace Dataflow

/-- The data flow that a survey found. A statement that is in one of the same number
does not count for what is modified. -/
def ofSurvey (s : Survey) : Dataflow where
  assignments := .ofList (s.findings.filterMap fun v =>
    if v.statement.kind = .assign then some (v.number, Assignment.ofTree v.statement) else none)
  reads := .ofList (s.findings.filterMap fun v =>
    if v.statement.kind = .read then some (v.number, v.statement.subject) else none)
  calls := .ofList (s.findings.filterMap fun v =>
    if v.statement.kind = .call then some v.number else none)
  modified := .ofList (s.findings.filterMap fun v =>
    if v.number ∈ v.ancestors then none else some (v.number, v.effects.modifies))

variable (d : Dataflow)

/-- Whether an assignment or a read overwrites a variable. -/
def overwrites (name : String) (n : Nat) : Bool :=
  match d.assignments[n]? with
  | some a => a.target = name
  | none => d.reads[n]? = some name

/-- Whether a statement overwrites a variable, a call standing for the procedure it
calls. -/
def kills (name : String) (n : Nat) : Bool :=
  match d.assignments[n]?, d.reads[n]? with
  | none, none => d.calls.contains n && (d.modified.getD n ∅).contains name
  | _, _ => d.overwrites name n

/-- Whether a statement is an assignment that uses a variable. -/
def isUser (name : String) (n : Nat) : Bool :=
  (d.assignments[n]?.map (·.used.contains name)).getD false

variable (f : Flow)

/-- **Which assignments affect which within a procedure.** -/
def affects : Digraph Nat :=
  .ofRows (d.assignments.toList.map fun (n, a) =>
    (n, (f.graph.reachThrough (!d.kills a.target ·) n).filter (d.isUser a.target)))

/-- **Which assignments affect which across procedures.** -/
def affectsBip : Digraph Nat :=
  .ofRows (d.assignments.toList.map fun (n, a) =>
    (n, (f.walk (d.overwrites a.target) n).filter (d.isUser a.target)))

end Dataflow

end ProgramFacts
