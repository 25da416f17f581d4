import ProgramFacts.CallGraph
import ProgramFacts.Dataflow
import ProgramFacts.FactBase
/-!
# The facts of a program

`FactBase.ofTree` finds everything that is to be known of a program. The program has
to declare the procedures it calls, and none of them may call itself in a roundabout
way; nothing else is asked of the tree.
-/

namespace ProgramFacts

namespace Fact

/-- Facts between statements. -/
def ofNumbers (relation : Relation) (pairs : List (Nat × Nat)) : List Fact :=
  pairs.map fun (a, b) => ⟨relation, .stmt a, .stmt b⟩

/-- Facts between names. -/
def ofNames (relation : Relation) (pairs : List (String × String)) : List Fact :=
  pairs.map fun (a, b) => ⟨relation, .name a, .name b⟩

/-- What an element uses and modifies. -/
def ofEffects (x : Element) (e : Effects) : List Fact :=
  e.uses.toList.map (⟨.uses, x, .name ·⟩) ++ e.modifies.toList.map (⟨.modifies, x, .name ·⟩)

/-- All pairs of an item and a later one. -/
def laterPairs {α : Type} : List α → List (α × α)
  | [] => []
  | a :: as => as.map (a, ·) ++ laterPairs as

/-- How the statements of a list follow each other. -/
def ofList (list : Tree) : List Fact :=
  ofNumbers .follows (list.numbers.zip list.numbers.tail) ++
    ofNumbers .followsStar (laterPairs list.numbers)

/-- What a visited statement is in, and what it does. -/
def ofFinding (v : Finding) : List Fact :=
  ofNumbers .parent (v.ancestors.getLast?.toList.map (·, v.number)) ++
    ofNumbers .parentStar (v.ancestors.map (·, v.number)) ++
    ofEffects (.stmt v.number) v.effects

/-- The facts that a survey shows. -/
def ofSurvey (s : Survey) : List Fact :=
  s.lists.flatMap ofList ++ s.findings.flatMap ofFinding ++
    s.procedures.toList.flatMap fun (name, effects) => ofEffects (.name name) effects

/-- Which procedure calls which. -/
def ofCalls (g : CallGraph) : List Fact :=
  ofNames .calls g.graph.edgeList ++ ofNames .callsStar g.graph.closure

/-- Where control and values go. -/
def ofFlow (f : Flow) (d : Dataflow) : List Fact :=
  ofNumbers .next f.graph.edgeList ++
    ofNumbers .nextStar f.graph.closure ++
    ofNumbers .affects (d.affects f).edgeList ++
    ofNumbers .affectsStar (d.affects f).closure ++
    ofNumbers .nextBip f.linked.edgeList ++
    ofNumbers .nextBipStar (f.statements.flatMap fun n => (f.reach n).toList.map (n, ·)) ++
    ofNumbers .affectsBip (d.affectsBip f).edgeList ++
    ofNumbers .affectsBipStar (d.affectsBip f).closure

end Fact

namespace FactBase

/-- The fact base that a survey, the calls and the control flow of a program give. -/
def assemble (s : Survey) (g : CallGraph) (f : Flow) : FactBase :=
  let note {α : Type} (kinds : List NodeKind) (what : Tree → Option α) :
      Std.ExtTreeMap Nat α :=
    .ofList (s.findings.filterMap fun v =>
      if v.statement.kind ∈ kinds then (what v.statement).map (v.number, ·) else none)
  { statements := .ofList (s.findings.filterMap fun v =>
      v.statement.kind.statementKind?.map (v.number, ·))
    variableNames := .ofList (s.findings.flatMap (·.effects.touched))
    procedureNames := .ofList s.procedures.keys
    constants := .ofList (s.findings.flatMap (·.statement.formulaConstants.toList))
    facts := .ofList (Fact.ofSurvey s ++ Fact.ofCalls g ++ Fact.ofFlow f (.ofSurvey s))
    rpns := note [.assign] Tree.rpn
    conditions := note [.whileLoop, .ifElse] (some ·.formulaVariables)
    callees := note [.call] (some ·.calleeName)
    transfers := note [.read, .print] (some ·.subject) }

/-- **The facts of a program.** -/
def ofTree (root : Tree) : Except SourceError FactBase := do
  if root.kind ≠ .program then throw (.notAProgram root.kind)
  let calls := CallGraph.ofTree root
  calls.checkDeclared
  let order ← calls.order
  return assemble (.ofTree root order) calls (.ofTree root)

end FactBase

end ProgramFacts
