import ProgramFacts.Element
import ProgramFacts.Relation
import Std.Data.ExtTreeMap
import Std.Data.ExtTreeSet
/-!
# Fact bases

What is known of a program: its statements with their kinds, its names and
constants, which relations hold between them, and what is recorded of single
statements. A fact base grows by insertion, and nothing makes its parts agree: a
fact may speak of an element that is not listed. `FactBase.entities` lists the
elements of a sort, `FactBase.holds` looks up a fact.
-/

namespace ProgramFacts

/-- A relation between two elements. -/
@[ext]
structure Fact where
  relation : Relation
  left : Element
  right : Element
  deriving DecidableEq

namespace Fact

/-- Facts are ordered by their relation, then by their elements. -/
def order : Fact → Fact → Ordering :=
  compareLex (compareOn relation) (compareLex (compareOn left) (compareOn right))

instance : Ord Fact where
  compare := order

instance : Std.TransOrd Fact :=
  inferInstanceAs (Std.TransCmp
    (compareLex (compareOn relation) (compareLex (compareOn left) (compareOn right))))

instance : Std.LawfulEqOrd Fact where
  eq_of_compare {a b} h := by
    obtain ⟨h₁, h⟩ := compareLex_eq_eq.1 h
    obtain ⟨h₂, h₃⟩ := compareLex_eq_eq.1 h
    exact Fact.ext (Std.LawfulEqCmp.eq_of_compare h₁) (Std.LawfulEqCmp.eq_of_compare h₂)
      (Std.LawfulEqCmp.eq_of_compare h₃)

end Fact

/-- What is known of a program. -/
structure FactBase where
  statements : Std.ExtTreeMap Nat StatementKind := ∅
  variableNames : Std.ExtTreeSet String := ∅
  procedureNames : Std.ExtTreeSet String := ∅
  constants : Std.ExtTreeSet String := ∅
  facts : Std.ExtTreeSet Fact := ∅
  /-- The words of an assigned expression, operands before their operator. -/
  rpns : Std.ExtTreeMap Nat (List String) := ∅
  /-- The variables of the condition of a loop or a branching. -/
  conditions : Std.ExtTreeMap Nat (Std.ExtTreeSet String) := ∅
  /-- The procedure that a statement calls. -/
  callees : Std.ExtTreeMap Nat String := ∅
  /-- The variable that a statement reads or prints. -/
  transfers : Std.ExtTreeMap Nat String := ∅

namespace FactBase

def empty : FactBase := {}

variable (kb : FactBase)

/-! ## Insertion -/

/-- Lists a statement; one that is listed changes its kind. -/
def insertStatement (n : Nat) (kind : StatementKind) : FactBase :=
  { kb with statements := kb.statements.insert n kind }

def insertVariable (name : String) : FactBase :=
  { kb with variableNames := kb.variableNames.insert name }

def insertProcedure (name : String) : FactBase :=
  { kb with procedureNames := kb.procedureNames.insert name }

def insertConstant (digits : String) : FactBase :=
  { kb with constants := kb.constants.insert digits }

def insertFact (fact : Fact) : FactBase :=
  { kb with facts := kb.facts.insert fact }

def setRpn (n : Nat) (rpn : List String) : FactBase :=
  { kb with rpns := kb.rpns.insert n rpn }

def setCondition (n : Nat) (names : List String) : FactBase :=
  { kb with conditions := kb.conditions.insert n (.ofList names) }

def setCallee (n : Nat) (procedure : String) : FactBase :=
  { kb with callees := kb.callees.insert n procedure }

def setTransfer (n : Nat) (name : String) : FactBase :=
  { kb with transfers := kb.transfers.insert n name }

/-! ## Look-up -/

/-- How many statements are listed. -/
def statementCount : Nat :=
  kb.statements.size

/-- **The elements of a sort**, in ascending order. -/
def entities : Entity → List Element
  | .var => kb.variableNames.toList.map .name
  | .proc => kb.procedureNames.toList.map .name
  | .const => kb.constants.toList.map .name
  | e => (kb.statements.toList.filter fun (_, kind) => e.admits kind).map fun (n, _) => .stmt n

/-- **Whether a relation holds between two elements.** -/
def holds (relation : Relation) (left right : Element) : Bool :=
  kb.facts.contains ⟨relation, left, right⟩

/-- How many facts there are of a relation. -/
def relationSize (relation : Relation) : Nat :=
  kb.facts.toList.countP (·.relation = relation)

/-- Whether an element is listed under some sort. -/
def lists : Element → Bool
  | .stmt n => kb.statements.contains n
  | .name s => kb.variableNames.contains s || kb.procedureNames.contains s ||
      kb.constants.contains s

/-- The pairs of listed elements that a relation holds between, in ascending order. -/
def pairs (relation : Relation) : List (Element × Element) :=
  kb.facts.toList.filterMap fun fact =>
    if fact.relation = relation ∧ kb.lists fact.left ∧ kb.lists fact.right then
      some (fact.left, fact.right)
    else none

def rpn? (n : Nat) : Option (List String) :=
  kb.rpns[n]?

/-- The variables of a condition, in ascending order. -/
def conditionVariables (n : Nat) : List String :=
  (kb.conditions.getD n ∅).toList

def callee? (n : Nat) : Option String :=
  kb.callees[n]?

/-- What a statement of one kind reads or prints. -/
def transfer? (kind : StatementKind) (n : Nat) : Option String :=
  if kb.statements[n]? = some kind then kb.transfers[n]? else none

/-- The variable that a read statement reads. -/
def readVariable? (n : Nat) : Option String :=
  kb.transfer? .read n

/-- The variable that a print statement prints. -/
def printedVariable? (n : Nat) : Option String :=
  kb.transfer? .print n

end FactBase

end ProgramFacts
