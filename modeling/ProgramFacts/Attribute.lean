import ProgramFacts.Entity
/-!
# Attributes

What can be said of an element beyond the element itself: the name of a procedure
or a variable, the value of a constant, the number of a statement.
-/

namespace ProgramFacts

/-- Attributes of elements. -/
inductive Attribute
  | procName | varName | value | stmtNumber
  deriving DecidableEq

namespace Attribute

def all : List Attribute := [.procName, .varName, .value, .stmtNumber]

def text : Attribute → String
  | .procName => "procName"
  | .varName => "varName"
  | .value => "value"
  | .stmtNumber => "stmt#"

def ofText? (s : String) : Option Attribute :=
  all.find? (·.text = s)

/-- Whether elements of a sort have the attribute. A call has the name of the procedure
it calls, a read and a print that of its variable. -/
def appliesTo : Attribute → Entity → Bool
  | .procName, e => e = .proc || e = .call
  | .varName, e => e = .var || e = .read || e = .print
  | .value, e => e = .const
  | .stmtNumber, e => e.isStatement && e ≠ .progLine

/-- Whether the attribute is a name; otherwise it is a number. -/
def isName : Attribute → Bool
  | .procName | .varName => true
  | .value | .stmtNumber => false

theorem ofText?_text (a : Attribute) : ofText? a.text = some a := by
  cases a <;> decide

end Attribute

end ProgramFacts
