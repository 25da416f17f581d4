/-!
# Entities

The kinds of statements that are told apart, and the sorts of things that a query
can ask for. `Entity.admits` says which statements a sort of statement has.
-/

namespace ProgramFacts

/-- Kinds of statements. -/
inductive StatementKind
  | assign | whileLoop | ifElse | call | read | print
  deriving DecidableEq

def StatementKind.all : List StatementKind := [.assign, .whileLoop, .ifElse, .call, .read, .print]

/-- What a synonym in a query can stand for. -/
inductive Entity
  | stmt | assign | whileLoop | ifElse | call | read | print
  | var | proc | const
  | progLine
  deriving DecidableEq

namespace Entity

def all : List Entity :=
  [.stmt, .assign, .whileLoop, .ifElse, .call, .read, .print, .var, .proc, .const, .progLine]

/-- The word that declares a synonym. -/
def text : Entity → String
  | .stmt => "stmt" | .assign => "assign" | .whileLoop => "while" | .ifElse => "if"
  | .call => "call" | .read => "read" | .print => "print"
  | .var => "variable" | .proc => "procedure" | .const => "constant"
  | .progLine => "prog_line"

def ofText? (s : String) : Option Entity :=
  all.find? (·.text = s)

/-- Whether the things of this sort are statements. -/
def isStatement : Entity → Bool
  | .var | .proc | .const => false
  | _ => true

/-- Whether statements of a kind are of this sort. -/
def admits : Entity → StatementKind → Bool
  | .stmt, _ | .progLine, _ => true
  | .assign, kind => kind = .assign
  | .whileLoop, kind => kind = .whileLoop
  | .ifElse, kind => kind = .ifElse
  | .call, kind => kind = .call
  | .read, kind => kind = .read
  | .print, kind => kind = .print
  | .var, _ | .proc, _ | .const, _ => false

theorem mem_all (e : Entity) : e ∈ all := by
  cases e <;> decide

theorem ofText?_text (e : Entity) : ofText? e.text = some e := by
  cases e <;> decide

end Entity

end ProgramFacts
