import ProgramFacts.Attribute
import ProgramFacts.Relation
/-!
# Clauses

A query narrows its answers by clauses: a relation between two arguments, a pattern
that assignments or conditions have to fit, or a comparison of two values. An
argument is a synonym, a literal or a wildcard. `Clause.text` shows a clause the way
it is written in a query, with expressions in postorder.
-/

namespace ProgramFacts

/-- A name that stands for the elements of a sort. -/
@[ext]
structure Synonym where
  entity : Entity
  name : String
  deriving DecidableEq

/-- An expression to be found in assignments, with its words in postorder: as a whole,
or also as a part of a larger one. -/
structure Pattern where
  partly : Bool
  rpn : List String
  deriving DecidableEq

/-- **Whether an assigned expression fits a pattern.** A part is a run of words that
follow each other. -/
def Pattern.matches (p : Pattern) (assigned : List String) : Bool :=
  if p.partly then
    p.rpn ≠ [] ∧ (List.range assigned.length).any fun i => p.rpn.isPrefixOf (assigned.drop i)
  else assigned = p.rpn

/-- What a clause speaks of. -/
inductive Argument
  | synonym (s : Synonym)
  | name (text : String)
  | index (n : Nat)
  | wildcard
  | expr (pattern : Pattern)
  deriving DecidableEq

namespace Argument

def synonym? : Argument → Option Synonym
  | .synonym s => some s
  | _ => none

/-- The name of a synonym. -/
def synonymName? (a : Argument) : Option String :=
  a.synonym?.map Synonym.name

def text : Argument → String
  | .synonym s => s.name
  | .name s => s!"\"{s}\""
  | .index n => toString n
  | .wildcard => "_"
  | .expr p =>
    let words := " ".intercalate p.rpn
    let quoted := s!"\"{words}\""
    if p.partly then s!"_{quoted}_" else quoted

end Argument

/-- One side of a comparison. -/
structure Comparand where
  argument : Argument
  attr : Option Attribute
  deriving DecidableEq

def Comparand.text (c : Comparand) : String :=
  match c.attr with
  | some a => s!"{c.argument.text}.{a.text}"
  | none => c.argument.text

/-- A condition on the answers of a query. -/
inductive Clause
  /-- A relation holds. -/
  | suchThat (relation : Relation) (left right : Argument)
  /-- A statement assigns to the left a value that fits the right, or has the left in its
  condition. -/
  | pattern (statement : Synonym) (left right : Argument)
  /-- Two values are equal. -/
  | equal (left right : Comparand)
  deriving DecidableEq

namespace Clause

/-- Two names, or one if they are the same. -/
def distinctNames : Option String → Option String → List String
  | some a, some b => if a = b then [a] else [a, b]
  | some a, none => [a]
  | none, some b => [b]
  | none, none => []

/-- The names of the synonyms in a clause, without repetition. -/
def synonyms : Clause → List String
  | .suchThat _ left right => distinctNames left.synonymName? right.synonymName?
  | .pattern statement left _ => distinctNames (some statement.name) left.synonymName?
  | .equal left right => distinctNames left.argument.synonymName? right.argument.synonymName?

/-- How narrow clauses of a form tend to be: comparisons first, patterns last. -/
def rank : Clause → Nat
  | .equal .. => 0
  | .suchThat .. => 1
  | .pattern .. => 2

def text : Clause → String
  | .suchThat relation left right => s!"such that {relation.text}({left.text}, {right.text})"
  | .pattern statement left right => s!"pattern {statement.name}({left.text}, {right.text})"
  | .equal left right => s!"with {left.text} = {right.text}"

end Clause

end ProgramFacts
