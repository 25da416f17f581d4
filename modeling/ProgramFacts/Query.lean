import ProgramFacts.QueryError
/-!
# Queries

A query declares synonyms, selects what to answer, and narrows the answers by
clauses. A query that means nothing carries the first fault that was noted.
-/

namespace ProgramFacts

/-- Something to answer: a synonym, or an attribute of it. -/
structure Selected where
  synonym : Synonym
  attr : Option Attribute
  deriving DecidableEq

/-- Whether the answers are numbers of statements. -/
def Selected.yieldsStatements (s : Selected) : Bool :=
  s.synonym.entity.isStatement && (s.attr = none || s.attr = some .stmtNumber)

/-- What a query answers: whether there is an answer at all, or the answers. -/
inductive Selection
  | boolean
  | elements (selected : List Selected)
  deriving DecidableEq

/-- A query. -/
structure Query where
  declarations : List Synonym
  selection : Selection
  clauses : List Clause
  /-- The first thing that makes the query mean nothing. -/
  fault : Option SemanticFault := none
  deriving DecidableEq

namespace Query

def isBoolean (q : Query) : Bool :=
  q.selection = .boolean

/-- The declaration of a name, the first if there are several. -/
def declaration? (q : Query) (name : String) : Option Synonym :=
  q.declarations.find? (·.name = name)

end Query

end ProgramFacts
