import ProgramFacts.Clause
/-!
# Strategies

A strategy says how the work of answering a query is arranged: whether repeated
clauses are dropped, whether narrow clauses come first, whether tables are joined in
groups, and whether small tables come first in a group. `Strategy.arrange` deals with
the clauses.
-/

namespace ProgramFacts

/-- How a query is worked on. -/
structure Strategy where
  /-- Drops clauses that have come before. -/
  dedup : Bool
  /-- Puts clauses with few synonyms first. -/
  sort : Bool
  /-- Joins tables that share synonyms and leaves the others apart. -/
  group : Bool
  /-- Prefers tables with few rows when joining groups. -/
  smallFirst : Bool
  deriving DecidableEq

namespace Strategy

/-- Everything that helps. -/
def full : Strategy := ⟨true, true, true, true⟩

/-- Nothing: clauses as they come, one table in the end. -/
def plain : Strategy := ⟨false, false, false, false⟩

def ofFlag (optimize : Bool) : Strategy :=
  if optimize then full else plain

end Strategy

/-- Whether a clause may come before another: it has fewer synonyms, or as many and a
form that is no wider. -/
def Clause.leads (c d : Clause) : Bool :=
  c.synonyms.length < d.synonyms.length ||
    (c.synonyms.length = d.synonyms.length && c.rank ≤ d.rank)

/-- **Clauses as a strategy wants them.** Of clauses that may come in either order the
first stays first. -/
def Strategy.arrange (s : Strategy) (clauses : List Clause) : List Clause :=
  let kept := if s.dedup then clauses.eraseDups else clauses
  if s.sort then kept.mergeSort Clause.leads else kept

end ProgramFacts
