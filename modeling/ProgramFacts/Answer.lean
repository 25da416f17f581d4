import ProgramFacts.Query
import Std.Data.ExtTreeSet
/-!
# Answers

What a query is answered with: numbers of statements, names, a truth value or rows of
texts. `Answer.lines` shows an answer as lines of text.
-/

namespace ProgramFacts

/-- An answer to a query. -/
inductive Answer
  | stmts (numbers : Std.ExtTreeSet Nat)
  | names (texts : Std.ExtTreeSet String)
  | boolean (value : Bool)
  | tuples (rows : List (List String))
  deriving DecidableEq

namespace Answer

/-- The answer to a query that nothing satisfies. -/
def none : Selection → Answer
  | .boolean => .boolean false
  | .elements (_ :: _ :: _) => .tuples []
  | .elements [s] => if s.yieldsStatements then .stmts ∅ else .names ∅
  | .elements [] => .names ∅

/-- How many answers there are; a truth value counts as one. -/
def size : Answer → Nat
  | .stmts numbers => numbers.size
  | .names texts => texts.size
  | .boolean _ => 1
  | .tuples rows => rows.length

def isEmpty (a : Answer) : Bool :=
  a.size = 0

/-- **An answer as lines**, in ascending order and each once. -/
def lines : Answer → List String
  | .boolean true => ["TRUE"]
  | .boolean false => ["FALSE"]
  | .stmts numbers => numbers.toList.map toString
  | .names texts => texts.toList
  | .tuples rows => (Std.ExtTreeSet.ofList (rows.map (" ".intercalate ·))).toList

end Answer

end ProgramFacts
