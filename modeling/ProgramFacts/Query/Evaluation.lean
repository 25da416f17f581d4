import ProgramFacts.Answer
import ProgramFacts.FactBase
import ProgramFacts.Query.Check
import ProgramFacts.Strategy
import ProgramFacts.Table.Group
import ProgramFacts.Text.Count
/-!
# Answering queries

Each clause is turned into a table of the elements that satisfy it, in the light of the
tables of the clauses before it; the tables are joined, and what is selected is read
off. A clause that nothing satisfies ends the work at once. `Query.answer` is total:
a query that means nothing gets a fault, or if it only asks whether there is an
answer, the answer that there is none.
-/

namespace ProgramFacts

namespace FactBase

variable (kb : FactBase)

/-- What is recorded of a statement. -/
def record? : Record → Nat → Option String
  | .calledProcedure, n => kb.callee? n
  | .readVariable, n => kb.readVariable? n
  | .printedVariable, n => kb.printedVariable? n

/-- The name that is recorded of an element, which has to be a statement. -/
def recorded (record : Record) (value : Element) : Except SemanticFault Element :=
  match value with
  | .name _ => .error (.noStatement value)
  | .stmt n =>
    match kb.record? record n with
    | some name => .ok (.name name)
    | none => .error (.notRecorded value record)

/-- The number that a constant denotes; a text that denotes none stands for itself. -/
def constantValue : Element → Element
  | .name digits => (Text.count? digits).elim (.name digits) .stmt
  | value => value

/-- **The value of an attribute** of an element of a sort. Without an attribute it is the
element itself. -/
def attributeValue (entity : Entity) (attr : Option Attribute) (value : Element) :
    Except SemanticFault Element :=
  match attr, entity with
  | some .procName, .call => kb.recorded .calledProcedure value
  | some .varName, .read => kb.recorded .readVariable value
  | some .varName, .print => kb.recorded .printedVariable value
  | some .value, .const => .ok (constantValue value)
  | _, _ => .ok value

end FactBase

namespace Query

variable (kb : FactBase)

/-! ## Candidates -/

/-- The elements that a synonym still stands for, given the tables so far. -/
def synonymValues (db : List Table) (s : Synonym) : List Element :=
  match db.find? (·.has s.name) with
  | some t => t.distinct s.name
  | none => kb.entities s.entity

/-- The elements that an argument stands for; a wildcard stands for those of a sort. -/
def values (db : List Table) (sort : Option Entity) : Argument → List Element
  | .synonym s => synonymValues kb db s
  | .name text => [.name text]
  | .index n => [.stmt n]
  | .wildcard => (sort.map kb.entities).getD []
  | .expr _ => []

/-- The pairs of elements that two synonyms stand for in one table, if there is a table
that has both. -/
def jointPairs? (db : List Table) (left right : String) : Option (List (Element × Element)) :=
  (db.find? fun t => t.has left && t.has right).map fun t =>
    (t.project [left, right]).rows.filterMap fun row =>
      match Table.valueIn? row left, Table.valueIn? row right with
      | some a, some b => some (a, b)
      | _, _ => none

/-- Every element of one list with every element of another. -/
def allPairs (as bs : List Element) : List (Element × Element) :=
  as.flatMap fun a => bs.map (a, ·)

/-- The pairs of elements that two arguments stand for. A synonym stands for the same
element on either side. -/
def candidates (db : List Table) (left : Argument) (leftSort : Option Entity)
    (right : Argument) (rightSort : Option Entity) : List (Element × Element) :=
  match left.synonymName?, right.synonymName? with
  | some l, some r =>
    if l = r then (values kb db leftSort left).map fun a => (a, a)
    else
      match jointPairs? db l r with
      | some pairs => pairs
      | none => allPairs (values kb db leftSort left) (values kb db rightSort right)
  | _, _ => allPairs (values kb db leftSort left) (values kb db rightSort right)

/-! ## Clauses -/

/-- What becomes of a clause: nothing satisfies it, or something does, and a table says
what if there is a synonym to speak of. -/
inductive Verdict
  | fails
  | holds (table : Option Table)

/-- The elements, each once and in ascending order. -/
def distinctValues (as : List Element) : List Element :=
  (Std.ExtTreeSet.ofList as).toList

/-- The pairs, each once and in ascending order. -/
def distinctPairs (pairs : List (Element × Element)) : List (Element × Element) :=
  (Std.ExtTreeSet.ofList pairs Element.pairOrder).toList

/-- The verdict on arguments that stand for the given pairs. -/
def bind (left right : Argument) (pairs : List (Element × Element)) : Verdict :=
  if pairs.isEmpty then .fails
  else
    match left.synonymName?, right.synonymName? with
    | some l, some r =>
      if l = r then .holds (some (.single l (distinctValues (pairs.map Prod.fst))))
      else .holds (some (.pair l r (distinctPairs pairs)))
    | some l, none => .holds (some (.single l (distinctValues (pairs.map Prod.fst))))
    | none, some r => .holds (some (.single r (distinctValues (pairs.map Prod.snd))))
    | none, none => .holds none

/-- Whether a relation holds between any two elements of two sorts. -/
def anyPair (relation : Relation) (left right : Option Entity) : Bool :=
  match left, right with
  | some left, some right =>
    let rights := kb.entities right
    kb.relationSize relation ≠ 0 &&
      (kb.entities left).any fun a => rights.any fun b => kb.holds relation a b
  | _, _ => false

/-- The verdict on a relation. Where a relation cannot hold between an element and
itself, equal arguments fail outright. -/
def suchThat (db : List Table) (relation : Relation) (left right : Argument) : Verdict :=
  let leftSort := relation.left.wildcard?
  let rightSort := relation.right.wildcard?
  if relation.irreflexive ∧ left = right ∧ left ≠ .wildcard then .fails
  else if left = .wildcard ∧ right = .wildcard then
    if anyPair kb relation leftSort rightSort then .holds none else .fails
  else
    bind left right <|
      (candidates kb db left leftSort right rightSort).filter fun (a, b) => kb.holds relation a b

/-- Whether what a statement assigns fits an argument: an expression restricts it,
anything else does not. -/
def assignsMatching (right : Argument) (statement : Element) : Bool :=
  match right with
  | .expr p => ((statement.stmt?.bind kb.rpn?).map p.matches).getD false
  | _ => true

/-- Whether a variable is in the condition of a statement. -/
def inCondition (statement name : Element) : Bool :=
  match statement, name with
  | .stmt n, .name text => (kb.conditionVariables n).contains text
  | _, _ => false

/-- Whether a statement of a sort fits a pattern with a variable and an expression. -/
def fitsPattern (entity : Entity) (right : Argument) (statement name : Element) : Bool :=
  if entity = .assign then
    kb.holds .modifies statement name && assignsMatching kb right statement
  else inCondition kb statement name

/-- The verdict on a pattern. -/
def pattern (db : List Table) (statement : Synonym) (left right : Argument) : Verdict :=
  bind (.synonym statement) left <|
    (candidates kb db (.synonym statement) none left (some .var)).filter fun (a, b) =>
      fitsPattern kb statement.entity right a b

/-- The value of one side of a comparison. -/
def comparedValue (c : Comparand) (value : Element) : Except SemanticFault Element :=
  match c.argument with
  | .synonym s => kb.attributeValue s.entity c.attr value
  | _ => .ok value

/-- The pairs whose values are equal. -/
def equalPairs (left right : Comparand) :
    List (Element × Element) → Except SemanticFault (List (Element × Element))
  | [] => .ok []
  | (a, b) :: pairs => do
    let x ← comparedValue kb left a
    let y ← comparedValue kb right b
    let rest ← equalPairs left right pairs
    return if x = y then (a, b) :: rest else rest

/-- The verdict on a comparison. Equal sides hold of whatever they stand for. -/
def equal (db : List Table) (left right : Comparand) : Except SemanticFault Verdict :=
  if left = right then
    .ok (if (values kb db none left.argument).isEmpty then .fails else .holds none)
  else do
    let pairs ← equalPairs kb left right
      (candidates kb db left.argument none right.argument none)
    return bind left.argument right.argument pairs

/-- The verdict on a clause. -/
def verdict (db : List Table) : Clause → Except SemanticFault Verdict
  | .suchThat relation left right => .ok (suchThat kb db relation left right)
  | .pattern statement left right => .ok (pattern kb db statement left right)
  | .equal left right => equal kb db left right

/-- The tables of all clauses after those there are, or nothing if a clause fails. -/
def narrow (db : List Table) : List Clause → Except SemanticFault (Option (List Table))
  | [] => .ok (some db)
  | c :: cs => do
    match ← verdict kb db c with
    | .fails => return none
    | .holds table => narrow (db ++ table.toList) cs

/-! ## Selection -/

/-- The text of a selected value. A constant is shown as it is written. -/
def shown (s : Selected) (value : Element) : Except SemanticFault String :=
  if s.synonym.entity = .const then .ok value.text
  else (kb.attributeValue s.synonym.entity s.attr value).map Element.text

/-- The answer if one thing is selected. -/
def selectOne (s : Selected) (db : List Table) : Except SemanticFault Answer := do
  let values := synonymValues kb db s.synonym
  if s.yieldsStatements then return .stmts (.ofList (values.filterMap Element.stmt?))
  else
    let texts ← values.mapM (shown kb s)
    return .names (.ofList texts)

/-- The rows of all that is selected: those of the tables, crossed with the elements of
the synonyms that no table has. -/
def combined (selected : List Selected) (db : List Table) : Table :=
  let names := (selected.map (·.synonym.name)).eraseDups
  let restricted := db.foldl
    (fun all t =>
      let wanted := names.filter t.has
      if wanted.isEmpty then all else all.cross (t.project wanted))
    Table.empty
  selected.foldl
    (fun all s =>
      if all.has s.synonym.name then all
      else all.cross (.single s.synonym.name (kb.entities s.synonym.entity)))
    restricted

/-- The texts of what is selected in a row. -/
def shownRow (selected : List Selected) (row : Row) : Except SemanticFault (List String) :=
  (selected.filterMap fun s => (Table.valueIn? row s.synonym.name).map (s, ·)).mapM
    fun (s, value) => shown kb s value

/-- The answer if several things are selected. -/
def selectRows (selected : List Selected) (db : List Table) : Except SemanticFault Answer := do
  let rows ← (combined kb selected db).rows.mapM (shownRow kb selected)
  return .tuples (Std.ExtTreeSet.ofList rows).toList

/-- The answer that the joined tables give. -/
def select (selection : Selection) (db : List Table) : Except SemanticFault Answer :=
  match selection with
  | .boolean => .ok (.boolean true)
  | .elements [s] => selectOne kb s db
  | .elements selected => selectRows kb selected db

/-! ## Answers -/

variable (strategy : Strategy)

/-- The tables that are left at the end. -/
def joined (db : List Table) : List Table :=
  if strategy.group then Table.joinGroups db strategy.smallFirst else Table.joinOne db

/-- The answer to a query, or what makes it mean nothing. -/
def evaluate (q : Query) : Except SemanticFault Answer := do
  if let some fault := q.fault then throw fault
  q.clauses.forM Clause.check
  match ← narrow kb [] (strategy.arrange q.clauses) with
  | none => return .none q.selection
  | some db =>
    let db := joined strategy db
    if db.any Table.isEmpty then return .none q.selection
    else select kb q.selection db

/-- **The answer to a query.** Whether there is an answer to a query that means nothing
is answered with no. -/
def answer (q : Query) : Except SemanticFault Answer :=
  match evaluate kb strategy q with
  | .error fault => if q.isBoolean then .ok (.boolean false) else .error fault
  | ok => ok

end Query

end ProgramFacts
