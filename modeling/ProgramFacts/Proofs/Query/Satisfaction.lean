import ProgramFacts.Proofs.Table
import ProgramFacts.Query.Evaluation
/-!
# Queries — what they ask for

What a query means is said without tables. A valuation gives every synonym of the query
an element of its sort; a clause is satisfied if its arguments can take values that
satisfy it, a synonym the value that the valuation gives, a literal its own, and a
wildcard any value of its place. `Query.Solution` asks this of all clauses, and
`Query.Answers` says which answer lists what is selected in the solutions, and nothing
else.
-/

namespace ProgramFacts

/-- Every call is recorded with its procedure, every read and print with its variable. -/
structure FactBase.Recorded (kb : FactBase) : Prop where
  call : ∀ n, kb.statements[n]? = some .call → (kb.callee? n).isSome
  read : ∀ n, kb.statements[n]? = some .read → (kb.readVariable? n).isSome
  print : ∀ n, kb.statements[n]? = some .print → (kb.printedVariable? n).isSome

variable (kb : FactBase) (ρ : Valuation)

/-- Whether an argument can take a value; `sort` is what a wildcard stands for. -/
def Argument.Takes (sort : Option Entity) : Argument → Element → Prop
  | .synonym s, a => a = ρ s.name
  | .name text, a => a = .name text
  | .index n, a => a = .stmt n
  | .wildcard, a => ∃ e, sort = some e ∧ a ∈ kb.entities e
  | .expr _, _ => False

namespace Clause

/-- The synonyms that occur in a clause. -/
def occurrences : Clause → List Synonym
  | .suchThat _ left right => left.synonym?.toList ++ right.synonym?.toList
  | .pattern statement left right =>
    statement :: (left.synonym?.toList ++ right.synonym?.toList)
  | .equal left right => left.argument.synonym?.toList ++ right.argument.synonym?.toList

/-- Whether an assignment statement has a value that an argument asks for: only an
expression asks for something. -/
def AssignsFitting (right : Argument) (statement : Element) : Prop :=
  match right with
  | .expr p => ∃ n rpn, statement = .stmt n ∧ kb.rpn? n = some rpn ∧ p.matches rpn
  | _ => True

/-- **Whether a clause is satisfied.** A relation that can never hold between an element
and itself is not satisfied by two equal arguments, unless these are wildcards. -/
def Satisfied : Clause → Prop
  | .suchThat relation left right =>
    ¬ (relation.irreflexive ∧ left = right ∧ left ≠ .wildcard) ∧
      ∃ a b, left.Takes kb ρ relation.left.wildcard? a ∧
        right.Takes kb ρ relation.right.wildcard? b ∧ kb.holds relation a b
  | .pattern statement left right =>
    ∃ b, left.Takes kb ρ (some .var) b ∧
      if statement.entity = .assign then
        kb.holds .modifies (ρ statement.name) b ∧ AssignsFitting kb right (ρ statement.name)
      else
        ∃ n text, ρ statement.name = .stmt n ∧ b = .name text ∧ text ∈ kb.conditionVariables n
  | .equal left right =>
    ∃ a b value, left.argument.Takes kb ρ none a ∧ right.argument.Takes kb ρ none b ∧
      Query.comparedValue kb left a = .ok value ∧ Query.comparedValue kb right b = .ok value

end Clause

/-- The synonyms that are selected. -/
def Selection.occurrences : Selection → List Synonym
  | .boolean => []
  | .elements selected => selected.map Selected.synonym

namespace Query

variable (q : Query)

/-- The synonyms that occur in the clauses and the selection of a query. -/
def occurrences : List Synonym :=
  q.clauses.flatMap Clause.occurrences ++ q.selection.occurrences

/-- Every synonym occurs with one sort only. -/
def OneSort : Prop :=
  ∀ s ∈ q.occurrences, ∀ s' ∈ q.occurrences, s.name = s'.name → s.entity = s'.entity

/-- A valuation that gives every synonym of a query an element of its sort, such that
all clauses are satisfied. -/
structure Solution : Prop where
  admits : ∀ s ∈ q.occurrences, ρ s.name ∈ kb.entities s.entity
  satisfied : ∀ c ∈ q.clauses, c.Satisfied kb ρ

/-- **The exact answer**: whether there is a solution, or what is selected in the
solutions. One selection of statements is answered by their numbers, any other by
texts, and several selections by rows of texts in ascending order, each once. -/
def Answers (a : Answer) : Prop :=
  match q.selection with
  | .boolean => ∃ b, a = .boolean b ∧ (b = true ↔ ∃ ρ, Solution kb ρ q)
  | .elements [s] =>
    if s.yieldsStatements then
      ∃ numbers, a = .stmts numbers ∧
        ∀ n, n ∈ numbers ↔ ∃ ρ, Solution kb ρ q ∧ ρ s.synonym.name = .stmt n
    else
      ∃ texts, a = .names texts ∧
        ∀ text, text ∈ texts ↔
          ∃ ρ, Solution kb ρ q ∧ shown kb s (ρ s.synonym.name) = .ok text
  | .elements selected =>
    ∃ rows, a = .tuples rows ∧ rows.Pairwise (fun r r' => compare r r' = .lt) ∧
      ∀ row, row ∈ rows ↔
        ∃ ρ, Solution kb ρ q ∧ selected.mapM (fun s => shown kb s (ρ s.synonym.name)) = .ok row

end Query

end ProgramFacts
