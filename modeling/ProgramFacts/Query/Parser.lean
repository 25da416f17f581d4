import ProgramFacts.Expr.Parser
import ProgramFacts.Query
import ProgramFacts.Query.Lexer
import ProgramFacts.Text.Count
/-!
# Queries — reading tokens

Declarations come first, then what is selected, then the clauses. A synonym that is
used has to be declared, an attribute has to apply, a pattern has to have the right
number of arguments: where this fails the reader notes a fault and goes on, taking an
undeclared synonym for a statement. A query with any other flaw is refused.
`Query.parse` keeps the first fault that was noted.
-/

namespace ProgramFacts

/-- A value and the faults that were noted on the way to it. -/
structure Noted (α : Type) where
  value : α
  faults : List SemanticFault

namespace Noted

variable {α β : Type}

/-- A value without a fault. -/
def clean (value : α) : Noted α :=
  ⟨value, []⟩

/-- The same value, with a fault noted if a check fails. -/
def check (n : Noted α) (passed : Bool) (fault : SemanticFault) : Noted α :=
  ⟨n.value, if passed then n.faults else n.faults ++ [fault]⟩

def map (f : α → β) (n : Noted α) : Noted β :=
  ⟨f n.value, n.faults⟩

end Noted

namespace Query

/-- A reading of tokens, or the reason why there is none. -/
abbrev Outcome (α : Type) (ts : List QueryToken) :=
  Except QueryError (Reading α ts)

/-! ## Single tokens -/

/-- A failure at a token that is not the one looked for. -/
def unexpected {α : Type} (wanted : Expectation) (ts : List QueryToken) : Except QueryError α :=
  .error (.malformed (.unexpected wanted ts.head?))

/-- Reads a given mark. -/
def takeMark (c : Char) (ts : List QueryToken) : Outcome Unit ts :=
  match Reading.item? (.mark c) ts with
  | some r => .ok r
  | none => unexpected (.mark c) ts

/-- Reads a given word. -/
def takeWord (w : String) (ts : List QueryToken) : Outcome Unit ts :=
  match Reading.item? (.word w) ts with
  | some r => .ok r
  | none => unexpected (.word w) ts

/-- Reads any word. -/
def takeName : (ts : List QueryToken) → Outcome String ts
  | .word w :: _ => .ok (.one w)
  | ts => unexpected .anyName ts

/-! ## Declarations -/

/-- Adds a synonym to the declarations, unless it has been declared. -/
def declare (entity : Entity) (name : String) (decls : Noted (List Synonym)) :
    Noted (List Synonym) :=
  if decls.value.any (·.name = name) then decls.check false (.declaredTwice name)
  else ⟨decls.value ++ [⟨entity, name⟩], decls.faults⟩

/-- Reads the synonyms of a declaration, to the semicolon after them. -/
def parseSynonyms (entity : Entity) (decls : Noted (List Synonym)) (ts : List QueryToken) :
    Outcome (Noted (List Synonym)) ts := do
  let name ← takeName ts
  let decls := declare entity name.value decls
  match Reading.item? (.mark ';') name.rest with
  | some stop => return ⟨decls, stop.rest, Nat.lt_trans stop.shorter name.shorter⟩
  | none =>
    let comma ← takeMark ',' name.rest
    let more ← parseSynonyms entity decls comma.rest
    return ⟨more.value, more.rest,
      Nat.lt_trans more.shorter (Nat.lt_trans comma.shorter name.shorter)⟩
termination_by ts.length
decreasing_by exact Nat.lt_trans comma.shorter name.shorter

/-- Reads a declaration: what sort of thing is declared, and the synonyms. -/
def parseDeclaration (decls : Noted (List Synonym)) (ts : List QueryToken) :
    Outcome (Noted (List Synonym)) ts := do
  let word ← takeName ts
  match Entity.ofText? word.value with
  | none => .error (.malformed (.unknownEntity word.value))
  | some entity =>
    let more ← parseSynonyms entity decls word.rest
    return ⟨more.value, more.rest, Nat.lt_trans more.shorter word.shorter⟩

/-- Reads declarations to the word `Select`. -/
def parseDeclarations (decls : Noted (List Synonym)) (ts : List QueryToken) :
    Outcome (Noted (List Synonym)) ts :=
  match Reading.item? (.word "Select") ts with
  | some select => .ok (select.map fun _ => decls)
  | none =>
    if ts.isEmpty then .error (.malformed .noSelect)
    else do
      let first ← parseDeclaration decls ts
      let more ← parseDeclarations first.value first.rest
      return ⟨more.value, more.rest, Nat.lt_trans more.shorter first.shorter⟩
termination_by ts.length
decreasing_by exact first.shorter

/-! ## Synonyms and attributes -/

variable (decls : List Synonym)

/-- The synonym of a name. One that is not declared is taken for a statement. -/
def resolve (name : String) : Noted Synonym :=
  match decls.find? (·.name = name) with
  | some s => .clean s
  | none => ⟨⟨.stmt, name⟩, [.undeclared name]⟩

/-- Reads a synonym. -/
def parseSynonym (ts : List QueryToken) : Outcome (Noted Synonym) ts := do
  let name ← takeName ts
  return name.map (resolve decls)

/-- Reads an attribute of a synonym. -/
def parseAttribute (s : Synonym) (ts : List QueryToken) : Outcome (Noted Attribute) ts := do
  let word ← takeName ts
  match Attribute.ofText? word.value with
  | none => .error (.malformed (.unknownAttribute word.value))
  | some attr =>
    return word.map fun _ =>
      (Noted.clean attr).check (attr.appliesTo s.entity) (.attributeMisapplied attr s)

/-- Reads a synonym, and the attribute after a point if there is one. -/
def parseSelected (ts : List QueryToken) : Outcome (Noted Selected) ts := do
  let s ← parseSynonym decls ts
  match Reading.item? (.mark '.') s.rest with
  | none => return s.map (·.map fun synonym => ⟨synonym, none⟩)
  | some point =>
    let attr ← parseAttribute s.value.value point.rest
    return ⟨⟨⟨s.value.value, some attr.value.value⟩, s.value.faults ++ attr.value.faults⟩,
      attr.rest, Nat.lt_trans attr.shorter (Nat.lt_trans point.shorter s.shorter)⟩

/-! ## Selections -/

/-- Reads what is selected, one thing after the other, to the closing bracket. -/
def parseTuple (ts : List QueryToken) : Outcome (Noted (List Selected)) ts := do
  let first ← parseSelected decls ts
  match Reading.item? (.mark ',') first.rest with
  | some comma =>
    let more ← parseTuple comma.rest
    return ⟨⟨first.value.value :: more.value.value, first.value.faults ++ more.value.faults⟩,
      more.rest, Nat.lt_trans more.shorter (Nat.lt_trans comma.shorter first.shorter)⟩
  | none =>
    let closing ← takeMark '>' first.rest
    return ⟨first.value.map ([·]), closing.rest, Nat.lt_trans closing.shorter first.shorter⟩
termination_by ts.length
decreasing_by exact Nat.lt_trans comma.shorter first.shorter

/-- Reads a selection. The word `BOOLEAN` asks whether there is an answer, unless it is
a synonym. -/
def parseSelection (ts : List QueryToken) : Outcome (Noted Selection) ts :=
  match Reading.item? (.word "BOOLEAN") ts with
  | some r =>
    if decls.any (·.name = "BOOLEAN") then parseElements ts
    else .ok (r.map fun _ => .clean .boolean)
  | none => parseElements ts
where
  /-- Reads one thing, or several in angle brackets. -/
  parseElements (ts : List QueryToken) : Outcome (Noted Selection) ts :=
    match Reading.item? (.mark '<') ts with
    | some opening => do
      let tuple ← parseTuple decls opening.rest
      return ⟨tuple.value.map .elements, tuple.rest, Nat.lt_trans tuple.shorter opening.shorter⟩
    | none => do
      let one ← parseSelected decls ts
      return one.map (·.map fun selected => .elements [selected])

/-! ## Clauses -/

/-- Reads an argument of a relation. -/
def parseArgument : (ts : List QueryToken) → Outcome (Noted Argument) ts
  | .mark '_' :: _ => .ok (.one (.clean .wildcard))
  | .number digits :: _ =>
    match Text.count? digits with
    | some n => .ok (.one (.clean (.index n)))
    | none => .error (.malformed (.numberTooLarge digits))
  | .quoted text :: _ =>
    if Text.isName text.toList then .ok (.one (.clean (.name text)))
    else .error (.malformed (.invalidName text))
  | .word name :: _ => .ok (.one ((resolve decls name).map .synonym))
  | ts => unexpected .argument ts

/-- Reads a relation and its two arguments. The relations that cross procedures are known
only if they are switched on. -/
def parseRelation (bip : Bool) (ts : List QueryToken) : Outcome (Noted Clause) ts := do
  let word ← takeName ts
  match Relation.ofText? word.value with
  | none => .error (.malformed (.unknownRelation word.value))
  | some relation =>
    if relation.isBip && !bip then .error (.disabled relation)
    else
      let opening ← takeMark '(' word.rest
      let left ← parseArgument decls opening.rest
      let comma ← takeMark ',' left.rest
      let right ← parseArgument decls comma.rest
      let closing ← takeMark ')' right.rest
      return ⟨⟨.suchThat relation left.value.value right.value.value,
          left.value.faults ++ right.value.faults⟩, closing.rest, by
        have := word.shorter; have := opening.shorter; have := left.shorter
        have := comma.shorter; have := right.shorter; have := closing.shorter; omega⟩

/-- Reads quoted infix text as a pattern. -/
def parseInfix (partly : Bool) (text : String) : Except QueryError Argument :=
  match Expr.parseText text with
  | .ok parsed => .ok (.expr ⟨partly, parsed.rpn⟩)
  | .error cause => .error (.malformed (.invalidExpression text cause))

/-- Reads the expression of a pattern: a wildcard, or quoted text that may stand between
two wildcards. -/
def parseExpression : (ts : List QueryToken) → Outcome Argument ts
  | .quoted text :: _ => do
    let pattern ← parseInfix false text
    return .one pattern
  | .mark '_' :: .quoted text :: ts => do
    let closing ← takeMark '_' ts
    let pattern ← parseInfix true text
    return ⟨pattern, closing.rest, by have := closing.shorter; simp only [List.length_cons]; omega⟩
  | .mark '_' :: _ => .ok (.one .wildcard)
  | ts => unexpected .expression ts

/-- Whether a pattern of a sort of statement has this many arguments. -/
def hasArity : Entity → Nat → Bool
  | .assign, 2 | .whileLoop, 2 | .ifElse, 3 => true
  | _, _ => false

/-- Reads the end of a pattern: a third argument or none, and the bracket. It tells the
number of arguments. -/
def parseArity (ts : List QueryToken) : Outcome Nat ts :=
  match Reading.item? (.mark ',') ts with
  | some comma => do
    let third ← takeMark '_' comma.rest
    let closing ← takeMark ')' third.rest
    return ⟨3, closing.rest,
      Nat.lt_trans closing.shorter (Nat.lt_trans third.shorter comma.shorter)⟩
  | none => do
    let closing ← takeMark ')' ts
    return closing.map fun _ => 2

/-- Reads a pattern. -/
def parsePattern (ts : List QueryToken) : Outcome (Noted Clause) ts := do
  let s ← parseSynonym decls ts
  let opening ← takeMark '(' s.rest
  let left ← parseArgument decls opening.rest
  if let .index _ := left.value.value then throw (.malformed .numberInPattern)
  let comma ← takeMark ',' left.rest
  let right ← parseExpression comma.rest
  let arity ← parseArity right.rest
  let statement := s.value.value
  let clause : Noted Clause :=
    ⟨.pattern statement left.value.value right.value, s.value.faults ++ left.value.faults⟩
  return ⟨(clause.check (hasArity statement.entity arity.value)
        (.wrongArity arity.value statement)).check
      (statement.entity = .assign || right.value = .wildcard)
      (.expressionMisplaced statement.name), arity.rest, by
    have := s.shorter; have := opening.shorter; have := left.shorter
    have := comma.shorter; have := right.shorter; have := arity.shorter; omega⟩

/-- What was selected as one side of a comparison. A synonym without an attribute is
compared only if it stands for a program line. -/
def compared (n : Noted Selected) : Noted Comparand :=
  (n.map fun s => ⟨.synonym s.synonym, s.attr⟩).check
    (n.value.attr ≠ none || n.value.synonym.entity = .progLine)
    (.attributeMissing n.value.synonym.name)

/-- Reads one side of a comparison. -/
def parseComparand (ts : List QueryToken) : Outcome (Noted Comparand) ts :=
  match ts.head? with
  | some (.word _) => do
    let s ← parseSelected decls ts
    return s.map compared
  | some (.mark '_') => .error (.malformed .wildcardCompared)
  | _ => do
    let a ← parseArgument decls ts
    return a.map fun (n : Noted Argument) => n.map (⟨·, none⟩)

/-- Reads a comparison. -/
def parseEqual (ts : List QueryToken) : Outcome (Noted Clause) ts := do
  let left ← parseComparand decls ts
  let sign ← takeMark '=' left.rest
  let right ← parseComparand decls sign.rest
  return ⟨⟨.equal left.value.value right.value.value, left.value.faults ++ right.value.faults⟩,
    right.rest, Nat.lt_trans right.shorter (Nat.lt_trans sign.shorter left.shorter)⟩

/-- Reads clauses of one form that are joined by `and`. -/
def parseChain (one : (ts : List QueryToken) → Outcome (Noted Clause) ts)
    (ts : List QueryToken) : Outcome (Noted (List Clause)) ts := do
  let first ← one ts
  match Reading.item? (.word "and") first.rest with
  | none => return first.map (·.map ([·]))
  | some joint =>
    let more ← parseChain one joint.rest
    return ⟨⟨first.value.value :: more.value.value, first.value.faults ++ more.value.faults⟩,
      more.rest, Nat.lt_trans more.shorter (Nat.lt_trans joint.shorter first.shorter)⟩
termination_by ts.length
decreasing_by exact Nat.lt_trans joint.shorter first.shorter

/-- Reads clauses of one form, from the word that introduces them. -/
def parseGroup (bip : Bool) (head : QueryToken) (ts : List QueryToken) :
    Outcome (Noted (List Clause)) (head :: ts) :=
  match head with
  | .word "such" => do
    let that ← takeWord "that" ts
    let chain ← parseChain (parseRelation decls bip) that.rest
    return ⟨chain.value, chain.rest, by
      have := that.shorter; have := chain.shorter; simp only [List.length_cons]; omega⟩
  | .word "pattern" => do
    let chain ← parseChain (parsePattern decls) ts
    return ⟨chain.value, chain.rest, Nat.lt_succ_of_lt chain.shorter⟩
  | .word "with" => do
    let chain ← parseChain (parseEqual decls) ts
    return ⟨chain.value, chain.rest, Nat.lt_succ_of_lt chain.shorter⟩
  | other => .error (.malformed (.noClause other))

/-- Reads clauses until no token is left. -/
def parseClauses (bip : Bool) : List QueryToken → Except QueryError (Noted (List Clause))
  | [] => .ok (.clean [])
  | head :: ts => do
    let group ← parseGroup decls bip head ts
    let more ← parseClauses bip group.rest
    return ⟨group.value.value ++ more.value, group.value.faults ++ more.faults⟩
termination_by ts => ts.length
decreasing_by exact group.shorter

/-! ## Queries -/

/-- Reads a query from its tokens. -/
def parseTokens (bip : Bool) (ts : List QueryToken) : Except QueryError Query := do
  let declared ← parseDeclarations (.clean []) ts
  let decls := declared.value.value
  let selection ← parseSelection decls declared.rest
  let clauses ← parseClauses decls bip selection.rest
  return {
    declarations := decls
    selection := selection.value.value
    clauses := clauses.value
    fault := (declared.value.faults ++ selection.value.faults ++ clauses.faults).head? }

/-- **Reads a query.** The relations that cross procedures have to be switched on. -/
def parse (bip : Bool) (text : String) : Except QueryError Query := do
  parseTokens bip (← QueryToken.lex text)

end Query

end ProgramFacts
