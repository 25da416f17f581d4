import ProgramFacts.CallGraph
import ProgramFacts.Condition.Parser
import ProgramFacts.Token.Lexer
/-!
# Programs — reading tokens

One token ahead decides what comes: a keyword or a variable starts a statement, a
closing brace ends a list of them. Statements are numbered from 1 in the order in
which they start, across procedures, and declarations and calls are entered into a
call graph as they are met. `Program.parse` reads text and checks the program as a
whole: no procedure twice, every callee declared, no recursion.
-/

namespace ProgramFacts

namespace Program

/-! ## Pieces -/

/-- Reads a condition in parentheses. -/
def takeCondition (ts : List Token) : Except SourceError (Reading Condition ts) := do
  let opening ← Token.expect .leftParen ts
  match Token.enclosed? 0 opening.rest with
  | none => .error .unterminatedCondition
  | some ⟨run, rest, cut⟩ =>
    let condition ← Condition.parse run
    return ⟨condition, rest, by
      have h := opening.shorter
      simp only [cut, List.length_append, List.length_cons] at h
      omega⟩

/-- Reads an expression and the semicolon after it. -/
def takeExpression (ts : List Token) : Except SourceError (Reading Expr ts) := do
  let stop ← Token.expect .semicolon (ts.dropWhile (· ≠ .semicolon))
  let value ← (Expr.parse (ts.takeWhile (· ≠ .semicolon))).mapError .expression
  return ⟨value.tree, stop.rest,
    Nat.lt_of_lt_of_le stop.shorter (List.dropWhile_suffix _).length_le⟩

/-- A closing brace, or nothing, is left: a list of statements ends here. -/
def endsBody : List Token → Bool
  | [] => true
  | t :: _ => t.kind == .rightBrace

/-! ## Statements -/

/-- What reading has counted and met so far. -/
structure Tally where
  /-- How many statements have started. -/
  count : Nat
  calls : CallGraph

mutual

/-- Reads a statement of the given procedure. -/
def parseStmt (procedure : String) (tally : Tally) (ts : List Token) :
    Except SourceError (Reading (Stmt × Tally) ts) :=
  let n := tally.count + 1
  let tally := { tally with count := n }
  match ts with
  | .keyword .callWord :: ts => do
    let callee ← Token.expect .procedureName ts
    let stop ← Token.expect .semicolon callee.rest
    let name := callee.value.text
    let tally := { tally with calls := tally.calls.addCall procedure name }
    return ⟨(.call n name, tally), stop.rest,
      Nat.lt_succ_of_lt (Nat.lt_trans stop.shorter callee.shorter)⟩
  | .keyword .readWord :: ts => do
    let name ← Token.expect .variableName ts
    let stop ← Token.expect .semicolon name.rest
    return ⟨(.read n name.value.text, tally), stop.rest,
      Nat.lt_succ_of_lt (Nat.lt_trans stop.shorter name.shorter)⟩
  | .keyword .printWord :: ts => do
    let name ← Token.expect .variableName ts
    let stop ← Token.expect .semicolon name.rest
    return ⟨(.print n name.value.text, tally), stop.rest,
      Nat.lt_succ_of_lt (Nat.lt_trans stop.shorter name.shorter)⟩
  | .var target :: ts => do
    let mark ← Token.expect .assign ts
    let value ← takeExpression mark.rest
    return ⟨(.assign n target value.value, tally), value.rest,
      Nat.lt_succ_of_lt (Nat.lt_trans value.shorter mark.shorter)⟩
  | .keyword .whileWord :: ts => do
    let condition ← takeCondition ts
    let body ← parseBlock procedure tally condition.rest
    return ⟨(.whileLoop n condition.value body.value.1, body.value.2), body.rest,
      Nat.lt_succ_of_lt (Nat.lt_trans body.shorter condition.shorter)⟩
  | .keyword .ifWord :: ts => do
    let condition ← takeCondition ts
    let thenMark ← Token.expect (.keyword .thenWord) condition.rest
    let thenBody ← parseBlock procedure tally thenMark.rest
    let elseMark ← Token.expect (.keyword .elseWord) thenBody.rest
    let elseBody ← parseBlock procedure thenBody.value.2 elseMark.rest
    return ⟨(.ifElse n condition.value thenBody.value.1 elseBody.value.1, elseBody.value.2),
      elseBody.rest, Nat.lt_succ_of_lt (Nat.lt_trans elseBody.shorter
        (Nat.lt_trans elseMark.shorter (Nat.lt_trans thenBody.shorter
          (Nat.lt_trans thenMark.shorter condition.shorter))))⟩
  | ts => .error (.noStatement ts n)
termination_by (ts.length, 0)
decreasing_by
  · exact Prod.Lex.left _ _ (Nat.lt_succ_of_lt condition.shorter)
  · exact Prod.Lex.left _ _
      (Nat.lt_succ_of_lt (Nat.lt_trans thenMark.shorter condition.shorter))
  · exact Prod.Lex.left _ _ (Nat.lt_succ_of_lt (Nat.lt_trans elseMark.shorter
      (Nat.lt_trans thenBody.shorter (Nat.lt_trans thenMark.shorter condition.shorter))))

/-- Reads a list of statements in braces. -/
def parseBlock (procedure : String) (tally : Tally) (ts : List Token) :
    Except SourceError (Reading (List Stmt × Tally) ts) := do
  let opening ← Token.expect .leftBrace ts
  let body ← parseBody procedure tally opening.rest
  let closing ← Token.expect .rightBrace body.rest
  return ⟨body.value, closing.rest,
    Nat.lt_trans closing.shorter (Nat.lt_trans body.shorter opening.shorter)⟩
termination_by (ts.length, 0)
decreasing_by exact Prod.Lex.left _ _ opening.shorter

/-- Reads statements up to the end of the list they are in. There is at least one. -/
def parseBody (procedure : String) (tally : Tally) (ts : List Token) :
    Except SourceError (Reading (List Stmt × Tally) ts) :=
  if endsBody ts then .error (.emptyBody procedure)
  else do
    let first ← parseStmt procedure tally ts
    if endsBody first.rest then
      return ⟨([first.value.1], first.value.2), first.rest, first.shorter⟩
    else
      let more ← parseBody procedure first.value.2 first.rest
      return ⟨(first.value.1 :: more.value.1, more.value.2), more.rest,
        Nat.lt_trans more.shorter first.shorter⟩
termination_by (ts.length, 1)
decreasing_by
  · exact Prod.Lex.right _ (by decide)
  · exact Prod.Lex.left _ _ first.shorter

end

/-! ## Procedures -/

/-- A program with what was met while reading it. -/
structure Draft where
  program : Program
  calls : CallGraph
  /-- The procedures that were declared again, in order. -/
  repeated : List String

/-- Reads a procedure. -/
def parseProcedure (tally : Tally) (ts : List Token) :
    Except SourceError (Reading (Procedure × Tally) ts) := do
  let word ← Token.expect (.keyword .procedureWord) ts
  let name ← Token.expect .procedureName word.rest
  let procedure := name.value.text
  let tally := { tally with calls := tally.calls.declare procedure }
  let body ← parseBlock procedure tally name.rest
  return ⟨(⟨procedure, body.value.1⟩, body.value.2), body.rest,
    Nat.lt_trans body.shorter (Nat.lt_trans name.shorter word.shorter)⟩

/-- Reads procedures until no token is left. -/
def parseProcedures (tally : Tally) (ts : List Token) :
    Except SourceError (List Procedure × List String × Tally) :=
  if ts.isEmpty then .ok ([], [], tally)
  else do
    let first ← parseProcedure tally ts
    let name := first.value.1.name
    let (procedures, repeated, final) ← parseProcedures first.value.2 first.rest
    let repeated := if tally.calls.declares name then name :: repeated else repeated
    return (first.value.1 :: procedures, repeated, final)
termination_by ts.length
decreasing_by exact first.shorter

/-- **Reads a program from its tokens**, without the checks on the whole of it. -/
def parseTokens (ts : List Token) : Except SourceError Draft :=
  if ts.isEmpty then .error .noProcedure
  else do
    let (procedures, repeated, tally) ← parseProcedures ⟨0, .empty⟩ ts
    return ⟨⟨procedures⟩, tally.calls, repeated⟩

/-- The checks on a whole program: no procedure is declared twice, every callee is
declared, and no procedure calls itself. -/
def Draft.check (d : Draft) : Except SourceError Unit :=
  match d.repeated with
  | name :: _ => .error (.duplicateProcedure name)
  | [] => do
    d.calls.checkDeclared
    discard d.calls.order

/-- **Reads and checks a program.** -/
def parse (source : String) : Except SourceError Program := do
  let ts ← Token.lex source
  let draft ← parseTokens ts
  draft.check
  return draft.program

end Program

end ProgramFacts
