import ProgramFacts.Token.Scanner
/-!
# Tokens of a program

Program text is squeezed and trimmed first, and then read from the front. At each
place the first of these that fits is taken: an assignment up to its semicolon,
the header of a `while` or an `if` up to its opening brace, a word, a numeral, a
bracket, a semicolon. So an assignment to a variable called `while` is still an
assignment. A word after `procedure` or `call` names a procedure and a word after
`read` or `print` a variable, also when it is reserved.
-/

namespace ProgramFacts

namespace Token

/-! ## Pieces of program text -/

/-- The characters that end an embedded expression. -/
def endsExpression (c : Char) : Bool := c == ';' || c == '\x7b' || c == '\x7d'

/-- Either brace. -/
def isBrace (c : Char) : Bool := c == '\x7b' || c == '\x7d'

/-- `name = text ;` at the front: the name, and the text between `=` and `;`, which
holds no brace. -/
def takeAssignment? (cs : List Char) : Option (Reading (List Char × List Char) cs) := do
  let name ← Text.takeName? cs
  let equals ← Reading.item? '=' (Text.trimStart name.rest)
  let body := Text.trimStart equals.rest
  let stop ← Reading.item? ';' (body.dropWhile (!endsExpression ·))
  return ⟨(name.value, body.takeWhile (!endsExpression ·)), stop.rest, by
    have h₁ := name.shorter
    have h₂ := Nat.lt_of_lt_of_le equals.shorter (Text.length_trimStart_le _)
    have h₃ := Nat.lt_of_lt_of_le stop.shorter (List.dropWhile_suffix _).length_le
    have h₄ : body.length ≤ equals.rest.length := Text.length_trimStart_le _
    omega⟩

/-- `word ( text ) closing {` at the front, where the `{` is the first brace: the text
in the parentheses. There may be white space on either side of the parentheses and
before the brace. -/
def takeHeader? (word closing : List Char) (cs : List Char) : Option (Reading (List Char) cs) := do
  let word ← Text.takeWord? word cs
  let opening ← Reading.item? '(' (Text.trimStart word.rest)
  let brace ← Reading.item? '\x7b' (opening.rest.dropWhile (!isBrace ·))
  let header := Text.trimStart (opening.rest.takeWhile (!isBrace ·)).reverse
  let header ← Text.after? closing.reverse header
  let condition ← Reading.item? ')' (Text.trimStart header)
  return ⟨condition.rest.reverse, brace.rest, by
    have h₁ := word.shorter
    have h₂ := Nat.lt_of_lt_of_le opening.shorter (Text.length_trimStart_le _)
    have h₃ := Nat.lt_of_lt_of_le brace.shorter (List.dropWhile_suffix _).length_le
    omega⟩

/-- The header of a loop, up to its opening brace. -/
def takeWhile? (cs : List Char) : Option (Reading (List Char) cs) :=
  takeHeader? "while".toList [] cs

/-- The header of a branching, up to its first opening brace. -/
def takeIf? (cs : List Char) : Option (Reading (List Char) cs) :=
  takeHeader? "if".toList "then".toList cs

/-- What a word names after a token of the given kind, whatever the word is. -/
def namedAfter? : Option TokenKind → Option (String → Token)
  | some (.keyword .procedureWord) | some (.keyword .callWord) => some .proc
  | some (.keyword .readWord) | some (.keyword .printWord) => some .var
  | _ => none

/-- The token for a word: a name where one is due, else a keyword if it is
reserved, else a variable. -/
def ofWord (last : Option TokenKind) (word : String) : Token :=
  match namedAfter? last with
  | some name => name word
  | none =>
    match Keyword.ofText? word with
    | some k => .keyword k
    | none => .var word

/-- A bracket or a semicolon at the front. -/
def takeMark? : (cs : List Char) → Option (Reading Token cs)
  | '\x7b' :: _ => some (.one .leftBrace)
  | '\x7d' :: _ => some (.one .rightBrace)
  | '(' :: _ => some (.one .leftParen)
  | ')' :: _ => some (.one .rightParen)
  | ';' :: _ => some (.one .semicolon)
  | _ => none

/-! ## Pieces -/

/-- A piece of program text that is read in one go. -/
inductive Piece
  | assignment (name body : List Char)
  | whileHeader (condition : List Char)
  | ifHeader (condition : List Char)
  | word (name : List Char)
  | numeral (digits : List Char)
  | mark (t : Token)

/-- The piece at the front of program text. -/
def takePiece? (cs : List Char) : Option (Reading Piece cs) :=
  (takeAssignment? cs).map (·.map fun (name, body) => .assignment name body) <|>
  (takeWhile? cs).map (·.map .whileHeader) <|>
  (takeIf? cs).map (·.map .ifHeader) <|>
  (Text.takeName? cs).map (·.map .word) <|>
  (Text.takeNumeral? cs).map (·.map .numeral) <|>
  (takeMark? cs).map (·.map .mark)

/-- How many characters a message quotes of the text ahead. -/
def snippetLength : Nat := 24

/-- The next few characters, for a message. -/
def snippet (cs : List Char) : String :=
  String.ofList (cs.take snippetLength)

/-- The tokens of a text inside a program; a failure says where in the program. -/
def scanWithin (place : List Char) (words : Vocabulary) (cs : List Char) :
    Except SourceError (List Token) :=
  (scan words cs).mapError (.embedded · (snippet place))

/-- The tokens of a piece, where `last` is the kind of the token before it and `place`
the program text from the piece on. -/
def Piece.tokens (last : Option TokenKind) (place : List Char) :
    Piece → Except SourceError (List Token)
  | .assignment name body => do
    let ts ← scanWithin place .arithmetic body
    return .var (String.ofList name) :: .assign :: ts ++ [.semicolon]
  | .whileHeader condition => do
    let ts ← scanWithin place .condition condition
    return .keyword .whileWord :: .leftParen :: ts ++ [.rightParen, .leftBrace]
  | .ifHeader condition => do
    let ts ← scanWithin place .condition condition
    return .keyword .ifWord :: .leftParen :: ts ++
      [.rightParen, .keyword .thenWord, .leftBrace]
  | .word name => .ok [ofWord last (String.ofList name)]
  | .numeral digits => .ok [.const (String.ofList digits)]
  | .mark t => .ok [t]

/-! ## Nothing is lost

What an assignment or a header was read from is its parts with white space between
them, and then the rest. -/

theorem takeAssignment?_eq_some {cs : List Char} {r : Reading (List Char × List Char) cs}
    (h : takeAssignment? cs = some r) :
    ∃ gap₁ gap₂ : List Char, gap₁.all Text.isBlank ∧ gap₂.all Text.isBlank ∧
      cs = r.value.1 ++ gap₁ ++ '=' :: gap₂ ++ r.value.2 ++ ';' :: r.rest := by
  simp only [takeAssignment?, bind, pure] at h
  obtain ⟨name, hname, h⟩ := Option.bind_eq_some_iff.1 h
  obtain ⟨equals, hequals, h⟩ := Option.bind_eq_some_iff.1 h
  obtain ⟨stop, hstop, h⟩ := Option.bind_eq_some_iff.1 h
  cases h
  obtain ⟨gap₁, hgap₁, e₁⟩ := Text.exists_blank_append name.rest
  obtain ⟨gap₂, hgap₂, e₂⟩ := Text.exists_blank_append equals.rest
  refine ⟨gap₁, gap₂, hgap₁, hgap₂, ?_⟩
  have e₃ := List.takeWhile_append_dropWhile (p := (!endsExpression ·))
    (l := Text.trimStart equals.rest)
  rw [Reading.eq_of_item? hstop] at e₃
  have e₄ := (Text.takeName?_eq_some hname).1
  rw [← e₁, Reading.eq_of_item? hequals, ← e₂, ← e₃] at e₄
  simpa using e₄.symm

theorem takeHeader?_eq_some {word closing cs : List Char} {r : Reading (List Char) cs}
    (h : takeHeader? word closing cs = some r) :
    ∃ gap₁ gap₂ gap₃ : List Char,
      gap₁.all Text.isBlank ∧ gap₂.all Text.isBlank ∧ gap₃.all Text.isBlank ∧
      (∀ c ∈ r.value, isBrace c = false) ∧
      cs = word ++ gap₁ ++ '(' :: r.value ++ ')' :: gap₂ ++ closing ++ gap₃ ++
        '\x7b' :: r.rest := by
  simp only [takeHeader?, bind, pure] at h
  obtain ⟨start, hstart, h⟩ := Option.bind_eq_some_iff.1 h
  obtain ⟨opening, hopening, h⟩ := Option.bind_eq_some_iff.1 h
  obtain ⟨brace, hbrace, h⟩ := Option.bind_eq_some_iff.1 h
  obtain ⟨header, hheader, h⟩ := Option.bind_eq_some_iff.1 h
  obtain ⟨condition, hcondition, h⟩ := Option.bind_eq_some_iff.1 h
  cases h
  obtain ⟨gap₁, hgap₁, e₁⟩ := Text.exists_blank_append start.rest
  obtain ⟨gap₂, hgap₂, e₂⟩ := Text.exists_blank_append header
  obtain ⟨gap₃, hgap₃, e₃⟩ :=
    Text.exists_blank_append (opening.rest.takeWhile (!isBrace ·)).reverse
  refine ⟨gap₁, gap₂.reverse, gap₃.reverse, hgap₁, by simpa using hgap₂, by simpa using hgap₃, ?_⟩
  have hopen : (opening.rest.takeWhile (!isBrace ·)).all (!isBrace ·) := List.all_takeWhile
  have e₄ := List.takeWhile_append_dropWhile (p := (!isBrace ·)) (l := opening.rest)
  have e₅ : opening.rest.takeWhile (!isBrace ·) =
      condition.rest.reverse ++ ')' :: gap₂.reverse ++ closing ++ gap₃.reverse := by
    rw [Text.after?_eq_some.1 hheader, ← e₂, Reading.eq_of_item? hcondition] at e₃
    simpa using (congrArg List.reverse e₃).symm
  rw [Reading.eq_of_item? hbrace, e₅] at e₄
  have e₆ := Text.eq_of_takeWord? hstart
  rw [← e₁, Reading.eq_of_item? hopening, ← e₄] at e₆
  refine ⟨fun c hc => ?_, by simpa using e₆⟩
  have hinside : c ∈ opening.rest.takeWhile (!isBrace ·) := by
    rw [e₅]
    simp [List.mem_reverse.1 hc]
  simpa using List.all_eq_true.1 hopen c hinside

/-! ## Whole programs -/

/-- The tokens of squeezed and trimmed program text, where `last` is the kind of the
token before it. -/
def lexFrom (last : Option TokenKind) (cs : List Char) : Except SourceError (List Token) :=
  if cs.isEmpty then .ok []
  else
    match takePiece? cs with
    | none => .error (.unexpectedInput (snippet cs))
    | some piece => do
      let ts ← piece.value.tokens last cs
      let more ← lexFrom (ts.getLast?.map kind) (Text.trimStart piece.rest)
      return ts ++ more
termination_by cs.length
decreasing_by exact Nat.lt_of_le_of_lt (Text.length_trimStart_le _) piece.shorter

/-- **The tokens of a program.** -/
def lex (source : String) : Except SourceError (List Token) :=
  lexFrom none (Text.trim (Text.squeeze source.toList))

end Token

end ProgramFacts
