import ProgramFacts.QueryError
import ProgramFacts.Text.Blank
import ProgramFacts.Text.Word
/-!
# Queries — reading characters

`QueryToken.lex` cuts a query into tokens, with white space allowed between any two of
them. A word is a name that may end in a star; besides there are the two words
`prog_line` and `stmt#`, which come before all others.
-/

namespace ProgramFacts

namespace QueryToken

/-- Quoted text at the front. -/
def takeQuoted? : (cs : List Char) → Option (Reading QueryToken cs)
  | '"' :: cs =>
    (Reading.item? '"' (cs.dropWhile (· ≠ '"'))).map fun closing =>
      ⟨.quoted (String.ofList (Text.trim (cs.takeWhile (· ≠ '"')))), closing.rest, by
        have := closing.shorter
        have := (List.dropWhile_suffix (· ≠ '"') (l := cs)).length_le
        simp only [List.length_cons]
        omega⟩
  | _ => none

/-- A fixed word at the front. -/
def takeFixed? (word : String) (cs : List Char) : Option (Reading QueryToken cs) :=
  (Text.takeWord? word.toList cs).map (·.map fun _ => .word word)

/-- A name at the front, and the star after it if there is one. -/
def takeStarred? (cs : List Char) : Option (Reading QueryToken cs) :=
  (Text.takeName? cs).map fun name =>
    match Reading.item? '*' name.rest with
    | some star =>
      ⟨.word (String.ofList (name.value ++ ['*'])), star.rest,
        Nat.lt_trans star.shorter name.shorter⟩
    | none => name.map fun text => .word (String.ofList text)

/-- A number at the front. -/
def takeNumber? (cs : List Char) : Option (Reading QueryToken cs) :=
  (Text.takeNumeral? cs).map (·.map fun digits => .number (String.ofList digits))

/-- The marks that queries have. -/
def marks : List Char :=
  ['(', ')', ',', ';', '<', '>', '=', '_', '.']

/-- A mark at the front. -/
def takeMark? : (cs : List Char) → Option (Reading QueryToken cs)
  | [] => none
  | c :: _ => if c ∈ marks then some (.one (.mark c)) else none

/-- The token at the front. -/
def take? (cs : List Char) : Option (Reading QueryToken cs) :=
  takeQuoted? cs <|> takeFixed? "prog_line" cs <|> takeFixed? "stmt#" cs <|>
    takeStarred? cs <|> takeNumber? cs <|> takeMark? cs

/-- How much text a failure shows. -/
def shown : Nat := 16

/-- All tokens from here on. -/
def lexFrom (cs : List Char) : Except QueryError (List QueryToken) :=
  let cs' := Text.trimStart cs
  if cs'.isEmpty then .ok []
  else
    match take? cs' with
    | none => .error (.malformed (.strayCharacter (String.ofList (cs'.take shown))))
    | some t => do
      let ts ← lexFrom t.rest
      return t.value :: ts
termination_by cs.length
decreasing_by exact Nat.lt_of_lt_of_le t.shorter (Text.length_trimStart_le cs)

/-- **The tokens of a query.** -/
def lex (text : String) : Except QueryError (List QueryToken) :=
  lexFrom text.toList

end QueryToken

end ProgramFacts
