import ProgramFacts.Proofs.Token.Layout
import ProgramFacts.Token.Lexer
import Mathlib.Data.Option.Basic
/-!
# Tokens — lexing what was laid out

Program text is read piece by piece, and what a word is depends on what stands before and
after it. `Token.TakesPiece` says what was read in one go, and `Token.FrontPiece` that a text
which has certain tokens is read so that the first of them come out.

`Token.Lexed ts` says that lexing gives the tokens `ts` back from every text that
has them, where no name is due. It holds of no tokens at all, and it is kept by putting a
piece in front: an assignment (`Lexed.assignment`), a header (`Lexed.whileHeader`,
`Lexed.ifHeader`), a keyword and the name that is due after it (`Lexed.named`), or a single
token (`Lexed.keyword`, `Lexed.mark`).

The other way round, what comes out of scanning is known, well spelled and there in the text
(`Scans`), and what comes out of lexing is well spelled (`wellSpelled_of_lex`).
-/

namespace ProgramFacts

/-! ## Pieces of text -/

namespace Text

theorem item?_eq_none {wanted : Char} {cs : List Char} (h : ∀ c ∈ cs.head?, c ≠ wanted) :
    Reading.item? wanted cs = none := by
  cases cs with
  | nil => rfl
  | cons c cs => exact if_neg (h c rfl)

theorem item?_of_eq {wanted : Char} {cs rest : List Char} (h : cs = wanted :: rest) :
    ∃ h, Reading.item? wanted cs = some ⟨(), rest, h⟩ := by
  subst h
  exact ⟨_, if_pos rfl⟩

/-- White space, or a character that is no part of a word, ends a word. -/
theorem head?_gap_append {gap : List Char} {c : Char} (hgap : gap.all isBlank)
    (hc : c.isAlphanum = false) (rest : List Char) :
    ∀ d ∈ (gap ++ c :: rest).head?, d.isAlphanum = false := by
  cases gap with
  | nil =>
    rintro d ⟨⟩
    exact hc
  | cons b gap =>
    rintro d ⟨⟩
    exact isAlphanum_of_isBlank (List.all_eq_true.1 hgap b List.mem_cons_self)

theorem takeWord?_append {word : List Char} (hword : word ≠ []) (rest : List Char) :
    ∃ h, takeWord? word (word ++ rest) = some ⟨(), rest, h⟩ := by
  have hlt : rest.length < (word ++ rest).length := by
    have hpos := List.length_pos_iff.2 hword
    rw [List.length_append]
    omega
  refine ⟨hlt, ?_⟩
  rw [takeWord?, dif_pos ⟨hword, List.prefix_append word rest⟩]
  exact congrArg some (Reading.ext rfl (List.drop_left))

end Text

namespace Token

/-! ## Characters that end an expression -/

section Ends

variable {c : Char}

theorem endsExpression_of_isAlphanum (hc : c.isAlphanum) : endsExpression c = false := by
  refine Bool.eq_false_iff.2 fun hends => ?_
  simp only [endsExpression, Bool.or_eq_true, beq_iff_eq] at hends
  rcases hends with (rfl | rfl) | rfl <;> exact absurd hc (by decide)

theorem endsExpression_of_isBlank (hc : Text.isBlank c) : endsExpression c = false := by
  refine Bool.eq_false_iff.2 fun hends => ?_
  simp only [endsExpression, Bool.or_eq_true, beq_iff_eq] at hends
  rcases hends with (rfl | rfl) | rfl <;> exact absurd hc (by decide)

theorem isBrace_of_endsExpression (hc : endsExpression c = false) : isBrace c = false := by
  simp only [endsExpression, Bool.or_eq_false_iff] at hc
  simp [isBrace, hc]

theorem endsExpression_of_mem_text {words : Vocabulary} {t : Token} (hknown : words.knows t)
    (ht : t.wellSpelled) : ∀ c ∈ t.text.toList, endsExpression c = false := by
  by_cases hword : t.isWord
  · exact fun c hc => endsExpression_of_isAlphanum (isAlphanum_of_mem_text ht hword c hc)
  · cases t with
    | keyword | var | proc | const => exact absurd rfl hword
    | arith op | logic op | rel op => cases op <;> exact Text.eq_false_of_all rfl
    | leftParen | rightParen => exact Text.eq_false_of_all rfl
    | _ => cases words <;> cases hknown

/-- Nothing in an expression or a condition ends it. -/
theorem endsExpression_of_mem {follows : Token → Char → Prop} {words : Vocabulary}
    {run : List Token} {text : List Char} (hknown : ∀ t ∈ run, words.knows t) (hrun : ∀ t ∈ run, t.wellSpelled)
    (h : Placed follows run text) : ∀ c ∈ text, endsExpression c = false := by
  intro c hc
  rcases h.mem hc with hblank | ⟨t, ht, hct⟩
  · exact endsExpression_of_isBlank hblank
  · exact endsExpression_of_mem_text (hknown t ht) (hrun t ht) c hct

end Ends

section Pieces

variable {word name closing rest : List Char}

/-- A word is no assignment unless `=` follows. -/
theorem takeAssignment?_eq_none (hname : Text.isName name)
    (hrest : ∀ c ∈ rest.head?, c.isAlphanum = false)
    (hnext : ∀ c ∈ (Text.trimStart rest).head?, c ≠ '=') :
    takeAssignment? (name ++ rest) = none := by
  obtain ⟨_, htake⟩ := Text.takeName?_append hname hrest
  rw [takeAssignment?, htake]
  show (Reading.item? '=' (Text.trimStart rest)).bind _ = none
  rw [Text.item?_eq_none hnext]
  rfl

/-- The word of a header starts no assignment. -/
theorem takeAssignment?_header {gap : List Char} (hname : Text.isName name)
    (hgap : gap.all Text.isBlank) (rest : List Char) :
    takeAssignment? (name ++ (gap ++ '(' :: rest)) = none := by
  refine takeAssignment?_eq_none hname (Text.head?_gap_append hgap (by decide) rest) ?_
  rw [Text.trimStart_append hgap]
  rintro c ⟨⟩
  decide

/-- A word is no header unless `(` follows. -/
theorem takeHeader?_eq_none (hname : Text.isName name) (hword : ∀ c ∈ word, c.isAlphanum)
    (hrest : ∀ c ∈ rest.head?, c.isAlphanum = false)
    (hnext : ∀ c ∈ (Text.trimStart rest).head?, c ≠ '(') :
    takeHeader? word closing (name ++ rest) = none := by
  rw [takeHeader?]
  cases hstart : Text.takeWord? word (name ++ rest) with
  | none => rfl
  | some start =>
    -- what is left of the name, if anything, starts with a letter or a digit
    have hopening : ∀ c ∈ (Text.trimStart start.rest).head?, c ≠ '(' := by
      rcases List.append_eq_append_iff.1 (Text.eq_of_takeWord? hstart) with
        ⟨more, hmore, hsplit⟩ | ⟨more, hmore, hsplit⟩
      · cases more with
        | nil => rwa [← show rest = start.rest from hsplit]
        | cons c more =>
          have halnum := hword c (by simp [hmore])
          have hnot := hrest c (by simp [hsplit])
          simp [halnum] at hnot
      · cases more with
        | nil => rwa [show start.rest = rest from hsplit]
        | cons c more =>
          have halnum := Text.isAlphanum_of_mem_name hname c (by simp [hmore])
          have htrimmed : Text.Trimmed start.rest := by
            rw [hsplit]
            rintro d ⟨⟩
            exact Text.isBlank_of_isAlphanum halnum
          rw [Text.trimStart_of_trimmed htrimmed, hsplit]
          rintro d ⟨⟩ rfl
          exact absurd halnum (by decide)
    show (Reading.item? '(' (Text.trimStart start.rest)).bind _ = none
    rw [Text.item?_eq_none hopening]
    rfl

/-- An assignment is read up to its semicolon. -/
theorem takeAssignment?_append {gap body : List Char} (hname : Text.isName name)
    (hgap : gap.all Text.isBlank) (hbody : ∀ c ∈ body, endsExpression c = false)
    (rest : List Char) :
    ∃ h, takeAssignment? (name ++ (gap ++ '=' :: (body ++ ';' :: rest))) =
      some ⟨(name, Text.trimStart body), rest, h⟩ := by
  obtain ⟨_, htake⟩ := Text.takeName?_append hname
    (Text.head?_gap_append hgap (show '='.isAlphanum = false by decide) (body ++ ';' :: rest))
  have htrim : Text.trimStart (gap ++ '=' :: (body ++ ';' :: rest)) = '=' :: (body ++ ';' :: rest) :=
    Text.trimStart_append hgap _
  have htrim' : Text.trimStart (body ++ ';' :: rest) = Text.trimStart body ++ ';' :: rest :=
    Text.trimStart_append_of_trimmed body (by rintro c ⟨⟩; rfl)
  have hbody' : ∀ c ∈ Text.trimStart body, (!endsExpression c) = true := fun c hc => by
    simp [hbody c ((List.dropWhile_suffix Text.isBlank).subset hc)]
  obtain ⟨hinside, hafter⟩ := Text.takeWhile_append_eq (p := (!endsExpression ·)) hbody'
    (';' :: rest) (by rintro c ⟨⟩; rfl)
  rw [← htrim'] at hinside hafter
  obtain ⟨_, hequals⟩ := Text.item?_of_eq htrim
  obtain ⟨_, hstop⟩ := Text.item?_of_eq hafter
  have hlt : rest.length < (name ++ (gap ++ '=' :: (body ++ ';' :: rest))).length := by
    simp only [List.length_append, List.length_cons]
    omega
  refine ⟨hlt, Option.bind_eq_some_iff.2 ⟨_, htake, Option.bind_eq_some_iff.2 ⟨_, hequals,
    Option.bind_eq_some_iff.2 ⟨_, hstop, ?_⟩⟩⟩⟩
  exact congrArg some (Reading.ext (Prod.ext rfl hinside) rfl)

section Header

variable {gap gap₁ gap₂ body : List Char}

/-- A header from its end: what closes it, and then the parenthesis. -/
theorem exists_reverse_header (hgap₁ : gap₁.all Text.isBlank) (hgap₂ : gap₂.all Text.isBlank)
    (hclosing : ∀ c ∈ closing, c.isAlphanum) (body : List Char) :
    ∃ gap' : List Char, gap'.all Text.isBlank ∧
      Text.trimStart (body ++ ')' :: (gap₁ ++ (closing ++ gap₂))).reverse =
        closing.reverse ++ (gap' ++ ')' :: body.reverse) := by
  have hblank₁ : gap₁.reverse.all Text.isBlank := by simpa using hgap₁
  have hblank₂ : gap₂.reverse.all Text.isBlank := by simpa using hgap₂
  have hreverse : (body ++ ')' :: (gap₁ ++ (closing ++ gap₂))).reverse =
      gap₂.reverse ++ (closing.reverse ++ (gap₁.reverse ++ ')' :: body.reverse)) := by simp
  rw [hreverse, Text.trimStart_append hblank₂]
  by_cases hnil : closing = []
  · subst hnil
    exact ⟨[], rfl, Text.trimStart_append hblank₁ _⟩
  · refine ⟨gap₁.reverse, hblank₁, Text.trimStart_of_trimmed fun c hc => ?_⟩
    rw [List.head?_append_of_ne_nil _ (by simpa using hnil)] at hc
    exact Text.isBlank_of_isAlphanum (hclosing c (by simpa using List.mem_of_mem_head? hc))

/-- A header is read up to its brace. -/
theorem takeHeader?_append (hword : word ≠ []) (hclosing : ∀ c ∈ closing, c.isAlphanum)
    (hgap : gap.all Text.isBlank) (hbody : ∀ c ∈ body, isBrace c = false)
    (hgap₁ : gap₁.all Text.isBlank) (hgap₂ : gap₂.all Text.isBlank) (rest : List Char) :
    ∃ h, takeHeader? word closing (word ++ (gap ++ '(' :: (body ++ ')' ::
        (gap₁ ++ (closing ++ (gap₂ ++ '\x7b' :: rest)))))) = some ⟨body, rest, h⟩ := by
  obtain ⟨gap', hgap', hreverse⟩ := exists_reverse_header hgap₁ hgap₂ hclosing body
  -- The header is searched from its brace backwards, so it is taken as one piece first.
  obtain ⟨header, hheader⟩ : ∃ header, header = body ++ ')' :: (gap₁ ++ (closing ++ gap₂)) := ⟨_, rfl⟩
  have hsplit : body ++ ')' :: (gap₁ ++ (closing ++ (gap₂ ++ '\x7b' :: rest))) =
      header ++ '\x7b' :: rest := by simp [hheader]
  have hopen : ∀ c ∈ header, (!isBrace c) = true := by
    simp only [hheader, List.mem_append, List.mem_cons, Bool.not_eq_true']
    rintro c (hc | rfl | hc | hc | hc)
    · exact hbody c hc
    · rfl
    · exact isBrace_of_endsExpression (endsExpression_of_isBlank (List.all_eq_true.1 hgap₁ c hc))
    · exact isBrace_of_endsExpression (endsExpression_of_isAlphanum (hclosing c hc))
    · exact isBrace_of_endsExpression (endsExpression_of_isBlank (List.all_eq_true.1 hgap₂ c hc))
  obtain ⟨hinside, hafter⟩ := Text.takeWhile_append_eq (p := (!isBrace ·)) hopen
    ('\x7b' :: rest) (by rintro c ⟨⟩; rfl)
  rw [hsplit]
  have hclose : Text.after? closing.reverse (Text.trimStart
      ((header ++ '\x7b' :: rest).takeWhile (!isBrace ·)).reverse) =
      some (gap' ++ ')' :: body.reverse) := by
    rw [hinside, Text.after?_eq_some, hheader]
    exact hreverse
  -- The five steps of the reader, in its order.
  obtain ⟨_, hstart⟩ := Text.takeWord?_append hword (gap ++ '(' :: (header ++ '\x7b' :: rest))
  obtain ⟨_, hopening⟩ := Text.item?_of_eq
    (show Text.trimStart (gap ++ '(' :: (header ++ '\x7b' :: rest)) = _ from
      Text.trimStart_append hgap ('(' :: _))
  obtain ⟨_, hbrace⟩ := Text.item?_of_eq hafter
  obtain ⟨_, hparen⟩ := Text.item?_of_eq
    (show Text.trimStart (gap' ++ ')' :: body.reverse) = _ from
      Text.trimStart_append hgap' (')' :: _))
  have hlt : rest.length < (word ++ (gap ++ '(' :: (header ++ '\x7b' :: rest))).length := by
    simp only [List.length_append, List.length_cons]
    omega
  refine ⟨hlt, Option.bind_eq_some_iff.2 ⟨_, hstart, Option.bind_eq_some_iff.2 ⟨_, hopening,
    Option.bind_eq_some_iff.2 ⟨_, hbrace, Option.bind_eq_some_iff.2 ⟨_, hclose,
      Option.bind_eq_some_iff.2 ⟨_, hparen, ?_⟩⟩⟩⟩⟩⟩
  exact congrArg some (Reading.ext body.reverse_reverse rfl)

end Header

end Pieces

/-! ## Headers -/

theorem isName_keyword (k : Keyword) : Text.isName k.text.toList := by
  cases k <;> decide

/-- What closes a header: no token, or one that is written so. -/
def Closes (closing : List Char) : List Token → Prop
  | [] => closing = []
  | [t] => t.text.toList = closing
  | _ => False

theorem Placed.closing {follows : Token → Char → Prop} {closing text : List Char}
    {close : List Token} (hclose : Closes closing close) (h : Placed follows close text) :
    ∃ gap₁ gap₂ : List Char, gap₁.all Text.isBlank ∧ gap₂.all Text.isBlank ∧
      text = gap₁ ++ (closing ++ gap₂) := by
  match close with
  | [] =>
    obtain rfl := hclose
    cases h with
    | nil hgap => exact ⟨text, [], hgap, rfl, by simp⟩
  | [t] =>
    obtain ⟨gap, rest, rfl, hgap, -, hrest⟩ := h.uncons
    obtain rfl := hclose
    cases hrest with
    | nil hgap' => exact ⟨gap, rest, hgap, hgap', rfl⟩

/-- **The tokens of a header**: its word, those in its parentheses, none of which has a brace, and
those that close it. -/
structure Heads (word closing : List Char) (t : Token) (run close : List Token) : Prop where
  word_eq : t.text.toList = word
  braceless : ∀ u ∈ run, ∀ c ∈ u.text.toList, isBrace c = false
  closes : Closes closing close

section Heads

variable {follows : Token → Char → Prop} {word closing text : List Char} {t : Token}
  {run close ts : List Token}

theorem takeAssignment?_placed (h : Placed follows (t :: .leftParen :: ts) text)
    (htext : Text.Trimmed text) (ht : Text.isName t.text.toList) : takeAssignment? text = none := by
  obtain ⟨rest, rfl, -, hrest⟩ := h.front htext
  obtain ⟨gap, rest, rfl, hgap, -, -⟩ := hrest.uncons
  exact takeAssignment?_header ht hgap rest

/-- **A header is read from every text that has its tokens**, up to its brace. -/
theorem takeHeader?_placed (hword : word ≠ []) (hclosing : ∀ c ∈ closing, c.isAlphanum)
    (hheads : Heads word closing t run close)
    (h : Placed follows
      (t :: .leftParen :: (run ++ .rightParen :: (close ++ .leftBrace :: ts))) text)
    (htext : Text.Trimmed text) :
    ∃ body rest h, takeHeader? word closing text = some ⟨body, rest, h⟩ ∧
      Placed follows run body ∧ Placed follows ts rest := by
  obtain ⟨rest₁, hfront, -, h₁⟩ := h.front htext
  obtain ⟨gap, rest₂, rfl, hgap, -, h₂⟩ := h₁.uncons
  obtain ⟨body, rest₃, rfl, hbody, h₃⟩ := h₂.split
  obtain ⟨closed, rest, rfl, hclosed, hrest⟩ := h₃.split
  obtain ⟨gap₁, gap₂, hgap₁, hgap₂, rfl⟩ := hclosed.closing hheads.closes
  obtain rfl : text = word ++ (gap ++ '(' :: (body ++ ')' ::
      (gap₁ ++ (closing ++ (gap₂ ++ '\x7b' :: rest))))) := by
    rw [hfront, hheads.word_eq]
    simp [Token.text]
  have hbrace : ∀ c ∈ body, isBrace c = false := by
    intro c hc
    rcases hbody.mem hc with hblank | ⟨u, hu, hcu⟩
    · exact isBrace_of_endsExpression (endsExpression_of_isBlank hblank)
    · exact hheads.braceless u hu c hcu
  obtain ⟨hlt, htake⟩ := takeHeader?_append hword hclosing hgap hbrace hgap₁ hgap₂ rest
  exact ⟨body, rest, hlt, htake, hbody, hrest⟩

/-- There is no brace in a condition. -/
theorem isBrace_of_mem_run {words : Vocabulary} (hknown : ∀ t ∈ run, words.knows t)
    (hrun : ∀ t ∈ run, t.wellSpelled) : ∀ u ∈ run, ∀ c ∈ u.text.toList, isBrace c = false :=
  fun u hu c hc =>
    isBrace_of_endsExpression (endsExpression_of_mem_text (hknown u hu) (hrun u hu) c hc)

end Heads

/-! ## Reading a piece -/

/-- **What is read in one go**, and what is left. Of the readers that could have come first, the
ones that take more than a word are told to have failed. -/
inductive TakesPiece (cs : List Char) : Piece → List Char → Prop
  | assignment {r : Reading (List Char × List Char) cs} (h : takeAssignment? cs = some r) :
    TakesPiece cs (.assignment r.value.1 r.value.2) r.rest
  | whileHeader {r : Reading (List Char) cs} (h : takeWhile? cs = some r) :
    TakesPiece cs (.whileHeader r.value) r.rest
  | ifHeader {r : Reading (List Char) cs} (h : takeIf? cs = some r) :
    TakesPiece cs (.ifHeader r.value) r.rest
  | word {r : Reading (List Char) cs} (hwhile : takeWhile? cs = none) (hif : takeIf? cs = none)
    (h : Text.takeName? cs = some r) : TakesPiece cs (.word r.value) r.rest
  | numeral {r : Reading (List Char) cs} (h : Text.takeNumeral? cs = some r) :
    TakesPiece cs (.numeral r.value) r.rest
  | mark {r : Reading Token cs} (h : takeMark? cs = some r) : TakesPiece cs (.mark r.value) r.rest

theorem takesPiece_of_takePiece? {cs : List Char} {r : Reading Piece cs}
    (h : takePiece? cs = some r) : TakesPiece cs r.value r.rest := by
  rcases (Option.orElse_eq_some ..).1 h with h | ⟨-, h⟩
  · obtain ⟨assignment, hread, rfl⟩ := Option.map_eq_some_iff.1 h
    exact .assignment hread
  rcases (Option.orElse_eq_some ..).1 h with h | ⟨hwhile, h⟩
  · obtain ⟨header, hread, rfl⟩ := Option.map_eq_some_iff.1 h
    exact .whileHeader hread
  rcases (Option.orElse_eq_some ..).1 h with h | ⟨hif, h⟩
  · obtain ⟨header, hread, rfl⟩ := Option.map_eq_some_iff.1 h
    exact .ifHeader hread
  rcases (Option.orElse_eq_some ..).1 h with h | ⟨-, h⟩
  · obtain ⟨name, hread, rfl⟩ := Option.map_eq_some_iff.1 h
    exact .word (Option.map_eq_none_iff.1 hwhile) (Option.map_eq_none_iff.1 hif) hread
  rcases (Option.orElse_eq_some ..).1 h with h | ⟨-, h⟩
  · obtain ⟨digits, hread, rfl⟩ := Option.map_eq_some_iff.1 h
    exact .numeral hread
  · obtain ⟨mark, hread, rfl⟩ := Option.map_eq_some_iff.1 h
    exact .mark hread

section Piece

variable {name rest : List Char}

/-- A word is read by itself if it starts nothing longer. -/
theorem takePiece?_word (hname : Text.isName name)
    (hrest : ∀ c ∈ rest.head?, c.isAlphanum = false)
    (hequals : ∀ c ∈ (Text.trimStart rest).head?, c ≠ '=')
    (hwhile : takeWhile? (name ++ rest) = none) (hif : takeIf? (name ++ rest) = none) :
    ∃ h, takePiece? (name ++ rest) = some ⟨.word name, rest, h⟩ := by
  obtain ⟨hlt, htake⟩ := Text.takeName?_append hname hrest
  refine ⟨hlt, ?_⟩
  rw [takePiece?, takeAssignment?_eq_none hname hrest hequals, hwhile, hif, htake]
  rfl

/-- Brackets and the semicolon. -/
def isMark : Token → Bool
  | .leftBrace | .rightBrace | .leftParen | .rightParen | .semicolon => true
  | _ => false

theorem takePiece?_mark {t : Token} (ht : t.isMark) (rest : List Char) :
    ∃ h, takePiece? (t.text.toList ++ rest) = some ⟨.mark t, rest, h⟩ := by
  cases t with
  | leftBrace | rightBrace | leftParen | rightParen | semicolon => exact ⟨_, rfl⟩
  | _ => cases ht

/-- **A piece at the front** of a text that has the tokens `run` and then `ts`: it is read with the
tokens `run`, and the text after it has the tokens `ts`. -/
def FrontPiece (follows : Token → Char → Prop) (last : Option TokenKind) (run ts : List Token)
    (text : List Char) : Prop :=
  ∃ (piece : Piece) (rest : List Char) (h : rest.length < text.length),
    takePiece? text = some ⟨piece, rest, h⟩ ∧ piece.tokens last text = .ok run ∧
      Placed follows ts rest

section FrontPiece

variable {follows : Token → Char → Prop} {last : Option TokenKind} {run ts : List Token}
  {text : List Char}

/-- An assignment is a piece. -/
theorem frontPiece_assignment {name : String} (hname : Text.isName name.toList)
    (hknown : ∀ t ∈ run, Vocabulary.arithmetic.knows t) (hrun : ∀ t ∈ run, t.wellSpelled)
    (hscan : ∀ body, Placed follows run body → scan .arithmetic body = .ok run)
    (h : Placed follows (.var name :: .assign :: (run ++ .semicolon :: ts)) text)
    (htext : Text.Trimmed text) :
    FrontPiece follows last (.var name :: .assign :: run ++ [.semicolon]) ts text := by
  obtain ⟨rest₁, rfl, -, h₁⟩ := h.front htext
  obtain ⟨gap, rest₂, rfl, hgap, -, h₂⟩ := h₁.uncons
  obtain ⟨body, rest, rfl, hbody, hrest⟩ := h₂.split
  obtain ⟨hlt, htake⟩ :=
    takeAssignment?_append hname hgap (endsExpression_of_mem hknown hrun hbody) rest
  refine ⟨.assignment name.toList (Text.trimStart body), rest, hlt, ?_, ?_, hrest⟩
  · show takePiece? (name.toList ++ (gap ++ '=' :: (body ++ ';' :: rest))) = _
    rw [takePiece?, htake]
    rfl
  · refine Outcome.bind_eq_ok.2 ⟨run, ?_, by rw [String.ofList_toList]; rfl⟩
    exact Outcome.mapError_eq_ok.2 (hscan _ (hbody.trimStart hrun))

/-- The header of a loop is a piece, up to its brace. -/
theorem frontPiece_whileHeader (hknown : ∀ t ∈ run, Vocabulary.condition.knows t)
    (hrun : ∀ t ∈ run, t.wellSpelled)
    (hscan : ∀ body, Placed follows run body → scan .condition body = .ok run)
    (h : Placed follows
      (.keyword .whileWord :: .leftParen :: (run ++ .rightParen :: .leftBrace :: ts)) text)
    (htext : Text.Trimmed text) :
    FrontPiece follows last
      (.keyword .whileWord :: .leftParen :: run ++ [.rightParen, .leftBrace]) ts text := by
  have hheads : Heads "while".toList [] (.keyword .whileWord) run [] :=
    ⟨rfl, isBrace_of_mem_run hknown hrun, rfl⟩
  obtain ⟨body, rest, hlt, htake, hbody, hrest⟩ :=
    takeHeader?_placed (by decide) (by simp) hheads h htext
  refine ⟨.whileHeader body, rest, hlt, ?_, ?_, hrest⟩
  · rw [takePiece?, takeAssignment?_placed h htext (isName_keyword .whileWord), takeWhile?, htake]
    rfl
  · exact Outcome.bind_eq_ok.2 ⟨run, Outcome.mapError_eq_ok.2 (hscan body hbody), rfl⟩

/-- The header of a branching is a piece, up to its first brace. -/
theorem frontPiece_ifHeader (hknown : ∀ t ∈ run, Vocabulary.condition.knows t)
    (hrun : ∀ t ∈ run, t.wellSpelled)
    (hscan : ∀ body, Placed follows run body → scan .condition body = .ok run)
    (h : Placed follows (.keyword .ifWord :: .leftParen ::
      (run ++ .rightParen :: .keyword .thenWord :: .leftBrace :: ts)) text)
    (htext : Text.Trimmed text) :
    FrontPiece follows last (.keyword .ifWord :: .leftParen :: run ++
      [.rightParen, .keyword .thenWord, .leftBrace]) ts text := by
  have hheads : Heads "if".toList "then".toList (.keyword .ifWord) run [.keyword .thenWord] :=
    ⟨rfl, isBrace_of_mem_run hknown hrun, rfl⟩
  obtain ⟨body, rest, hlt, htake, hbody, hrest⟩ :=
    takeHeader?_placed (by decide) (List.all_eq_true.1 rfl) hheads h htext
  have hwhile : takeWhile? text = none := by
    obtain ⟨rest, rfl, -⟩ := h.front htext
    rfl
  refine ⟨.ifHeader body, rest, hlt, ?_, ?_, hrest⟩
  · rw [takePiece?, takeAssignment?_placed h htext (isName_keyword .ifWord), hwhile, takeIf?, htake]
    rfl
  · exact Outcome.bind_eq_ok.2 ⟨run, Outcome.mapError_eq_ok.2 (hscan body hbody), rfl⟩

end FrontPiece

/-- One piece, and then the rest. -/
theorem lexFrom_of_takePiece? {last : Option TokenKind} {text : List Char} {ts more : List Token}
    {piece : Reading Piece text} (hpiece : takePiece? text = some piece)
    (htokens : piece.value.tokens last text = .ok ts)
    (hmore : lexFrom (ts.getLast?.map kind) (Text.trimStart piece.rest) = .ok more) :
    lexFrom last text = .ok (ts ++ more) := by
  have hne : text.isEmpty = false := by
    cases text with
    | nil => exact absurd piece.shorter (Nat.not_lt_zero _)
    | cons => rfl
  rw [lexFrom, hne, hpiece]
  exact Outcome.bind_eq_ok.2 ⟨ts, htokens, Outcome.bind_eq_ok.2 ⟨more, hmore, rfl⟩⟩

theorem FrontPiece.lexFrom {follows : Token → Char → Prop} {last : Option TokenKind}
    {run ts : List Token} {text : List Char} (h : FrontPiece follows last run ts text)
    (hts : ∀ rest, Placed follows ts rest →
      lexFrom (run.getLast?.map kind) (Text.trimStart rest) = .ok ts) :
    lexFrom last text = .ok (run ++ ts) := by
  obtain ⟨piece, rest, _, hpiece, htokens, hrest⟩ := h
  exact lexFrom_of_takePiece? hpiece htokens (hts rest hrest)

end Piece

/-! ## Tokens that lexing gives back -/

/-- Tokens with which program text may go on after a word. -/
def startsPiece : Token → Bool
  | .keyword _ | .var _ | .proc _ | .leftBrace | .rightBrace | .semicolon => true
  | _ => false

/-- **Lexing gives these tokens back** from every text that has them, where no name is
due. -/
structure Lexed (ts : List Token) : Prop where
  spelled : ∀ t ∈ ts, t.wellSpelled
  starts : ∀ t ∈ ts.head?, t.startsPiece
  read : ∀ last text, namedAfter? last = none → Laid ts text → Text.Trimmed text →
    lexFrom last text = .ok ts

theorem head?_of_startsPiece {t : Token} (ht : t.wellSpelled) (hstarts : t.startsPiece) :
    ∀ c ∈ t.text.toList.head?, c ≠ '=' ∧ c ≠ '(' := by
  by_cases hword : t.isWord
  · intro c hc
    have halnum := isAlphanum_of_mem_text ht hword c (List.mem_of_mem_head? hc)
    constructor <;> (rintro rfl; exact absurd halnum (by decide))
  · cases t with
    | leftBrace | rightBrace | semicolon =>
      rintro c ⟨⟩
      decide
    | keyword | var | proc => exact absurd rfl hword
    | _ => cases hstarts

section Lexed

variable {ts : List Token} {text : List Char}

/-- Once it is trimmed, a text starts as its first token does. -/
theorem Placed.head?_trimStart {follows : Token → Char → Prop} {p : Char → Prop}
    (h : Placed follows ts text) (hts : ∀ t ∈ ts, t.wellSpelled)
    (hstarts : ∀ t ∈ ts.head?, ∀ c ∈ t.text.toList.head?, p c) :
    ∀ c ∈ (Text.trimStart text).head?, p c := by
  intro c hc
  rcases (h.trimStart hts).head hts hc with hblank | ⟨t, ht, hct⟩
  · have hnot := Text.trimmed_trimStart text c hc
    simp [hblank] at hnot
  · exact hstarts t ht c hct

theorem Lexed.next (h : Lexed ts) (hlaid : Laid ts text) {last : Option TokenKind}
    (hlast : namedAfter? last = none) : lexFrom last (Text.trimStart text) = .ok ts :=
  h.read last _ hlast (hlaid.trimStart h.spelled) (Text.trimmed_trimStart text)

/-- A piece in front of tokens that lexing gives back after it. -/
theorem Lexed.after_piece (h : Lexed ts) {last : Option TokenKind} {run : List Token}
    (hpiece : FrontPiece endsWord last run ts text)
    (hlast : namedAfter? (run.getLast?.map kind) = none) : lexFrom last text = .ok (run ++ ts) :=
  hpiece.lexFrom fun _ hrest => h.next hrest hlast

theorem lexFrom_of_placed_nil {follows : Token → Char → Prop} {last : Option TokenKind}
    (h : Placed follows [] text) (htext : Text.Trimmed text) : lexFrom last text = .ok [] := by
  cases h with
  | nil hgap =>
    obtain rfl : text = [] := by
      rw [← Text.trimStart_of_trimmed htext, Text.trimStart_blank hgap]
    rw [lexFrom]
    rfl

theorem lexed_nil : Lexed [] where
  spelled := by simp
  starts := by simp
  read := fun _ _ _ hlaid htext => lexFrom_of_placed_nil hlaid htext

/-- A word in front of tokens that lexing gives back after it. -/
theorem lexFrom_word {t : Token} {last : Option TokenKind} (htword : t.isWord)
    (hname : Text.isName t.text.toList) (hofWord : ofWord last t.text = t)
    (hts : ∀ t ∈ ts, t.wellSpelled) (hstarts : ∀ t ∈ ts.head?, t.startsPiece)
    (hlaid : Laid (t :: ts) text) (htext : Text.Trimmed text)
    (hmore : ∀ rest, Laid ts rest → lexFrom (some t.kind) (Text.trimStart rest) = .ok ts) :
    lexFrom last text = .ok (t :: ts) := by
  obtain ⟨rest, rfl, hnext, hrest⟩ := hlaid.front htext
  have hend : ∀ c ∈ rest.head?, c.isAlphanum = false := fun c hc => hnext c hc htword
  have hstart := hrest.head?_trimStart hts fun t ht =>
    head?_of_startsPiece (hts t (List.mem_of_mem_head? ht)) (hstarts t ht)
  have hparen : ∀ c ∈ (Text.trimStart rest).head?, c ≠ '(' := fun c hc => (hstart c hc).2
  obtain ⟨_, hpiece⟩ := takePiece?_word hname hend (fun c hc => (hstart c hc).1)
    (takeHeader?_eq_none hname (List.all_eq_true.1 rfl) hend hparen)
    (takeHeader?_eq_none hname (List.all_eq_true.1 rfl) hend hparen)
  have htokens : (Piece.word t.text.toList).tokens last (t.text.toList ++ rest) = .ok [t] := by
    rw [Piece.tokens, String.ofList_toList, hofWord]
  exact lexFrom_of_takePiece? hpiece htokens (hmore rest hrest)

theorem ofText?_keyword (k : Keyword) : Keyword.ofText? k.text = some k := by
  cases k <;> decide

theorem ofWord_keyword {last : Option TokenKind} (hlast : namedAfter? last = none) (k : Keyword) :
    ofWord last k.text = .keyword k := by
  rw [ofWord, hlast, ofText?_keyword]

namespace Lexed

/-- A keyword after which no name is due. -/
theorem keyword {k : Keyword} (hk : namedAfter? (some (.keyword k)) = none) (h : Lexed ts) :
    Lexed (.keyword k :: ts) where
  spelled := List.forall_mem_cons.2 ⟨rfl, h.spelled⟩
  starts := by
    rintro t ⟨⟩
    rfl
  read := fun _ _ hlast hlaid htext =>
    lexFrom_word rfl (isName_keyword k) (ofWord_keyword hlast k) h.spelled h.starts hlaid htext
      fun _ hrest => h.next hrest hk

/-- A keyword and the name that is due after it, whatever the name is. -/
theorem named {k : Keyword} {f : String → Token} (hk : namedAfter? (some (.keyword k)) = some f)
    {name : String} (hname : Text.isName name.toList) (h : Lexed ts) :
    Lexed (.keyword k :: f name :: ts) := by
  have hf : f = .proc ∨ f = .var := by
    cases k <;> simp_all [namedAfter?]
  obtain ⟨ht, htword, htext, hkind, hstarts⟩ : (f name).wellSpelled ∧ (f name).isWord ∧
      (f name).text = name ∧ namedAfter? (some (f name).kind) = none ∧ (f name).startsPiece := by
    rcases hf with rfl | rfl <;> exact ⟨hname, rfl, rfl, rfl, rfl⟩
  have hspelled : ∀ t ∈ f name :: ts, t.wellSpelled := List.forall_mem_cons.2 ⟨ht, h.spelled⟩
  refine ⟨List.forall_mem_cons.2 ⟨rfl, hspelled⟩, by rintro t ⟨⟩; rfl, ?_⟩
  intro last text hlast hlaid htrimmed
  refine lexFrom_word rfl (isName_keyword k) (ofWord_keyword hlast k) hspelled
    (by rintro t ⟨⟩; exact hstarts) hlaid htrimmed fun rest hrest => ?_
  refine lexFrom_word htword (by rw [htext]; exact hname) ?_ h.spelled h.starts (hrest.trimStart hspelled)
    (Text.trimmed_trimStart rest) fun _ hrest' => h.next hrest' hkind
  rw [ofWord, kind, hk, htext]

/-- A brace or a semicolon. -/
theorem mark {t : Token} (ht : t = .leftBrace ∨ t = .rightBrace ∨ t = .semicolon) (h : Lexed ts) :
    Lexed (t :: ts) := by
  obtain ⟨hspelled, hstarts, hkind, hmark⟩ : t.wellSpelled ∧ t.startsPiece ∧
      namedAfter? (some t.kind) = none ∧ t.isMark := by
    rcases ht with rfl | rfl | rfl <;> exact ⟨rfl, rfl, rfl, rfl⟩
  refine ⟨List.forall_mem_cons.2 ⟨hspelled, h.spelled⟩, by rintro t ⟨⟩; exact hstarts, ?_⟩
  intro last text hlast hlaid htrimmed
  obtain ⟨rest, rfl, -, hrest⟩ := hlaid.front htrimmed
  obtain ⟨_, hpiece⟩ := takePiece?_mark hmark rest
  exact lexFrom_of_takePiece? hpiece rfl (h.next hrest hkind)

/-- **An assignment.** -/
theorem assignment {name : String} {run : List Token} (hname : Text.isName name.toList)
    (hrun : Scannable .arithmetic run) (h : Lexed ts) :
    Lexed (.var name :: .assign :: (run ++ .semicolon :: ts)) := by
  have hspelled : ∀ t ∈ run ++ .semicolon :: ts, t.wellSpelled :=
    List.forall_mem_append.2 ⟨hrun.spelled, List.forall_mem_cons.2 ⟨rfl, h.spelled⟩⟩
  refine ⟨List.forall_mem_cons.2 ⟨hname, List.forall_mem_cons.2 ⟨rfl, hspelled⟩⟩,
    by rintro t ⟨⟩; rfl, ?_⟩
  intro last text hlast hlaid htrimmed
  have hpiece : FrontPiece endsWord last (.var name :: .assign :: run ++ [.semicolon]) ts text :=
    frontPiece_assignment hname hrun.known hrun.spelled
      (fun _ => scan_laid hrun) hlaid htrimmed
  simpa using h.after_piece hpiece (by rw [List.getLast?_append]; rfl)

/-- **The header of a loop**, up to its brace. -/
theorem whileHeader {run : List Token} (hrun : Scannable .condition run) (h : Lexed ts) :
    Lexed (.keyword .whileWord :: .leftParen :: (run ++ .rightParen :: .leftBrace :: ts)) := by
  have hspelled : ∀ t ∈ run ++ .rightParen :: .leftBrace :: ts, t.wellSpelled :=
    List.forall_mem_append.2 ⟨hrun.spelled,
      List.forall_mem_cons.2 ⟨rfl, List.forall_mem_cons.2 ⟨rfl, h.spelled⟩⟩⟩
  refine ⟨List.forall_mem_cons.2 ⟨rfl, List.forall_mem_cons.2 ⟨rfl, hspelled⟩⟩,
    by rintro t ⟨⟩; rfl, ?_⟩
  intro last text hlast hlaid htrimmed
  have hpiece : FrontPiece endsWord last
      (.keyword .whileWord :: .leftParen :: run ++ [.rightParen, .leftBrace]) ts text :=
    frontPiece_whileHeader hrun.known hrun.spelled
      (fun _ => scan_laid hrun) hlaid htrimmed
  simpa using h.after_piece hpiece (by rw [List.getLast?_append]; rfl)

/-- **The header of a branching**, up to its first brace. -/
theorem ifHeader {run : List Token} (hrun : Scannable .condition run) (h : Lexed ts) :
    Lexed (.keyword .ifWord :: .leftParen :: (run ++ .rightParen :: .keyword .thenWord ::
      .leftBrace :: ts)) := by
  have hspelled : ∀ t ∈ run ++ .rightParen :: .keyword .thenWord :: .leftBrace :: ts,
      t.wellSpelled := List.forall_mem_append.2 ⟨hrun.spelled, List.forall_mem_cons.2
        ⟨rfl, List.forall_mem_cons.2 ⟨rfl, List.forall_mem_cons.2 ⟨rfl, h.spelled⟩⟩⟩⟩
  refine ⟨List.forall_mem_cons.2 ⟨rfl, List.forall_mem_cons.2 ⟨rfl, hspelled⟩⟩,
    by rintro t ⟨⟩; rfl, ?_⟩
  intro last text hlast hlaid htrimmed
  have hpiece : FrontPiece endsWord last (.keyword .ifWord :: .leftParen :: run ++
      [.rightParen, .keyword .thenWord, .leftBrace]) ts text :=
    frontPiece_ifHeader hrun.known hrun.spelled
      (fun _ => scan_laid hrun) hlaid htrimmed
  simpa using h.after_piece hpiece (by rw [List.getLast?_append]; rfl)

end Lexed

end Lexed

/-- **Lexing gives a program's tokens back**, whatever white space there is. -/
theorem lex_laid {ts : List Token} {source : String} (h : Lexed ts)
    (hlaid : Laid ts source.toList) : lex source = .ok ts :=
  have hsqueezed : Laid ts (Text.squeeze source.toList) :=
    hlaid.squeeze (fun _ _ hc _ => Text.isAlphanum_of_isBlank hc) h.spelled
  h.read none _ rfl ((hsqueezed.trimStart h.spelled).trimEnd h.spelled) (Text.trimmed_trim _)

/-! ## What is scanned and lexed -/

section Spelling

variable {words : Vocabulary} {cs : List Char}

/-- **What one step of scanning reads**, and what is left. -/
structure TakesToken (words : Vocabulary) (cs : List Char) (t : Token) (rest : List Char) :
    Prop where
  known : words.knows t
  spelled : t.wellSpelled
  text_eq : cs = t.text.toList ++ rest

theorem takesToken_of_takeOperand? {r : Reading Token cs} (h : takeOperand? cs = some r) :
    TakesToken words cs r.value r.rest := by
  rcases Outcome.of_orElse_eq_some h with h | h
  all_goals
    obtain ⟨word, hread, rfl⟩ := Option.map_eq_some_iff.1 h
  · obtain ⟨hcs, hname⟩ := Text.takeName?_eq_some hread
    exact ⟨by cases words <;> rfl, by simpa [wellSpelled] using hname,
      by simpa [text] using hcs.symm⟩
  · obtain ⟨hcs, hnumeral⟩ := Text.takeNumeral?_eq_some hread
    exact ⟨by cases words <;> rfl, by simpa [wellSpelled] using hnumeral,
      by simpa [text] using hcs.symm⟩

theorem takesToken_of_takeComparison? {r : Reading Token cs} (h : takeComparison? cs = some r) :
    TakesToken .condition cs r.value r.rest := by
  unfold takeComparison? at h
  split at h <;> cases h <;>
    exact ⟨rfl, rfl, by simp [Reading.one, Reading.two, text, RelOp.text, LogicOp.text]⟩

theorem takesToken_of_takeArithmetic? {r : Reading Token cs} (h : takeArithmetic? cs = some r) :
    TakesToken words cs r.value r.rest := by
  unfold takeArithmetic? at h
  split at h <;> cases h <;>
    exact ⟨by cases words <;> rfl, rfl, by simp [Reading.one, text, ArithOp.text]⟩

theorem takesToken_of_take? {r : Reading Token cs} (h : take? words cs = some r) :
    TakesToken words cs r.value r.rest := by
  cases words with
  | arithmetic =>
    rcases Outcome.of_orElse_eq_some h with h | h
    · exact takesToken_of_takeOperand? h
    · exact takesToken_of_takeArithmetic? h
  | condition =>
    rcases Outcome.of_orElse_eq_some h with h | h
    · exact takesToken_of_takeOperand? h
    · rcases Outcome.of_orElse_eq_some h with h | h
      · exact takesToken_of_takeComparison? h
      · exact takesToken_of_takeArithmetic? h

/-- **What a text was scanned as.** -/
structure Scans (words : Vocabulary) (cs : List Char) (run : List Token) : Prop where
  known : ∀ t ∈ run, words.knows t
  spelled : ∀ t ∈ run, t.wellSpelled
  spread : Spread run cs

theorem scans_of_scan {run : List Token} (h : scan words cs = .ok run) : Scans words cs run := by
  fun_induction scan words cs generalizing run with
  | case1 cs =>
    rename_i hempty
    obtain rfl := Except.ok.inj h
    have hnil : Text.trimStart cs = [] := List.isEmpty_iff.1 hempty
    exact ⟨by simp, by simp, spread_of_trimStart (spread_of_eq hnil (.nil rfl))⟩
  | case2 => cases h
  | case3 cs =>
    rename_i t htake ih
    obtain ⟨more, hmore, h⟩ := Outcome.bind_eq_ok.1 h
    obtain rfl := Except.ok.inj h
    have hread := takesToken_of_take? htake
    have hscans := ih hmore
    exact ⟨List.forall_mem_cons.2 ⟨hread.known, hscans.known⟩,
      List.forall_mem_cons.2 ⟨hread.spelled, hscans.spelled⟩,
      spread_of_trimStart (spread_of_eq hread.text_eq (spread_cons t.value hscans.spread))⟩

theorem scans_of_scanWithin {place : List Char} {run : List Token}
    (h : scanWithin place words cs = .ok run) : Scans words cs run :=
  scans_of_scan (Outcome.mapError_eq_ok.1 h)

/-- The names and numerals of a piece are such. -/
def Piece.Spelled : Piece → Prop
  | .assignment name _ | .word name => Text.isName name
  | .numeral digits => Text.isNumeral digits
  | .mark t => t.wellSpelled
  | .whileHeader _ | .ifHeader _ => True

theorem TakesPiece.spelled {piece : Piece} {rest : List Char} (h : TakesPiece cs piece rest) :
    piece.Spelled := by
  cases h with
  | assignment h =>
    obtain ⟨name, hname, h⟩ := Option.bind_eq_some_iff.1 h
    obtain ⟨equals, -, h⟩ := Option.bind_eq_some_iff.1 h
    obtain ⟨stop, -, h⟩ := Option.bind_eq_some_iff.1 h
    obtain rfl := Option.some.inj h
    exact (Text.takeName?_eq_some hname).2
  | whileHeader | ifHeader => trivial
  | word _ _ h => exact (Text.takeName?_eq_some h).2
  | numeral h => exact (Text.takeNumeral?_eq_some h).2
  | @mark r h =>
    show r.value.wellSpelled
    unfold takeMark? at h
    split at h <;> cases h <;> rfl

theorem wellSpelled_ofWord (last : Option TokenKind) {word : List Char} (hword : Text.isName word) :
    (ofWord last (String.ofList word)).wellSpelled := by
  unfold ofWord namedAfter?
  split
  · next name hname => split at hname <;> cases hname <;> simpa [wellSpelled] using hword
  · split
    · rfl
    · simpa [wellSpelled] using hword

theorem wellSpelled_of_tokens {last : Option TokenKind} {piece : Piece} {ts : List Token}
    (hpiece : piece.Spelled) (h : piece.tokens last cs = .ok ts) : ∀ t ∈ ts, t.wellSpelled := by
  cases piece with
  | assignment name body =>
    obtain ⟨run, hrun, h⟩ := Outcome.bind_eq_ok.1 h
    obtain rfl := Except.ok.inj h
    have hspelled := (scans_of_scanWithin hrun).spelled
    have hname : (Token.var (String.ofList name)).wellSpelled := by
      simpa [wellSpelled] using (show Text.isName name from hpiece)
    simp only [List.cons_append, List.forall_mem_cons, List.forall_mem_append]
    exact ⟨hname, rfl, hspelled, rfl, by simp⟩
  | whileHeader condition | ifHeader condition =>
    obtain ⟨run, hrun, h⟩ := Outcome.bind_eq_ok.1 h
    obtain rfl := Except.ok.inj h
    have hspelled := (scans_of_scanWithin hrun).spelled
    simp only [List.cons_append, List.forall_mem_cons, List.forall_mem_append]
    exact ⟨rfl, rfl, hspelled, by decide⟩
  | word name =>
    obtain rfl := Except.ok.inj h
    exact List.forall_mem_singleton.2 (wellSpelled_ofWord last hpiece)
  | numeral digits =>
    obtain rfl := Except.ok.inj h
    exact List.forall_mem_singleton.2 (by
      simpa [wellSpelled] using (show Text.isNumeral digits from hpiece))
  | mark t =>
    obtain rfl := Except.ok.inj h
    exact List.forall_mem_singleton.2 hpiece

theorem wellSpelled_of_lexFrom {last : Option TokenKind} {ts : List Token}
    (h : lexFrom last cs = .ok ts) : ∀ t ∈ ts, t.wellSpelled := by
  fun_induction lexFrom last cs generalizing ts with
  | case1 =>
    obtain rfl := Except.ok.inj h
    simp
  | case2 => cases h
  | case3 last cs _ piece hpiece ih =>
    obtain ⟨run, hrun, h⟩ := Outcome.bind_eq_ok.1 h
    obtain ⟨more, hmore, h⟩ := Outcome.bind_eq_ok.1 h
    obtain rfl := Except.ok.inj h
    exact List.forall_mem_append.2
      ⟨wellSpelled_of_tokens (takesPiece_of_takePiece? hpiece).spelled hrun, ih run hmore⟩

/-- **What is lexed is well spelled.** -/
theorem wellSpelled_of_lex {source : String} {ts : List Token} (h : lex source = .ok ts) :
    ∀ t ∈ ts, t.wellSpelled :=
  wellSpelled_of_lexFrom h

end Spelling

end Token

end ProgramFacts
