import ProgramFacts.Proofs.Outcome
import ProgramFacts.Proofs.Token.Lexing
import ProgramFacts.Query.Lexer
/-!
# Queries — layout

`QueryToken.Laid ts text` says that `text` has the tokens `ts` in order, with any white space
before, between and after them, as long as a word or a number does not run into what follows.
Lexing gives the tokens back (`lexFrom_laid`). Two words need care. The reader looks for `prog_line`
and `stmt#` before it looks for names, whatever comes after them; a name that ends where it should
is never cut for their sake (`takeFixed?_name`).
-/

namespace ProgramFacts

namespace QueryToken

/-! ## Laying out -/

/-- **How a token is written.** Quoted text may have white space inside its quotes. -/
inductive Spelled : QueryToken → List Char → Prop
  | name {word : String} (hword : Text.isName word.toList) : Spelled (.word word) word.toList
  | starred {name : List Char} (hname : Text.isName name) :
    Spelled (.word (String.ofList (name ++ ['*']))) (name ++ ['*'])
  | progLine : Spelled (.word "prog_line") "prog_line".toList
  | stmtNumber : Spelled (.word "stmt#") "stmt#".toList
  | quoted {inner : List Char} (hinner : '"' ∉ inner) :
    Spelled (.quoted (String.ofList (Text.trim inner))) ('"' :: (inner ++ ['"']))
  | number {digits : String} (hdigits : Text.isNumeral digits.toList) :
    Spelled (.number digits) digits.toList
  | mark {c : Char} (hc : c ∈ marks) : Spelled (.mark c) [c]

/-- Whether a token that a character follows could be read as a longer one. -/
def runsOn : QueryToken → Char → Bool
  | .word _, c => c.isAlphanum || c = '*' || c = '_' || c = '#'
  | .number _, c => c.isDigit
  | _, _ => false

/-- **The text has these tokens**, with white space around them, and none of them runs into what
follows it. -/
inductive Laid : List QueryToken → List Char → Prop
  | nil {gap : List Char} (hgap : gap.all Text.isBlank) : Laid [] gap
  | cons {gap spelling text : List Char} {t : QueryToken} {ts : List QueryToken}
    (hgap : gap.all Text.isBlank) (ht : t.Spelled spelling)
    (hends : ∀ c ∈ text.head?, t.runsOn c = false) (h : Laid ts text) :
    Laid (t :: ts) (gap ++ (spelling ++ text))

/-- More white space in front makes no difference. -/
theorem Laid.blank_cons {ts : List QueryToken} {text : List Char} {c : Char} (hc : Text.isBlank c)
    (h : Laid ts text) : Laid ts (c :: text) := by
  cases h with
  | nil hgap => exact .nil (by simpa [hc] using hgap)
  | @cons gap spelling text t ts hgap ht hends h =>
    have hgap' : (c :: gap).all Text.isBlank := by simpa [hc] using hgap
    exact .cons hgap' ht hends h

/-- Whether a token can be written the way it is shown. -/
def wellSpelled : QueryToken → Bool
  | .word w =>
    Text.isName w.toList || w.toList.getLast? = some '*' && Text.isName w.toList.dropLast ||
      w = "prog_line" || w = "stmt#"
  | .quoted s => '"' ∉ s.toList && Text.trim s.toList = s.toList
  | .number digits => Text.isNumeral digits.toList
  | .mark c => c ∈ marks

/-- A token is one of the ways to write it. -/
theorem spelled_text {t : QueryToken} (ht : t.wellSpelled) : t.Spelled t.text.toList := by
  cases t with
  | word w =>
    simp only [wellSpelled, Bool.or_eq_true, Bool.and_eq_true, decide_eq_true_eq] at ht
    rcases ht with ((hname | ⟨hstar, hname⟩) | rfl) | rfl
    · exact .name hname
    · have hsplit : w.toList.dropLast ++ ['*'] = w.toList := List.dropLast_append_getLast? '*' hstar
      have hspelled := Spelled.starred hname
      rw [hsplit, String.ofList_toList] at hspelled
      exact hspelled
    · exact .progLine
    · exact .stmtNumber
  | quoted s =>
    simp only [wellSpelled, Bool.and_eq_true, decide_eq_true_eq] at ht
    have hspelled := Spelled.quoted ht.1
    rw [ht.2, String.ofList_toList] at hspelled
    show Spelled (.quoted s) ("\"" ++ s ++ "\"").toList
    simpa using hspelled
  | number digits => exact .number ht
  | mark c =>
    have hspelled : Spelled (.mark c) [c] := .mark (of_decide_eq_true ht)
    simpa [text] using hspelled

/-- Tokens as text, with single spaces between them. -/
def phrase (ts : List QueryToken) : String :=
  " ".intercalate (ts.map text)

/-- **Single spaces keep tokens apart.** -/
theorem laid_phrase {ts : List QueryToken} (hts : ∀ t ∈ ts, t.wellSpelled) :
    Laid ts (phrase ts).toList := by
  have hnil : ([] : List Char).all Text.isBlank := rfl
  match ts with
  | [] => exact .nil hnil
  | [t] =>
    have ht := spelled_text (hts t List.mem_cons_self)
    have hlaid : Laid [t] ([] ++ (t.text.toList ++ [])) := .cons hnil ht nofun (.nil hnil)
    simpa [phrase] using hlaid
  | t :: u :: ts =>
    obtain ⟨ht, hts⟩ := List.forall_mem_cons.1 hts
    have hspace : ∀ c ∈ (' ' :: (phrase (u :: ts)).toList).head?, t.runsOn c = false := by
      intro c hc
      obtain rfl := Option.some.inj hc
      cases t <;> rfl
    have hlaid : Laid (t :: u :: ts)
        ([] ++ (t.text.toList ++ ' ' :: (phrase (u :: ts)).toList)) :=
      .cons hnil (spelled_text ht) hspace ((laid_phrase hts).blank_cons rfl)
    simpa [phrase, String.intercalate_cons_cons] using hlaid

/-! ## Lexing -/

section Take

variable {t : QueryToken} {c : Char} {name spelling rest : List Char}

/-- Quoted text is taken up to its closing quote. -/
theorem takeQuoted?_append {inner : List Char} (hinner : '"' ∉ inner) (rest : List Char) :
    ∃ h, takeQuoted? ('"' :: (inner ++ '"' :: rest)) =
      some ⟨.quoted (String.ofList (Text.trim inner)), rest, h⟩ := by
  obtain ⟨htake, hdrop⟩ := Text.cut_at_mark hinner rest
  obtain ⟨hlt, hitem⟩ := Text.item?_of_eq hdrop
  refine ⟨by simp +arith, ?_⟩
  rw [takeQuoted?, hitem]
  exact congrArg some (Reading.ext (by rw [htake]) rfl)

theorem takeQuoted?_eq_none (hc : c ≠ '"') : takeQuoted? (c :: rest) = none := by
  rw [takeQuoted?]
  rintro cs heq
  exact hc (List.cons.inj heq).1

/-- A fixed word is taken where it stands. -/
theorem takeFixed?_append {word : String} (hword : word.toList ≠ []) (rest : List Char) :
    ∃ h, takeFixed? word (word.toList ++ rest) = some ⟨.word word, rest, h⟩ := by
  obtain ⟨hlt, htake⟩ := Text.takeWord?_append hword rest
  refine ⟨hlt, ?_⟩
  rw [takeFixed?, htake]
  rfl

/-- And it is not taken elsewhere. -/
theorem takeFixed?_eq_none {word : String} {cs : List Char} (h : ¬ word.toList <+: cs) :
    takeFixed? word cs = none := by
  rw [takeFixed?, Text.takeWord?, dif_neg (fun hword => h hword.2)]
  rfl

theorem takeFixed?_cons {word : String} {d : Char} {back : List Char}
    (hword : word.toList = d :: back) (hc : c ≠ d) : takeFixed? word (c :: rest) = none := by
  refine takeFixed?_eq_none fun ⟨tail, htail⟩ => hc ?_
  rw [hword] at htail
  exact (List.cons.inj htail).1.symm

/-- A word with a character in it that belongs to no name is not the start of a name that ends
before another character. -/
theorem not_prefix_name {front back : List Char} (hfront : ∀ d ∈ front, d.isAlphanum)
    (hc : c.isAlphanum = false) (hname : ∀ d ∈ name, d.isAlphanum)
    (hrest : ∀ d ∈ rest.head?, d.isAlphanum = false ∧ d ≠ c) :
    ¬ front ++ c :: back <+: name ++ rest := by
  intro ⟨tail, htail⟩
  have hname' := Text.takeWhile_append_eq hname rest fun d hd => (hrest d hd).1
  have hfront' := Text.takeWhile_append_eq hfront (c :: (back ++ tail)) (by simpa using hc)
  have hsplit : front ++ c :: (back ++ tail) = name ++ rest := by simpa using htail
  rw [hsplit, hname'.2] at hfront'
  exact (hrest c (by simp [hfront'.2])).2 rfl

/-- **A name is not cut for one of the two words that are looked for first.** -/
theorem takeFixed?_name (hname : Text.isName name)
    (hrest : ∀ d ∈ rest.head?, d.isAlphanum = false ∧ d ≠ '_' ∧ d ≠ '#') :
    takeFixed? "prog_line" (name ++ rest) = none ∧ takeFixed? "stmt#" (name ++ rest) = none := by
  have hletters := Text.isAlphanum_of_mem_name hname
  have hline : ¬ "prog".toList ++ '_' :: "line".toList <+: name ++ rest :=
    not_prefix_name (List.all_eq_true.1 rfl) rfl hletters
      fun d hd => ⟨(hrest d hd).1, (hrest d hd).2.1⟩
  have hstmt : ¬ "stmt".toList ++ '#' :: [] <+: name ++ rest :=
    not_prefix_name (List.all_eq_true.1 rfl) rfl hletters
      fun d hd => ⟨(hrest d hd).1, (hrest d hd).2.2⟩
  exact ⟨takeFixed?_eq_none hline, takeFixed?_eq_none hstmt⟩

/-- A name is taken without a star if there is none. -/
theorem takeStarred?_name (hname : Text.isName name)
    (hrest : ∀ d ∈ rest.head?, d.isAlphanum = false ∧ d ≠ '*') :
    ∃ h, takeStarred? (name ++ rest) = some ⟨.word (String.ofList name), rest, h⟩ := by
  obtain ⟨hlt, htake⟩ := Text.takeName?_append hname fun d hd => (hrest d hd).1
  have hstar : Reading.item? '*' rest = none := Text.item?_eq_none fun d hd => (hrest d hd).2
  refine ⟨hlt, ?_⟩
  simp only [takeStarred?, htake, Option.map_some, hstar]
  rfl

/-- With a star after it, the star is taken too. -/
theorem takeStarred?_starred (hname : Text.isName name) (rest : List Char) :
    ∃ h, takeStarred? (name ++ '*' :: rest) =
      some ⟨.word (String.ofList (name ++ ['*'])), rest, h⟩ := by
  have hstar : ∀ d ∈ ('*' :: rest).head?, d.isAlphanum = false := by
    intro d hd
    obtain rfl := Option.some.inj hd
    rfl
  obtain ⟨hlt, htake⟩ := Text.takeName?_append hname hstar
  obtain ⟨hlt', hitem⟩ := Text.item?_of_eq (rfl : '*' :: rest = '*' :: rest)
  refine ⟨Nat.lt_trans hlt' hlt, ?_⟩
  simp only [takeStarred?, htake, Option.map_some, hitem]

/-- A name at the front is read as a word, with the star after it if there is one. -/
theorem take?_name (hname : Text.isName name)
    (hrest : ∀ d ∈ rest.head?, d.isAlphanum = false ∧ d ≠ '_' ∧ d ≠ '#')
    {r : Reading QueryToken (name ++ rest)} (htake : takeStarred? (name ++ rest) = some r) :
    take? (name ++ rest) = some r := by
  obtain ⟨hline, hstmt⟩ := takeFixed?_name hname hrest
  have hquoted : takeQuoted? (name ++ rest) = none := by
    cases name with
    | nil => cases hname
    | cons c name =>
      have hc := Text.isAlphanum_of_mem_name hname c List.mem_cons_self
      refine takeQuoted?_eq_none ?_
      rintro rfl
      exact absurd hc (by decide)
  rw [take?, hquoted, hline, hstmt, htake]
  rfl

/-- What starts with neither a letter nor a quote is a number or a mark. -/
theorem take?_symbol (hc : c.isAlpha = false) (hquote : c ≠ '"') :
    take? (c :: rest) = (takeNumber? (c :: rest) <|> takeMark? (c :: rest)) := by
  have hletter : ∀ d : Char, d.isAlpha → c ≠ d := by
    rintro d hd rfl
    rw [hc] at hd
    cases hd
  have hstarred : takeStarred? (c :: rest) = none := by
    simp [takeStarred?, Text.takeName?, hc]
  have hline : takeFixed? "prog_line" (c :: rest) = none :=
    takeFixed?_cons (d := 'p') rfl (hletter _ rfl)
  have hstmt : takeFixed? "stmt#" (c :: rest) = none :=
    takeFixed?_cons (d := 's') rfl (hletter _ rfl)
  rw [take?, takeQuoted?_eq_none hquote, hline, hstmt, hstarred]
  rfl

/-- A number is taken as a whole, if no digit follows. -/
theorem takeNumber?_append {digits : String} (hdigits : Text.isNumeral digits.toList)
    (hrest : ∀ d ∈ rest.head?, d.isDigit = false) :
    ∃ h, takeNumber? (digits.toList ++ rest) = some ⟨.number digits, rest, h⟩ := by
  obtain ⟨hlt, htake⟩ := Text.takeNumeral?_append hdigits hrest
  refine ⟨hlt, ?_⟩
  rw [takeNumber?, htake]
  exact congrArg some (Reading.ext (congrArg QueryToken.number String.ofList_toList) rfl)

theorem take?_numeral {digits : List Char} (hdigits : Text.isNumeral digits) (rest : List Char) :
    take? (digits ++ rest) = (takeNumber? (digits ++ rest) <|> takeMark? (digits ++ rest)) := by
  cases digits with
  | nil => cases hdigits
  | cons c cs =>
    have hc := Text.isDigit_of_mem_numeral hdigits c List.mem_cons_self
    have hquote : c ≠ '"' := by
      rintro rfl
      cases hc
    exact take?_symbol (Text.isAlpha_of_isDigit hc) hquote

/-- **The token at the front is the one that is read**, if it does not run into what follows. -/
theorem take?_append (ht : t.Spelled spelling) (hends : ∀ c ∈ rest.head?, t.runsOn c = false) :
    ∃ h, take? (spelling ++ rest) = some ⟨t, rest, h⟩ := by
  cases ht with
  | @name word hword =>
    have hrest : ∀ d ∈ rest.head?, d.isAlphanum = false ∧ d ≠ '*' ∧ d ≠ '_' ∧ d ≠ '#' := by
      intro d hd
      simpa [runsOn, Bool.or_eq_false_iff, and_assoc] using hends d hd
    obtain ⟨hlt, htake⟩ := takeStarred?_name hword fun d hd => ⟨(hrest d hd).1, (hrest d hd).2.1⟩
    rw [String.ofList_toList] at htake
    exact ⟨hlt, take?_name hword (fun d hd => ⟨(hrest d hd).1, (hrest d hd).2.2⟩) htake⟩
  | @starred name hname =>
    have hrest : ∀ d ∈ ('*' :: rest).head?, d.isAlphanum = false ∧ d ≠ '_' ∧ d ≠ '#' := by
      intro d hd
      obtain rfl := Option.some.inj hd
      decide
    obtain ⟨hlt, htake⟩ := takeStarred?_starred hname rest
    rw [List.append_assoc, List.singleton_append]
    exact ⟨hlt, take?_name hname hrest htake⟩
  | progLine =>
    have hne : "prog_line".toList ≠ [] := by decide
    obtain ⟨hlt, htake⟩ := takeFixed?_append hne rest
    refine ⟨hlt, ?_⟩
    rw [take?, htake]
    rfl
  | stmtNumber =>
    have hne : "stmt#".toList ≠ [] := by decide
    obtain ⟨hlt, htake⟩ := takeFixed?_append hne rest
    have hquoted : takeQuoted? ("stmt#".toList ++ rest) = none := takeQuoted?_eq_none (by decide)
    have hline : takeFixed? "prog_line" ("stmt#".toList ++ rest) = none :=
      takeFixed?_cons (d := 'p') rfl (by decide)
    refine ⟨hlt, ?_⟩
    rw [take?, hquoted, hline, htake]
    rfl
  | @quoted inner hinner =>
    obtain ⟨hlt, htake⟩ := takeQuoted?_append hinner rest
    rw [List.cons_append, List.append_assoc, List.singleton_append]
    refine ⟨hlt, ?_⟩
    rw [take?, htake]
    rfl
  | @number digits hdigits =>
    obtain ⟨hlt, hnumber⟩ := takeNumber?_append hdigits hends
    refine ⟨hlt, ?_⟩
    rw [take?_numeral hdigits rest, hnumber]
    rfl
  | @mark c hc =>
    have halpha : c.isAlpha = false := Text.eq_false_of_all (rfl : marks.all (!·.isAlpha)) c hc
    have hdigit : c.isDigit = false := Text.eq_false_of_all (rfl : marks.all (!·.isDigit)) c hc
    have hquote : c ≠ '"' := by
      rintro rfl
      exact absurd hc (by decide)
    refine ⟨by simp, ?_⟩
    have hnumber : takeNumber? (c :: rest) = none := by
      simp [takeNumber?, Text.takeNumeral?, hdigit]
    have htake : takeMark? (c :: rest) = some (.one (.mark c)) := if_pos hc
    show take? (c :: rest) = some (.one (.mark c))
    rw [take?_symbol halpha hquote, hnumber, htake]
    rfl

end Take

/-- No token is empty or starts with white space. -/
theorem Spelled.front {t : QueryToken} {spelling : List Char} (h : t.Spelled spelling) :
    ∃ c cs, spelling = c :: cs ∧ Text.isBlank c = false := by
  have hletters : ∀ word : List Char, word ≠ [] → (∀ c ∈ word, c.isAlphanum) →
      ∃ c cs, word = c :: cs ∧ Text.isBlank c = false := by
    intro word hne hall
    obtain ⟨c, cs, rfl⟩ := List.exists_cons_of_ne_nil hne
    exact ⟨c, cs, rfl, Text.isBlank_of_isAlphanum (hall c List.mem_cons_self)⟩
  cases h with
  | @name word hword =>
    refine hletters word.toList ?_ (Text.isAlphanum_of_mem_name hword)
    intro hnil
    simp [hnil, Text.isName] at hword
  | @starred name hname =>
    have hne : name ≠ [] := by
      rintro rfl
      cases hname
    obtain ⟨c, cs, hcs, hc⟩ := hletters name hne (Text.isAlphanum_of_mem_name hname)
    exact ⟨c, cs ++ ['*'], by rw [hcs, List.cons_append], hc⟩
  | progLine => exact ⟨_, _, rfl, rfl⟩
  | stmtNumber => exact ⟨_, _, rfl, rfl⟩
  | quoted => exact ⟨_, _, rfl, rfl⟩
  | @number digits hdigits =>
    refine hletters digits.toList ?_ fun c hc => ?_
    · intro hnil
      simp [hnil, Text.isNumeral] at hdigits
    · simp [Char.isAlphanum, Text.isDigit_of_mem_numeral hdigits c hc]
  | @mark c hc =>
    exact ⟨c, [], rfl, Text.eq_false_of_all (rfl : marks.all (!Text.isBlank ·)) c hc⟩

/-- **Lexing gives back the tokens that a text has.** -/
theorem lexFrom_laid {ts : List QueryToken} {text : List Char} (h : Laid ts text) :
    lexFrom text = .ok ts := by
  induction h with
  | nil hgap =>
    rw [lexFrom, Text.trimStart_blank hgap]
    rfl
  | @cons gap spelling text t ts hgap ht hends h ih =>
    obtain ⟨_, htake⟩ := take?_append ht hends
    obtain ⟨c, cs, hcs, hc⟩ := ht.front
    have hne : (spelling ++ text).isEmpty = false := by simp [hcs]
    have htrimmed : Text.Trimmed (spelling ++ text) := by
      intro d hd
      rw [hcs] at hd
      obtain rfl := Option.some.inj hd
      exact hc
    rw [lexFrom, Text.trimStart_append hgap, Text.trimStart_of_trimmed htrimmed]
    simp only [hne, htake]
    exact Outcome.bind_eq_ok.2 ⟨ts, ih, rfl⟩

end QueryToken

end ProgramFacts
