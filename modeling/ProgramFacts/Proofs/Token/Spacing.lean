import ProgramFacts.Proofs.Token.Spread
/-!
# Tokens — lexing does not depend on the spacing

What a piece of program text is depends on what stands after it: a word may start an assignment,
or a header that reaches up to the next brace. None of that depends on the white space. If a text
is lexed as `ts`, so is every other text that has the tokens `ts` and in which none of them runs
into the next (`lex_placed`).

Step by step, the piece at the front of the one text is at the front of the other
(`TakesPiece.frontPiece`). For a word this takes the way back from a text to its tokens: a bracket
in the text is a token of its own (`Placed.cut`), so a header in the one text is a header in its
tokens (`exists_heads`), and from there it is one in the other text as well (`takeHeader?_placed`).
-/

namespace ProgramFacts

/-! ## Two readings of a text -/

namespace Text

variable {word word' rest rest' : List Char}

/-- A character that is not in the first part is in the second. -/
theorem exists_append_of_notMem {c : Char} {before after : List Char} (hc : c ∉ word)
    (h : word ++ rest = before ++ c :: after) :
    ∃ between, before = word ++ between ∧ rest = between ++ c :: after := by
  rcases List.append_eq_append_iff.1 h with ⟨between, hbefore, hrest⟩ | ⟨between, hword, hafter⟩
  · exact ⟨between, hbefore, hrest⟩
  · cases between with
    | nil => exact ⟨[], by simpa using hword.symm, by simpa using hafter.symm⟩
    | cons d between =>
      obtain ⟨rfl, -⟩ := List.cons.inj hafter
      exact absurd (by simp [hword]) hc

/-- The word at the front of a text is one word only. -/
theorem word_unique (hword : ∀ c ∈ word, c.isAlphanum) (hword' : ∀ c ∈ word', c.isAlphanum)
    (hrest : ∀ c ∈ rest.head?, c.isAlphanum = false)
    (hrest' : ∀ c ∈ rest'.head?, c.isAlphanum = false) (h : word ++ rest = word' ++ rest') :
    word = word' ∧ rest = rest' := by
  obtain ⟨htake, hdrop⟩ := takeWhile_append_eq hword rest hrest
  obtain ⟨htake', hdrop'⟩ := takeWhile_append_eq hword' rest' hrest'
  rw [h] at htake hdrop
  exact ⟨htake.symm.trans htake', hdrop.symm.trans hdrop'⟩

end Text

namespace Token

section Marks

variable {m t : Token} {c : Char}

theorem isWord_of_mem_text (hc : c ∈ t.text.toList) (halnum : c.isAlphanum) : t.isWord := by
  have hsymbol (h : ∀ c ∈ t.text.toList, c.isAlphanum = false) : t.isWord := by
    simp [h c hc] at halnum
  cases t with
  | keyword | var | proc | const => rfl
  | arith op | logic op | rel op => cases op <;> exact hsymbol (Text.eq_false_of_all rfl)
  | _ => exact hsymbol (Text.eq_false_of_all rfl)

/-- A mark is one character, which is neither white space nor in any other token. -/
theorem exists_text_mark (hm : m.isMark) : ∃ c, m.text.toList = [c] ∧ Text.isBlank c = false ∧
    ∀ t : Token, t.wellSpelled → c ∈ t.text.toList → t = m := by
  have hother {c : Char} (halnum : c.isAlphanum = false)
      (hsymbol : ∀ t : Token, t.isWord = false → c ∈ t.text.toList → t = m) (t : Token)
      (ht : t.wellSpelled) (hc : c ∈ t.text.toList) : t = m := by
    refine hsymbol t (Bool.eq_false_iff.2 fun hword => ?_) hc
    simp [isAlphanum_of_mem_text ht hword c hc] at halnum
  cases m with
  | leftBrace | rightBrace | leftParen | rightParen | semicolon =>
    refine ⟨_, rfl, rfl, hother rfl fun t ht hc => ?_⟩
    cases t with
    | keyword | var | proc | const => cases ht
    | arith op | logic op | rel op => cases op <;> revert hc <;> decide
    | _ => revert hc; decide
  | _ => cases hm

end Marks

/-! ## From a text to its tokens -/

namespace Placed

variable {follows : Token → Char → Prop} {ts : List Token} {text : List Char}

theorem eq_nil (h : Placed follows ts text) (hts : ∀ t ∈ ts, t.wellSpelled)
    (htext : text.all Text.isBlank) : ts = [] := by
  cases h with
  | nil => rfl
  | @cons gap text t ts hgap hnext h =>
    have ht := hts t List.mem_cons_self
    obtain ⟨c, hc⟩ := List.exists_mem_of_ne_nil _ (text_ne_nil ht)
    have hblank := List.all_eq_true.1 htext c (by simp [hc])
    simp [isBlank_of_mem_text ht c hc] at hblank

theorem mem_of_mem_text (h : Placed follows ts text) {t : Token} (ht : t ∈ ts) {c : Char}
    (hc : c ∈ t.text.toList) : c ∈ text := by
  induction h with
  | nil => cases ht
  | @cons gap text u ts hgap hnext h ih =>
    rcases List.mem_cons.1 ht with rfl | ht
    · simp [hc]
    · simp [ih ht]

/-- **A mark cuts the tokens where it cuts the text.** -/
theorem cut {m : Token} (hm : m.isMark) (hts : ∀ t ∈ ts, t.wellSpelled) {before after : List Char}
    (h : Placed follows ts (before ++ (m.text.toList ++ after))) :
    ∃ us vs, ts = us ++ m :: vs ∧ Placed follows us before ∧ Placed follows vs after := by
  obtain ⟨c, hmc, hc, hown⟩ := exists_text_mark hm
  generalize htext : before ++ (m.text.toList ++ after) = text at h
  rw [hmc, List.singleton_append] at htext
  induction h generalizing before with
  | nil hgap =>
    have hblank := List.all_eq_true.1 hgap c (by simp [← htext])
    simp [hc] at hblank
  | @cons gap text t ts hgap hnext h ih =>
    obtain ⟨ht, hts⟩ := List.forall_mem_cons.1 hts
    have hcgap : c ∉ gap := fun hmem => by
      have hblank := List.all_eq_true.1 hgap c hmem
      simp [hc] at hblank
    obtain ⟨between, rfl, hbetween⟩ := Text.exists_append_of_notMem hcgap htext.symm
    -- either the mark is the first token, or it comes after the first token
    have hplace : (between = [] ∧ t = m ∧ text = after) ∨
        ∃ rest, between = t.text.toList ++ rest ∧ text = rest ++ c :: after := by
      by_cases hct : c ∈ t.text.toList
      · obtain rfl := hown t ht hct
        rw [hmc] at hbetween ⊢
        cases between with
        | nil => exact .inl ⟨rfl, rfl, (List.cons.inj hbetween).2⟩
        | cons d between =>
          obtain ⟨rfl, hrest⟩ := List.cons.inj hbetween
          exact .inr ⟨between, rfl, hrest⟩
      · exact .inr (Text.exists_append_of_notMem hct hbetween)
    rcases hplace with ⟨rfl, rfl, rfl⟩ | ⟨rest, rfl, rfl⟩
    · exact ⟨[], ts, rfl, .nil (by simpa using hgap), h⟩
    · obtain ⟨us, vs, rfl, hus, hvs⟩ := ih hts rfl
      refine ⟨t :: us, vs, rfl, .cons hgap (fun d hd => hnext d ?_) hus, hvs⟩
      simp [List.head?_append, Option.mem_def.1 hd]

/-- What closes a header in a text closes it in the tokens. -/
theorem closes {gap gap' closing : List Char} (h : Placed parts ts (gap ++ (closing ++ gap')))
    (hts : ∀ t ∈ ts, t.wellSpelled) (hgap : gap.all Text.isBlank) (hgap' : gap'.all Text.isBlank)
    (hclosing : ∀ c ∈ closing, c.isAlphanum) : Closes closing ts := by
  cases closing with
  | nil =>
    obtain rfl := h.eq_nil hts (by simp [hgap, hgap'])
    rfl
  | cons d closing =>
    have hd : d.isAlphanum := hclosing d List.mem_cons_self
    have htrimmed : Text.Trimmed (d :: closing ++ gap') := by
      rintro c ⟨⟩
      exact Text.isBlank_of_isAlphanum hd
    have h := h.trimStart hts
    rw [Text.trimStart_append hgap, Text.trimStart_of_trimmed htrimmed] at h
    cases ts with
    | nil =>
      cases h with
      | nil hblank =>
        have hblank := List.all_eq_true.1 hblank d List.mem_cons_self
        simp [Text.isBlank_of_isAlphanum hd] at hblank
    | cons u ts =>
      obtain ⟨hu, hts⟩ := List.forall_mem_cons.1 hts
      obtain ⟨rest, hfront, hnext, hrest⟩ := h.front htrimmed
      have huword : u.isWord := by
        refine isWord_of_mem_text (c := d) ?_ hd
        obtain ⟨e, word, hword⟩ := List.exists_cons_of_ne_nil (text_ne_nil hu)
        rw [hword] at hfront ⊢
        simp [(List.cons.inj hfront).1]
      have hend : ∀ c ∈ gap'.head?, c.isAlphanum = false := fun c hc =>
        Text.isAlphanum_of_isBlank (List.all_eq_true.1 hgap' c (List.mem_of_mem_head? hc))
      obtain ⟨hclose, rfl⟩ := Text.word_unique hclosing (isAlphanum_of_mem_text hu huword) hend
        (fun c hc => (hnext c hc).1 huword) hfront
      obtain rfl := hrest.eq_nil hts hgap'
      exact hclose.symm

end Placed

section Header

variable {word closing text cs : List Char} {t : Token} {ts : List Token}

/-- **A header in a text is one in its tokens.** -/
theorem exists_heads (hword : ∀ c ∈ word, c.isAlphanum) (hclosing : ∀ c ∈ closing, c.isAlphanum)
    (ht : t.wellSpelled) (htword : t.isWord) (hts : ∀ u ∈ ts, u.wellSpelled)
    (h : Placed parts (t :: ts) text) (htext : Text.Trimmed text) {r : Reading (List Char) text}
    (hread : takeHeader? word closing text = some r) :
    ∃ run close rest, ts = .leftParen :: (run ++ .rightParen :: (close ++ .leftBrace :: rest)) ∧
      Heads word closing t run close := by
  obtain ⟨gap₁, gap₂, gap₃, hgap₁, hgap₂, hgap₃, hbraceless, hheader⟩ := takeHeader?_eq_some hread
  obtain ⟨tail, hfront, hnext, htail⟩ := h.front htext
  obtain ⟨hteq, rfl⟩ : t.text.toList = word ∧ tail = gap₁ ++ '(' :: (r.value ++ ')' ::
      (gap₂ ++ (closing ++ gap₃) ++ '\x7b' :: r.rest)) := by
    refine Text.word_unique (isAlphanum_of_mem_text ht htword) hword
      (fun c hc => (hnext c hc).1 htword) (Text.head?_gap_append hgap₁ (by decide) _) ?_
    rw [← hfront]
    simpa using hheader
  obtain ⟨before, inside, rfl, hbefore, hinside⟩ := htail.cut (m := .leftParen) rfl hts
  obtain rfl := hbefore.eq_nil (fun u hu => hts u (by simp [hu])) hgap₁
  obtain ⟨run, after, rfl, hrun, hafter⟩ :=
    hinside.cut (m := .rightParen) rfl fun u hu => hts u (by simp [hu])
  obtain ⟨close, rest, rfl, hclose, -⟩ :=
    hafter.cut (m := .leftBrace) rfl fun u hu => hts u (by simp [hu])
  refine ⟨run, close, rest, rfl, hteq, fun u hu c hc => ?_, ?_⟩
  · exact hbraceless c (hrun.mem_of_mem_text hu hc)
  · exact hclose.closes (fun u hu => hts u (by simp [hu])) hgap₂ hgap₃ hclosing

/-- Where one text of the tokens has no header, no other one has. -/
theorem takeHeader?_eq_none_of_placed (hne : word ≠ []) (hword : ∀ c ∈ word, c.isAlphanum)
    (hclosing : ∀ c ∈ closing, c.isAlphanum) (ht : t.wellSpelled) (htword : t.isWord)
    (hts : ∀ u ∈ ts, u.wellSpelled) (hcs : Spread (t :: ts) cs) (hcstrim : Text.Trimmed cs)
    (hnone : takeHeader? word closing cs = none) (h : Placed parts (t :: ts) text)
    (htext : Text.Trimmed text) : takeHeader? word closing text = none := by
  refine Option.eq_none_iff_forall_ne_some.2 fun r hread => ?_
  obtain ⟨run, close, rest, rfl, hheads⟩ := exists_heads hword hclosing ht htword hts h htext hread
  obtain ⟨_, _, _, hsome, -⟩ := takeHeader?_placed hne hclosing hheads hcs hcstrim
  simp [hnone] at hsome

end Header

/-! ## The same piece at the front -/

/-- No piece starts with an equals sign. -/
theorem head?_ne_equals_of_lexFrom {last : Option TokenKind} {cs : List Char} {ts : List Token}
    (h : lexFrom last cs = .ok ts) (hcs : Text.Trimmed cs) :
    ∀ t ∈ ts.head?, ∀ c ∈ t.text.toList.head?, c ≠ '=' := by
  rintro t ht c hc rfl
  obtain ⟨ts, rfl⟩ := List.head?_eq_some_iff.1 ht
  obtain ⟨word, hword⟩ := List.head?_eq_some_iff.1 hc
  obtain ⟨rest, rfl, -, -⟩ := (spread_of_lexFrom h).front hcs
  have hpiece : takePiece? (t.text.toList ++ rest) = none := by
    rw [hword]
    rfl
  rw [lexFrom, hpiece] at h
  simp [hword] at h

section FrontPiece

variable {last : Option TokenKind} {word text : List Char} {more : List Token}

theorem isWord_ofWord (last : Option TokenKind) (word : String) : (ofWord last word).isWord := by
  unfold ofWord namedAfter?
  split
  · next name hname => split at hname <;> cases hname <;> rfl
  · split <;> rfl

theorem frontPiece_word (hname : Text.isName word) (hmore : ∀ t ∈ more, t.wellSpelled)
    (hequals : ∀ t ∈ more.head?, ∀ c ∈ t.text.toList.head?, c ≠ '=')
    (hwhile : takeWhile? text = none) (hif : takeIf? text = none)
    (h : Placed parts (ofWord last (String.ofList word) :: more) text) (htext : Text.Trimmed text) :
    FrontPiece parts last [ofWord last (String.ofList word)] more text := by
  obtain ⟨rest, hfront, hnext, hrest⟩ := h.front htext
  rw [text_ofWord, String.toList_ofList] at hfront
  subst hfront
  obtain ⟨hlt, hpiece⟩ := takePiece?_word hname
    (fun c hc => (hnext c hc).1 (isWord_ofWord last _)) (hrest.head?_trimStart hmore hequals)
    hwhile hif
  exact ⟨.word word, rest, hlt, hpiece, rfl, hrest⟩

/-- A header starts with a name. -/
theorem takeHeader?_of_takeName? {closing cs : List Char} (hword : Text.isName word)
    (h : Text.takeName? cs = none) : takeHeader? word closing cs = none := by
  rw [takeHeader?]
  cases hstart : Text.takeWord? word cs with
  | none => rfl
  | some start =>
    rw [Text.eq_of_takeWord? hstart] at h
    cases word with
    | nil => cases hword
    | cons c word =>
      simp only [Text.isName, Bool.and_eq_true] at hword
      simp [Text.takeName?, hword.1] at h

theorem takePiece?_numeral {digits rest : List Char} (hdigits : Text.isNumeral digits)
    (hrest : ∀ c ∈ rest.head?, c.isDigit = false) :
    ∃ h, takePiece? (digits ++ rest) = some ⟨.numeral digits, rest, h⟩ := by
  obtain ⟨hlt, htake⟩ := Text.takeNumeral?_append hdigits hrest
  have hname := Text.takeName?_numeral hdigits rest
  have hassignment : takeAssignment? (digits ++ rest) = none := by
    rw [takeAssignment?, hname]
    rfl
  refine ⟨hlt, ?_⟩
  rw [takePiece?, hassignment, takeWhile?, takeHeader?_of_takeName? (by decide) hname, takeIf?,
    takeHeader?_of_takeName? (by decide) hname, hname, htake]
  rfl

theorem frontPiece_numeral {digits : List Char} (hdigits : Text.isNumeral digits)
    (h : Placed parts (.const (String.ofList digits) :: more) text) (htext : Text.Trimmed text) :
    FrontPiece parts last [.const (String.ofList digits)] more text := by
  obtain ⟨rest, hfront, hnext, hrest⟩ := h.front htext
  rw [Token.text, String.toList_ofList] at hfront
  subst hfront
  have hend : ∀ c ∈ rest.head?, c.isDigit = false := fun c hc =>
    Text.isDigit_of_isAlphanum ((hnext c hc).1 rfl)
  obtain ⟨hlt, hpiece⟩ := takePiece?_numeral hdigits hend
  exact ⟨.numeral digits, rest, hlt, hpiece, rfl, hrest⟩

theorem frontPiece_mark {t : Token} (ht : t.isMark) (h : Placed parts (t :: more) text)
    (htext : Text.Trimmed text) : FrontPiece parts last [t] more text := by
  obtain ⟨rest, rfl, -, hrest⟩ := h.front htext
  obtain ⟨hlt, hpiece⟩ := takePiece?_mark ht rest
  exact ⟨.mark t, rest, hlt, hpiece, rfl, hrest⟩

/-- **The piece at the front of one text is at the front of every other** that has the same
tokens. -/
theorem TakesPiece.frontPiece {cs rest place : List Char} {piece : Piece} {run : List Token}
    (h : TakesPiece cs piece rest) (hcs : Text.Trimmed cs)
    (htokens : piece.tokens last place = .ok run)
    (hmore : lexFrom (run.getLast?.map kind) (Text.trimStart rest) = .ok more)
    (hplaced : Placed parts (run ++ more) text) (htext : Text.Trimmed text) :
    FrontPiece parts last run more text := by
  have hspelled := wellSpelled_of_lexFrom hmore
  have hspread := h.spread htokens (spread_of_trimStart (spread_of_lexFrom hmore))
  have hpiece := h.spelled
  cases h with
  | assignment =>
    obtain ⟨ts, hts, htokens⟩ := Outcome.bind_eq_ok.1 htokens
    obtain rfl := Except.ok.inj htokens
    have hscans := scans_of_scanWithin hts
    have hname : Text.isName _ := hpiece
    exact frontPiece_assignment (by simpa using hname) hscans.known hscans.spelled
      (fun _ => scan_placed hscans.known hscans.spelled) (by simpa using hplaced) htext
  | whileHeader =>
    obtain ⟨ts, hts, htokens⟩ := Outcome.bind_eq_ok.1 htokens
    obtain rfl := Except.ok.inj htokens
    have hscans := scans_of_scanWithin hts
    exact frontPiece_whileHeader hscans.known hscans.spelled
      (fun _ => scan_placed hscans.known hscans.spelled) (by simpa using hplaced) htext
  | ifHeader =>
    obtain ⟨ts, hts, htokens⟩ := Outcome.bind_eq_ok.1 htokens
    obtain rfl := Except.ok.inj htokens
    have hscans := scans_of_scanWithin hts
    exact frontPiece_ifHeader hscans.known hscans.spelled
      (fun _ => scan_placed hscans.known hscans.spelled) (by simpa using hplaced) htext
  | @word r hwhile hif =>
    obtain rfl := Except.ok.inj htokens
    have ht := wellSpelled_ofWord last hpiece
    have htword := isWord_ofWord last (String.ofList r.value)
    have hequals := head?_ne_equals_of_lexFrom hmore (Text.trimmed_trimStart _)
    refine frontPiece_word hpiece hspelled hequals ?_ ?_ hplaced htext
    · exact takeHeader?_eq_none_of_placed (by decide) (List.all_eq_true.1 rfl) (by simp) ht htword
        hspelled hspread hcs hwhile hplaced htext
    · exact takeHeader?_eq_none_of_placed (by decide) (List.all_eq_true.1 rfl)
        (List.all_eq_true.1 rfl) ht htword hspelled hspread hcs hif hplaced htext
  | numeral =>
    obtain rfl := Except.ok.inj htokens
    exact frontPiece_numeral hpiece hplaced htext
  | @mark r h =>
    obtain rfl := Except.ok.inj htokens
    refine frontPiece_mark ?_ hplaced htext
    unfold takeMark? at h
    split at h <;> cases h <;> rfl

end FrontPiece

/-! ## Whole programs -/

theorem lexFrom_placed {last : Option TokenKind} {cs text : List Char} {ts : List Token}
    (h : lexFrom last cs = .ok ts) (hcs : Text.Trimmed cs) (hplaced : Placed parts ts text)
    (htext : Text.Trimmed text) : lexFrom last text = .ok ts := by
  fun_induction lexFrom last cs generalizing ts text with
  | case1 =>
    obtain rfl := Except.ok.inj h
    exact lexFrom_of_placed_nil hplaced htext
  | case2 => cases h
  | case3 last cs _ piece hpiece ih =>
    obtain ⟨run, hrun, h⟩ := Outcome.bind_eq_ok.1 h
    obtain ⟨more, hmore, h⟩ := Outcome.bind_eq_ok.1 h
    obtain rfl := Except.ok.inj h
    have hfront := (takesPiece_of_takePiece? hpiece).frontPiece hcs hrun hmore hplaced htext
    exact hfront.lexFrom fun rest hrest => ih run hmore (Text.trimmed_trimStart _)
      (hrest.trimStart (wellSpelled_of_lexFrom hmore)) (Text.trimmed_trimStart rest)

theorem parts_of_isBlank (t : Token) {c : Char} (hc : Text.isBlank c) : parts t c := by
  refine ⟨fun _ => Text.isAlphanum_of_isBlank hc, fun _ => ?_⟩
  rintro rfl
  cases hc

/-- **Lexing depends on the tokens alone**: every text that has them is lexed alike, if none of them
runs into the next. -/
theorem lex_placed {source text : String} {ts : List Token} (h : lex source = .ok ts)
    (hplaced : Placed parts ts text.toList) : lex text = .ok ts := by
  have hspelled := wellSpelled_of_lex h
  have hsqueezed := hplaced.squeeze (fun t _ => parts_of_isBlank t) hspelled
  exact lexFrom_placed h (Text.trimmed_trim _) ((hsqueezed.trimStart hspelled).trimEnd hspelled)
    (Text.trimmed_trim _)

/-- **The text has these tokens spaced out**: there is white space between any two of them. -/
abbrev Spaced : List Token → List Char → Prop :=
  Placed fun _ c => Text.isBlank c

/-- **Lexing does not depend on the spacing.** If a text is lexed, then every text that has its
tokens in their order, with white space between them, is lexed as the same tokens. -/
theorem lex_spaced {source text : String} {ts : List Token} (h : lex source = .ok ts)
    (hspaced : Spaced ts text.toList) : lex text = .ok ts :=
  lex_placed h (hspaced.mono fun t _ => parts_of_isBlank t)

/-- A loop that is not closed, with a numeral that runs into a word, a procedure called `while`, and
a header without its brace. -/
def unclosedLoop : List Token :=
  [.keyword .whileWord, .leftParen, .var "x", .rightParen, .leftBrace, .var "y", .assign,
    .const "12", .var "z", .semicolon, .keyword .callWord, .proc "while", .semicolon,
    .keyword .ifWord, .leftParen, .var "a", .rightParen, .keyword .thenWord]

theorem lex_spaced_unclosedLoop :
    lex "while(x)\x7by=12z;call\nwhile;if(a)then" = .ok unclosedLoop ∧
      lex "while ( x ) \x7b y = 12 z ; call while ; if ( a ) then" = .ok unclosedLoop := by
  have h : lex "while(x)\x7by=12z;call\nwhile;if(a)then" = .ok unclosedLoop :=
    Outcome.toOption_eq_some.1 (by decide +kernel)
  have hspace (_ : Token) : Text.isBlank ' ' := rfl
  have hspaced : Spaced unclosedLoop (phrase unclosedLoop).toList :=
    placed_phrase hspace unclosedLoop
  exact ⟨h, lex_spaced h hspaced⟩

end Token

end ProgramFacts
