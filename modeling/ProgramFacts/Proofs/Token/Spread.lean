import ProgramFacts.Proofs.Token.Lexing
/-!
# Tokens — lexing loses nothing

A text that is lexed has the tokens that come out, in their order, with nothing but white space
around them (`spread_of_lexFrom`). A piece takes off the front of a text what its tokens are
written as (`TakesPiece.spread`). So the texts of the tokens, one after the other, are the program
text without its white space (`lex_loses_nothing`).
-/

namespace ProgramFacts

/-! ## Text without white space -/

namespace Text

variable {gap cs : List Char}

theorem filter_gap (hgap : gap.all isBlank) : gap.filter (!isBlank ·) = [] :=
  List.filter_eq_nil_iff.2 fun c hc => by simp [List.all_eq_true.1 hgap c hc]

/-- Trimming loses white space only. -/
theorem filter_trimStart (cs : List Char) :
    (trimStart cs).filter (!isBlank ·) = cs.filter (!isBlank ·) := by
  obtain ⟨gap, hgap, hcs⟩ := exists_blank_append cs
  conv_rhs => rw [← hcs, List.filter_append, filter_gap hgap, List.nil_append]

theorem filter_trimEnd (cs : List Char) :
    (trimEnd cs).filter (!isBlank ·) = cs.filter (!isBlank ·) := by
  have h := filter_trimStart cs.reverse
  rw [trimEnd, List.filter_reverse, ← trimStart, h, List.filter_reverse, List.reverse_reverse]

/-- Squeezing does so too. -/
theorem filter_squeeze (cs : List Char) :
    (squeeze cs).filter (!isBlank ·) = cs.filter (!isBlank ·) := by
  induction cs with
  | nil => rfl
  | cons c cs ih =>
    rw [squeeze]
    split
    · next hc =>
      have hspace (rest : List Char) :
          (' ' :: rest).filter (!isBlank ·) = rest.filter (!isBlank ·) :=
        List.filter_cons_of_neg (by decide)
      split
      · next rest hrest =>
        rw [← hrest, ih, List.filter_cons_of_neg (by simp [hc])]
      · rw [hspace, ih, List.filter_cons_of_neg (by simp [hc])]
    · next hc =>
      have hkept (rest : List Char) :
          (c :: rest).filter (!isBlank ·) = c :: rest.filter (!isBlank ·) :=
        List.filter_cons_of_pos (by simp [hc])
      rw [hkept, ih, hkept]

end Text

namespace Token

/-! ## Reading keeps the text -/

section Readers

variable {ts : List Token} {text cs : List Char}

/-- What is left of a text without its white space. -/
theorem Placed.flatMap_text {follows : Token → Char → Prop} (h : Placed follows ts text)
    (hts : ∀ t ∈ ts, t.wellSpelled) :
    ts.flatMap (·.text.toList) = text.filter (!Text.isBlank ·) := by
  induction h with
  | nil hgap => rw [Text.filter_gap hgap, List.flatMap_nil]
  | @cons gap text t ts hgap _ _ ih =>
    obtain ⟨ht, hts⟩ := List.forall_mem_cons.1 hts
    have hkept : t.text.toList.filter (!Text.isBlank ·) = t.text.toList :=
      List.filter_eq_self.2 fun c hc => by simp [isBlank_of_mem_text ht c hc]
    rw [List.flatMap_cons, ih hts, List.filter_append, List.filter_append, Text.filter_gap hgap,
      hkept, List.nil_append]

theorem eq_of_takeMark? {r : Reading Token cs} (h : takeMark? cs = some r) :
    cs = r.value.text.toList ++ r.rest := by
  unfold takeMark? at h
  split at h <;> cases h <;> simp [Reading.one, Token.text]

end Readers

/-! ## Pieces -/

/-- A word is written as it was read, whatever it is taken for. -/
theorem text_ofWord (last : Option TokenKind) (word : String) : (ofWord last word).text = word := by
  unfold ofWord namedAfter?
  split
  · next name hname => split at hname <;> cases hname <;> rfl
  · split
    · next k hk => simpa [Keyword.ofText?, text] using List.find?_some hk
    · rfl

/-- The words of a header, up to its brace and on. -/
theorem spread_header (k : Keyword) {ts us : List Token} {gap body rest : List Char}
    (hgap : gap.all Text.isBlank) (hbody : Spread ts body) (hrest : Spread us rest) :
    Spread (.keyword k :: .leftParen :: (ts ++ .rightParen :: us))
      (k.text.toList ++ (gap ++ '(' :: (body ++ ')' :: rest))) := by
  have hparen : Spread (.leftParen :: (ts ++ .rightParen :: us)) ('(' :: (body ++ ')' :: rest)) :=
    spread_cons .leftParen (spread_append hbody (spread_cons .rightParen hrest))
  exact spread_cons (.keyword k) (hparen.blank_append hgap)

/-- **A piece loses nothing.** -/
theorem TakesPiece.spread {cs place rest : List Char} {piece : Piece} {last : Option TokenKind}
    {run more : List Token} (h : TakesPiece cs piece rest)
    (htokens : piece.tokens last place = .ok run) (hrest : Spread more rest) :
    Spread (run ++ more) cs := by
  cases h with
  | @assignment r h =>
    obtain ⟨gap₁, gap₂, hgap₁, hgap₂, hcs⟩ := takeAssignment?_eq_some h
    obtain ⟨ts, hts, htokens⟩ := Outcome.bind_eq_ok.1 htokens
    obtain rfl := Except.ok.inj htokens
    have hbody : Spread ts r.value.2 := (scans_of_scanWithin hts).spread
    have hequals : Spread (.assign :: (ts ++ .semicolon :: more))
        ('=' :: (gap₂ ++ (r.value.2 ++ ';' :: r.rest))) :=
      spread_cons .assign ((spread_append hbody (spread_cons .semicolon hrest)).blank_append hgap₂)
    refine spread_of_eq hcs ?_
    simpa [text] using spread_cons (.var (String.ofList r.value.1)) (hequals.blank_append hgap₁)
  | @whileHeader r h =>
    obtain ⟨gap₁, gap₂, gap₃, hgap₁, hgap₂, hgap₃, -, hcs⟩ := takeHeader?_eq_some h
    obtain ⟨ts, hts, htokens⟩ := Outcome.bind_eq_ok.1 htokens
    obtain rfl := Except.ok.inj htokens
    have hbody : Spread ts r.value := (scans_of_scanWithin hts).spread
    have hbrace : Spread (.leftBrace :: more) (gap₂ ++ (gap₃ ++ '\x7b' :: r.rest)) :=
      ((spread_cons .leftBrace hrest).blank_append hgap₃).blank_append hgap₂
    refine spread_of_eq hcs ?_
    simpa [Keyword.text] using spread_header .whileWord hgap₁ hbody hbrace
  | @ifHeader r h =>
    obtain ⟨gap₁, gap₂, gap₃, hgap₁, hgap₂, hgap₃, -, hcs⟩ := takeHeader?_eq_some h
    obtain ⟨ts, hts, htokens⟩ := Outcome.bind_eq_ok.1 htokens
    obtain rfl := Except.ok.inj htokens
    have hbody : Spread ts r.value := (scans_of_scanWithin hts).spread
    have hthen : Spread (.keyword .thenWord :: .leftBrace :: more)
        (gap₂ ++ ("then".toList ++ (gap₃ ++ '\x7b' :: r.rest))) :=
      (spread_cons (.keyword .thenWord)
        ((spread_cons .leftBrace hrest).blank_append hgap₃)).blank_append hgap₂
    refine spread_of_eq hcs ?_
    simpa [Keyword.text] using spread_header .ifWord hgap₁ hbody hthen
  | @word r _ _ h =>
    obtain rfl := Except.ok.inj htokens
    refine spread_of_eq (Text.takeName?_eq_some h).1.symm ?_
    simpa [text_ofWord] using spread_cons (ofWord last (String.ofList r.value)) hrest
  | @numeral r h =>
    obtain rfl := Except.ok.inj htokens
    refine spread_of_eq (Text.takeNumeral?_eq_some h).1.symm ?_
    simpa [text] using spread_cons (.const (String.ofList r.value)) hrest
  | @mark r h =>
    obtain rfl := Except.ok.inj htokens
    exact spread_of_eq (eq_of_takeMark? h) (spread_cons r.value hrest)

/-- **Lexing loses nothing**: a text that is lexed has the tokens that come out. -/
theorem spread_of_lexFrom {last : Option TokenKind} {cs : List Char} {ts : List Token}
    (h : lexFrom last cs = .ok ts) : Spread ts cs := by
  fun_induction lexFrom last cs generalizing ts with
  | case1 last cs hempty =>
    obtain rfl := Except.ok.inj h
    obtain rfl := List.isEmpty_iff.1 hempty
    exact .nil rfl
  | case2 => cases h
  | case3 last cs _ piece hpiece ih =>
    obtain ⟨run, hrun, h⟩ := Outcome.bind_eq_ok.1 h
    obtain ⟨more, hmore, h⟩ := Outcome.bind_eq_ok.1 h
    obtain rfl := Except.ok.inj h
    exact (takesPiece_of_takePiece? hpiece).spread hrun (spread_of_trimStart (ih run hmore))

/-! ## Whole programs -/

/-- **A well spelled token is made from its text.** -/
theorem ofText?_text {t : Token} (ht : t.wellSpelled) : ofText? t.kind t.text = some t := by
  cases t with
  | keyword k => exact if_pos rfl
  | var name | proc name => exact if_pos (show Text.isName name.toList from ht)
  | const digits => exact if_pos (show Text.isNumeral digits.toList from ht)
  | arith op | logic op | rel op => cases op <;> rfl
  | _ => rfl

/-- **Lexing loses nothing.** The texts of the tokens, one after the other, are the program text
without its white space, and each of them is a text of its kind. -/
theorem lex_loses_nothing {source : String} {ts : List Token} (h : lex source = .ok ts) :
    (String.join (ts.map text)).toList = source.toList.filter (!Text.isBlank ·) ∧
      ∀ t ∈ ts, ofText? t.kind t.text = some t := by
  have hspelled := wellSpelled_of_lex h
  refine ⟨?_, fun t ht => ofText?_text (hspelled t ht)⟩
  calc (String.join (ts.map text)).toList
      = ts.flatMap (·.text.toList) := by rw [String.toList_join, List.flatMap_map]
    _ = (Text.trim (Text.squeeze source.toList)).filter (!Text.isBlank ·) :=
        (spread_of_lexFrom h).flatMap_text hspelled
    _ = source.toList.filter (!Text.isBlank ·) := by
        rw [Text.trim, Text.filter_trimEnd, Text.filter_trimStart, Text.filter_squeeze]

/-- A numeral runs into the word after it, a variable is called `if`, and a brace stays open. -/
theorem lex_loses_nothing_openBrace :
    lex "if( x!=2 )then\n\x7b if = 3y;" = .ok [.keyword .ifWord, .leftParen, .var "x", .rel .ne,
        .const "2", .rightParen, .keyword .thenWord, .leftBrace, .var "if", .assign, .const "3",
        .var "y", .semicolon] ∧
      "if(x!=2)then\x7bif=3y;".toList =
        "if( x!=2 )then\n\x7b if = 3y;".toList.filter (!Text.isBlank ·) := by
  have h : lex "if( x!=2 )then\n\x7b if = 3y;" = .ok [.keyword .ifWord, .leftParen, .var "x",
      .rel .ne, .const "2", .rightParen, .keyword .thenWord, .leftBrace, .var "if", .assign,
      .const "3", .var "y", .semicolon] := Outcome.toOption_eq_some.1 (by decide +kernel)
  exact ⟨h, (lex_loses_nothing h).1⟩

end Token

end ProgramFacts
