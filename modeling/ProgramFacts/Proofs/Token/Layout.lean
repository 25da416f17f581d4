import ProgramFacts.Proofs.Outcome
import ProgramFacts.Proofs.Text
import ProgramFacts.Token.Scanner
import Mathlib.Data.List.Chain
/-!
# Tokens — layout

`Token.Placed follows ts text` says that `text` has the tokens `ts` in order, with any white
space before, between and after them, where `follows` says what may come right after a token.
Squeezing and trimming leave it so (`Placed.squeeze`, `Placed.trimStart`, `Placed.trimEnd`).
Where anything may follow, the text is `Spread`; where no word runs into the next, it is `Laid`.
If the tokens are those of an expression or a condition and none runs into the next, scanning the
text gives them back (`scan_placed`, `scan_laid`).
-/

namespace ProgramFacts

namespace Token

/-! ## Texts of tokens -/

/-- Tokens that are written with letters and digits. -/
def isWord : Token → Bool
  | .keyword _ | .var _ | .proc _ | .const _ => true
  | _ => false

section Text

variable {t : Token}

/-- No token is written with nothing. -/
theorem text_ne_nil (ht : t.wellSpelled) : t.text.toList ≠ [] := by
  cases t with
  | var name | proc name =>
    intro hnil
    simp [wellSpelled, show name.toList = [] from hnil, Text.isName] at ht
  | const digits =>
    intro hnil
    simp [wellSpelled, show digits.toList = [] from hnil, Text.isNumeral] at ht
  | keyword word => cases word <;> decide
  | arith op | logic op | rel op => cases op <;> decide
  | _ => decide

/-- Words have letters and digits only. -/
theorem isAlphanum_of_mem_text (ht : t.wellSpelled) (hword : t.isWord) :
    ∀ c ∈ t.text.toList, c.isAlphanum := by
  cases t with
  | var name | proc name => exact Text.isAlphanum_of_mem_name ht
  | const digits =>
    intro c hc
    simp [Char.isAlphanum, Text.isDigit_of_mem_numeral ht c hc]
  | keyword word => cases word <;> exact List.all_eq_true.1 rfl
  | _ => cases hword

/-- **No token has white space in it.** -/
theorem isBlank_of_mem_text (ht : t.wellSpelled) : ∀ c ∈ t.text.toList, Text.isBlank c = false := by
  by_cases hword : t.isWord
  · exact fun c hc => Text.isBlank_of_isAlphanum (isAlphanum_of_mem_text ht hword c hc)
  · cases t with
    | arith op | logic op | rel op => cases op <;> exact Text.eq_false_of_all rfl
    | keyword | var | proc | const => exact absurd rfl hword
    | _ => exact Text.eq_false_of_all rfl

theorem quote_notMem_text (ht : t.wellSpelled) : '"' ∉ t.text.toList := by
  by_cases hword : t.isWord
  · intro hmem
    exact absurd (isAlphanum_of_mem_text ht hword '"' hmem) (by decide)
  · cases t with
    | arith op | logic op | rel op => cases op <;> decide
    | keyword | var | proc | const => exact absurd rfl hword
    | _ => decide

/-- So a text that begins with a token is trimmed. -/
theorem trimmed_text_append (ht : t.wellSpelled) (rest : List Char) :
    Text.Trimmed (t.text.toList ++ rest) := by
  intro c hc
  rw [List.head?_append_of_ne_nil _ (text_ne_nil ht)] at hc
  exact isBlank_of_mem_text ht c (List.mem_of_mem_head? hc)

end Text

/-! ## Placing -/

/-- **The text has these tokens**, with white space around them. After a token the text ends, or
goes on with a character that may follow the token. -/
inductive Placed (follows : Token → Char → Prop) : List Token → List Char → Prop
  | nil {gap : List Char} (hgap : gap.all Text.isBlank) : Placed follows [] gap
  | cons {gap text : List Char} {t : Token} {ts : List Token} (hgap : gap.all Text.isBlank)
    (hnext : ∀ c ∈ text.head?, follows t c) (h : Placed follows ts text) :
    Placed follows (t :: ts) (gap ++ (t.text.toList ++ text))

namespace Placed

variable {follows follows' : Token → Char → Prop} {ts run : List Token} {text : List Char}
  {t : Token}

/-- Where more may follow, tokens stay placed. -/
theorem mono (hfollows : ∀ t c, follows t c → follows' t c) (h : Placed follows ts text) :
    Placed follows' ts text := by
  induction h with
  | nil hgap => exact .nil hgap
  | cons hgap hnext _ ih => exact .cons hgap (fun c hc => hfollows _ c (hnext c hc)) ih

/-- Trimming in front takes away white space only. -/
theorem trimStart (h : Placed follows ts text) (hts : ∀ t ∈ ts, t.wellSpelled) :
    Placed follows ts (Text.trimStart text) := by
  cases h with
  | nil hgap =>
    rw [Text.trimStart_blank hgap]
    exact .nil rfl
  | @cons gap text t ts hgap hnext h =>
    have ht := hts t List.mem_cons_self
    rw [Text.trimStart_append hgap, Text.trimStart_of_trimmed (trimmed_text_append ht text)]
    exact .cons (show ([] : List Char).all Text.isBlank from rfl) hnext h

/-- And so does trimming behind. -/
theorem trimEnd (h : Placed follows ts text) (hts : ∀ t ∈ ts, t.wellSpelled) :
    Placed follows ts (Text.trimEnd text) := by
  induction h with
  | @nil gap hgap =>
    have hblank : gap.reverse.all Text.isBlank := by simpa using hgap
    rw [Text.trimEnd, show gap.reverse.dropWhile Text.isBlank = [] from Text.trimStart_blank hblank]
    exact .nil rfl
  | @cons gap text t ts hgap hnext h ih =>
    obtain ⟨ht, hts⟩ := List.forall_mem_cons.1 hts
    rw [← List.append_assoc, Text.trimEnd_append, List.append_assoc]
    · exact .cons hgap (fun c hc => hnext c (Text.head?_trimEnd text c hc)) (ih hts)
    · intro c hc
      rw [List.getLast?_append_of_ne_nil _ (text_ne_nil ht)] at hc
      exact isBlank_of_mem_text ht c (List.mem_of_getLast? hc)

/-- White space may be squeezed if it may follow every token. -/
theorem squeeze (hblank : ∀ t c, Text.isBlank c → follows t c) (h : Placed follows ts text)
    (hts : ∀ t ∈ ts, t.wellSpelled) : Placed follows ts (Text.squeeze text) := by
  induction h with
  | @nil gap hgap =>
    obtain ⟨gap', hgap', hsqueeze⟩ := Text.exists_squeeze_gap hgap []
    rw [← List.append_nil gap, hsqueeze]
    exact .nil (by simpa [Text.squeeze] using hgap')
  | @cons gap text t ts hgap hnext h ih =>
    obtain ⟨ht, hts⟩ := List.forall_mem_cons.1 hts
    obtain ⟨gap', hgap', hsqueeze⟩ := Text.exists_squeeze_gap hgap (t.text.toList ++ text)
    rw [hsqueeze, Text.squeeze_append (isBlank_of_mem_text ht)]
    refine .cons hgap' (fun c hc => ?_) (ih hts)
    rcases Text.head?_squeeze text c hc with hc | hc
    · exact hblank t c hc
    · exact hnext c hc

/-- **How the first token is placed**: after a gap, and before what may follow it. -/
theorem uncons (h : Placed follows (t :: ts) text) :
    ∃ gap rest, text = gap ++ (t.text.toList ++ rest) ∧ gap.all Text.isBlank ∧
      (∀ c ∈ rest.head?, follows t c) ∧ Placed follows ts rest := by
  cases h with
  | @cons gap text _ _ hgap hnext h => exact ⟨gap, text, rfl, hgap, hnext, h⟩

/-- **The first token of a trimmed text is at its front.** -/
theorem front (h : Placed follows (t :: ts) text) (htext : Text.Trimmed text) :
    ∃ rest, text = t.text.toList ++ rest ∧ (∀ c ∈ rest.head?, follows t c) ∧
      Placed follows ts rest := by
  obtain ⟨gap, rest, rfl, hgap, hnext, hrest⟩ := h.uncons
  cases gap with
  | nil => exact ⟨rest, rfl, hnext, hrest⟩
  | cons c gap =>
    have hblank := htext c rfl
    simp [hblank] at hgap

/-- Where a token stands among others, the text has a place for it. -/
theorem split (h : Placed follows (run ++ t :: ts) text) :
    ∃ body rest, text = body ++ (t.text.toList ++ rest) ∧ Placed follows run body ∧
      Placed follows ts rest := by
  induction run generalizing text with
  | nil =>
    obtain ⟨gap, rest, rfl, hgap, -, hrest⟩ := h.uncons
    exact ⟨gap, rest, rfl, .nil hgap, hrest⟩
  | cons u run ih =>
    obtain ⟨gap, tail, rfl, hgap, hnext, htail⟩ := h.uncons
    obtain ⟨body, rest, rfl, hrun, hrest⟩ := ih htail
    refine ⟨gap ++ (u.text.toList ++ body), rest, by simp, .cons hgap ?_ hrun, hrest⟩
    intro c hc
    exact hnext c (by simp [List.head?_append, Option.mem_def.1 hc])

/-- What a text is made of. -/
theorem mem (h : Placed follows ts text) {c : Char} (hc : c ∈ text) :
    Text.isBlank c ∨ ∃ t ∈ ts, c ∈ t.text.toList := by
  induction h with
  | nil hgap => exact .inl (List.all_eq_true.1 hgap c hc)
  | @cons gap text t ts hgap hnext h ih =>
    rcases List.mem_append.1 hc with hc | hc
    · exact .inl (List.all_eq_true.1 hgap c hc)
    · rcases List.mem_append.1 hc with hc | hc
      · exact .inr ⟨t, List.mem_cons_self, hc⟩
      · exact (ih hc).imp_right fun ⟨u, hu, hcu⟩ => ⟨u, List.mem_cons_of_mem t hu, hcu⟩

/-- What a text starts with. -/
theorem head (h : Placed follows ts text) (hts : ∀ t ∈ ts, t.wellSpelled) {c : Char}
    (hc : c ∈ text.head?) : Text.isBlank c ∨ ∃ t ∈ ts.head?, c ∈ t.text.toList.head? := by
  cases h with
  | nil hgap => exact .inl (List.all_eq_true.1 hgap c (List.mem_of_mem_head? hc))
  | @cons gap text t ts hgap hnext h =>
    cases gap with
    | nil =>
      rw [List.nil_append, List.head?_append_of_ne_nil _ (text_ne_nil (hts t List.mem_cons_self))]
        at hc
      exact .inr ⟨t, rfl, hc⟩
    | cons d gap =>
      obtain rfl := Option.some.inj hc
      exact .inl (List.all_eq_true.1 hgap d List.mem_cons_self)

theorem blank_append {gap : List Char} (hgap : gap.all Text.isBlank) (h : Placed follows ts text) :
    Placed follows ts (gap ++ text) := by
  cases h with
  | nil hgap' => exact .nil (by simp only [List.all_append, hgap, hgap', Bool.and_self])
  | @cons gap' text t ts hgap' hnext h =>
    rw [← List.append_assoc]
    exact .cons (by simp only [List.all_append, hgap, hgap', Bool.and_self]) hnext h

end Placed

/-- Tokens are placed by the single spaces between them. -/
theorem placed_phrase {follows : Token → Char → Prop} (hspace : ∀ t, follows t ' ')
    (ts : List Token) : Placed follows ts (phrase ts).toList := by
  have hnil : ([] : List Char).all Text.isBlank := rfl
  match ts with
  | [] => exact .nil hnil
  | [t] =>
    have hplaced : Placed follows [t] ([] ++ (t.text.toList ++ [])) :=
      .cons hnil (by simp) (.nil hnil)
    simpa [phrase] using hplaced
  | t :: u :: ts =>
    have hplaced : Placed follows (t :: u :: ts)
        ([] ++ (t.text.toList ++ ' ' :: (phrase (u :: ts)).toList)) := by
      refine .cons hnil ?_
        ((placed_phrase hspace (u :: ts)).blank_append (show [' '].all Text.isBlank from rfl))
      rintro c ⟨⟩
      exact hspace t
    simpa [phrase, String.intercalate_cons_cons] using hplaced

/-- **The text has these tokens**, with white space or nothing between them. -/
abbrev Spread : List Token → List Char → Prop :=
  Placed fun _ _ => True

section Spread

variable {ts us : List Token} {text rest : List Char}

theorem spread_of_eq (htext : text = rest) (h : Spread ts rest) : Spread ts text :=
  htext ▸ h

/-- A token can stand right before others. -/
theorem spread_cons (t : Token) (h : Spread ts text) : Spread (t :: ts) (t.text.toList ++ text) :=
  Placed.cons (show ([] : List Char).all Text.isBlank from rfl) (fun _ _ => trivial) h

/-- Texts can be put together where anything may follow. -/
theorem spread_append (h : Spread ts text) (hrest : Spread us rest) :
    Spread (ts ++ us) (text ++ rest) := by
  induction h with
  | nil hgap => exact hrest.blank_append hgap
  | cons hgap _ _ ih =>
    rw [List.append_assoc, List.append_assoc]
    exact Placed.cons hgap (fun _ _ => trivial) ih

theorem spread_of_trimStart (h : Spread ts (Text.trimStart text)) : Spread ts text := by
  obtain ⟨gap, hgap, htext⟩ := Text.exists_blank_append text
  rw [← htext]
  exact h.blank_append hgap

end Spread

/-! ## Laying out -/

/-- A word does not run into the character. -/
def endsWord (t : Token) (c : Char) : Prop :=
  t.isWord → c.isAlphanum = false

/-- **The text has these tokens**, with white space around them, and no word runs into
what follows it. -/
abbrev Laid : List Token → List Char → Prop :=
  Placed endsWord

/-- Single spaces keep words apart. -/
theorem laid_phrase (ts : List Token) : Laid ts (phrase ts).toList :=
  placed_phrase (fun _ _ => rfl) ts

/-! ## Scanning -/

/-- The tokens that are read in a vocabulary. -/
def Vocabulary.knows : Vocabulary → Token → Bool
  | _, .var _ | _, .const _ | _, .arith _ | _, .leftParen | _, .rightParen => true
  | .condition, .rel _ | .condition, .logic _ => true
  | _, _ => false

/-- Comparisons and logical operators, of which some are the start of others. -/
def isComparison : Token → Bool
  | .rel _ | .logic _ => true
  | _ => false

section Take

variable {words : Vocabulary} {t : Token} {rest : List Char}

/-- **An operand is taken as a whole**, if no letter and no digit follows. -/
theorem takeOperand?_append (ht : t.wellSpelled) (hoperand : t.isOperand)
    (hrest : ∀ c ∈ rest.head?, c.isAlphanum = false) :
    ∃ h, takeOperand? (t.text.toList ++ rest) = some ⟨t, rest, h⟩ := by
  cases t with
  | var name =>
    obtain ⟨hlt, htake⟩ := Text.takeName?_append ht hrest
    refine ⟨hlt, ?_⟩
    show takeOperand? (name.toList ++ rest) = _
    rw [takeOperand?, htake]
    exact congrArg some (Reading.ext (congrArg Token.var String.ofList_toList) rfl)
  | const digits =>
    have hdigit : ∀ c ∈ rest.head?, c.isDigit = false := fun c hc =>
      Text.isDigit_of_isAlphanum (hrest c hc)
    obtain ⟨hlt, htake⟩ := Text.takeNumeral?_append ht hdigit
    refine ⟨hlt, ?_⟩
    show takeOperand? (digits.toList ++ rest) = _
    rw [takeOperand?, htake, Text.takeName?_numeral ht]
    exact congrArg some (Reading.ext (congrArg Token.const String.ofList_toList) rfl)
  | _ => cases hoperand

/-- A symbol is no operand. -/
theorem takeOperand?_symbol {c : Char} (hc : c.isAlphanum = false) :
    takeOperand? (c :: rest) = none := by
  simp only [Char.isAlphanum, Bool.or_eq_false_iff] at hc
  simp [takeOperand?, Text.takeName?, Text.takeNumeral?, hc.1, hc.2]

/-- **A comparison is taken as a whole**, if no equals sign follows. -/
theorem takeComparison?_append (hcomparison : t.isComparison) (hrest : ∀ c ∈ rest.head?, c ≠ '=') :
    ∃ h, takeComparison? (t.text.toList ++ rest) = some ⟨t, rest, h⟩ := by
  -- a symbol that is the start of another is the one that is read if no `=` follows
  have hnot : ∀ tail, rest = '=' :: tail → False := by
    rintro tail rfl
    exact hrest '=' rfl rfl
  cases t with
  | rel op =>
    cases op with
    | gt =>
      refine ⟨by simp [text, RelOp.text], ?_⟩
      show takeComparison? ('>' :: rest) = _
      rw [takeComparison?]
      · rfl
      · exact hnot
    | lt =>
      refine ⟨by simp [text, RelOp.text], ?_⟩
      show takeComparison? ('<' :: rest) = _
      rw [takeComparison?]
      · rfl
      · exact hnot
    | _ => exact ⟨by simp +arith [text, RelOp.text], rfl⟩
  | logic op =>
    cases op with
    | not =>
      refine ⟨by simp [text, LogicOp.text], ?_⟩
      show takeComparison? ('!' :: rest) = _
      rw [takeComparison?]
      · rfl
      · exact hnot
    | _ => exact ⟨by simp +arith [text, LogicOp.text], rfl⟩
  | _ => cases hcomparison

theorem takeOperand?_comparison (hcomparison : t.isComparison) :
    takeOperand? (t.text.toList ++ rest) = none := by
  cases t with
  | rel op | logic op => cases op <;> exact takeOperand?_symbol rfl
  | _ => cases hcomparison

/-- **The token at the front is the one that is read**, if nothing that follows could be
taken for a part of it. -/
theorem take?_append (hknown : words.knows t) (ht : t.wellSpelled)
    (hword : t.isWord → ∀ c ∈ rest.head?, c.isAlphanum = false)
    (hcomparison : t.isComparison → ∀ c ∈ rest.head?, c ≠ '=') :
    ∃ h, take? words (t.text.toList ++ rest) = some ⟨t, rest, h⟩ := by
  by_cases hoperand : t.isOperand
  · have htword : t.isWord := by cases t <;> first | rfl | cases hoperand
    obtain ⟨hlt, htake⟩ := takeOperand?_append ht hoperand (hword htword)
    refine ⟨hlt, ?_⟩
    cases words <;> (rw [take?, htake]; rfl)
  · by_cases hcomp : t.isComparison
    · obtain rfl : words = .condition := by
        cases words with
        | arithmetic => cases t <;> first | (cases hknown; done) | cases hcomp
        | condition => rfl
      obtain ⟨hlt, htake⟩ := takeComparison?_append hcomp (hcomparison hcomp)
      refine ⟨hlt, ?_⟩
      rw [take?, takeOperand?_comparison hcomp, htake]
      rfl
    · cases t with
      | arith op => cases op <;> cases words <;> exact ⟨by simp [text, ArithOp.text], rfl⟩
      | leftParen | rightParen => cases words <;> exact ⟨by simp [text], rfl⟩
      | var | const => exact absurd rfl hoperand
      | rel | logic => exact absurd rfl hcomp
      | _ => cases words <;> cases hknown

end Take

/-- A comparison is not followed by `==`, whose first character would be taken for a part
of it. -/
def Apart (t u : Token) : Prop := t.isComparison → u ≠ .rel .eq

/-- Where there are no comparisons nothing can run together. -/
theorem isChain_apart {run : List Token} (h : ∀ t ∈ run, t.isComparison = false) :
    run.IsChain Apart := by
  induction run with
  | nil => exact .nil
  | cons t run ih =>
    obtain ⟨ht, hrun⟩ := List.forall_mem_cons.1 h
    exact List.isChain_cons.2 ⟨fun u _ hcomp => by simp [ht] at hcomp, ih hrun⟩

/-- **Tokens that can be told apart when they are read one at a time.** -/
structure Scannable (words : Vocabulary) (run : List Token) : Prop where
  known : ∀ t ∈ run, words.knows t
  spelled : ∀ t ∈ run, t.wellSpelled
  apart : run.IsChain Apart

/-- Only `=` and `==` start with an equals sign. -/
theorem head?_ne_equals {u : Token} (hu : u.wellSpelled) (hassign : u ≠ .assign)
    (heq : u ≠ .rel .eq) : ∀ c ∈ u.text.toList.head?, c ≠ '=' := by
  by_cases hword : u.isWord
  · rintro c hc rfl
    have halnum := isAlphanum_of_mem_text hu hword '=' (List.mem_of_mem_head? hc)
    exact absurd halnum (by decide)
  · cases u with
    | keyword | var | proc | const => exact absurd rfl hword
    | assign => exact absurd rfl hassign
    | rel op =>
      cases op with
      | eq => exact absurd rfl heq
      | _ =>
        rintro c ⟨⟩
        decide
    | arith op | logic op => cases op <;> (rintro c ⟨⟩; decide)
    | _ =>
      rintro c ⟨⟩
      decide

/-- A token does not run into the character: neither is it a word that could go on, nor a comparison
that could be another one with the equals sign. -/
def parts (t : Token) (c : Char) : Prop :=
  (t.isWord → c.isAlphanum = false) ∧ (t.isComparison → c ≠ '=')

/-- **Scanning gives back the tokens that a text has**, if none of them runs into the next. -/
theorem scan_placed {words : Vocabulary} {run : List Token} {text : List Char}
    (hknown : ∀ t ∈ run, words.knows t) (hrun : ∀ t ∈ run, t.wellSpelled)
    (h : Placed parts run text) : scan words text = .ok run := by
  induction h with
  | nil hgap =>
    rw [scan, Text.trimStart_blank hgap]
    rfl
  | @cons gap text t ts hgap hnext h ih =>
    obtain ⟨hknown, hknowns⟩ := List.forall_mem_cons.1 hknown
    obtain ⟨ht, hts⟩ := List.forall_mem_cons.1 hrun
    obtain ⟨_, htake⟩ := take?_append hknown ht (fun htword c hc => (hnext c hc).1 htword)
      fun hcomp c hc => (hnext c hc).2 hcomp
    have hne : (t.text.toList ++ text).isEmpty = false := by simp [text_ne_nil ht]
    rw [scan, Text.trimStart_append hgap, Text.trimStart_of_trimmed (trimmed_text_append ht text)]
    simp only [hne, htake]
    exact Outcome.bind_eq_ok.2 ⟨ts, ih hknowns hts, rfl⟩

/-- Tokens that can be told apart do not run into each other. -/
theorem placed_of_laid {words : Vocabulary} {run : List Token} {text : List Char}
    (hrun : Scannable words run) (h : Laid run text) : Placed parts run text := by
  induction h with
  | nil hgap => exact .nil hgap
  | @cons gap text t ts hgap hnext h ih =>
    obtain ⟨-, hknowns⟩ := List.forall_mem_cons.1 hrun.known
    obtain ⟨-, hts⟩ := List.forall_mem_cons.1 hrun.spelled
    refine .cons hgap (fun c hc => ⟨hnext c hc, fun hcomp => ?_⟩)
      (ih ⟨hknowns, hts, hrun.apart.tail⟩)
    rcases h.head hts hc with hblank | ⟨u, hu, hcu⟩
    · rintro rfl
      cases hblank
    · obtain ⟨ts', rfl⟩ : ∃ ts', ts = u :: ts' := List.head?_eq_some_iff.1 hu
      refine head?_ne_equals (hts u List.mem_cons_self) ?_ (hrun.apart.rel hcomp) c hcu
      rintro rfl
      have hassign := hknowns .assign List.mem_cons_self
      cases words <;> cases hassign

/-- **Scanning gives back tokens that are laid out**, if they can be told apart. -/
theorem scan_laid {words : Vocabulary} {run : List Token} {text : List Char}
    (hrun : Scannable words run) (h : Laid run text) : scan words text = .ok run :=
  scan_placed hrun.known hrun.spelled (placed_of_laid hrun h)

end Token

end ProgramFacts
