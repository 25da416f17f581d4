import ProgramFacts.Proofs.Condition.Acceptance
import ProgramFacts.Proofs.Program.WellFormed
import ProgramFacts.Proofs.Token.Lexing
/-!
# Programs — printing

`Program.tokens` writes a program, with its expressions fully parenthesised or only as far
as they need it. A program whose names are names and whose lists of statements are not
empty is *printable*: its tokens keep to the grammar (`written_tokens`), and lexing gives
them back from every text that has them (`lexed_tokens`). What is read from well spelled
tokens is printable in turn (`printable_of_written`).
-/

namespace ProgramFacts

open Token (Laid Lexed Scannable)

/-! ## Printable statements -/

namespace Stmt

mutual

/-- Names are names, constants are numerals, and no list of statements is empty. -/
def Printable : Stmt → Prop
  | .assign _ target value => Text.isName target.toList ∧ value.Spelled
  | .read _ name | .print _ name | .call _ name => Text.isName name.toList
  | .whileLoop _ condition body => condition.Spelled ∧ PrintableAll body ∧ body ≠ []
  | .ifElse _ condition thenBody elseBody =>
    condition.Spelled ∧ (PrintableAll thenBody ∧ thenBody ≠ []) ∧
      PrintableAll elseBody ∧ elseBody ≠ []

/-- All statements of a list are printable. -/
def PrintableAll : List Stmt → Prop
  | [] => True
  | s :: ss => s.Printable ∧ PrintableAll ss

end

mutual

instance decidablePrintable : (s : Stmt) → Decidable s.Printable
  | .assign _ target value =>
    inferInstanceAs (Decidable (Text.isName target.toList ∧ value.Spelled))
  | .read _ name | .print _ name | .call _ name =>
    inferInstanceAs (Decidable (Text.isName name.toList))
  | .whileLoop _ condition body =>
    have := decidablePrintableAll body
    inferInstanceAs (Decidable (condition.Spelled ∧ PrintableAll body ∧ body ≠ []))
  | .ifElse _ condition thenBody elseBody =>
    have := decidablePrintableAll thenBody
    have := decidablePrintableAll elseBody
    inferInstanceAs (Decidable (condition.Spelled ∧ (PrintableAll thenBody ∧ thenBody ≠ []) ∧
      PrintableAll elseBody ∧ elseBody ≠ []))

instance decidablePrintableAll : (ss : List Stmt) → Decidable (PrintableAll ss)
  | [] => inferInstanceAs (Decidable True)
  | s :: ss =>
    have := s.decidablePrintable
    have := decidablePrintableAll ss
    inferInstanceAs (Decidable (s.Printable ∧ PrintableAll ss))

end

mutual

/-- The tokens of a statement. -/
def tokens (parens : Expr.Parens) : Stmt → List Token
  | .assign _ target value =>
    .var target :: .assign :: (value.written parens 1 ++ [.semicolon])
  | .read _ name => [.keyword .readWord, .var name, .semicolon]
  | .print _ name => [.keyword .printWord, .var name, .semicolon]
  | .call _ callee => [.keyword .callWord, .proc callee, .semicolon]
  | .whileLoop _ condition body =>
    .keyword .whileWord :: .leftParen :: (condition.written parens ++ .rightParen :: .leftBrace ::
      (tokensOf parens body ++ [.rightBrace]))
  | .ifElse _ condition thenBody elseBody =>
    .keyword .ifWord :: .leftParen :: (condition.written parens ++ .rightParen ::
      .keyword .thenWord :: .leftBrace :: (tokensOf parens thenBody ++ .rightBrace ::
        .keyword .elseWord :: .leftBrace :: (tokensOf parens elseBody ++ [.rightBrace])))

/-- The tokens of a list of statements. -/
def tokensOf (parens : Expr.Parens) : List Stmt → List Token
  | [] => []
  | s :: ss => s.tokens parens ++ tokensOf parens ss

end

end Stmt

/-- A procedure with a name, and with statements that are printable. -/
def Procedure.Printable (p : Procedure) : Prop :=
  Text.isName p.name.toList ∧ Stmt.PrintableAll p.body ∧ p.body ≠ []

instance : DecidablePred Procedure.Printable := fun p =>
  inferInstanceAs (Decidable (Text.isName p.name.toList ∧ Stmt.PrintableAll p.body ∧ p.body ≠ []))

/-- The tokens of a procedure. -/
def Procedure.tokens (parens : Expr.Parens) (p : Procedure) : List Token :=
  .keyword .procedureWord :: .proc p.name :: .leftBrace ::
    (Stmt.tokensOf parens p.body ++ [.rightBrace])

/-- **The tokens of a program.** -/
def Program.tokens (parens : Expr.Parens) (p : Program) : List Token :=
  p.procedures.flatMap (Procedure.tokens parens)

/-! ## What is printed keeps to the grammar -/

variable (parens : Expr.Parens)

mutual

/-- The tokens of a statement are a way to write it. -/
theorem Stmt.written_tokens (s : Stmt) (h : s.Printable) :
    Stmt.Written Expr.Reads Condition.Reads s (s.tokens parens) := by
  match s with
  | .assign n target value =>
    exact ⟨_, (Expr.derives_written parens value (by omega)).reads, rfl⟩
  | .read .. | .print .. | .call .. => rfl
  | .whileLoop n condition body =>
    obtain ⟨-, hbody, hne⟩ := h
    exact ⟨_, _, (Condition.derives_written parens condition).reads,
      Stmt.written_tokensOf body hbody, hne, rfl⟩
  | .ifElse n condition thenBody elseBody =>
    obtain ⟨-, ⟨hthen, hne⟩, helse, hne'⟩ := h
    exact ⟨_, _, _, (Condition.derives_written parens condition).reads,
      Stmt.written_tokensOf thenBody hthen, hne, Stmt.written_tokensOf elseBody helse, hne', rfl⟩

/-- So are those of a list of statements, one after the other. -/
theorem Stmt.written_tokensOf (ss : List Stmt) (h : Stmt.PrintableAll ss) :
    Stmt.WrittenAll Expr.Reads Condition.Reads ss (Stmt.tokensOf parens ss) := by
  match ss with
  | [] => rfl
  | s :: ss => exact ⟨_, _, Stmt.written_tokens s h.1, Stmt.written_tokensOf ss h.2, rfl⟩

end

/-- **The tokens of a program are a way to write it.** -/
theorem Procedure.written_flatMap_tokens {ps : List Procedure} (h : ∀ p ∈ ps, p.Printable) :
    Procedure.WrittenAll Expr.Reads Condition.Reads ps (ps.flatMap (Procedure.tokens parens)) := by
  induction ps with
  | nil => rfl
  | cons p ps ih =>
    obtain ⟨⟨-, hbody, hne⟩, hps⟩ := List.forall_mem_cons.1 h
    exact ⟨_, _, ⟨_, Stmt.written_tokensOf parens p.body hbody, hne, rfl⟩, ih hps, rfl⟩

/-! ## Nothing else is read -/

mutual

/-- Whatever is written with well spelled tokens can be printed: its names are among the tokens.
-/
theorem Stmt.printable_of_written (s : Stmt) {ts : List Token} (hts : ∀ t ∈ ts, t.wellSpelled)
    (h : Stmt.Written Expr.Reads Condition.Reads s ts) : s.Printable := by
  match s with
  | .assign n target value =>
    obtain ⟨run, ⟨p, hp, rfl⟩, rfl⟩ := h
    simp only [List.forall_mem_cons, List.forall_mem_append] at hts
    exact ⟨hts.1, Expr.spelled_of_parse hp hts.2.2.1⟩
  | .read n name | .print n name | .call n name =>
    obtain rfl := h
    simp only [List.forall_mem_cons] at hts
    exact hts.2.1
  | .whileLoop n condition body =>
    obtain ⟨run, block, hcondition, hbody, hne, rfl⟩ := h
    simp only [List.forall_mem_cons, List.forall_mem_append] at hts
    exact ⟨Condition.spelled_of_parse hcondition.1 hts.2.2.1,
      Stmt.printable_of_writtenAll body hts.2.2.2.2.2.1 hbody, hne⟩
  | .ifElse n condition thenBody elseBody =>
    obtain ⟨run, block, block', hcondition, hthen, hne, helse, hne', rfl⟩ := h
    simp only [List.forall_mem_cons, List.forall_mem_append] at hts
    obtain ⟨-, -, hrun, -, -, -, hblock, -, -, -, hblock', -⟩ := hts
    exact ⟨Condition.spelled_of_parse hcondition.1 hrun,
      ⟨Stmt.printable_of_writtenAll thenBody hblock hthen, hne⟩,
      Stmt.printable_of_writtenAll elseBody hblock' helse, hne'⟩

/-- The same of a list of statements, which share out the tokens among them. -/
theorem Stmt.printable_of_writtenAll (ss : List Stmt) {ts : List Token}
    (hts : ∀ t ∈ ts, t.wellSpelled) (h : Stmt.WrittenAll Expr.Reads Condition.Reads ss ts) :
    Stmt.PrintableAll ss := by
  match ss with
  | [] => trivial
  | s :: ss =>
    obtain ⟨first, rest, hs, hss, rfl⟩ := h
    obtain ⟨hfirst, hrest⟩ := List.forall_mem_append.1 hts
    exact ⟨Stmt.printable_of_written s hfirst hs, Stmt.printable_of_writtenAll ss hrest hss⟩

end

/-- **A program that is written with well spelled tokens can be printed.** -/
theorem Procedure.printable_of_writtenAll {ps : List Procedure} {ts : List Token}
    (hts : ∀ t ∈ ts, t.wellSpelled)
    (h : Procedure.WrittenAll Expr.Reads Condition.Reads ps ts) : ∀ p ∈ ps, p.Printable := by
  induction ps generalizing ts with
  | nil => simp
  | cons p ps ih =>
    obtain ⟨first, rest, ⟨block, hbody, hne, rfl⟩, hps, rfl⟩ := h
    simp only [List.forall_mem_cons, List.forall_mem_append] at hts
    obtain ⟨⟨-, hname, -, hblock, -⟩, hrest⟩ := hts
    exact List.forall_mem_cons.2
      ⟨⟨hname, Stmt.printable_of_writtenAll p.body hblock hbody, hne⟩, ih hrest hps⟩

/-! ## Expressions and conditions can be scanned -/

/-- Arithmetic has no comparisons. -/
theorem Token.isComparison_of_allows {t : Token} (ht : Expr.allows t) :
    t.isComparison = false := by
  cases t <;> first | rfl | cases ht

/-- What arithmetic allows is known to every vocabulary. -/
theorem Token.Vocabulary.knows_of_allows {words : Token.Vocabulary} {t : Token}
    (ht : Expr.allows t) : words.knows t := by
  cases words <;> cases t <;> first | rfl | cases ht

/-- A condition is written with tokens of its own vocabulary. -/
theorem Condition.Derives.knows {run : List Token} {c : Condition} (h : Condition.Derives run c) :
    ∀ t ∈ run, Token.Vocabulary.condition.knows t := by
  induction h with
  | compare op hl hr =>
    simp only [List.forall_mem_append, List.forall_mem_cons]
    exact ⟨fun t ht => Token.Vocabulary.knows_of_allows (hl.allows t ht), rfl,
      fun t ht => Token.Vocabulary.knows_of_allows (hr.allows t ht)⟩
  | not h ih =>
    simp only [List.forall_mem_append, List.forall_mem_cons]
    exact ⟨⟨rfl, rfl, ih⟩, rfl, by simp⟩
  | join op hl hr ihl ihr =>
    simp only [List.forall_mem_append, List.forall_mem_cons]
    exact ⟨⟨⟨rfl, ihl⟩, rfl, rfl, rfl, ihr⟩, rfl, by simp⟩

/-- No comparison in a condition is followed by `==`, with which it could run together. -/
theorem Condition.Derives.apart {run : List Token} {c : Condition} (h : Condition.Derives run c) :
    run.IsChain Token.Apart := by
  -- a parenthesis may stand after anything, and anything may stand after a parenthesis
  have hafter : ∀ t, Token.Apart t .rightParen ∧ Token.Apart t .leftParen := fun t =>
    ⟨fun _ => by simp, fun _ => by simp⟩
  have hbefore : ∀ t, Token.Apart .rightParen t ∧ Token.Apart .leftParen t := fun t =>
    ⟨(by cases ·), (by cases ·)⟩
  induction h with
  | @compare op left right l r hl hr =>
    refine List.isChain_append.2 ⟨Token.isChain_apart fun t ht => Token.isComparison_of_allows
      (hl.allows t ht), List.isChain_cons.2 ⟨?_, Token.isChain_apart fun t ht =>
        Token.isComparison_of_allows (hr.allows t ht)⟩, ?_⟩
    · rintro u hu - rfl
      cases hr.head _ hu
    · intro t ht u _ hcomp
      have hnot := Token.isComparison_of_allows (hl.allows t (List.mem_of_getLast? ht))
      simp [hnot] at hcomp
  | not h ih =>
    refine List.isChain_append.2 ⟨List.isChain_cons.2 ⟨?_, List.isChain_cons.2
      ⟨fun u _ => (hbefore u).2, ih⟩⟩, .singleton _, ?_⟩
    · rintro u ⟨⟩
      exact (hafter _).2
    · rintro t _ u ⟨⟩
      exact (hafter t).1
  | join op hl hr ihl ihr =>
    refine List.isChain_append.2 ⟨List.isChain_append.2 ⟨List.isChain_cons.2
      ⟨fun u _ => (hbefore u).2, ihl⟩, List.isChain_cons.2 ⟨fun u _ => (hbefore u).1,
        List.isChain_cons.2 ⟨?_, List.isChain_cons.2 ⟨fun u _ => (hbefore u).2, ihr⟩⟩⟩, ?_⟩,
      .singleton _, ?_⟩
    · rintro u ⟨⟩
      exact (hafter _).2
    · rintro t _ u ⟨⟩
      exact (hafter t).1
    · rintro t _ u ⟨⟩
      exact (hafter t).1

/-- **A way to write an expression can be scanned**, if its tokens are well spelled. -/
theorem Expr.Derives.scannable {k : Nat} {run : List Token} {e : Expr} (h : Expr.Derives k run e)
    (hrun : ∀ t ∈ run, t.wellSpelled) : Scannable .arithmetic run :=
  ⟨fun t ht => Token.Vocabulary.knows_of_allows (h.allows t ht), hrun,
    Token.isChain_apart fun t ht => Token.isComparison_of_allows (h.allows t ht)⟩

/-- So can what is printed of an expression. -/
theorem Expr.scannable_written {e : Expr} (he : e.Spelled) :
    Scannable .arithmetic (e.written parens 1) :=
  (Expr.derives_written parens e (by omega)).scannable (Expr.wellSpelled_of_mem_written he)

/-- And what is printed of a condition. -/
theorem Condition.scannable_written {c : Condition} (hc : c.Spelled) :
    Scannable .condition (c.written parens) :=
  ⟨(Condition.derives_written parens c).knows, Condition.wellSpelled_of_mem_written hc,
    (Condition.derives_written parens c).apart⟩

/-! ## Lexing gives a printed program back -/

mutual

/-- **The tokens of a statement are lexed as a whole**, whatever lexed tokens come after them. A
header and an assignment are one piece each, and the rest goes token by token. -/
theorem Stmt.lexed_tokens (s : Stmt) (h : s.Printable) {rest : List Token} (hrest : Lexed rest) :
    Lexed (s.tokens parens ++ rest) := by
  match s with
  | .assign n target value =>
    have hlexed := hrest.assignment h.1 (Expr.scannable_written parens h.2)
    simpa [Stmt.tokens] using hlexed
  | .read n name => exact (hrest.mark (by simp)).named rfl h
  | .print n name => exact (hrest.mark (by simp)).named rfl h
  | .call n callee => exact (hrest.mark (by simp)).named rfl h
  | .whileLoop n condition body =>
    obtain ⟨hcondition, hbody, -⟩ := h
    have hclose := hrest.mark (t := .rightBrace) (by simp)
    have hblock := Stmt.lexed_tokensOf body hbody hclose
    have hlexed := hblock.whileHeader (Condition.scannable_written parens hcondition)
    simpa [Stmt.tokens] using hlexed
  | .ifElse n condition thenBody elseBody =>
    obtain ⟨hcondition, ⟨hthen, -⟩, helse, -⟩ := h
    have hclose := hrest.mark (t := .rightBrace) (by simp)
    have hblock' := (Stmt.lexed_tokensOf elseBody helse hclose).mark (t := .leftBrace) (by simp)
    have hclose' := (hblock'.keyword (k := .elseWord) rfl).mark (t := .rightBrace) (by simp)
    have hblock := Stmt.lexed_tokensOf thenBody hthen hclose'
    have hlexed := hblock.ifHeader (Condition.scannable_written parens hcondition)
    simpa [Stmt.tokens] using hlexed

/-- Statements are lexed one after the other, the last of them first. -/
theorem Stmt.lexed_tokensOf (ss : List Stmt) (h : Stmt.PrintableAll ss) {rest : List Token}
    (hrest : Lexed rest) : Lexed (Stmt.tokensOf parens ss ++ rest) := by
  match ss with
  | [] => exact hrest
  | s :: ss =>
    have hlexed := Stmt.lexed_tokens s h.1 (Stmt.lexed_tokensOf ss h.2 hrest)
    rw [← List.append_assoc] at hlexed
    exact hlexed

end

/-- **The tokens of a program are lexed as they are printed.** -/
theorem Procedure.lexed_flatMap_tokens {ps : List Procedure} (h : ∀ p ∈ ps, p.Printable) :
    Lexed (ps.flatMap (Procedure.tokens parens)) := by
  induction ps with
  | nil => exact Token.lexed_nil
  | cons p ps ih =>
    obtain ⟨⟨hname, hbody, -⟩, hps⟩ := List.forall_mem_cons.1 h
    have hclose := (ih hps).mark (t := .rightBrace) (by simp)
    have hblock := (Stmt.lexed_tokensOf parens p.body hbody hclose).mark (t := .leftBrace) (by simp)
    have hlexed := hblock.named (k := .procedureWord) rfl hname
    simpa [Procedure.tokens] using hlexed

end ProgramFacts
