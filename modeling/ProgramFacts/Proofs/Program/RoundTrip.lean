import ProgramFacts.Proofs.Tree
/-!
# Programs — there and back

A program is *well formed* if it is consistent as a whole and printable in its parts. The
parser accepts a text exactly if its tokens are those of a consistent program
(`parse_eq_ok_iff`). So a well formed program is read back from every way to print it, and
what is read is well formed: `parse_inverts_printing` puts the two together.
-/

namespace ProgramFacts

namespace Program

open Token (Laid)

variable {p : Program} {source : String}

/-- **What a program must be to come out of the parser.** -/
structure WellFormed (p : Program) : Prop extends p.Consistent where
  printable : ∀ q ∈ p.procedures, q.Printable

/-- A program as text, with single spaces between its words. -/
def print (parens : Expr.Parens) (p : Program) : String := Token.phrase (p.tokens parens)

/-- **The parser reads and accepts the tokens of consistent programs**, and no others. -/
theorem parse_eq_ok_iff : parse source = .ok p ↔ ∃ ts, Token.lex source = .ok ts ∧
    Procedure.WrittenAll Expr.Reads Condition.Reads p.procedures ts ∧ p.Consistent := by
  simp only [← accepts_iff]
  unfold parse
  constructor
  · intro h
    obtain ⟨ts, hts, h⟩ := Outcome.bind_eq_ok.1 h
    obtain ⟨d, hd, h⟩ := Outcome.bind_eq_ok.1 h
    obtain ⟨_, hcheck, h⟩ := Outcome.bind_eq_ok.1 h
    exact ⟨ts, hts, d, hd, hcheck, Except.ok.inj h⟩
  · rintro ⟨ts, hts, d, hd, hcheck, rfl⟩
    exact Outcome.bind_eq_ok.2 ⟨ts, hts, Outcome.bind_eq_ok.2 ⟨d, hd,
      Outcome.bind_eq_ok.2 ⟨(), hcheck, rfl⟩⟩⟩

/-- A well formed program is read back, whatever white space there is. -/
theorem parse_of_laid (hp : p.WellFormed) {parens : Expr.Parens}
    (h : Laid (p.tokens parens) source.toList) : parse source = .ok p :=
  parse_eq_ok_iff.2 ⟨_, Token.lex_laid (Procedure.lexed_flatMap_tokens parens hp.printable) h,
    Procedure.written_flatMap_tokens parens hp.printable, hp.toConsistent⟩

/-- What is read is well formed. -/
theorem wellFormed_of_parse (h : parse source = .ok p) : p.WellFormed := by
  obtain ⟨ts, hts, hwritten, hp⟩ := parse_eq_ok_iff.1 h
  exact ⟨hp, Procedure.printable_of_writtenAll (Token.wellSpelled_of_lex hts) hwritten⟩

/-- **Parsing inverts printing.** A well formed program is read back from every text that
has its tokens, fully or minimally parenthesised, with any white space that keeps words
apart. And every program that is read from any text at all is well formed, its tree has
under each node what belongs there, and it can be printed and read again. -/
theorem parse_inverts_printing :
    (∀ (p : Program), p.WellFormed → ∀ (parens : Expr.Parens) (source : String),
      Laid (p.tokens parens) source.toList → parse source = .ok p) ∧
    (∀ (source : String) (p : Program), parse source = .ok p →
      p.WellFormed ∧ p.toTree.Shaped ∧
        ∀ parens : Expr.Parens, parse (p.print parens) = .ok p) := by
  refine ⟨fun p hp parens source h => parse_of_laid hp h, fun source p h => ?_⟩
  have hp := wellFormed_of_parse h
  exact ⟨hp, shaped_toTree hp.nonempty hp.printable,
    fun parens => parse_of_laid hp (Token.laid_phrase _)⟩

/-- A program whose names are reserved words. -/
def reservedNames : Program :=
  ⟨[⟨"while",
      [.read 1 "if",
        .whileLoop 2 (.join .and (.compare .gt (.var "if") (.const "0"))
            (.not (.compare .eq (.var "call") (.var "then"))))
          [.assign 3 "while" (.bin .mul (.bin .sub (.var "if") (.const "1")) (.const "2"))],
        .call 4 "read"]⟩,
    ⟨"read",
      [.ifElse 5 (.compare .le (.var "while") (.const "10")) [.print 6 "print"]
        [.print 7 "else"]]⟩]⟩

theorem wellFormed_reservedNames : reservedNames.WellFormed where
  toConsistent := consistent_of_rank (fun a => if a = "read" then 1 else 0)
    (by simp [reservedNames]) (by decide) (by decide) (by decide)
  printable := by decide

theorem parse_reservedNames :
    reservedNames.WellFormed ∧
    parse ("procedure while \x7b read if ; while ( ( if > 0 ) && ( ! ( call == then ) ) ) \x7b " ++
      "while = ( if - 1 ) * 2 ; \x7d call read ; \x7d procedure read \x7b if ( while <= 10 ) " ++
      "then \x7b print print ; \x7d else \x7b print else ; \x7d \x7d") = .ok reservedNames := by
  refine ⟨wellFormed_reservedNames, parse_inverts_printing.1 _ wellFormed_reservedNames .minimal _ ?_⟩
  exact Eq.subst (motive := fun text => Laid _ (String.toList text))
    (by decide +kernel) (Token.laid_phrase (reservedNames.tokens .minimal))

end Program

end ProgramFacts
