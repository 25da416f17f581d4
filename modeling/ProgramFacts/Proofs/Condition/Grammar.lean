import ProgramFacts.Condition.Parser
import ProgramFacts.Proofs.Expr.Grammar
/-!
# Conditions — the grammar

How a condition may be written: a comparison of two expressions, or `!`, `&&` and `||`
with every part in parentheses. `Condition.Derives` is the grammar with its trees, and
`parse_of_derives` says that what is written by it is read back. The one thing to see
is that parentheses close where they should: an expression and a condition are
*balanced*, so the search for a closing parenthesis goes past them.
-/

namespace ProgramFacts

/-- **The grammar of conditions.** -/
inductive Condition.Derives : List Token → Condition → Prop
  | compare (op : RelOp) {left right : List Token} {l r : Expr}
    (hl : Expr.Derives 1 left l) (hr : Expr.Derives 1 right r) :
    Derives (left ++ .rel op :: right) (.compare op l r)
  | not {run : List Token} {c : Condition} (h : Derives run c) :
    Derives (.logic .not :: .leftParen :: run ++ [.rightParen]) (.not c)
  | join (op : Connective) {left right : List Token} {l r : Condition}
    (hl : Derives left l) (hr : Derives right r) :
    Derives (.leftParen :: left ++ .rightParen :: .logic op.toOp :: .leftParen :: right ++
      [.rightParen]) (.join op l r)

/-! ## Parentheses -/

namespace Token

/-- A run that the search for a closing parenthesis goes past. -/
def Balanced (run : List Token) : Prop :=
  ∀ (depth : Nat) (ts : List Token) (e : Enclosed ts), enclosed? depth ts = some e →
    ∃ e' : Enclosed (run ++ ts), enclosed? depth (run ++ ts) = some e' ∧
      e'.inner = run ++ e.inner ∧ e'.rest = e.rest

/-- Only parentheses matter to the search for the one that closes. -/
theorem enclosed?_of_not_isParen {t : Token} (ht : t.isParen = false) (depth : Nat)
    (ts : List Token) : enclosed? depth (t :: ts) = (enclosed? depth ts).map (.cons t) := by
  cases depth <;> cases t <;> first | rfl | cases ht

namespace Balanced

variable {run run' : List Token}

theorem nil : Balanced [] := fun _ _ e he => ⟨e, he, rfl, rfl⟩

/-- Balanced runs can stand one after the other. -/
theorem append (h : Balanced run) (h' : Balanced run') : Balanced (run ++ run') := by
  intro depth ts e he
  obtain ⟨e₁, he₁, hinner₁, hrest₁⟩ := h' depth ts e he
  obtain ⟨e₂, he₂, hinner₂, hrest₂⟩ := h depth _ e₁ he₁
  rw [List.append_assoc]
  exact ⟨e₂, he₂, by rw [hinner₂, hinner₁, List.append_assoc], by rw [hrest₂, hrest₁]⟩

theorem cons {t : Token} (ht : t.isParen = false) (h : Balanced run) : Balanced (t :: run) := by
  intro depth ts e he
  obtain ⟨e', he', hinner, hrest⟩ := h depth ts e he
  refine ⟨e'.cons t, ?_, ?_, hrest⟩
  · show enclosed? depth (t :: (run ++ ts)) = _
    rw [enclosed?_of_not_isParen ht, he', Option.map_some]
  · exact congrArg (t :: ·) hinner

/-- A balanced run can stand in parentheses. -/
theorem paren (h : Balanced run) : Balanced (.leftParen :: run ++ [.rightParen]) := by
  intro depth ts e he
  have hclose : enclosed? (depth + 1) (.rightParen :: ts) = some (e.cons .rightParen) := by
    rw [enclosed?, he, Option.map_some]
  obtain ⟨e', he', hinner, hrest⟩ := h (depth + 1) _ _ hclose
  rw [List.append_assoc, List.cons_append]
  refine ⟨e'.cons .leftParen, ?_, ?_, hrest⟩
  · show enclosed? depth (.leftParen :: (run ++ .rightParen :: ts)) = _
    rw [enclosed?, he', Option.map_some]
  · show Token.leftParen :: e'.inner = _
    rw [hinner]
    simp [Enclosed.cons]

/-- **A parenthesis closes right behind a balanced run.** -/
theorem enclosed? (h : Balanced run) (rest : List Token) :
    Token.enclosed? 0 (run ++ .rightParen :: rest) = some ⟨run, rest, rfl⟩ := by
  obtain ⟨⟨inner, rest', cut⟩, he, hinner, hrest⟩ := h 0 (.rightParen :: rest) ⟨[], rest, rfl⟩ rfl
  rw [he]
  simp only [List.append_nil] at hinner
  subst hinner
  obtain rfl : rest' = rest := hrest
  rfl

end Balanced

/-- Where a parenthesis closes depends on nothing after it. -/
theorem enclosed?_of_enclosed? {depth : Nat} {ts : List Token} {e : Enclosed ts}
    (h : enclosed? depth ts = some e) (rest : List Token) :
    enclosed? depth (e.inner ++ .rightParen :: rest) = some ⟨e.inner, rest, rfl⟩ := by
  fun_induction enclosed? depth ts with
  | case1 => cases h
  | case2 depth ts ih =>
    obtain ⟨e', he', rfl⟩ := Option.map_eq_some_iff.1 h
    show enclosed? depth (.leftParen :: (e'.inner ++ .rightParen :: rest)) = _
    rw [enclosed?, ih he']
    rfl
  | case3 ts =>
    obtain rfl := Option.some.inj h
    rfl
  | case4 depth ts ih =>
    obtain ⟨e', he', rfl⟩ := Option.map_eq_some_iff.1 h
    show enclosed? (depth + 1) (.rightParen :: (e'.inner ++ .rightParen :: rest)) = _
    rw [enclosed?, ih he']
    rfl
  | case5 depth t ts hopen hclose hclose' ih =>
    obtain ⟨e', he', rfl⟩ := Option.map_eq_some_iff.1 h
    have ht : t.isParen = false := by
      cases depth <;> cases t <;> simp_all [Token.isParen]
    show enclosed? depth (t :: (e'.inner ++ .rightParen :: rest)) = _
    rw [enclosed?_of_not_isParen ht, ih he']
    rfl

end Token

/-- Expressions are balanced. -/
theorem Expr.Derives.balanced {k : Nat} {run : List Token} {e : Expr} (h : Expr.Derives k run e) :
    Token.Balanced run := by
  induction h with
  | var name => exact .cons rfl .nil
  | const digits => exact .cons rfl .nil
  | paren h ih => exact ih.paren
  | bin op hl hr ihl ihr => exact ihl.append (.cons rfl ihr)
  | lift h ih => exact ih

namespace Condition

variable {run : List Token} {c : Condition}

/-- **Conditions are balanced**, so the parenthesis that closes one is found. -/
theorem Derives.balanced (h : Derives run c) : Token.Balanced run := by
  induction h with
  | compare op hl hr => exact hl.balanced.append (.cons rfl hr.balanced)
  | not h ih => exact .cons rfl ih.paren
  | @join op left right l r hl hr ihl ihr =>
    have hsplit : Token.leftParen :: left ++ .rightParen :: .logic op.toOp :: .leftParen :: right ++
        [.rightParen] = (.leftParen :: left ++ [.rightParen]) ++
          .logic op.toOp :: (.leftParen :: right ++ [.rightParen]) := by simp
    rw [hsplit]
    exact ihl.paren.append (.cons rfl ihr.paren)

/-! ## Comparisons -/

section SplitRelation

variable (depth : Int) (ts : List Token)

/-- A parenthesis that opens goes to the left side, one level down. -/
theorem splitRelation_leftParen : splitRelation depth (.leftParen :: ts) =
    (splitRelation (depth + 1) ts).map fun p => (.leftParen :: p.1, p.2) := by
  rw [splitRelation]
  cases splitRelation (depth + 1) ts <;> rfl

/-- One that closes goes there too, one level up. -/
theorem splitRelation_rightParen : splitRelation depth (.rightParen :: ts) =
    (splitRelation (depth - 1) ts).map fun p => (.rightParen :: p.1, p.2) := by
  rw [splitRelation]
  cases splitRelation (depth - 1) ts <;> rfl

/-- Any other token of arithmetic goes to the left side. -/
theorem splitRelation_cons {t : Token} (ht : Expr.allows t) (hparen : t.isParen = false) :
    splitRelation depth (t :: ts) = (splitRelation depth ts).map fun p => (t :: p.1, p.2) := by
  cases t with
  | var | const | arith =>
    rw [splitRelation]
    · cases splitRelation depth ts <;> rfl
    all_goals simp
  | leftParen | rightParen => cases hparen
  | _ => cases ht

end SplitRelation

/-- **A whole expression goes to the left side**, as its parentheses match. -/
theorem splitRelation_append {k : Nat} {e : Expr} (h : Expr.Derives k run e) (depth : Int)
    (ts : List Token) :
    splitRelation depth (run ++ ts) =
      (splitRelation depth ts).map fun p => (run ++ p.1, p.2) := by
  induction h generalizing depth ts with
  | var name => exact splitRelation_cons depth ts rfl rfl
  | const digits => exact splitRelation_cons depth ts rfl rfl
  | @paren run e h ih =>
    rw [List.append_assoc, List.cons_append]
    show splitRelation depth (.leftParen :: (run ++ .rightParen :: ts)) = _
    rw [splitRelation_leftParen, ih, splitRelation_rightParen, Int.add_sub_cancel]
    cases splitRelation depth ts <;> simp [Except.map]
  | @bin op left right l r hl hr ihl ihr =>
    rw [List.append_assoc, List.cons_append, ihl, splitRelation_cons _ _ rfl rfl, ihr]
    cases splitRelation depth ts <;> simp [Except.map]
  | lift h ih => exact ih depth ts

/-- What is split is the two sides, with the operator between them. -/
theorem eq_of_splitRelation {depth : Int} {left right : List Token} {op : RelOp}
    (h : splitRelation depth run = .ok (left, op, right)) : run = left ++ .rel op :: right := by
  fun_induction splitRelation depth run generalizing left with
  | case1 => cases h
  | case2 op' ts =>
    obtain ⟨-, -, heq⟩ := Outcome.bind_eq_ok.1 h
    cases heq
    rfl
  | case3 => cases h
  | case4 depth t ts =>
    rename_i ih
    obtain ⟨⟨left', op', right'⟩, hrest, heq⟩ := Outcome.bind_eq_ok.1 h
    cases heq
    rw [ih hrest]
    rfl

/-- An expression has no second relational operator in it. -/
theorem checkNoRelation_ok {ts : List Token} (hts : ∀ t ∈ ts, Expr.allows t) (depth : Int) :
    checkNoRelation depth ts = .ok () := by
  induction ts generalizing depth with
  | nil => rfl
  | cons t ts ih =>
    obtain ⟨ht, htail⟩ := List.forall_mem_cons.1 hts
    cases t <;> first | exact ih htail _ | cases ht

/-- **A comparison is read as it is written.** -/
theorem parseComparison_of_derives {op : RelOp} {left right : List Token} {l r : Expr}
    (hl : Expr.Derives 1 left l) (hr : Expr.Derives 1 right r) :
    parseComparison (left ++ .rel op :: right) = .ok (.compare op l r) := by
  have hsplit : splitRelation 0 (left ++ .rel op :: right) = .ok (left, op, right) := by
    rw [splitRelation_append hl, splitRelation, if_pos rfl, checkNoRelation_ok hr.allows]
    simp [Except.map, Bind.bind, Except.bind, pure, Except.pure]
  refine Outcome.bind_eq_ok.2 ⟨_, Outcome.mapError_eq_ok.2 hsplit, ?_⟩
  refine Outcome.bind_eq_ok.2 ⟨_, Outcome.mapError_eq_ok.2 (Expr.parse_of_derives hl), ?_⟩
  exact Outcome.bind_eq_ok.2 ⟨_, Outcome.mapError_eq_ok.2 (Expr.parse_of_derives hr), rfl⟩

/-! ## Conditions -/

theorem not_isLogic_of_allows {t : Token} (ht : Expr.allows t) : isLogic t = false := by
  cases t <;> first | rfl | cases ht

/-- A balanced run in parentheses after `!` is a negation. -/
theorem shape_not (hrun : Token.Balanced run) :
    shape (.logic .not :: .leftParen :: run ++ [.rightParen]) = .ok (.not run rfl) := by
  show shape (.logic .not :: .leftParen :: (run ++ [.rightParen])) = _
  rw [shape, hrun.enclosed?]

/-- Two balanced runs in parentheses with a connective between them are a junction. -/
theorem shape_join {left right : List Token} (hleft : Token.Balanced left)
    (hright : Token.Balanced right) {op : Connective}
    (hrun : run = .leftParen :: left ++ .rightParen :: .logic op.toOp :: .leftParen :: right ++
      [.rightParen]) :
    shape run = .ok (.join op left right hrun) := by
  have hcut : Token.leftParen :: left ++ .rightParen :: .logic op.toOp :: .leftParen :: right ++
      [.rightParen] = .leftParen :: (left ++ .rightParen :: .logic op.toOp :: .leftParen ::
        (right ++ [.rightParen])) := by simp
  obtain rfl := hrun.trans hcut
  cases op with
  | and =>
    rw [shape, hleft.enclosed?]
    dsimp only [Connective.toOp]
    unfold shape.shapeJoin
    rw [hright.enclosed?]
  | or =>
    rw [shape, hleft.enclosed?]
    dsimp only [Connective.toOp]
    unfold shape.shapeJoin
    rw [hright.enclosed?]

/-- **What is written by the grammar is read back.** -/
theorem parse_of_derives (h : Derives run c) : parse run = .ok c := by
  induction h with
  | @compare op left right l r hl hr =>
    have hlogic : (left ++ .rel op :: right).any isLogic = false := by
      rw [List.any_eq_false]
      simp only [List.mem_append, List.mem_cons]
      rintro t (ht | rfl | ht)
      · simp [not_isLogic_of_allows (hl.allows t ht)]
      · simp [isLogic]
      · simp [not_isLogic_of_allows (hr.allows t ht)]
    rw [parse, if_neg (by simp), if_pos (by simp [hlogic])]
    exact parseComparison_of_derives hl hr
  | @not run c h ih =>
    rw [parse, if_neg (by simp), if_neg (by simp [isLogic]), shape_not h.balanced]
    dsimp only
    rw [ih]
    rfl
  | join op hl hr ihl ihr =>
    rw [parse, if_neg (by simp), if_neg (by simp [isLogic]),
      shape_join hl.balanced hr.balanced rfl]
    dsimp only
    rw [ihl, ihr]
    rfl

/-! ## Writing -/

/-- **The tokens of a condition.** -/
def written (parens : Expr.Parens) : Condition → List Token
  | .compare op left right => left.written parens 1 ++ .rel op :: right.written parens 1
  | .not inner => .logic .not :: .leftParen :: inner.written parens ++ [.rightParen]
  | .join op left right =>
    .leftParen :: left.written parens ++ .rightParen :: .logic op.toOp ::
      .leftParen :: right.written parens ++ [.rightParen]

/-- What is printed of a condition keeps to the grammar. -/
theorem derives_written (parens : Expr.Parens) (c : Condition) : Derives (c.written parens) c := by
  induction c with
  | compare op left right =>
    exact .compare op (Expr.derives_written parens left (by omega))
      (Expr.derives_written parens right (by omega))
  | not inner ih => exact .not ih
  | join op left right ihl ihr => exact .join op ihl ihr

/-! ## Spelling -/

/-- Names are names and constants are numerals. -/
def Spelled : Condition → Prop
  | .compare _ left right => left.Spelled ∧ right.Spelled
  | .not inner => inner.Spelled
  | .join _ left right => left.Spelled ∧ right.Spelled

instance decidableSpelled : (c : Condition) → Decidable c.Spelled
  | .compare _ left right => inferInstanceAs (Decidable (left.Spelled ∧ right.Spelled))
  | .not inner => inner.decidableSpelled
  | .join _ left right =>
    have := left.decidableSpelled
    have := right.decidableSpelled
    inferInstanceAs (Decidable (left.Spelled ∧ right.Spelled))

/-- It is printed with well spelled tokens, if its names and constants are well spelled. -/
theorem wellSpelled_of_mem_written {parens : Expr.Parens} (hc : c.Spelled) :
    ∀ t ∈ c.written parens, t.wellSpelled := by
  induction c with
  | compare op left right =>
    simp only [written, List.mem_append, List.mem_cons]
    rintro t (ht | rfl | ht)
    · exact Expr.wellSpelled_of_mem_written hc.1 t ht
    · rfl
    · exact Expr.wellSpelled_of_mem_written hc.2 t ht
  | not inner ih =>
    simp only [written, List.mem_append, List.mem_cons, List.not_mem_nil, or_false]
    rintro t ((rfl | rfl | ht) | rfl)
    · rfl
    · rfl
    · exact ih hc t ht
    · rfl
  | join op left right ihl ihr =>
    simp only [written, List.mem_append, List.mem_cons, List.not_mem_nil, or_false]
    rintro t (((rfl | ht) | rfl | rfl | rfl | ht) | rfl)
    · rfl
    · exact ihl hc.1 t ht
    · rfl
    · rfl
    · rfl
    · exact ihr hc.2 t ht
    · rfl

/-- A condition is spelled as the tokens that it is written with. -/
theorem Derives.spelled (h : Derives run c) (hrun : ∀ t ∈ run, t.wellSpelled) : c.Spelled := by
  induction h with
  | compare op hl hr =>
    simp only [List.forall_mem_append, List.forall_mem_cons] at hrun
    exact ⟨hl.spelled hrun.1, hr.spelled hrun.2.2⟩
  | not h ih =>
    simp only [List.forall_mem_append, List.forall_mem_cons] at hrun
    exact ih hrun.1.2.2
  | join op hl hr ihl ihr =>
    simp only [List.forall_mem_append, List.forall_mem_cons] at hrun
    exact ⟨ihl hrun.1.1.2, ihr hrun.1.2.2.2.2⟩

end Condition

end ProgramFacts
