import ProgramFacts.Proofs.Expr.Grammar
/-!
# Expressions — nothing else is read

The converse of `parse_of_derives`: a run that passes the two checks and can be put into
postorder is written by the grammar (`derives_of_parse`). While a run is put into postorder,
what has been read falls into pieces. Each open parenthesis and each pending operator has its
place among them, and before an operator stands its left operand, already derived; this is
`Underway`. An operator that goes out joins the last two pieces, the checks say whether the next
token may come at all, and at the end one piece is left.
-/

namespace ProgramFacts

namespace Expr

variable {run seen : List Token} {e : Expr} {stack below : List Pending} {operand : Bool}

/-! ## What a stack lets go -/

/-- An operator on top of a stack binds less tightly than `k`. -/
def Below (k : Nat) (stack : List Pending) : Prop :=
  ∀ op, stack.head? = some (.operator op) → op.precedence < k

theorem below_three : Below 3 stack := by
  intro op _
  have := one_le_precedence op
  omega

/-- What goes out before an operator comes in are operators that bind as tightly, and
what is left on top binds less. -/
theorem exists_yielding (op : ArithOp) (stack : List Pending) : ∃ ops : List ArithOp,
    stack = ops.map .operator ++ stack.dropWhile (Pending.yieldsTo op) ∧
      (∀ op' ∈ ops, op.precedence ≤ op'.precedence) ∧
      Below op.precedence (stack.dropWhile (Pending.yieldsTo op)) := by
  induction stack with
  | nil => exact ⟨[], rfl, by simp, by simp [Below]⟩
  | cons p stack ih =>
    by_cases hp : p.yieldsTo op
    · rw [List.dropWhile_cons_of_pos hp]
      cases p with
      | paren => cases hp
      | operator op' =>
        obtain ⟨ops, hstack, hops, hbelow⟩ := ih
        have hop : op.precedence ≤ op'.precedence := by simpa [Pending.yieldsTo] using hp
        exact ⟨op' :: ops, congrArg (Pending.operator op' :: ·) hstack,
          List.forall_mem_cons.2 ⟨hop, hops⟩, hbelow⟩
    · rw [List.dropWhile_cons_of_neg hp]
      refine ⟨[], rfl, by simp, fun op' htop => ?_⟩
      obtain rfl : p = .operator op' := by simpa using htop
      simpa [Pending.yieldsTo] using hp

theorem exists_of_untilParen? {out : List Token}
    (h : Pending.untilParen? stack = some (out, below)) :
    ∃ ops : List ArithOp, stack = ops.map .operator ++ .paren :: below := by
  induction stack generalizing out with
  | nil => cases h
  | cons p stack ih =>
    cases p with
    | paren =>
      cases h
      exact ⟨[], rfl⟩
    | operator op =>
      simp only [Pending.untilParen?] at h
      split at h
      · cases h
      · next out' below' hrest =>
        cases h
        obtain ⟨ops, hstack⟩ := ih hrest
        exact ⟨op :: ops, congrArg (Pending.operator op :: ·) hstack⟩

theorem exists_of_drain? {out : List Token} (h : Pending.drain? stack = some out) :
    ∃ ops : List ArithOp, stack = ops.map .operator := by
  induction stack generalizing out with
  | nil => exact ⟨[], rfl⟩
  | cons p stack ih =>
    cases p with
    | paren => cases h
    | operator op =>
      obtain ⟨out', hrest, -⟩ := Option.map_eq_some_iff.1 h
      obtain ⟨ops, hstack⟩ := ih hrest
      exact ⟨op :: ops, congrArg (Pending.operator op :: ·) hstack⟩

/-! ## Pieces -/

/-- **What has been read, and what waits on the stack for more.** `Underway true` expects an
operand next. `Underway false` has one at the end of what was read, which no operator has
taken yet. -/
inductive Underway : Bool → List Token → List Pending → Prop
  | start : Underway true [] []
  | paren {seen : List Token} {stack : List Pending} (h : Underway true seen stack) :
    Underway true (seen ++ [.leftParen]) (.paren :: stack)
  | operator (op : ArithOp) {seen run : List Token} {e : Expr} {stack : List Pending}
    (h : Underway true seen stack) (hrun : Derives op.precedence run e)
    (hstack : Below op.precedence stack) :
    Underway true (seen ++ run ++ [.arith op]) (.operator op :: stack)
  | operand {seen run : List Token} {e : Expr} {stack : List Pending}
    (h : Underway true seen stack) (hrun : Derives 3 run e) : Underway false (seen ++ run) stack

namespace Underway

/-- **Operators that go out join the pieces they stand between.** -/
theorem reduce {k m : Nat} {ops : List ArithOp}
    (h : Underway true seen (ops.map .operator ++ stack)) (hrun : Derives m run e)
    (hbelow : Below m (ops.map .operator ++ stack)) (hops : ∀ op ∈ ops, k ≤ op.precedence)
    (hk : k ≤ m) :
    ∃ seen' run' e', seen ++ run = seen' ++ run' ∧ Underway true seen' stack ∧
      Derives k run' e' := by
  induction ops generalizing seen run e m with
  | nil => exact ⟨seen, run, e, rfl, h, hrun.weaken hk⟩
  | cons op ops ih =>
    cases h with
    | @operator _ seen left l _ h hleft hstack =>
      obtain ⟨hop, hops⟩ := List.forall_mem_cons.1 hops
      have hlt : op.precedence < m := hbelow op rfl
      have hbin := Derives.bin op hleft (hrun.weaken hlt)
      obtain ⟨seen', run', e', heq, h', hrun'⟩ := ih h hbin hstack hops hop
      exact ⟨seen', run', e', by simpa using heq, h', hrun'⟩

/-! One step for each kind of token that may come. -/

/-- An operator comes in, once those that bind as tightly have gone. -/
theorem arith (h : Underway false seen stack) (op : ArithOp) :
    Underway true (seen ++ [.arith op])
      (.operator op :: stack.dropWhile (Pending.yieldsTo op)) := by
  obtain ⟨ops, hstack, hops, hbelow⟩ := exists_yielding op stack
  cases h with
  | @operand seen run e _ h hrun =>
    rw [hstack] at h
    have hop := one_le_precedence op
    obtain ⟨seen', run', e', heq, h', hrun'⟩ := h.reduce hrun below_three hops (by omega)
    rw [heq]
    exact h'.operator op hrun' hbelow

/-- A parenthesis closes, and what it holds becomes an operand. -/
theorem close (h : Underway false seen stack) {out : List Token}
    (hparen : Pending.untilParen? stack = some (out, below)) :
    Underway false (seen ++ [.rightParen]) below := by
  obtain ⟨ops, rfl⟩ := exists_of_untilParen? hparen
  cases h with
  | @operand seen run e _ h hrun =>
    obtain ⟨seen', run', e', heq, h', hrun'⟩ :=
      h.reduce hrun below_three (fun op _ => (one_le_precedence op).1) (by omega)
    cases h' with
    | @paren seen' _ h' =>
      have hseen : seen ++ run ++ [.rightParen] =
          seen' ++ (.leftParen :: run' ++ [.rightParen]) := by
        rw [heq]
        simp
      rw [hseen]
      exact h'.operand hrun'.paren

/-- The run ends, and all that was read is one piece. -/
theorem finish (h : Underway false seen stack) {out : List Token}
    (hdrain : Pending.drain? stack = some out) : ∃ e, Derives 1 seen e := by
  obtain ⟨ops, hstack⟩ := exists_of_drain? hdrain
  cases h with
  | @operand seen run e _ h hrun =>
    rw [hstack, ← List.append_nil (ops.map _)] at h
    obtain ⟨seen', run', e', heq, h', hrun'⟩ :=
      h.reduce hrun below_three (fun op _ => (one_le_precedence op).1) (by omega)
    cases h'
    exact ⟨e', heq ▸ hrun'⟩

/-! And no step for a parenthesis in the wrong place: it clashes with the token before it. -/

theorem not_open (h : Underway false seen stack) (ts : List Token) :
    ¬ (seen ++ .leftParen :: ts).IsChain Agree := by
  intro hagree
  cases h with
  | @operand seen run e _ h hrun =>
    have hclash : ∀ t, closes t → clash t .leftParen := by
      intro t ht
      cases t with
      | var | const | rightParen => rfl
      | _ => cases ht
    have hlast := List.getLast?_eq_getLast_of_ne_nil hrun.ne_nil
    have hagree : ∀ t ∈ run.getLast?, clash t .leftParen = false := by
      rw [← List.getLast?_append_of_ne_nil seen hrun.ne_nil]
      exact fun t ht => (List.isChain_append.1 hagree).2.2 t ht _ rfl
    simpa [hagree _ hlast] using hclash _ (hrun.last _ hlast)

theorem not_close (h : Underway true seen stack) {out : List Token}
    (hparen : Pending.untilParen? stack = some (out, below)) (ts : List Token) :
    ¬ (seen ++ .rightParen :: ts).IsChain Agree := by
  intro hagree
  have hclash : ∀ t ∈ seen.getLast?, Agree t .rightParen := fun t ht =>
    (List.isChain_append.1 hagree).2.2 t ht _ rfl
  cases h with
  | start => cases hparen
  | paren h => cases hclash .leftParen (by simp)
  | operator op h hrun hstack => cases hclash (.arith op) (by simp)

/-- **A run that is read to its end is an expression.** -/
theorem exists_derives {whole ts out : List Token} (h : Underway operand seen stack)
    (hagree : (seen ++ ts).IsChain Agree)
    (halternate : checkAlternationFrom whole operand ts = .ok ())
    (hout : Token.toPostorderFrom whole stack ts = .ok out) :
    ∃ e, Derives 1 (seen ++ ts) e := by
  -- the stack moves with the tokens, and the alternation says what kind of token comes
  fun_induction Token.toPostorderFrom whole stack ts generalizing seen operand out with
  | case1 stack ops hdrain =>
    cases operand with
    | true => cases halternate
    | false =>
      rw [List.append_nil]
      exact h.finish hdrain
  | case2 stack hdrain => cases hout
  | case3 stack name ts ih =>
    obtain ⟨out', hout, -⟩ := Outcome.bind_eq_ok.1 hout
    rw [List.append_cons] at hagree ⊢
    cases operand with
    | true => exact ih (h.operand (.var name)) hagree halternate hout
    | false => cases halternate
  | case4 stack digits ts ih =>
    obtain ⟨out', hout, -⟩ := Outcome.bind_eq_ok.1 hout
    rw [List.append_cons] at hagree ⊢
    cases operand with
    | true => exact ih (h.operand (.const digits)) hagree halternate hout
    | false => cases halternate
  | case5 stack op ts =>
    rename_i ih
    obtain ⟨out', hout, -⟩ := Outcome.bind_eq_ok.1 hout
    rw [List.append_cons] at hagree ⊢
    cases operand with
    | true => cases halternate
    | false => exact ih (h.arith op) hagree halternate hout
  | case6 stack ts ih =>
    cases operand with
    | true =>
      rw [List.append_cons] at hagree ⊢
      exact ih h.paren hagree halternate hout
    | false => exact absurd hagree (h.not_open ts)
  | case7 stack ts hparen => cases hout
  | case8 stack ts ops below hparen ih =>
    obtain ⟨out', hout, -⟩ := Outcome.bind_eq_ok.1 hout
    cases operand with
    | true => exact absurd hagree (h.not_close hparen ts)
    | false =>
      rw [List.append_cons] at hagree ⊢
      exact ih (h.close hparen) hagree halternate hout
  | case9 stack t ts => cases hout

end Underway

/-- **What is read is written by the grammar.** -/
theorem derives_of_parse {p : Parsed} (h : parse run = .ok p) : Derives 1 run p.tree := by
  have hparse := h
  unfold parse at h
  split at h
  · cases h
  · obtain ⟨⟨⟩, hneighbours, h⟩ := Outcome.bind_eq_ok.1 h
    obtain ⟨⟨⟩, halternate, h⟩ := Outcome.bind_eq_ok.1 h
    obtain ⟨out, hout, -⟩ := Outcome.bind_eq_ok.1 h
    obtain ⟨e, he⟩ :=
      Underway.start.exists_derives (checkNeighbours_eq_ok.1 hneighbours) halternate hout
    obtain rfl := Except.ok.inj (hparse.symm.trans (parse_of_derives he))
    exact he

/-- **The parser reads the grammar and nothing else**, and gives the postorder of the tree. -/
theorem parse_eq_ok {p : Parsed} :
    parse run = .ok p ↔ Derives 1 run p.tree ∧ p.postorder = p.tree.postorder := by
  constructor
  · intro h
    have he := derives_of_parse h
    rw [Except.ok.inj (h.symm.trans (parse_of_derives he))]
    exact ⟨he, rfl⟩
  · obtain ⟨e, out⟩ := p
    rintro ⟨he, hout⟩
    obtain rfl : out = e.postorder := hout
    exact parse_of_derives he

/-- **What is read from well spelled tokens is well spelled.** -/
theorem spelled_of_parse {p : Parsed} (h : parse run = .ok p)
    (hrun : ∀ t ∈ run, t.wellSpelled) : p.tree.Spelled :=
  (derives_of_parse h).spelled hrun

end Expr

end ProgramFacts
