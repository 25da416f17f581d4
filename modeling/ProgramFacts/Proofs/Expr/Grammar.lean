import ProgramFacts.Expr.Parser
import ProgramFacts.Proofs.Outcome
import Mathlib.Data.List.Chain
/-!
# Expressions — the grammar

How an expression may be written: operators of one precedence group to the left, a
product binds tighter than a sum, and anything may stand in parentheses.
`Expr.Derives` is that grammar with its trees, and `parse_of_derives` says that what
is written by it is read back, with its postorder. A stack of pending operators works
because of what is on it: while an expression that binds at least as tightly as `k` is
read, operators are pushed that all bind so, over a stack that none of them disturbs.
-/

namespace ProgramFacts

/-- **The grammar of expressions.** `Derives k run e` says that the tokens `run` are a
way to write `e` whose operators outside of parentheses bind at least as tightly as
`k`. A sum has precedence `1`, a product `2`, and `3` leaves only operands and
parentheses. -/
inductive Expr.Derives : Nat → List Token → Expr → Prop
  | var (name : String) : Derives 3 [.var name] (.var name)
  | const (digits : String) : Derives 3 [.const digits] (.const digits)
  | paren {run : List Token} {e : Expr} (h : Derives 1 run e) :
    Derives 3 (.leftParen :: run ++ [.rightParen]) e
  | bin (op : ArithOp) {left right : List Token} {l r : Expr}
    (hl : Derives op.precedence left l) (hr : Derives (op.precedence + 1) right r) :
    Derives op.precedence (left ++ .arith op :: right) (.bin op l r)
  | lift {k : Nat} {run : List Token} {e : Expr} (h : Derives (k + 1) run e) : Derives k run e

namespace Expr

variable {k : Nat} {run : List Token} {e : Expr}

/-- What binds tightly enough binds tightly enough for less. -/
theorem Derives.weaken {m : Nat} (h : Derives m run e) (hk : k ≤ m) : Derives k run e := by
  induction m with
  | zero =>
    obtain rfl : k = 0 := by omega
    exact h
  | succ m ih =>
    rcases Nat.lt_or_ge m k with hlt | hge
    · obtain rfl : k = m + 1 := by omega
      exact h
    · exact ih h.lift hge

/-! ## Writing

Of all the ways to write an expression two are singled out: with parentheses around
every operation, and with as few as there can be. -/

/-- Where parentheses are put. -/
inductive Parens
  | full
  | minimal
  deriving DecidableEq

/-- **The tokens of an expression**, where it has to bind at least as tightly as `k`. -/
def written (parens : Parens) (k : Nat) : Expr → List Token
  | .var name => [.var name]
  | .const digits => [.const digits]
  | .bin op left right =>
    let run := left.written parens op.precedence ++
      .arith op :: right.written parens (op.precedence + 1)
    if parens = .minimal ∧ k ≤ op.precedence then run else .leftParen :: run ++ [.rightParen]

theorem one_le_precedence (op : ArithOp) : 1 ≤ op.precedence ∧ op.precedence ≤ 2 := by
  cases op <;> decide

/-- **Both ways of writing keep to the grammar.** -/
theorem derives_written (parens : Parens) (e : Expr) (hk : k ≤ 3) :
    Derives k (e.written parens k) e := by
  induction e generalizing k with
  | var name => exact (Derives.var name).weaken hk
  | const digits => exact (Derives.const digits).weaken hk
  | bin op left right ihl ihr =>
    have hop := one_le_precedence op
    have hrun := Derives.bin op (ihl (by omega)) (ihr (by omega))
    unfold written
    dsimp only
    split
    · next h => exact hrun.weaken h.2
    · exact (hrun.weaken hop.1).paren.weaken hk

/-! ## Checks -/

/-- A token that an expression can start with. -/
def opens (t : Token) : Bool := t.isOperand || t = .leftParen

/-- A token that an expression can end with. -/
def closes (t : Token) : Bool := t.isOperand || t = .rightParen

/-- No expression is written with no tokens. -/
theorem Derives.ne_nil (h : Derives k run e) : run ≠ [] := by
  induction h with
  | lift h ih => exact ih
  | _ => simp

/-- An expression begins with an operand or an opening parenthesis. -/
theorem Derives.head (h : Derives k run e) : ∀ t ∈ run.head?, opens t := by
  induction h with
  | var name => simp [opens, Token.isOperand, Token.kind, TokenKind.isOperand]
  | const digits => simp [opens, Token.isOperand, Token.kind, TokenKind.isOperand]
  | paren h ih => simp [opens]
  | bin op hl hr ihl ihr =>
    rw [List.head?_append_of_ne_nil _ hl.ne_nil]
    exact ihl
  | lift h ih => exact ih

/-- It ends with an operand or a closing parenthesis. -/
theorem Derives.last (h : Derives k run e) : ∀ t ∈ run.getLast?, closes t := by
  induction h with
  | var name => simp [closes, Token.isOperand, Token.kind, TokenKind.isOperand]
  | const digits => simp [closes, Token.isOperand, Token.kind, TokenKind.isOperand]
  | paren h ih =>
    rw [List.getLast?_concat]
    simp [closes]
  | bin op hl hr ihl ihr =>
    rw [List.getLast?_append_of_ne_nil _ (List.cons_ne_nil _ _), List.getLast?_cons_of_ne_nil hr.ne_nil]
    exact ihr
  | lift h ih => exact ih

/-- It is written with the tokens of arithmetic. -/
theorem Derives.allows (h : Derives k run e) : ∀ t ∈ run, allows t := by
  induction h with
  | var name => simp [Expr.allows]
  | const digits => simp [Expr.allows]
  | paren h ih =>
    simp only [List.mem_append, List.mem_cons, List.not_mem_nil, or_false]
    rintro t ((rfl | ht) | rfl)
    · rfl
    · exact ih t ht
    · rfl
  | bin op hl hr ihl ihr =>
    simp only [List.mem_append, List.mem_cons]
    rintro t (ht | rfl | ht)
    · exact ihl t ht
    · rfl
    · exact ihr t ht
  | lift h ih => exact ih

/-- Neighbours that do not clash. -/
def Agree (left right : Token) : Prop := clash left right = false

/-- **Neighbours in an expression agree**, so the check of neighbours passes. -/
theorem Derives.agree (h : Derives k run e) : run.IsChain Agree := by
  induction h with
  | var name => exact .singleton _
  | const digits => exact .singleton _
  | paren h ih =>
    refine List.isChain_append.2 ⟨List.isChain_cons.2 ⟨fun t ht => ?_, ih⟩, .singleton _, ?_⟩
    · have hopens := h.head t ht
      cases t <;> first | rfl | cases hopens
    · rw [List.getLast?_cons_of_ne_nil h.ne_nil]
      rintro t ht _ ⟨⟩
      have hcloses := h.last t ht
      cases t <;> first | rfl | cases hcloses
  | bin op hl hr ihl ihr =>
    refine List.isChain_append.2 ⟨ihl, List.isChain_cons.2 ⟨fun t ht => ?_, ihr⟩, ?_⟩
    · have hopens := hr.head t ht
      cases t <;> first | rfl | cases hopens
    · rintro t ht _ ⟨⟩
      have hcloses := hl.last t ht
      cases t <;> first | rfl | cases hcloses
  | lift h ih => exact ih

/-- **The check on neighbours passes if none of them clash.** -/
theorem checkNeighbours_eq_ok : checkNeighbours run = .ok () ↔ run.IsChain Agree := by
  have hchain : (run.zip run.tail).find? (fun p => clash p.1 p.2) = none ↔ run.IsChain Agree := by
    rw [List.find?_eq_none]
    induction run with
    | nil => simp
    | cons t ts ih =>
      cases ts with
      | nil => simp
      | cons u us =>
        rw [List.isChain_cons_cons, ← ih]
        simp [Agree]
  rw [← hchain]
  unfold checkNeighbours
  cases (run.zip run.tail).find? fun p => clash p.1 p.2 <;> simp

/-- An expression takes the place of an operand. -/
theorem Derives.checkAlternationFrom (h : Derives k run e) (whole ts : List Token) :
    checkAlternationFrom whole true (run ++ ts) = checkAlternationFrom whole false ts := by
  induction h generalizing ts with
  | var name => rfl
  | const digits => rfl
  | paren h ih =>
    rw [List.cons_append, List.cons_append, List.append_assoc]
    show Expr.checkAlternationFrom whole true (_ ++ .rightParen :: ts) = _
    rw [ih]
    rfl
  | bin op hl hr ihl ihr =>
    rw [List.append_assoc, ihl]
    exact ihr ts
  | lift h ih => exact ih ts

/-! ## Postorder -/

/-- No operator that binds at least as tightly as `k` lets anything go from a stack. -/
def Holds (k : Nat) (stack : List Pending) : Prop :=
  ∀ p ∈ stack.head?, ∀ op : ArithOp, k ≤ op.precedence → p.yieldsTo op = false

theorem holds_cons_operator (op : ArithOp) (stack : List Pending) :
    Holds (op.precedence + 1) (.operator op :: stack) := by
  rintro p ⟨⟩ op' hop
  simp only [Pending.yieldsTo, decide_eq_false_iff_not]
  omega

/-- The operators that bind as tightly come out, and what holds below them stays. -/
theorem takeWhile_yieldsTo {op : ArithOp} {ops : List ArithOp} {stack : List Pending}
    (hops : ∀ op' ∈ ops, op.precedence ≤ op'.precedence) (hstack : Holds op.precedence stack) :
    (ops.map Pending.operator ++ stack).takeWhile (Pending.yieldsTo op) = ops.map .operator ∧
      (ops.map Pending.operator ++ stack).dropWhile (Pending.yieldsTo op) = stack := by
  have hall : ∀ p ∈ ops.map Pending.operator, p.yieldsTo op := by
    intro p hp
    obtain ⟨op', hop', rfl⟩ := List.mem_map.1 hp
    simpa [Pending.yieldsTo] using hops op' hop'
  have hstop : stack.takeWhile (Pending.yieldsTo op) = [] ∧
      stack.dropWhile (Pending.yieldsTo op) = stack := by
    cases stack with
    | nil => exact ⟨rfl, rfl⟩
    | cons p stack =>
      have hp := hstack p rfl op (Nat.le_refl _)
      simp [hp]
  rw [List.takeWhile_append_of_pos hall, List.dropWhile_append_of_pos hall, hstop.1, hstop.2,
    List.append_nil]
  exact ⟨rfl, rfl⟩

theorem operators_map (ops : List ArithOp) :
    Pending.operators (ops.map .operator) = ops.map .arith := by
  induction ops with
  | nil => rfl
  | cons op ops ih => exact congrArg (Token.arith op :: ·) ih

/-- What is above a parenthesis comes out when it closes. -/
theorem untilParen?_append (ops : List ArithOp) (stack : List Pending) :
    Pending.untilParen? (ops.map .operator ++ .paren :: stack) = some (ops.map .arith, stack) := by
  induction ops with
  | nil => rfl
  | cons op ops ih => simp only [List.map_cons, List.cons_append, Pending.untilParen?, ih]

theorem drain?_map (ops : List ArithOp) :
    Pending.drain? (ops.map .operator) = some (ops.map .arith) := by
  induction ops with
  | nil => rfl
  | cons op ops ih => simp only [List.map_cons, Pending.drain?, ih, Option.map_some]

section ToPostorder

variable (whole : List Token) (stack : List Pending) (ts : List Token)

/-- An operand goes out at once. -/
theorem toPostorderFrom_operand {t : Token} (ht : t.isOperand) :
    Token.toPostorderFrom whole stack (t :: ts) =
      (Token.toPostorderFrom whole stack ts).map (t :: ·) := by
  cases t with
  | var name =>
    rw [Token.toPostorderFrom]
    cases Token.toPostorderFrom whole stack ts <;> rfl
  | const digits =>
    rw [Token.toPostorderFrom]
    cases Token.toPostorderFrom whole stack ts <;> rfl
  | _ => cases ht

/-- An operator lets those out that it yields to, and waits. -/
theorem toPostorderFrom_arith (op : ArithOp) :
    Token.toPostorderFrom whole stack (.arith op :: ts) =
      (Token.toPostorderFrom whole (.operator op :: stack.dropWhile (Pending.yieldsTo op)) ts).map
        (Pending.operators (stack.takeWhile (Pending.yieldsTo op)) ++ ·) := by
  rw [Token.toPostorderFrom]
  cases Token.toPostorderFrom whole _ ts <;> rfl

/-- A closing parenthesis lets out what is above the one that opens. -/
theorem toPostorderFrom_rightParen {ops : List Token} {below : List Pending}
    (h : Pending.untilParen? stack = some (ops, below)) :
    Token.toPostorderFrom whole stack (.rightParen :: ts) =
      (Token.toPostorderFrom whole below ts).map (ops ++ ·) := by
  simp only [Token.toPostorderFrom, h]
  cases Token.toPostorderFrom whole below ts <;> rfl

end ToPostorder

/-- **Reading an expression puts out its postorder**, but for operators that wait on the
stack for what comes next. -/
theorem Derives.toPostorderFrom (h : Derives k run e) (whole : List Token) {stack : List Pending}
    (hstack : Holds k stack) :
    ∃ (out : List Token) (ops : List ArithOp), out ++ ops.map .arith = e.postorder ∧
      (∀ op ∈ ops, k ≤ op.precedence) ∧
      ∀ ts, Token.toPostorderFrom whole stack (run ++ ts) =
        (Token.toPostorderFrom whole (ops.map .operator ++ stack) ts).map (out ++ ·) := by
  induction h generalizing stack with
  | var name =>
    exact ⟨[.var name], [], rfl, by simp, fun ts => toPostorderFrom_operand whole stack ts rfl⟩
  | const digits =>
    exact ⟨[.const digits], [], rfl, by simp, fun ts => toPostorderFrom_operand whole stack ts rfl⟩
  | @paren run e h ih =>
    -- The parenthesis on the stack keeps what is inside from reaching below it.
    have hparen : Holds 1 (.paren :: stack) := by
      rintro _ ⟨⟩ _ _
      rfl
    obtain ⟨out, ops, he, -, hrun⟩ := ih hparen
    refine ⟨e.postorder, [], by simp, by simp, fun ts => ?_⟩
    have hinner : Token.toPostorderFrom whole stack (.leftParen :: run ++ [.rightParen] ++ ts) =
        Token.toPostorderFrom whole (.paren :: stack) (run ++ .rightParen :: ts) := by
      rw [List.append_assoc, List.cons_append]
      rfl
    rw [hinner, hrun, toPostorderFrom_rightParen _ _ _ (untilParen?_append ops stack), ← he]
    show _ = (Token.toPostorderFrom whole stack ts).map _
    cases Token.toPostorderFrom whole stack ts <;> simp [Except.map]
  | @bin op left right l r hl hr ihl ihr =>
    obtain ⟨out₁, ops₁, he₁, hops₁, hrun₁⟩ := ihl hstack
    obtain ⟨out₂, ops₂, he₂, hops₂, hrun₂⟩ := ihr (holds_cons_operator op stack)
    refine ⟨l.postorder ++ out₂, ops₂ ++ [op], ?_, ?_, fun ts => ?_⟩
    · rw [List.map_append, List.append_assoc, ← List.append_assoc out₂, he₂, postorder,
        List.append_assoc]
      rfl
    · simp only [List.mem_append, List.mem_singleton]
      rintro op' (hop' | rfl)
      · have := hops₂ op' hop'
        omega
      · exact Nat.le_refl _
    · have hpushed : (ops₂ ++ [op]).map Pending.operator ++ stack =
          ops₂.map .operator ++ .operator op :: stack := by simp
      obtain ⟨htake, hdrop⟩ := takeWhile_yieldsTo hops₁ hstack
      rw [List.append_assoc, hrun₁, List.cons_append, toPostorderFrom_arith, htake, hdrop, hrun₂,
        operators_map, ← he₁, hpushed]
      cases Token.toPostorderFrom whole _ ts <;> simp [Except.map]
  | lift h ih =>
    obtain ⟨out, ops, he, hops, hrun⟩ := ih fun p hp op hop => hstack p hp op (by omega)
    exact ⟨out, ops, he, fun op hop => by have := hops op hop; omega, hrun⟩

/-- **The postorder of what is written is that of the expression.** -/
theorem Derives.toPostorder (h : Derives k run e) : Token.toPostorder run = .ok e.postorder := by
  have hnil : Holds k [] := by rintro _ ⟨⟩
  obtain ⟨out, ops, he, -, hrun⟩ := h.toPostorderFrom run hnil
  have hend := hrun []
  rw [List.append_nil, List.append_nil] at hend
  rw [Token.toPostorder, hend, Token.toPostorderFrom, drain?_map, ← he]
  rfl

/-! ## Trees -/

/-- A postorder puts its tree on the stack. -/
theorem ofPostorderFrom_postorder (e : Expr) (whole : List Token) (stack : List Expr)
    (ts : List Token) :
    ofPostorderFrom whole stack (e.postorder ++ ts) = ofPostorderFrom whole (e :: stack) ts := by
  induction e generalizing stack ts with
  | var name => rw [postorder, List.singleton_append, ofPostorderFrom]
  | const digits => rw [postorder, List.singleton_append, ofPostorderFrom]
  | bin op left right ihl ihr =>
    rw [postorder, List.append_assoc, List.append_assoc, ihl, ihr, List.singleton_append,
      ofPostorderFrom]

/-- **The postorder of an expression is read back.** -/
theorem ofPostorder_postorder (e : Expr) : ofPostorder e.postorder = .ok e := by
  have h := ofPostorderFrom_postorder e e.postorder [] []
  rw [List.append_nil] at h
  rw [ofPostorder, h, ofPostorderFrom]

/-- **What is written by the grammar is read back.** -/
theorem parse_of_derives (h : Derives 1 run e) : parse run = .ok ⟨e, e.postorder⟩ := by
  have hforeign : run.find? (!allows ·) = none := by
    rw [List.find?_eq_none]
    intro t ht
    simp [h.allows t ht]
  have halternate : checkAlternation run = .ok () := by
    have := h.checkAlternationFrom run []
    rwa [List.append_nil] at this
  simp only [parse, hforeign, checkNeighbours_eq_ok.2 h.agree, halternate, h.toPostorder]
  show (ofPostorder e.postorder >>= fun tree => _) = _
  rw [ofPostorder_postorder]
  rfl

/-! ## Spelling -/

/-- **Well spelled**: names are names and constants are numerals. -/
def Spelled : Expr → Prop
  | .var name => Text.isName name.toList
  | .const digits => Text.isNumeral digits.toList
  | .bin _ left right => left.Spelled ∧ right.Spelled

instance decidableSpelled : (e : Expr) → Decidable e.Spelled
  | .var name => inferInstanceAs (Decidable (Text.isName name.toList))
  | .const digits => inferInstanceAs (Decidable (Text.isNumeral digits.toList))
  | .bin _ left right =>
    have := left.decidableSpelled
    have := right.decidableSpelled
    inferInstanceAs (Decidable (left.Spelled ∧ right.Spelled))

/-- It is printed with well spelled tokens, if its names and constants are well spelled. -/
theorem wellSpelled_of_mem_written {parens : Parens} (he : e.Spelled) :
    ∀ t ∈ e.written parens k, t.wellSpelled := by
  induction e generalizing k with
  | var name =>
    rintro _ (_ | ⟨_, ⟨⟩⟩)
    exact he
  | const digits =>
    rintro _ (_ | ⟨_, ⟨⟩⟩)
    exact he
  | bin op left right ihl ihr =>
    have hrun : ∀ t ∈ left.written parens op.precedence ++
        .arith op :: right.written parens (op.precedence + 1), t.wellSpelled := by
      simp only [List.mem_append, List.mem_cons]
      rintro t (ht | rfl | ht)
      · exact ihl he.1 t ht
      · rfl
      · exact ihr he.2 t ht
    unfold written
    dsimp only
    split
    · exact hrun
    · intro t ht
      rcases List.mem_append.1 ht with ht | ht
      · rcases List.mem_cons.1 ht with rfl | ht
        · rfl
        · exact hrun t ht
      · rw [List.mem_singleton.1 ht]
        rfl

/-- An expression is spelled as the tokens that it is written with. -/
theorem Derives.spelled (h : Derives k run e) (hrun : ∀ t ∈ run, t.wellSpelled) : e.Spelled := by
  induction h with
  | var name => exact hrun _ List.mem_cons_self
  | const digits => exact hrun _ List.mem_cons_self
  | paren h ih =>
    simp only [List.forall_mem_append, List.forall_mem_cons] at hrun
    exact ih hrun.1.2
  | bin op hl hr ihl ihr =>
    simp only [List.forall_mem_append, List.forall_mem_cons] at hrun
    exact ⟨ihl hrun.1, ihr hrun.2.2⟩
  | lift h ih => exact ih hrun

end Expr

end ProgramFacts
