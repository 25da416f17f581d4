import ProgramFacts.Proofs.Expr.Acceptance
import ProgramFacts.Proofs.Expr.Postorder
/-!
# Expressions — no token is lost on the way to postorder

`Token.toPostorder` is defined on every run of tokens. It fails on a token that arithmetic has no
use for, and on parentheses that do not pair up, and on nothing else
(`exists_toPostorderFrom`). A stack says all that matters of what has been read: its parentheses are
those still open, so the tokens to come have to close as many (`PairsUp`); its operators are those
read and not yet put out, so they are what the rest of the postorder has beyond the tokens to come
(`perm_of_toPostorderFrom`). An operand never waits, so operands keep their order.
-/

namespace ProgramFacts

/-! ## Parentheses -/

namespace Token

variable {n : Nat} {t : Token} {ts : List Token}

/-- **A run that closes `n` parentheses** which were opened before it, and those that it opens
itself: none is closed that is not open, and none is left open. -/
structure PairsUp (n : Nat) (run : List Token) : Prop where
  count_le : ∀ seen, seen <+: run → seen.count .rightParen ≤ n + seen.count .leftParen
  count_eq : run.count .rightParen = n + run.count .leftParen

theorem pairsUp_nil : PairsUp n [] ↔ n = 0 := by
  constructor
  · intro h
    have := h.count_eq
    simpa using this.symm
  · rintro rfl
    refine ⟨fun seen hseen => ?_, rfl⟩
    rw [List.prefix_nil.1 hseen]
    exact Nat.le_refl 0

/-- A token changes how many parentheses are open from there on. -/
theorem pairsUp_cons {m : Nat} (h : n + [t].count .leftParen = m + [t].count .rightParen) :
    PairsUp n (t :: ts) ↔ PairsUp m ts := by
  have hcount : ∀ (p : Token) (seen : List Token),
      (t :: seen).count p = [t].count p + seen.count p := fun p seen => by
    rw [← List.count_append, List.singleton_append]
  have hright := hcount .rightParen
  have hleft := hcount .leftParen
  constructor
  · intro hpairs
    refine ⟨fun seen hseen => ?_, ?_⟩
    · have := hpairs.count_le (t :: seen) ((List.prefix_cons_inj t).2 hseen)
      rw [hright seen, hleft seen] at this
      omega
    · have := hpairs.count_eq
      rw [hright ts, hleft ts] at this
      omega
  · intro hpairs
    refine ⟨fun seen hseen => ?_, ?_⟩
    · rcases List.prefix_cons_iff.1 hseen with rfl | ⟨rest, rfl, hrest⟩
      · simp
      · have := hpairs.count_le rest hrest
        rw [hright rest, hleft rest]
        omega
    · have := hpairs.count_eq
      rw [hright ts, hleft ts]
      omega

theorem pairsUp_cons_of_not_paren (ht : t.isParen = false) : PairsUp n (t :: ts) ↔ PairsUp n ts := by
  apply pairsUp_cons
  cases t with
  | leftParen | rightParen => cases ht
  | _ => rfl

theorem pairsUp_leftParen : PairsUp n (.leftParen :: ts) ↔ PairsUp (n + 1) ts :=
  pairsUp_cons rfl

theorem pairsUp_rightParen : PairsUp (n + 1) (.rightParen :: ts) ↔ PairsUp n ts :=
  pairsUp_cons rfl

/-- With nothing open, nothing can be closed. -/
theorem not_pairsUp_rightParen : ¬ PairsUp 0 (.rightParen :: ts) := by
  intro h
  have := h.count_le [.rightParen] (List.prefix_append [_] ts)
  simp at this

/-- Nothing was open before a whole run. -/
theorem pairsUp_zero {run : List Token} : PairsUp 0 run ↔
    (∀ seen, seen <+: run → seen.count .rightParen ≤ seen.count .leftParen) ∧
      run.count .rightParen = run.count .leftParen := by
  constructor
  · intro h
    refine ⟨fun seen hseen => ?_, ?_⟩
    · have := h.count_le seen hseen
      omega
    · have := h.count_eq
      omega
  · rintro ⟨hle, heq⟩
    refine ⟨fun seen hseen => ?_, by omega⟩
    have := hle seen hseen
    omega

theorem isParen_of_isOperand (ht : t.isOperand) : t.isParen = false := by
  cases t with
  | leftParen | rightParen => cases ht
  | _ => rfl

end Token

/-! ## What a stack holds -/

namespace Pending

variable {op : ArithOp} {stack below : List Pending} {out : List Token}

theorem operators_append (xs ys : List Pending) :
    operators (xs ++ ys) = operators xs ++ operators ys :=
  List.filterMap_append

/-- No operand ever waits. -/
theorem filter_isOperand_operators (stack : List Pending) :
    (operators stack).filter Token.isOperand = [] := by
  rw [List.filter_eq_nil_iff]
  intro t ht
  obtain ⟨p, -, hp⟩ := List.mem_filterMap.1 ht
  cases p with
  | paren => cases hp
  | operator op =>
    obtain rfl := Option.some.inj hp
    simp [Token.isOperand, Token.kind, TokenKind.isOperand]

theorem count_paren_map (ops : List ArithOp) : (ops.map operator).count .paren = 0 := by
  rw [List.count_eq_zero]
  simp

/-- Letting operators go closes no parenthesis. -/
theorem count_paren_dropWhile (op : ArithOp) (stack : List Pending) :
    (stack.dropWhile (yieldsTo op)).count .paren = stack.count .paren := by
  obtain ⟨ops, hstack, -⟩ := Expr.exists_yielding op stack
  conv_rhs => rw [hstack, List.count_append, count_paren_map, Nat.zero_add]

/-- What is closed is one parenthesis, and what is put out are the operators above it. -/
theorem untilParen?_spec (h : untilParen? stack = some (out, below)) :
    stack.count .paren = below.count .paren + 1 ∧ operators stack = out ++ operators below := by
  obtain ⟨ops, rfl⟩ := Expr.exists_of_untilParen? h
  rw [Expr.untilParen?_append] at h
  obtain ⟨rfl, -⟩ := Prod.mk.inj (Option.some.inj h)
  refine ⟨?_, ?_⟩
  · rw [List.count_append, count_paren_map, Nat.zero_add, List.count_cons_self]
  · rw [operators_append, Expr.operators_map]
    rfl

theorem untilParen?_eq_none : untilParen? stack = none ↔ stack.count .paren = 0 := by
  induction stack with
  | nil => simp [untilParen?]
  | cons p stack ih =>
    cases p with
    | paren => simp [untilParen?]
    | operator op =>
      rw [List.count_cons_of_ne (by simp), ← ih, untilParen?]
      cases untilParen? stack <;> simp

/-- The stack is put out at the end if no parenthesis is open, and then as it is. -/
theorem drain?_eq_some :
    drain? stack = some out ↔ stack.count .paren = 0 ∧ out = operators stack := by
  constructor
  · intro h
    obtain ⟨ops, rfl⟩ := Expr.exists_of_drain? h
    rw [Expr.drain?_map] at h
    rw [Expr.operators_map]
    exact ⟨count_paren_map ops, (Option.some.inj h).symm⟩
  · rintro ⟨hcount, rfl⟩
    induction stack with
    | nil => rfl
    | cons p stack ih =>
      cases p with
      | paren => simp at hcount
      | operator op =>
        rw [List.count_cons_of_ne (by simp)] at hcount
        rw [drain?, ih hcount]
        rfl

end Pending

/-! ## Steps -/

namespace Token

/-- What an infix run is made of: variables, constants, arithmetic operators, parentheses. -/
def InfixKind (kind : TokenKind) : Prop :=
  Expr.PostorderKind kind ∨ kind = .leftParen ∨ kind = .rightParen

end Token

/-- **One step on the way to postorder**: a token comes to a stack, some tokens are put out, and a
stack is left. -/
inductive Pending.Step : List Pending → Token → List Token → List Pending → Prop
  | operand {stack : List Pending} {t : Token} (ht : t.isOperand) : Step stack t [t] stack
  | arith {stack : List Pending} (op : ArithOp) :
    Step stack (.arith op) (operators (stack.takeWhile (yieldsTo op)))
      (.operator op :: stack.dropWhile (yieldsTo op))
  | opening {stack : List Pending} : Step stack .leftParen [] (.paren :: stack)
  | closing {stack below : List Pending} {ops : List Token}
    (h : untilParen? stack = some (ops, below)) : Step stack .rightParen ops below

namespace Pending.Step

variable {stack next : List Pending} {t : Token} {now ts : List Token}

theorem infixKind (h : Step stack t now next) : Token.InfixKind t.kind := by
  cases h with
  | operand ht =>
    cases t with
    | var name => exact .inl (.inl rfl)
    | const digits => exact .inl (.inr (.inl rfl))
    | _ => cases ht
  | arith op => exact .inl (.inr (.inr rfl))
  | opening => exact .inr (.inl rfl)
  | closing h => exact .inr (.inr rfl)

/-- **A step keeps count of the open parentheses.** -/
theorem pairsUp_iff (h : Step stack t now next) :
    Token.PairsUp (stack.count .paren) (t :: ts) ↔ Token.PairsUp (next.count .paren) ts := by
  cases h with
  | operand ht => exact Token.pairsUp_cons_of_not_paren (Token.isParen_of_isOperand ht)
  | arith op =>
    rw [List.count_cons_of_ne (by simp), count_paren_dropWhile]
    exact Token.pairsUp_cons_of_not_paren rfl
  | opening =>
    rw [List.count_cons_self]
    exact Token.pairsUp_leftParen
  | closing h =>
    rw [(untilParen?_spec h).1]
    exact Token.pairsUp_rightParen

/-- **A step loses no token and makes none up**: what is put out and what waits is what waited and
what came, parentheses apart. -/
theorem perm (h : Step stack t now next) :
    (now ++ operators next).Perm (operators stack ++ [t].filter (!·.isParen)) := by
  cases h with
  | operand ht =>
    rw [List.filter_singleton, Token.isParen_of_isOperand ht]
    exact List.perm_append_comm
  | arith op =>
    have hstack : operators stack = operators (stack.takeWhile (yieldsTo op)) ++
        operators (stack.dropWhile (yieldsTo op)) := by
      rw [← operators_append, List.takeWhile_append_dropWhile]
    rw [hstack, List.append_assoc]
    exact (List.perm_append_singleton _ _).symm.append_left _
  | opening =>
    exact .of_eq (List.append_nil _).symm
  | closing h =>
    rw [(untilParen?_spec h).2]
    exact .of_eq (List.append_nil _).symm

/-- Operands are put out as they come. -/
theorem operands (h : Step stack t now next) :
    now.filter Token.isOperand = [t].filter Token.isOperand := by
  cases h with
  | operand ht => rfl
  | arith op => exact filter_isOperand_operators _
  | opening => rfl
  | closing h =>
    have := filter_isOperand_operators stack
    rw [(untilParen?_spec h).2, List.filter_append, List.append_eq_nil_iff] at this
    exact this.1

end Pending.Step

/-- A token of an infix run makes a step, unless it closes a parenthesis that is not open. -/
theorem Pending.exists_step {stack : List Pending} {t : Token} {ts : List Token}
    (hkind : Token.InfixKind t.kind) (hpairs : Token.PairsUp (stack.count .paren) (t :: ts)) :
    ∃ now next, Step stack t now next := by
  cases t with
  | var name => exact ⟨_, _, .operand rfl⟩
  | const digits => exact ⟨_, _, .operand rfl⟩
  | arith op => exact ⟨_, _, .arith op⟩
  | leftParen => exact ⟨_, _, .opening⟩
  | rightParen =>
    cases huntil : untilParen? stack with
    | none =>
      rw [untilParen?_eq_none.1 huntil] at hpairs
      exact absurd hpairs Token.not_pairsUp_rightParen
    | some split => exact ⟨_, _, .closing huntil⟩
  | _ => simp [Token.InfixKind, Expr.PostorderKind, Token.kind] at hkind

/-! ## Runs -/

namespace Token

variable {whole ts out : List Token} {stack : List Pending} {t : Token}

/-- **To put a run into postorder is to make a step for each token.** -/
theorem toPostorderFrom_cons_eq_ok :
    toPostorderFrom whole stack (t :: ts) = .ok out ↔
      ∃ now next rest, Pending.Step stack t now next ∧
        toPostorderFrom whole next ts = .ok rest ∧ out = now ++ rest := by
  constructor
  · intro h
    cases t with
    | var name | const digits =>
      rw [Expr.toPostorderFrom_operand whole stack ts rfl] at h
      obtain ⟨rest, hrest, rfl⟩ := Outcome.map_eq_ok.1 h
      exact ⟨_, _, rest, .operand rfl, hrest, rfl⟩
    | arith op =>
      rw [Expr.toPostorderFrom_arith] at h
      obtain ⟨rest, hrest, rfl⟩ := Outcome.map_eq_ok.1 h
      exact ⟨_, _, rest, .arith op, hrest, rfl⟩
    | leftParen =>
      rw [toPostorderFrom] at h
      exact ⟨_, _, out, .opening, h, rfl⟩
    | rightParen =>
      cases huntil : Pending.untilParen? stack with
      | none => simp [toPostorderFrom, huntil] at h
      | some split =>
        rw [Expr.toPostorderFrom_rightParen whole stack ts huntil] at h
        obtain ⟨rest, hrest, rfl⟩ := Outcome.map_eq_ok.1 h
        exact ⟨_, _, rest, .closing huntil, hrest, rfl⟩
    | _ => simp [toPostorderFrom] at h
  · rintro ⟨now, next, rest, hstep, hrest, rfl⟩
    cases hstep with
    | operand ht =>
      rw [Expr.toPostorderFrom_operand whole stack ts ht, hrest]
      rfl
    | arith op =>
      rw [Expr.toPostorderFrom_arith, hrest]
      rfl
    | opening =>
      rw [toPostorderFrom]
      exact hrest
    | closing huntil =>
      rw [Expr.toPostorderFrom_rightParen whole stack ts huntil, hrest]
      rfl

theorem toPostorderFrom_nil_eq_ok :
    toPostorderFrom whole stack [] = .ok out ↔
      stack.count .paren = 0 ∧ out = Pending.operators stack := by
  rw [← Pending.drain?_eq_some, toPostorderFrom]
  cases Pending.drain? stack <;> simp

/-- **Which runs can be put into postorder**, from any stack on: those of infix tokens that close
the parentheses on the stack. -/
theorem exists_toPostorderFrom :
    (∃ out, toPostorderFrom whole stack ts = .ok out) ↔
      (∀ t ∈ ts, InfixKind t.kind) ∧ PairsUp (stack.count .paren) ts := by
  induction ts generalizing stack with
  | nil => simp [toPostorderFrom_nil_eq_ok, pairsUp_nil]
  | cons t ts ih =>
    rw [List.forall_mem_cons]
    constructor
    · rintro ⟨out, h⟩
      obtain ⟨now, next, rest, hstep, hrest, -⟩ := toPostorderFrom_cons_eq_ok.1 h
      obtain ⟨hkinds, hpairs⟩ := ih.1 ⟨rest, hrest⟩
      exact ⟨⟨hstep.infixKind, hkinds⟩, hstep.pairsUp_iff.2 hpairs⟩
    · rintro ⟨⟨hkind, hkinds⟩, hpairs⟩
      obtain ⟨now, next, hstep⟩ := Pending.exists_step hkind hpairs
      obtain ⟨rest, hrest⟩ := ih.2 ⟨hkinds, hstep.pairsUp_iff.1 hpairs⟩
      exact ⟨now ++ rest, toPostorderFrom_cons_eq_ok.2 ⟨now, next, rest, hstep, hrest, rfl⟩⟩

/-- **What is put out is what waits on the stack and what comes**, parentheses apart. -/
theorem perm_of_toPostorderFrom (h : toPostorderFrom whole stack ts = .ok out) :
    out.Perm (Pending.operators stack ++ ts.filter (!·.isParen)) := by
  induction ts generalizing stack out with
  | nil =>
    rw [(toPostorderFrom_nil_eq_ok.1 h).2]
    exact .of_eq (List.append_nil _).symm
  | cons t ts ih =>
    obtain ⟨now, next, rest, hstep, hrest, rfl⟩ := toPostorderFrom_cons_eq_ok.1 h
    have hcons : (t :: ts).filter (!·.isParen) =
        [t].filter (!·.isParen) ++ ts.filter (!·.isParen) := by
      rw [← List.filter_append, List.singleton_append]
    calc (now ++ rest).Perm (now ++ (Pending.operators next ++ ts.filter (!·.isParen))) :=
          (ih hrest).append_left now
      _ = now ++ Pending.operators next ++ ts.filter (!·.isParen) := by rw [List.append_assoc]
      List.Perm _ (Pending.operators stack ++ [t].filter (!·.isParen) ++ ts.filter (!·.isParen)) :=
          hstep.perm.append_right _
      _ = Pending.operators stack ++ (t :: ts).filter (!·.isParen) := by
          rw [List.append_assoc, hcons]

/-- **Operands keep their order.** -/
theorem operands_of_toPostorderFrom (h : toPostorderFrom whole stack ts = .ok out) :
    out.filter isOperand = ts.filter isOperand := by
  induction ts generalizing stack out with
  | nil =>
    rw [(toPostorderFrom_nil_eq_ok.1 h).2]
    exact Pending.filter_isOperand_operators stack
  | cons t ts ih =>
    obtain ⟨now, next, rest, hstep, hrest, rfl⟩ := toPostorderFrom_cons_eq_ok.1 h
    rw [List.filter_append, hstep.operands, ih hrest, ← List.filter_append, List.singleton_append]

/-- **Putting a run into postorder keeps its tokens**, whether or not the run is an expression. It
succeeds if and only if all tokens are variables, constants, arithmetic operators or parentheses, no
beginning of the run closes more parentheses than it opens, and the whole closes as many as it
opens. What comes out then are the tokens of the run without its parentheses, in an order that is
the old one as far as operands go. -/
theorem toPostorder_keeps_tokens :
    (∀ run : List Token, (∃ out, toPostorder run = .ok out) ↔
      (∀ t ∈ run, InfixKind t.kind) ∧
      (∀ seen, seen <+: run → seen.count .rightParen ≤ seen.count .leftParen) ∧
      run.count .rightParen = run.count .leftParen) ∧
    ∀ run out : List Token, toPostorder run = .ok out →
      out.Perm (run.filter (!·.isParen)) ∧ out.filter isOperand = run.filter isOperand := by
  refine ⟨fun run => ?_, fun run out h => ?_⟩
  · rw [← pairsUp_zero]
    -- the stack is empty at first, so no parenthesis is open
    exact exists_toPostorderFrom
  · exact ⟨perm_of_toPostorderFrom h, operands_of_toPostorderFrom h⟩

/-- The parser refuses `( + a ) b * 1`, which can be put into postorder all the same. -/
theorem toPostorder_strayOperators :
    let run : List Token :=
      [.leftParen, .arith .add, .var "a", .rightParen, .var "b", .arith .mul, .const "1"]
    let out : List Token := [.var "a", .arith .add, .var "b", .const "1", .arith .mul]
    (Expr.parse run).toOption = none ∧ toPostorder run = .ok out ∧
      out.Perm (run.filter (!·.isParen)) ∧ out.filter isOperand = run.filter isOperand := by
  intro run out
  have hout : toPostorder run = .ok out := rfl
  exact ⟨by decide, hout, toPostorder_keeps_tokens.2 run out hout⟩

end Token

end ProgramFacts
