import ProgramFacts.Proofs.Expr.Acceptance
/-!
# Expressions — one reading for each run

The grammar of expressions with its derivations as data. An `Expr.Phrase` says which rule was
applied at every point, and has a run of tokens and a tree. No run belongs to two phrases
(`tokens_injective`). The reason is in the parentheses: outside of them a term has no `+` or `-`,
and a factor no operator at all (`keepsTo`), so a sum can only be cut at its last `+` or `-`, and
a term at its last operator. The parser reads the runs of phrases, and nothing else, and gives
their trees (`parse_iff_phrase`).
-/

namespace ProgramFacts

/-- What the grammar tells apart: expressions, their terms, and the factors of these. -/
inductive Expr.Level
  | expr | term | factor
  deriving DecidableEq

/-- **A derivation of the grammar.** An expression is an expression plus or minus a term, or a
term; a term is a term times, divided by or modulo a factor, or a factor; a factor is a variable,
a constant, or an expression in parentheses. -/
inductive Expr.Phrase : Expr.Level → Type
  | sum (left : Phrase .expr) (op : ArithOp) (hop : op = .add ∨ op = .sub)
    (right : Phrase .term) : Phrase .expr
  | ofTerm (term : Phrase .term) : Phrase .expr
  | product (left : Phrase .term) (op : ArithOp) (hop : op = .mul ∨ op = .div ∨ op = .mod)
    (right : Phrase .factor) : Phrase .term
  | ofFactor (factor : Phrase .factor) : Phrase .term
  | var (name : String) : Phrase .factor
  | const (digits : String) : Phrase .factor
  | paren (inner : Phrase .expr) : Phrase .factor

namespace Expr

variable {l m : Level} {xs ys : List Token} {op op' : ArithOp}

namespace Phrase

/-- The run of a phrase. -/
def tokens {l : Level} : Phrase l → List Token
  | .sum left op _ right => left.tokens ++ .arith op :: right.tokens
  | .ofTerm term => term.tokens
  | .product left op _ right => left.tokens ++ .arith op :: right.tokens
  | .ofFactor factor => factor.tokens
  | .var name => [.var name]
  | .const digits => [.const digits]
  | .paren inner => .leftParen :: inner.tokens ++ [.rightParen]

/-- The tree of a phrase: its operations, without what only keeps them apart. -/
def tree {l : Level} : Phrase l → Expr
  | .sum left op _ right => .bin op left.tree right.tree
  | .ofTerm term => term.tree
  | .product left op _ right => .bin op left.tree right.tree
  | .ofFactor factor => factor.tree
  | .var name => .var name
  | .const digits => .const digits
  | .paren inner => inner.tree

end Phrase

/-! ## Parentheses and operators -/

/-- How many more parentheses a run opens than it closes. -/
def nesting : List Token → Int
  | [] => 0
  | .leftParen :: run => nesting run + 1
  | .rightParen :: run => nesting run - 1
  | _ :: run => nesting run

theorem nesting_append (xs ys : List Token) : nesting (xs ++ ys) = nesting xs + nesting ys := by
  fun_induction nesting xs with
  | case1 => simp
  | case2 run ih =>
    rw [List.cons_append, nesting, ih]
    omega
  | case3 run ih =>
    rw [List.cons_append, nesting, ih]
    omega
  | case4 t run _ _ ih => rw [List.cons_append, nesting, ih] <;> assumption

theorem nesting_arith (op : ArithOp) (run : List Token) :
    nesting (.arith op :: run) = nesting run := rfl

/-- Whether an operator may stand in a phrase outside of all parentheses. -/
def Level.admits : Level → ArithOp → Prop
  | .expr, _ => True
  | .term, op => op = .mul ∨ op = .div ∨ op = .mod
  | .factor, _ => False

theorem Level.not_admits_term (hop : op = .add ∨ op = .sub) : ¬ Level.term.admits op := by
  rcases hop with rfl | rfl <;> simp [Level.admits]

/-- Before every operator of a run as many parentheses are open as were closed, or more; and
those that stand outside of all parentheses are admitted at the level. -/
def Level.KeepsTo (l : Level) (run : List Token) : Prop :=
  ∀ xs op ys, run = xs ++ .arith op :: ys → 0 ≤ nesting xs ∧ (nesting xs = 0 → l.admits op)

/-- Two cuts of one list are the same, or the one comes before the other. -/
theorem compare_cuts {α : Type} {xs ys us vs : List α} {a b : α}
    (h : xs ++ a :: ys = us ++ b :: vs) :
    (xs = us ∧ a = b ∧ ys = vs) ∨ (∃ zs, us = xs ++ a :: zs ∧ ys = zs ++ b :: vs) ∨
      ∃ zs, xs = us ++ b :: zs ∧ vs = zs ++ a :: ys := by
  rcases List.append_eq_append_iff.1 h with ⟨zs, rfl, hzs⟩ | ⟨zs, rfl, hzs⟩
  · cases zs with
    | nil => simp_all
    | cons c zs =>
      obtain ⟨rfl, rfl⟩ := List.cons.inj hzs
      exact .inr (.inl ⟨zs, rfl, rfl⟩)
  · cases zs with
    | nil => simp_all
    | cons c zs =>
      obtain ⟨rfl, rfl⟩ := List.cons.inj hzs
      exact .inr (.inr ⟨zs, rfl, rfl⟩)

/-- An operation keeps to its level if its operands keep to theirs. -/
theorem Level.KeepsTo.bin {left right : List Token} (hl : l.KeepsTo left)
    (hleft : nesting left = 0) (hr : m.KeepsTo right) (hop : l.admits op)
    (hm : ∀ op', m.admits op' → l.admits op') : l.KeepsTo (left ++ .arith op :: right) := by
  intro xs op' ys h
  rcases compare_cuts h with ⟨rfl, heq, -⟩ | ⟨zs, rfl, hright⟩ | ⟨zs, hleft', -⟩
  -- the operator itself, one in the right operand, one in the left
  · obtain rfl := Token.arith.inj heq
    exact ⟨by omega, fun _ => hop⟩
  · have hcut := hr zs op' ys hright
    rw [nesting_append, nesting_arith, hleft, Int.zero_add]
    exact ⟨hcut.1, fun hzero => hm op' (hcut.2 hzero)⟩
  · exact hl xs op' zs hleft'

/-- An operator inside of parentheses keeps to every level. -/
theorem Level.KeepsTo.paren {run : List Token} (h : m.KeepsTo run) (l : Level) :
    l.KeepsTo (.leftParen :: run ++ [.rightParen]) := by
  intro xs op ys heq
  cases xs with
  | nil => cases heq
  | cons t xs =>
    obtain ⟨rfl, -⟩ := List.cons.inj heq
    have hinner : run ++ [.rightParen] = xs ++ .arith op :: ys := (List.cons.inj heq).2
    rcases List.eq_nil_or_concat ys with rfl | ⟨ys, last, rfl⟩
    · cases (List.append_inj' hinner rfl).2
    · rw [List.concat_eq_append, ← List.cons_append, ← List.append_assoc] at hinner
      have hcut := h xs op ys (List.append_inj' hinner rfl).1
      rw [nesting]
      exact ⟨by omega, fun hzero => by omega⟩

namespace Phrase

theorem nesting_tokens (d : Phrase l) : nesting d.tokens = 0 := by
  induction d with
  | sum left op hop right ihl ihr | product left op hop right ihl ihr =>
    rw [tokens, nesting_append, nesting_arith, ihl, ihr]
    rfl
  | ofTerm term ih => exact ih
  | ofFactor factor ih => exact ih
  | var name => rfl
  | const digits => rfl
  | paren inner ih =>
    rw [tokens, List.cons_append, nesting, nesting_append, ih]
    rfl

/-- **The operators of a phrase outside of parentheses are those of its level.** -/
theorem keepsTo (d : Phrase l) : l.KeepsTo d.tokens := by
  induction d with
  | sum left op hop right ihl ihr =>
    exact ihl.bin left.nesting_tokens ihr trivial fun _ _ => trivial
  | product left op hop right ihl ihr =>
    exact ihl.bin left.nesting_tokens ihr hop fun _ => False.elim
  | ofTerm term ih =>
    intro xs op ys h
    exact ⟨(ih xs op ys h).1, fun _ => trivial⟩
  | ofFactor factor ih =>
    intro xs op ys h
    exact ⟨(ih xs op ys h).1, fun hzero => ((ih xs op ys h).2 hzero).elim⟩
  | var name | const digits =>
    intro xs op ys h
    cases xs <;> simp [tokens] at h
  | paren inner ih => exact ih.paren .factor

/-! ## One phrase for each run -/

/-- A phrase has no operator outside of parentheses that its level does not admit. -/
theorem not_cut (d : Phrase m) (hxs : nesting xs = 0) (hop : ¬ m.admits op) :
    d.tokens ≠ xs ++ .arith op :: ys :=
  fun h => hop ((d.keepsTo xs op ys h).2 hxs)

/-- **Where the right operand begins.** A run can be cut in one way only at an operator that what
comes after it does not admit. -/
theorem cut_unique (d d' : Phrase m) (hop : ¬ m.admits op) (hop' : ¬ m.admits op')
    (h : xs ++ .arith op :: d.tokens = ys ++ .arith op' :: d'.tokens) :
    xs = ys ∧ op = op' ∧ d.tokens = d'.tokens := by
  have hinside : ∀ {d d' : Phrase m} {op : ArithOp} {zs : List Token}, ¬ m.admits op →
      d.tokens ≠ zs ++ .arith op :: d'.tokens := by
    intro d d' op zs hop heq
    have hnesting := congrArg nesting heq
    rw [nesting_append, nesting_arith, d.nesting_tokens, d'.nesting_tokens] at hnesting
    exact d.not_cut (by omega) hop heq
  rcases compare_cuts h with ⟨hxs, heq, htokens⟩ | ⟨zs, -, hd⟩ | ⟨zs, -, hd'⟩
  · exact ⟨hxs, Token.arith.inj heq, htokens⟩
  · exact absurd hd (hinside hop')
  · exact absurd hd' (hinside hop)

/-- **The grammar is unambiguous.** -/
theorem tokens_injective : Function.Injective (tokens : Phrase l → List Token) := by
  intro d d' h
  induction d with
  | sum left op hop right ihl ihr =>
    have hnot := Level.not_admits_term hop
    cases d' with
    | sum left' op' hop' right' =>
      obtain ⟨hleft, rfl, hright⟩ := cut_unique right right' hnot (Level.not_admits_term hop') h
      rw [ihl hleft, ihr hright]
    | ofTerm term => exact absurd h.symm (term.not_cut left.nesting_tokens hnot)
  | ofTerm term ih =>
    cases d' with
    | sum left' op' hop' right' =>
      exact absurd h (term.not_cut left'.nesting_tokens (Level.not_admits_term hop'))
    | ofTerm term' => rw [ih h]
  | product left op hop right ihl ihr =>
    cases d' with
    | product left' op' hop' right' =>
      obtain ⟨hleft, rfl, hright⟩ := cut_unique right right' id id h
      rw [ihl hleft, ihr hright]
    | ofFactor factor => exact absurd h.symm (factor.not_cut left.nesting_tokens id)
  | ofFactor factor ih =>
    cases d' with
    | product left' op' hop' right' => exact absurd h (factor.not_cut left'.nesting_tokens id)
    | ofFactor factor' => rw [ih h]
  | var name =>
    cases d' with
    | var name' =>
      cases h
      rfl
    | const | paren => cases h
  | const digits =>
    cases d' with
    | const digits' =>
      cases h
      rfl
    | var | paren => cases h
  | paren inner ih =>
    cases d' with
    | paren inner' =>
      have hinner := (List.append_inj' (List.cons.inj h).2 rfl).1
      rw [ih hinner]
    | var | const => cases h

end Phrase

/-! ## Phrases and precedences -/

/-- How tightly all operators of a level bind, at least. -/
def Level.precedence : Level → Nat
  | .expr => 1
  | .term => 2
  | .factor => 3

theorem precedence_cases (op : ArithOp) : (op = .add ∨ op = .sub) ∧ op.precedence = 1 ∨
    (op = .mul ∨ op = .div ∨ op = .mod) ∧ op.precedence = 2 := by
  cases op <;> decide

namespace Phrase

theorem derives (d : Phrase l) : Derives l.precedence d.tokens d.tree := by
  induction d with
  | sum left op hop right ihl ihr =>
    rcases hop with rfl | rfl
    · exact .bin .add ihl ihr
    · exact .bin .sub ihl ihr
  | ofTerm term ih => exact .lift ih
  | product left op hop right ihl ihr =>
    rcases hop with rfl | rfl | rfl
    · exact .bin .mul ihl ihr
    · exact .bin .div ihl ihr
    · exact .bin .mod ihl ihr
  | ofFactor factor ih => exact .lift ih
  | var name => exact .var name
  | const digits => exact .const digits
  | paren inner ih => exact .paren ih

/-- A factor is a phrase of every level. -/
theorem exists_of_factor (d : Phrase .factor) (l : Level) :
    ∃ d' : Phrase l, d'.tokens = d.tokens ∧ d'.tree = d.tree := by
  cases l with
  | expr => exact ⟨.ofTerm (.ofFactor d), rfl, rfl⟩
  | term => exact ⟨.ofFactor d, rfl, rfl⟩
  | factor => exact ⟨d, rfl, rfl⟩

theorem exists_of_derives {k : Nat} {run : List Token} {e : Expr} (h : Derives k run e)
    (hl : l.precedence ≤ k) : ∃ d : Phrase l, d.tokens = run ∧ d.tree = e := by
  induction h generalizing l with
  | var name => exact exists_of_factor (.var name) l
  | const digits => exact exists_of_factor (.const digits) l
  | paren h ih =>
    obtain ⟨d, rfl, rfl⟩ := ih (l := .expr) (Nat.le_refl 1)
    exact exists_of_factor (.paren d) l
  | bin op hleft hright ihl ihr =>
    rcases precedence_cases op with ⟨hop, hone⟩ | ⟨hop, htwo⟩
    · obtain ⟨left, rfl, rfl⟩ := ihl (l := .expr) (Nat.le_of_eq hone.symm)
      obtain ⟨right, rfl, rfl⟩ := ihr (l := .term) (by rw [hone]; exact Nat.le_refl 2)
      cases l with
      | expr => exact ⟨.sum left op hop right, rfl, rfl⟩
      | term =>
        have : 2 ≤ op.precedence := hl
        omega
      | factor =>
        have : 3 ≤ op.precedence := hl
        omega
    · obtain ⟨left, rfl, rfl⟩ := ihl (l := .term) (Nat.le_of_eq htwo.symm)
      obtain ⟨right, rfl, rfl⟩ := ihr (l := .factor) (by rw [htwo]; exact Nat.le_refl 3)
      cases l with
      | expr => exact ⟨.ofTerm (.product left op hop right), rfl, rfl⟩
      | term => exact ⟨.product left op hop right, rfl, rfl⟩
      | factor =>
        have : 3 ≤ op.precedence := hl
        omega
  | lift h ih => exact ih (by omega)

end Phrase

/-- **The parser reads the phrases, and nothing else.** Every run has at most one derivation, and
is read if and only if it has one; what is read is then the tree of the derivation, with the
postorder of that tree. -/
theorem parse_iff_phrase :
    Function.Injective (Phrase.tokens : Phrase .expr → List Token) ∧
    ∀ (run : List Token) (p : Parsed), parse run = .ok p ↔
      ∃ d : Phrase .expr, d.tokens = run ∧ p = ⟨d.tree, d.tree.postorder⟩ := by
  refine ⟨Phrase.tokens_injective, fun run p => ?_⟩
  rw [parse_eq_ok]
  constructor
  · obtain ⟨e, out⟩ := p
    rintro ⟨he, hout⟩
    obtain ⟨d, hd, rfl⟩ := Phrase.exists_of_derives (l := .expr) he (Nat.le_refl 1)
    exact ⟨d, hd, congrArg (Parsed.mk d.tree) hout⟩
  · rintro ⟨d, rfl, rfl⟩
    exact ⟨d.derives, rfl⟩

-- equal operators group to the left, and a product binds tighter
example : (parse [.var "a", .arith .sub, .const "1", .arith .sub, .var "b", .arith .mod,
    .var "c"]).toOption.map Parsed.tree =
      some (.bin .sub (.bin .sub (.var "a") (.const "1")) (.bin .mod (.var "b") (.var "c"))) := by
  decide

end Expr

end ProgramFacts
