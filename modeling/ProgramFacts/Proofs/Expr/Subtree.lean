import ProgramFacts.Clause
import ProgramFacts.Proofs.Expr.Grammar
import ProgramFacts.Proofs.Text
/-!
# Expressions — parts of a postorder

A run of words inside the postorder of an expression may start and end anywhere. If it is itself
the postorder of an expression, it is that of a part of the tree (`infix_postorder_iff`): operands
are put on a stack and operators take them off, so a run that begins in the left operand and ends
in the right one would leave two trees behind, one for each piece, and a postorder leaves one
(`surplus_postorder`). Words tell the tokens that they stand for, since a name, a numeral and an
operator never look alike (`filterMap_rpn`), and so the same holds of words
(`infix_rpn_iff`).
-/

namespace ProgramFacts

namespace Expr

variable {e t : Expr} {xs ys : List Token}

/-- **The parts of an expression**, the whole first. -/
def subtrees : Expr → List Expr
  | .var name => [.var name]
  | .const digits => [.const digits]
  | .bin op left right => .bin op left right :: (left.subtrees ++ right.subtrees)

theorem self_mem_subtrees (e : Expr) : e ∈ e.subtrees := by
  cases e <;> simp [subtrees]

/-! ## How a postorder ends -/

/-- The token that a postorder ends with. -/
def root : Expr → Token
  | .var name => .var name
  | .const digits => .const digits
  | .bin op _ _ => .arith op

/-- What comes before the last token of a postorder. -/
def operands : Expr → List Token
  | .var _ | .const _ => []
  | .bin _ left right => left.postorder ++ right.postorder

/-- The root comes last. -/
theorem postorder_eq (e : Expr) : e.postorder = e.operands ++ [e.root] := by
  cases e <;> rfl

theorem postorder_ne_nil (e : Expr) : e.postorder ≠ [] := by
  simp [postorder_eq]

/-- **No two expressions end alike**: where one postorder ends, no other one does. -/
theorem append_postorder_inj (h : xs ++ e.postorder = ys ++ t.postorder) : xs = ys ∧ e = t := by
  have hends : ∀ {e t : Expr} {xs ys}, xs ++ e.postorder = ys ++ t.postorder →
      xs ++ e.operands = ys ++ t.operands ∧ e.root = t.root := by
    intro e t xs ys h
    rw [postorder_eq, postorder_eq, ← List.append_assoc, ← List.append_assoc] at h
    obtain ⟨hfront, hlast⟩ := List.append_inj' h rfl
    exact ⟨hfront, List.singleton_inj.1 hlast⟩
  induction e generalizing t xs ys with
  | var | const =>
    obtain ⟨hfront, hroot⟩ := hends h
    cases t <;> cases hroot
    exact ⟨by simpa [operands] using hfront, rfl⟩
  | bin op left right ihl ihr =>
    obtain ⟨hfront, hroot⟩ := hends h
    cases t <;> cases hroot
    -- before the operator come the right operands, and before these the left ones
    rw [operands, operands, ← List.append_assoc, ← List.append_assoc] at hfront
    obtain ⟨hleft, rfl⟩ := ihr hfront
    obtain ⟨hxs, rfl⟩ := ihl hleft
    exact ⟨hxs, rfl⟩

/-- **The postorder determines the expression.** -/
theorem postorder_injective (h : e.postorder = t.postorder) : e = t := by
  have hends : [] ++ e.postorder = [] ++ t.postorder := h
  exact (append_postorder_inj hends).2

/-! ## What a run leaves behind -/

/-- How many trees a run leaves on the stack beyond those that it takes from it. -/
def surplus : List Token → Int
  | [] => 0
  | t :: run => (if t.isOperand then 1 else -1) + surplus run

/-- Surplus adds up. -/
theorem surplus_append (xs ys : List Token) : surplus (xs ++ ys) = surplus xs + surplus ys := by
  induction xs with
  | nil => rw [List.nil_append, surplus, Int.zero_add]
  | cons t xs ih =>
    rw [List.cons_append, surplus, surplus, ih]
    omega

/-- **The surplus of an expression is one**: operators take two and give one. -/
theorem surplus_postorder (e : Expr) : surplus e.postorder = 1 := by
  induction e with
  | var | const => rfl
  | bin op left right ihl ihr =>
    have hop : surplus [.arith op] = -1 := rfl
    rw [postorder, surplus_append, surplus_append, ihl, ihr, hop]
    omega

/-- **The beginning of a postorder leaves a tree behind**, wherever it is cut. -/
theorem one_le_surplus (h : xs ++ ys = e.postorder) (hne : xs ≠ []) : 1 ≤ surplus xs := by
  induction e generalizing xs ys with
  | var name | const digits =>
    rcases List.append_eq_singleton_iff.1 h with ⟨hnil, -⟩ | ⟨rfl, -⟩
    · exact absurd hnil hne
    · exact Int.le_refl 1
  | bin op left right ihl ihr =>
    rw [postorder, List.append_assoc] at h
    rcases List.append_eq_append_iff.1 h with ⟨ms, hms, -⟩ | ⟨ms, rfl, hms⟩
    · -- the cut is in the left operand
      exact ihl hms.symm hne
    · have hleft := surplus_postorder left
      have hmiddle : 0 ≤ surplus ms := by
        rcases List.append_eq_append_iff.1 hms.symm with ⟨ws, hws, -⟩ | ⟨ws, rfl, hws⟩
        · -- the cut is in the right operand, or just before it
          by_cases hnil : ms = []
          · rw [hnil]
            exact Int.le_refl 0
          · have := ihr hws.symm hnil
            omega
        · -- the cut is after the right operand, with the operator behind it or before it
          have hright := surplus_postorder right
          rw [surplus_append]
          rcases List.append_eq_singleton_iff.1 hws.symm with ⟨rfl, -⟩ | ⟨rfl, -⟩
          · have hnone : surplus [] = 0 := rfl
            omega
          · have hop : surplus [.arith op] = -1 := rfl
            omega
      rw [surplus_append]
      omega

/-! ## Parts -/

/-- **A postorder does not straddle the beginning of another**: it ends before, or starts
there or later. -/
theorem infix_or_infix_of_append (h : e.postorder <:+: xs ++ t.postorder) :
    e.postorder <:+: xs ∨ e.postorder <:+: t.postorder := by
  obtain ⟨before, after, h⟩ := h
  rcases List.append_eq_append_iff.1 h with ⟨ms, rfl, -⟩ | ⟨ms, hms, hafter⟩
  · exact .inl ⟨before, ms, rfl⟩
  · rcases List.append_eq_append_iff.1 hms with ⟨ns, rfl, he⟩ | ⟨ns, -, rfl⟩
    · -- `ns` is the piece of `e` in `xs`, and `ms` is the piece beyond
      by_cases hns : ns = []
      · rw [hns, List.nil_append] at he
        exact .inr ⟨[], after, by rw [he, hafter, List.nil_append]⟩
      · by_cases hms : ms = []
        · rw [hms, List.append_nil] at he
          exact .inl ⟨before, [], by rw [he, List.append_nil]⟩
        · have hfirst := one_le_surplus he.symm hns
          have hsecond := one_le_surplus hafter.symm hms
          have hboth := surplus_postorder e
          rw [he, surplus_append] at hboth
          omega
    · exact .inr ⟨ns, after, by rw [hafter, List.append_assoc]⟩

/-- **A postorder inside another is that of a part.** -/
theorem mem_subtrees_of_isInfix (h : e.postorder <:+: t.postorder) : e ∈ t.subtrees := by
  induction t with
  | var name | const digits =>
    have hlength : 1 ≤ e.postorder.length := List.length_pos_iff.2 e.postorder_ne_nil
    rw [postorder_injective (h.sublist.eq_of_length_le hlength)]
    exact self_mem_subtrees _
  | bin op left right ihl ihr =>
    obtain ⟨before, after, h⟩ := h
    rcases List.eq_nil_or_concat after with rfl | ⟨after, last, rfl⟩
    · -- the two end together
      have hends : before ++ e.postorder = [] ++ (bin op left right).postorder := by
        rw [← h, List.append_nil, List.nil_append]
      obtain ⟨-, rfl⟩ := append_postorder_inj hends
      exact self_mem_subtrees _
    · have hin : before ++ e.postorder ++ after = left.postorder ++ right.postorder := by
        rw [List.concat_eq_append, ← List.append_assoc] at h
        exact (List.append_inj' h rfl).1
      have hparts := infix_or_infix_of_append ⟨before, after, hin⟩
      exact List.mem_cons_of_mem _ (List.mem_append.2 (hparts.imp ihl ihr))

/-- **The postorder of a subtree stands together** in that of the tree. -/
theorem infix_of_mem_subtrees (h : e ∈ t.subtrees) : e.postorder <:+: t.postorder := by
  induction t with
  | var name | const digits =>
    obtain rfl := List.mem_singleton.1 h
    exact List.infix_rfl
  | bin op left right ihl ihr =>
    rcases List.mem_cons.1 h with rfl | h
    · exact List.infix_rfl
    · have hleft : left.postorder <:+: (bin op left right).postorder :=
        ⟨[], right.postorder ++ [.arith op], by simp [postorder]⟩
      have hright : right.postorder <:+: (bin op left right).postorder :=
        ⟨left.postorder, [.arith op], rfl⟩
      rcases List.mem_append.1 h with h | h
      · exact (ihl h).trans hleft
      · exact (ihr h).trans hright

/-- **The parts of an expression** are the expressions whose postorder is a run inside its own. -/
theorem infix_postorder_iff : e.postorder <:+: t.postorder ↔ e ∈ t.subtrees :=
  ⟨mem_subtrees_of_isInfix, infix_of_mem_subtrees⟩

/-! ## Words -/

/-- The operand or operator that a word stands for. -/
def tokenOf? (word : String) : Option Token :=
  (Token.ofText? .variableName word).or
    ((Token.ofText? .constant word).or (Token.ofText? .expressionOp word))

theorem isName_of_isNumeral {cs : List Char} (h : Text.isNumeral cs) : Text.isName cs = false := by
  cases cs with
  | nil => rfl
  | cons c cs =>
    have hdigit : c.isDigit := Text.isDigit_of_mem_numeral h c List.mem_cons_self
    simp [Text.isName, Text.isAlpha_of_isDigit hdigit]

/-- **The words of an expression tell its tokens.** -/
theorem filterMap_rpn (he : e.Spelled) : e.rpn.filterMap tokenOf? = e.postorder := by
  induction e with
  | var name =>
    have hname : tokenOf? name = some (.var name) := by
      simp [tokenOf?, Token.ofText?, show Text.isName name.toList from he]
    simp [rpn, postorder, Token.text, hname]
  | const digits =>
    have hnumeral : Text.isNumeral digits.toList := he
    have hdigits : tokenOf? digits = some (.const digits) := by
      simp [tokenOf?, Token.ofText?, isName_of_isNumeral hnumeral, hnumeral]
    simp [rpn, postorder, Token.text, hdigits]
  | bin op left right ihl ihr =>
    have hop : tokenOf? op.text = some (.arith op) := by
      cases op <;> decide
    have hl := ihl he.1
    have hr := ihr he.2
    rw [rpn] at hl hr
    simp [rpn, postorder, Token.text, hl, hr, hop]

/-- **The parts of an expression** are those whose words are a run inside its own. -/
theorem infix_rpn_iff (he : e.Spelled) (ht : t.Spelled) : e.rpn <:+: t.rpn ↔ e ∈ t.subtrees := by
  rw [← infix_postorder_iff]
  constructor
  · intro h
    have hread := h.filterMap tokenOf?
    rwa [filterMap_rpn he, filterMap_rpn ht] at hread
  · exact fun h => h.map Token.text

/-- The words of an expression determine it too, if it is well spelled. -/
theorem rpn_inj (he : e.Spelled) (ht : t.Spelled) : t.rpn = e.rpn ↔ e = t := by
  constructor
  · intro h
    have hread := congrArg (List.filterMap tokenOf?) h
    rw [filterMap_rpn he, filterMap_rpn ht] at hread
    exact postorder_injective hread.symm
  · intro h
    rw [h]

end Expr

/-! ## Patterns -/

/-- A whole pattern fits the expression with its words. -/
theorem Pattern.matches_whole {words assigned : List String} :
    Pattern.matches ⟨false, words⟩ assigned ↔ assigned = words := by
  simp [Pattern.matches]

/-- A part fits where its words stand together. -/
theorem Pattern.matches_partly {words assigned : List String} (hne : words ≠ []) :
    Pattern.matches ⟨true, words⟩ assigned ↔ words <:+: assigned := by
  simp only [Pattern.matches, if_true, decide_eq_true_eq, and_iff_right hne, List.any_eq_true,
    List.mem_range, List.isPrefixOf_iff_prefix]
  constructor
  · rintro ⟨i, -, hprefix⟩
    exact hprefix.isInfix.trans (List.drop_suffix i assigned).isInfix
  · rintro ⟨before, after, h⟩
    have hpos := List.length_pos_iff.2 hne
    refine ⟨before.length, ?_, after, ?_⟩
    · rw [← h, List.length_append, List.length_append]
      omega
    · rw [← h, List.append_assoc, List.drop_left]

end ProgramFacts
