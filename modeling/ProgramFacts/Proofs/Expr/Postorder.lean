import ProgramFacts.Proofs.Expr.Subtree
/-!
# Expressions — the tree of a postorder

While a run is reduced, the trees on the stack stand for what has been read: their postorders, from
the lowest to the top, append to the tokens consumed so far. Every step keeps this, so a reduction
that ends with one tree has read the postorder of that tree, and from any stack on
(`ofPostorderFrom_eq_ok`). The other way round, the tokens of a stack put its trees back on it.
Hence reducing is the exact inverse of writing in postorder, on all runs of tokens
(`ofPostorder_inverts_postorder`).
-/

namespace ProgramFacts

namespace Expr

variable {run ts : List Token} {stack : List Expr} {e : Expr}

/-- The tokens that the trees on a stack were built from, those of the lowest tree first. -/
def consumed (stack : List Expr) : List Token :=
  stack.reverse.flatMap postorder

@[simp] theorem consumed_nil : consumed [] = [] := rfl

@[simp] theorem consumed_cons (e : Expr) (stack : List Expr) :
    consumed (e :: stack) = consumed stack ++ e.postorder := by
  simp [consumed]

/-- A stack is what the tokens that it stands for leave behind. -/
theorem ofPostorderFrom_consumed (run : List Token) (stack : List Expr) (ts : List Token) :
    ofPostorderFrom run [] (consumed stack ++ ts) = ofPostorderFrom run stack ts := by
  induction stack generalizing ts with
  | nil => rfl
  | cons e stack ih => rw [consumed_cons, List.append_assoc, ih, ofPostorderFrom_postorder]

/-- **No step loses or reorders a token.** An operator finds its right operand on top of its left
one, and puts a tree in their place whose postorder is theirs and the operator. -/
theorem consumed_of_ofPostorderFrom (h : ofPostorderFrom run stack ts = .ok e) :
    consumed stack ++ ts = e.postorder := by
  fun_induction ofPostorderFrom run stack ts with
  | case1 e' =>
    obtain rfl := Except.ok.inj h
    simp
  | case3 stack name ts ih => simpa [postorder] using ih h
  | case4 stack digits ts ih => simpa [postorder] using ih h
  | case5 right left stack op ts ih => simpa [postorder] using ih h
  -- more or less than one tree at the end, an operator without operands, a token of another kind
  | case2 | case6 | case7 => cases h

/-- **An expression is read if its postorder is what is on the stack and what is to come.** -/
theorem ofPostorderFrom_eq_ok :
    ofPostorderFrom run stack ts = .ok e ↔ consumed stack ++ ts = e.postorder := by
  refine ⟨consumed_of_ofPostorderFrom, fun h => ?_⟩
  calc ofPostorderFrom run stack ts
      = ofPostorderFrom run [] (consumed stack ++ ts) := by rw [ofPostorderFrom_consumed]
    _ = ofPostorderFrom run [] (e.postorder ++ []) := by rw [h, List.append_nil]
    _ = ofPostorderFrom run [e] [] := ofPostorderFrom_postorder e run [] []
    _ = .ok e := by rw [ofPostorderFrom]

/-- Tokens that a postorder can have: variables, constants and arithmetic operators. -/
def PostorderKind (kind : TokenKind) : Prop :=
  kind = .variableName ∨ kind = .constant ∨ kind = .expressionOp

theorem postorderKind_of_mem {t : Token} (ht : t ∈ e.postorder) : PostorderKind t.kind := by
  induction e with
  | var name => exact .inl (by rw [List.mem_singleton.1 ht, Token.kind])
  | const digits => exact .inr (.inl (by rw [List.mem_singleton.1 ht, Token.kind]))
  | bin op left right ihl ihr =>
    rcases List.mem_append.1 ht with ht | ht
    · exact (List.mem_append.1 ht).elim ihl ihr
    · exact .inr (.inr (by rw [List.mem_singleton.1 ht, Token.kind]))

/-- **Reducing is the exact inverse of writing in postorder.** A run of tokens of any kinds reduces
to a tree if and only if it has variables, constants and arithmetic operators only and is the
postorder of that tree. So a run that is no postorder is refused, and no two trees have the same
postorder. -/
theorem ofPostorder_inverts_postorder :
    (∀ (run : List Token) (e : Expr), ofPostorder run = .ok e ↔
      (∀ t ∈ run, PostorderKind t.kind) ∧ run = e.postorder) ∧
    (∀ run : List Token, (∃ fault, ofPostorder run = .error fault) ↔
      ∀ e : Expr, run ≠ e.postorder) ∧
    Function.Injective postorder := by
  have hreduce : ∀ (run : List Token) (e : Expr), ofPostorder run = .ok e ↔ run = e.postorder :=
    fun run e => ofPostorderFrom_eq_ok
  refine ⟨fun run e => ?_, fun run => ?_, fun e e' => postorder_injective⟩
  · refine (hreduce run e).trans ⟨fun h => ⟨fun t ht => ?_, h⟩, And.right⟩
    exact postorderKind_of_mem (h ▸ ht)
  · constructor
    · rintro ⟨fault, hfault⟩ e he
      cases hfault.symm.trans ((hreduce run e).2 he)
    · intro hnone
      cases hrun : ofPostorder run with
      | error fault => exact ⟨fault, rfl⟩
      | ok e => exact absurd ((hreduce run e).1 hrun) (hnone e)

end Expr

end ProgramFacts
