import ProgramFacts.Expr.Parser
/-!
# Conditions — reading tokens

A run without `!`, `&&` and `||` is one comparison. Any other is `!(c)`, or `(c)`
joined to `(c)` by `&&` or `||`; there is no precedence to know, since every part
stands in parentheses. `Token.enclosed?` finds where a parenthesis closes.
-/

namespace ProgramFacts

/-! ## Parentheses -/

/-- What follows an opening parenthesis, cut at the parenthesis that closes it. -/
structure Enclosed (ts : List Token) where
  inner : List Token
  rest : List Token
  cut : ts = inner ++ .rightParen :: rest

/-- The same cut behind one more token, which goes inside. -/
def Enclosed.cons {ts : List Token} (t : Token) (e : Enclosed ts) : Enclosed (t :: ts) :=
  ⟨t :: e.inner, e.rest, by simp [e.cut]⟩

/-- Finds where a parenthesis closes. `depth` counts the parentheses opened since. -/
def Token.enclosed? : Nat → (ts : List Token) → Option (Enclosed ts)
  | _, [] => none
  | depth, .leftParen :: ts => (enclosed? (depth + 1) ts).map (.cons .leftParen)
  | 0, .rightParen :: ts => some ⟨[], ts, rfl⟩
  | depth + 1, .rightParen :: ts => (enclosed? depth ts).map (.cons .rightParen)
  | depth, t :: ts => (enclosed? depth ts).map (.cons t)

namespace Condition

/-! ## Comparisons -/

/-- Checks that no comparison follows the first: not a second one beside it, nor one in
parentheses. `depth` counts the parentheses that are open. -/
def checkNoRelation (depth : Int) : List Token → Except ConditionFault Unit
  | [] => .ok ()
  | .leftParen :: ts => checkNoRelation (depth + 1) ts
  | .rightParen :: ts => checkNoRelation (depth - 1) ts
  | .rel _ :: _ => .error (if depth = 0 then .severalRelations else .nestedRelation)
  | _ :: ts => checkNoRelation depth ts

/-- Splits a run at its one comparison, which stands in no parentheses. -/
def splitRelation (depth : Int) :
    List Token → Except ConditionFault (List Token × RelOp × List Token)
  | [] => .error .noRelation
  | .rel op :: ts =>
    if depth = 0 then do
      checkNoRelation depth ts
      return ([], op, ts)
    else .error .nestedRelation
  | t :: ts => do
    let depth :=
      match t with
      | .leftParen => depth + 1
      | .rightParen => depth - 1
      | _ => depth
    let (left, op, right) ← splitRelation depth ts
    return (t :: left, op, right)

/-- Reads a comparison of two expressions. -/
def parseComparison (run : List Token) : Except SourceError Condition := do
  let (left, op, right) ← (splitRelation 0 run).mapError (.condition · run)
  let left ← (Expr.parse left).mapError .expression
  let right ← (Expr.parse right).mapError .expression
  return .compare op left.tree right.tree

/-! ## Conditions -/

/-- Whether a token is a logical operator. -/
def isLogic : Token → Bool
  | .logic _ => true
  | _ => false

/-- What a run with a logical operator is made of: the insides of its parentheses. -/
inductive Shape (run : List Token)
  | not (inner : List Token) (eq : run = .logic .not :: .leftParen :: inner ++ [.rightParen])
  | join (op : Connective) (left right : List Token)
    (eq : run = .leftParen :: left ++ .rightParen :: .logic op.toOp :: .leftParen :: right ++
      [.rightParen])

/-- The shape of a run with a logical operator. -/
def shape : (run : List Token) → Except ConditionFault (Shape run)
  | .logic .not :: .leftParen :: ts =>
    match Token.enclosed? 0 ts with
    | none => .error .unbalanced
    | some ⟨inner, [], cut⟩ => .ok (.not inner (by simp [cut]))
    | some ⟨_, _ :: _, _⟩ => .error .trailingAfterNot
  | .logic .not :: _ => .error .notWithoutParen
  | .leftParen :: ts =>
    match Token.enclosed? 0 ts with
    | none => .error .unbalanced
    | some ⟨_, [], _⟩ => .error .noConnective
    | some ⟨left, .logic .and :: .leftParen :: ts, cut⟩ => shapeJoin .and left cut
    | some ⟨left, .logic .or :: .leftParen :: ts, cut⟩ => shapeJoin .or left cut
    | some ⟨_, .logic .and :: _, _⟩ | some ⟨_, .logic .or :: _, _⟩ =>
      .error .noOpeningAfterConnective
    | some ⟨_, _ :: _, _⟩ => .error .noConnective
  | _ => .error .noOpening
where
  /-- The shape of two joined conditions, when all but the second is known. -/
  shapeJoin {ts ts' : List Token} (op : Connective) (left : List Token)
      (cut : ts = left ++ .rightParen :: .logic op.toOp :: .leftParen :: ts') :
      Except ConditionFault (Shape (.leftParen :: ts)) :=
    match Token.enclosed? 0 ts' with
    | none => .error .unbalanced
    | some ⟨right, [], cut'⟩ => .ok (.join op left right (by simp [cut, cut']))
    | some ⟨_, _ :: _, _⟩ => .error .trailing

/-- **Reads a condition.** -/
def parse (run : List Token) : Except SourceError Condition :=
  if run.isEmpty then .error .emptyCondition
  else if !run.any isLogic then parseComparison run
  else
    match shape run with
    | .error fault => .error (.condition fault run)
    | .ok (.not inner _) => do
      let inner ← parse inner
      return .not inner
    | .ok (.join op left right _) => do
      let left ← parse left
      let right ← parse right
      return .join op left right
termination_by run.length
decreasing_by
  all_goals
    simp only [‹run = _›, List.length_cons, List.length_append]
    omega

end Condition

end ProgramFacts
