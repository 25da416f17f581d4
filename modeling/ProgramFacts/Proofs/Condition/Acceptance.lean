import ProgramFacts.Proofs.Condition.Grammar
import ProgramFacts.Proofs.Expr.Acceptance
/-!
# Conditions — what is read, and by which slices

A run is read as a condition if and only if the grammar writes that condition so
(`parse_eq_ok`): the converse of `parse_of_derives`. Then the same reading is done by
positions: parentheses and the comparison are looked for by counting, and every part is a
slice of the run. A slice that does not lie in the run would end it, and it never does: the
reading by positions gives what `parse` gives, on every run.
-/

namespace ProgramFacts

namespace Condition

variable {run : List Token} {c : Condition}

/-! ## Only what the grammar writes -/

/-- **What is read as a condition keeps to the grammar.** -/
theorem derives_of_parse (h : parse run = .ok c) : Derives run c := by
  fun_induction parse run generalizing c with
  | case1 => cases h
  | case2 run hne hlogic =>
    obtain ⟨⟨left, op, right⟩, hsplit, h⟩ := Outcome.bind_eq_ok.1 h
    obtain ⟨l, hl, h⟩ := Outcome.bind_eq_ok.1 h
    obtain ⟨r, hr, h⟩ := Outcome.bind_eq_ok.1 h
    obtain rfl := Except.ok.inj h
    rw [eq_of_splitRelation (Outcome.mapError_eq_ok.1 hsplit)]
    exact .compare op (Expr.derives_of_parse (Outcome.mapError_eq_ok.1 hl))
      (Expr.derives_of_parse (Outcome.mapError_eq_ok.1 hr))
  | case3 => cases h
  | case4 inner hne hlogic hshape ih =>
    obtain ⟨c', hc', h⟩ := Outcome.bind_eq_ok.1 h
    obtain rfl := Except.ok.inj h
    exact .not (ih hc')
  | case5 op left right hne hlogic hshape ihl ihr =>
    obtain ⟨l, hl, h⟩ := Outcome.bind_eq_ok.1 h
    obtain ⟨r, hr, h⟩ := Outcome.bind_eq_ok.1 h
    obtain rfl := Except.ok.inj h
    exact .join op (ihl hl) (ihr hr)

theorem parse_eq_ok : parse run = .ok c ↔ Derives run c :=
  ⟨derives_of_parse, parse_of_derives⟩

/-- **What is read from well spelled tokens is well spelled.** -/
theorem spelled_of_parse (h : parse run = .ok c) (hrun : ∀ t ∈ run, t.wellSpelled) : c.Spelled :=
  (derives_of_parse h).spelled hrun

/-! ## Slices -/

/-- The tokens from one position up to another, if these lie in the run and in this order. -/
def slice? (run : List Token) (start stop : Nat) : Option (List Token) :=
  if start ≤ stop ∧ stop ≤ run.length then some (run.extract start stop) else none

/-- What stands between two parts of a run is the slice from the end of the one to the start of
the other. -/
theorem slice?_of_eq {start stop : Nat} (xs ys zs : List Token) (hrun : run = xs ++ ys ++ zs)
    (hstart : xs.length = start) (hstop : xs.length + ys.length = stop) :
    slice? run start stop = some ys := by
  subst hrun hstart hstop
  have hbounds : xs.length ≤ xs.length + ys.length ∧
      xs.length + ys.length ≤ (xs ++ ys ++ zs).length := by
    simp only [List.length_append]
    omega
  rw [slice?, if_pos hbounds]
  simp

/-- A slice that leaves the first token out is shorter. -/
theorem length_lt_of_slice? {start stop : Nat} {part : List Token}
    (h : slice? run start stop = some part) (hstart : 0 < start) : part.length < run.length := by
  unfold slice? at h
  split at h
  · next hbounds =>
    obtain rfl := Option.some.inj h
    simp only [List.extract_eq_take_drop, List.length_take, List.length_drop]
    omega
  · cases h

/-! ## Parentheses by counting -/

/-- The position of the parenthesis that closes the first one of a run. `depth` counts those
that are open, and never falls below zero. -/
def closing? (depth position : Nat) : List Token → Option Nat
  | [] => none
  | .leftParen :: ts => closing? (depth + 1) (position + 1) ts
  | .rightParen :: ts =>
    if depth - 1 = 0 then some position else closing? (depth - 1) (position + 1) ts
  | _ :: ts => closing? depth (position + 1) ts

theorem map_length_cons {ts : List Token} (t : Token) (position : Nat) (o : Option (Enclosed ts)) :
    (o.map (Enclosed.cons t)).map (fun e => e.inner.length + position) =
      o.map fun e => e.inner.length + (position + 1) := by
  rw [Option.map_map]
  congr 1
  funext e
  simp only [Function.comp_apply, Enclosed.cons, List.length_cons]
  omega

/-- Counting comes to the parenthesis that `Token.enclosed?` cuts at. -/
theorem closing?_eq (depth position : Nat) (ts : List Token) :
    closing? (depth + 1) position ts =
      (Token.enclosed? depth ts).map (·.inner.length + position) := by
  fun_induction Token.enclosed? depth ts generalizing position with
  | case1 => rfl
  | case2 depth ts ih => rw [closing?, ih, map_length_cons]
  | case3 ts => simp [closing?]
  | case4 depth ts ih => rw [closing?, if_neg (by omega), Nat.add_sub_cancel, ih, map_length_cons]
  | case5 depth t ts hleft hzero hsucc ih =>
    have hright : t ≠ .rightParen := by
      cases depth <;> simp_all
    rw [closing?, ih, map_length_cons] <;> assumption

/-- The place of the closing parenthesis tells how long what it encloses is. -/
theorem closing?_open (position : Nat) (ts : List Token) :
    closing? 0 position (.leftParen :: ts) =
      (Token.enclosed? 0 ts).map (·.inner.length + (position + 1)) := by
  rw [closing?, closing?_eq]

/-! ## The comparison by counting -/

/-- The position of the one comparison of a run, looked for up to the end of the run. `found` is
the one met before. -/
def relationAt (depth : Int) (position : Nat) (found : Option Nat) :
    List Token → Except ConditionFault Nat
  | [] =>
    match found with
    | some place => .ok place
    | none => .error .noRelation
  | .leftParen :: ts => relationAt (depth + 1) (position + 1) found ts
  | .rightParen :: ts => relationAt (depth - 1) (position + 1) found ts
  | .rel _ :: ts =>
    if depth = 0 then
      match found with
      | some _ => .error .severalRelations
      | none => relationAt depth (position + 1) (some position) ts
    else .error .nestedRelation
  | _ :: ts => relationAt depth (position + 1) found ts

/-- After the first relational operator there may be no other. -/
theorem relationAt_some (depth : Int) (position place : Nat) (ts : List Token) :
    relationAt depth position (some place) ts = (checkNoRelation depth ts).map fun _ => place := by
  fun_induction checkNoRelation depth ts generalizing position with
  | case1 => rfl
  | case2 depth ts ih => exact ih _
  | case3 depth ts ih => exact ih _
  | case4 depth op ts =>
    rw [relationAt]
    split <;> rfl
  | case5 depth t ts h1 h2 h3 ih =>
    rw [relationAt, ih] <;> assumption

/-- **The place of the relational operator tells how long the left side is.** -/
theorem relationAt_none (depth : Int) (position : Nat) (ts : List Token) :
    relationAt depth position none ts =
      (splitRelation depth ts).map fun p => position + p.1.length := by
  fun_induction splitRelation depth ts generalizing position with
  | case1 => rfl
  | case2 op ts =>
    rw [relationAt, if_pos rfl, relationAt_some]
    cases checkNoRelation 0 ts <;> rfl
  | case3 depth op ts hne =>
    rw [relationAt, if_neg hne]
    rfl
  | case4 depth t ts hrel depth' ih =>
    have hstep : relationAt depth position none (t :: ts) =
        relationAt depth' (position + 1) none ts := by
      cases t with
      | rel op => exact absurd rfl (hrel op)
      | _ => rfl
    rw [hstep, ih]
    cases splitRelation depth' ts with
    | error => rfl
    | ok p =>
      simp only [Except.map, bind, Except.bind, pure, Except.pure, List.length_cons]
      congr 1
      omega

/-- Reads a comparison by positions. -/
def readComparison (run : List Token) : Option (Except SourceError Condition) :=
  match relationAt 0 0 none run with
  | .error fault => some (.error (.condition fault run))
  | .ok place => do
    let left ← slice? run 0 place
    let right ← slice? run (place + 1) run.length
    let .rel op ← run[place]? | none
    return do
      let left ← (Expr.parse left).mapError .expression
      let right ← (Expr.parse right).mapError .expression
      return .compare op left.tree right.tree

/-- **Both sides of a comparison can be sliced off**, and are read as before. -/
theorem readComparison_eq (run : List Token) :
    readComparison run = some (parseComparison run) := by
  rw [readComparison, relationAt_none, parseComparison]
  cases hsplit : splitRelation 0 run with
  | error fault => rfl
  | ok p =>
    obtain ⟨left, op, right⟩ := p
    obtain rfl := eq_of_splitRelation hsplit
    have hleft : slice? (left ++ .rel op :: right) 0 (0 + left.length) = some left :=
      slice?_of_eq [] left (.rel op :: right) rfl rfl rfl
    have hright : slice? (left ++ .rel op :: right) (0 + left.length + 1)
        (left ++ .rel op :: right).length = some right :=
      slice?_of_eq (left ++ [.rel op]) right [] (by simp) (by simp) (by simp; omega)
    have hat : (left ++ .rel op :: right)[0 + left.length]? = some (.rel op) := by simp
    simp only [Except.map, hleft, hright, hat]
    rfl

/-! ## Conditions by positions -/

/-- Where a run with a logical operator is cut: at the parentheses that close its parts. -/
inductive Cuts
  | not (close : Nat)
  | join (op : Connective) (close close' : Nat)

def connective? : Option Token → Option Connective
  | some (.logic .and) => some .and
  | some (.logic .or) => some .or
  | _ => none

/-- The cuts of a run, found by looking at its positions. -/
def cuts (run : List Token) : Except ConditionFault Cuts :=
  if run[0]? = some (.logic .not) then
    if run[1]? = some .leftParen then
      match closing? 0 1 (run.drop 1) with
      | none => .error .unbalanced
      | some close =>
        if close = run.length - 1 then .ok (.not close) else .error .trailingAfterNot
    else .error .notWithoutParen
  else if run[0]? = some .leftParen then
    match closing? 0 0 run with
    | none => .error .unbalanced
    | some close =>
      match connective? run[close + 1]? with
      | none => .error .noConnective
      | some op =>
        if run[close + 2]? = some .leftParen then
          match closing? 0 (close + 2) (run.drop (close + 2)) with
          | none => .error .unbalanced
          | some close' =>
            if close' = run.length - 1 then .ok (.join op close close') else .error .trailing
        else .error .noOpeningAfterConnective
  else .error .noOpening

/-- The cuts that make the parts of a shape. -/
def Shape.cuts : Shape run → Cuts
  | .not inner _ => .not (inner.length + 2)
  | .join op left right _ => .join op (left.length + 1) (right.length + (left.length + 4))

/-- The cuts of a run whose first parenthesis is known to close: what comes behind decides. -/
theorem cuts_leftParen {ts left rest : List Token} {cut : ts = left ++ .rightParen :: rest}
    (h : Token.enclosed? 0 ts = some ⟨left, rest, cut⟩) :
    cuts (.leftParen :: ts) =
      match connective? rest[0]? with
      | none => .error .noConnective
      | some op =>
        if rest[1]? = some .leftParen then
          match closing? 0 (left.length + 3) (rest.drop 1) with
          | none => .error .unbalanced
          | some close =>
            if close = ts.length then .ok (.join op (left.length + 1) close) else .error .trailing
        else .error .noOpeningAfterConnective := by
  have hat : ∀ i, (Token.leftParen :: ts)[left.length + 1 + (i + 1)]? = rest[i]? := by
    intro i
    have hsplit : Token.leftParen :: ts = (.leftParen :: left ++ [.rightParen]) ++ rest := by
      simp [cut]
    rw [hsplit, List.getElem?_append_right (by simp)]
    congr 1
    simp only [List.length_append, List.length_cons, List.length_nil]
    omega
  have hdrop : (Token.leftParen :: ts).drop (left.length + 1 + 2) = rest.drop 1 := by
    simp [cut]
  simp [cuts, closing?_open, h, hat 0, hat 1, hdrop]

/-- The places in a junction tell where its two conditions are. -/
theorem cuts_join {ts left right : List Token} (op : Connective)
    {cut : ts = left ++ .rightParen :: .logic op.toOp :: .leftParen :: right}
    (h : Token.enclosed? 0 ts = some ⟨left, .logic op.toOp :: .leftParen :: right, cut⟩) :
    cuts (.leftParen :: ts) = (shape.shapeJoin op left cut).map Shape.cuts := by
  have hop : connective? (some (.logic op.toOp)) = some op := by cases op <;> rfl
  rw [cuts_leftParen h]
  simp only [List.getElem?_cons_zero, hop, List.getElem?_cons_succ, if_true,
    List.drop_succ_cons, List.drop_zero, closing?_open]
  unfold shape.shapeJoin
  rcases he : Token.enclosed? 0 right with _ | ⟨inner, _ | ⟨t, rest⟩, cut'⟩
  · rfl
  · have hlength : inner.length + (left.length + 3 + 1) = ts.length := by
      simp only [cut, cut', List.length_append, List.length_cons, List.length_nil]
      omega
    simp [hlength, Except.map, Shape.cuts]
  · have hlength : inner.length + (left.length + 3 + 1) ≠ ts.length := by
      simp only [cut, cut', List.length_append, List.length_cons]
      omega
    simp [hlength, Except.map]

/-- **Looking at positions finds the shape.** -/
theorem cuts_eq (run : List Token) : cuts run = (shape run).map Shape.cuts := by
  fun_cases shape run with
  -- a run that starts with `!`
  | case1 ts h => simp [cuts, shape, closing?_open, h, Except.map]
  | case2 inner h => simp [cuts, shape, closing?_open, h, Except.map, Shape.cuts]
  | case3 inner t ts h => simp [cuts, shape, closing?_open, h, Except.map]
  | case4 ts h =>
    have hopen : ts[0]? ≠ some .leftParen := by
      cases ts <;> simp_all
    have hcuts : cuts (.logic .not :: ts) = .error .notWithoutParen := if_neg hopen
    rw [hcuts, shape]
    · rfl
    · exact h
  -- one that starts with a parenthesis, and what comes behind the parenthesis that closes it
  | case5 ts h => simp [cuts, shape, closing?_open, h, Except.map]
  | case6 inner h =>
    rw [cuts_leftParen h, shape, h]
    rfl
  | case7 left ts h =>
    rw [cuts_join .and h, shape, h]
  | case8 left ts h =>
    rw [cuts_join .or h, shape, h]
  | case9 left ts hne h | case10 left ts hne h =>
    have hopen : ts[0]? ≠ some .leftParen := by
      cases ts <;> simp_all
    rw [cuts_leftParen h, shape, h]
    simp only [List.getElem?_cons_zero, connective?, List.getElem?_cons_succ, if_neg hopen]
    rfl
  | case11 left t ts h₁ h₂ _ _ h =>
    have hop : connective? (some t) = none := by
      unfold connective?
      split <;> simp_all
    rw [cuts_leftParen h, shape, h]
    simp only [List.getElem?_cons_zero, hop]
    rfl
  -- any other
  | case12 _ h₂ h₃ =>
    have hnot : run[0]? ≠ some (.logic .not) := by
      cases run <;> simp_all
    have hopen : run[0]? ≠ some .leftParen := by
      cases run <;> simp_all
    rw [cuts, if_neg hnot, if_neg hopen, shape]
    · rfl
    all_goals assumption

/-- **Reads a condition by positions**, with every part a slice of the run. There is no result
at all if a slice does not lie in the run. -/
def readByPosition (run : List Token) : Option (Except SourceError Condition) :=
  if run.isEmpty then some (.error .emptyCondition)
  else if !run.any isLogic then readComparison run
  else
    match cuts run with
    | .error fault => some (.error (.condition fault run))
    | .ok (.not close) =>
      match _h : slice? run 2 close with
      | none => none
      | some inner => (readByPosition inner).map (·.map .not)
    | .ok (.join op close close') =>
      match _hl : slice? run 1 close, _hr : slice? run (close + 3) close' with
      | some left, some right => do
        let left ← readByPosition left
        let right ← readByPosition right
        return do return .join op (← left) (← right)
      | _, _ => none
termination_by run.length
decreasing_by
  all_goals exact length_lt_of_slice? ‹slice? run _ _ = some _› (by omega)

/-- **Every slice lies in its run**, and is the part that `parse` reads. -/
theorem readByPosition_eq (run : List Token) : readByPosition run = some (parse run) := by
  fun_induction parse run with
  | case1 run h => rw [readByPosition, if_pos h]
  | case2 run hne hlogic => rw [readByPosition, if_neg hne, if_pos hlogic, readComparison_eq]
  | case3 run hne hlogic fault hshape =>
    have hcuts : cuts run = .error fault := by
      rw [cuts_eq, hshape]
      rfl
    rw [readByPosition, if_neg hne, if_neg hlogic, hcuts]
  | case4 inner hne hlogic hshape ih =>
    have hcuts : cuts (.logic .not :: .leftParen :: inner ++ [.rightParen]) =
        .ok (.not (inner.length + 2)) := by
      rw [cuts_eq, hshape]
      rfl
    have hinner : slice? (.logic .not :: .leftParen :: inner ++ [.rightParen]) 2
        (inner.length + 2) = some inner :=
      slice?_of_eq [.logic .not, .leftParen] inner [.rightParen] rfl rfl (Nat.add_comm ..)
    rw [readByPosition, if_neg hne, if_neg hlogic, hcuts]
    simp only
    split
    -- the slice is there, so the branch without it is not taken
    · next h => cases hinner.symm.trans h
    · next part h =>
      obtain rfl := Option.some.inj (hinner.symm.trans h)
      rw [ih]
      cases parse inner <;> rfl
  | case5 op left right hne hlogic hshape ihl ihr =>
    have hcuts : cuts (.leftParen :: left ++ .rightParen :: .logic op.toOp :: .leftParen :: right ++
        [.rightParen]) = .ok (.join op (left.length + 1) (right.length + (left.length + 4))) := by
      rw [cuts_eq, hshape]
      rfl
    have hleft : slice? (.leftParen :: left ++ .rightParen :: .logic op.toOp :: .leftParen ::
        right ++ [.rightParen]) 1 (left.length + 1) = some left :=
      slice?_of_eq [.leftParen] left (.rightParen :: .logic op.toOp :: .leftParen :: right ++
        [.rightParen]) (by simp) rfl (Nat.add_comm ..)
    have hright : slice? (.leftParen :: left ++ .rightParen :: .logic op.toOp :: .leftParen ::
        right ++ [.rightParen]) (left.length + 1 + 3) (right.length + (left.length + 4)) =
          some right :=
      slice?_of_eq (.leftParen :: left ++ [.rightParen, .logic op.toOp, .leftParen]) right
        [.rightParen] (by simp) (by simp) (by simp; omega)
    rw [readByPosition, if_neg hne, if_neg hlogic, hcuts]
    simp only
    split
    · next l r hl hr =>
      obtain rfl := Option.some.inj (hleft.symm.trans hl)
      obtain rfl := Option.some.inj (hright.symm.trans hr)
      rw [ihl, ihr]
      rfl
    · next hnone => exact (hnone left right hleft hright).elim

/-- **The parser reads the conditions of the grammar, and nothing else.** A run is read if and
only if the grammar derives it, and as the one condition that it derives. The reading takes
slices of the run only within the bounds of the run, whatever the run. -/
theorem parse_iff_derives :
    (∀ (run : List Token) (c : Condition), parse run = .ok c ↔ Derives run c) ∧
    (∀ (run : List Token) (c c' : Condition), Derives run c → Derives run c' → c = c') ∧
    ∀ run : List Token, readByPosition run = some (parse run) := by
  refine ⟨fun run c => parse_eq_ok, fun run c c' h h' => ?_, readByPosition_eq⟩
  exact Except.ok.inj ((parse_eq_ok.2 h).symm.trans (parse_eq_ok.2 h'))

end Condition

end ProgramFacts
