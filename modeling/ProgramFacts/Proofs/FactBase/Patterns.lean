import ProgramFacts.Proofs.Dataflow
import ProgramFacts.Proofs.Expr.Acceptance
import ProgramFacts.Proofs.Expr.Subtree
import ProgramFacts.Query.Parser
/-!
# The facts of a program — patterns of assigned expressions

A pattern is compared with the words that are recorded of an assignment, and no tree is built to
do so. Still what is found is a part of the assigned expression, as a tree, or the whole of it
(`pattern_matches_iff_subtree`).
-/

namespace ProgramFacts

/-! ## Reading patterns -/

theorem Expr.spelled_of_parseText {text : String} {parsed : Expr.Parsed}
    (h : Expr.parseText text = .ok parsed) :
    parsed.tree.Spelled ∧ parsed.rpn = parsed.tree.rpn := by
  obtain ⟨run, hrun, h⟩ := Outcome.bind_eq_ok.1 h
  have hparse := Outcome.mapError_eq_ok.1 h
  refine ⟨Expr.spelled_of_parse hparse (Token.scans_of_scan hrun).spelled, ?_⟩
  rw [Expr.Parsed.rpn, (Expr.parse_eq_ok.1 hparse).2, Expr.rpn]

namespace Query

theorem parseInfix_eq_ok {partly : Bool} {text : String} {a : Argument} :
    parseInfix partly text = .ok a ↔
      ∃ parsed, Expr.parseText text = .ok parsed ∧ a = .expr ⟨partly, parsed.rpn⟩ := by
  unfold parseInfix
  cases Expr.parseText text with
  | error cause => simp
  | ok parsed => simp [eq_comm]

theorem eq_of_takeMark {ts : List QueryToken} {c : Char} {r : Reading Unit ts}
    (h : takeMark c ts = .ok r) : ts = .mark c :: r.rest := by
  unfold takeMark at h
  split at h
  · next hitem =>
    obtain rfl := Except.ok.inj h
    exact Reading.eq_of_item? hitem
  · cases h

/-- **What the expression of a pattern is read off**: a wildcard, or quoted text, which stands
between two wildcards if it can be a part. -/
theorem parseExpression_cases {ts : List QueryToken} {r : Reading Argument ts}
    (h : parseExpression ts = .ok r) :
    (ts = .mark '_' :: r.rest ∧ r.value = .wildcard) ∨
      ∃ text parsed partly, Expr.parseText text = .ok parsed ∧
        r.value = .expr ⟨partly, parsed.rpn⟩ ∧
        ts = (if partly then [.mark '_', .quoted text, .mark '_'] else [.quoted text]) ++ r.rest := by
  unfold parseExpression at h
  split at h
  · next text ts =>
    obtain ⟨a, ha, h⟩ := Outcome.bind_eq_ok.1 h
    obtain rfl := Except.ok.inj h
    obtain ⟨parsed, hparsed, rfl⟩ := parseInfix_eq_ok.1 ha
    exact .inr ⟨text, parsed, false, hparsed, rfl, rfl⟩
  · next text ts =>
    obtain ⟨closing, hclosing, h⟩ := Outcome.bind_eq_ok.1 h
    obtain ⟨a, ha, h⟩ := Outcome.bind_eq_ok.1 h
    obtain rfl := Except.ok.inj h
    obtain ⟨parsed, hparsed, rfl⟩ := parseInfix_eq_ok.1 ha
    have hts := congrArg (.mark '_' :: .quoted text :: ·) (eq_of_takeMark hclosing)
    exact .inr ⟨text, parsed, true, hparsed, rfl, hts⟩
  · obtain rfl := Except.ok.inj h
    exact .inl ⟨rfl, rfl⟩
  · cases h

/-- **The pattern of a query is the expression that is quoted there.** -/
theorem exists_parsed_of_parseExpression {ts : List QueryToken} {r : Reading Argument ts}
    {pattern : Pattern} (h : parseExpression ts = .ok r) (hr : r.value = .expr pattern) :
    ∃ text parsed, .quoted text ∈ ts ∧ Expr.parseText text = .ok parsed ∧
      pattern.rpn = parsed.rpn := by
  rcases parseExpression_cases h with ⟨-, hvalue⟩ | ⟨text, parsed, partly, hparsed, hvalue, hts⟩
  · cases hr.symm.trans hvalue
  · obtain rfl := Argument.expr.inj (hr.symm.trans hvalue)
    refine ⟨text, parsed, ?_, hparsed, rfl⟩
    rw [hts]
    cases partly <;> simp

end Query

/-! ## What is recorded -/

theorem Stmt.Occurs.printable {k k' : Option Nat} {ss : List Stmt} {s : Stmt}
    (h : Stmt.Occurs k ss s k') (hss : Stmt.PrintableAll ss) : s.Printable := by
  induction h with
  | head => exact hss.1
  | tail _ ih => exact ih hss.2
  | loop _ ih => exact ih hss.1.2.1
  | thenBranch _ ih => exact ih hss.1.2.1.1
  | elseBranch _ ih => exact ih hss.1.2.2.1

namespace Program

variable {p : Program} {s : Survey} {g : CallGraph} {f : Flow} {v : String} {n : Nat} {t : Expr}

theorem Assigns.spelled (hp : p.WellFormed) (ht : p.Assigns n v t) : t.Spelled := by
  obtain ⟨q, k, procedure, hprocedure, -, hoccurs⟩ := ht
  obtain ⟨-, hbody, -⟩ := hp.printable procedure hprocedure
  exact (hoccurs.printable hbody).2

/-- What is noted of the trees of some kinds is what these trees say. -/
theorem Surveyed.note_iff {β : Type} (hs : p.Surveyed (p.procedures.map Procedure.name) s)
    {kinds : List NodeKind} {what : Tree → Option β} {x : β} :
    (Std.ExtTreeMap.ofList (s.findings.filterMap fun f =>
        if f.statement.kind ∈ kinds then (what f.statement).map (f.number, ·) else none))[n]? =
      some x ↔ ∃ q t k, p.Has q t k ∧ t.number = n ∧ t.toTree.kind ∈ kinds ∧
        what t.toTree = some x := by
  have hvalue : (s.findings.filterMap fun f =>
      if f.statement.kind ∈ kinds then (what f.statement).map (f.number, ·) else none) =
      s.findings.filterMap fun f =>
        (if f.statement.kind ∈ kinds then what f.statement else none).map (f.number, ·) := by
    refine List.filterMap_congr fun f _ => ?_
    split <;> rfl
  rw [hvalue, Ordered.getElem?_ofList_filterMap hs.nodup]
  simp only [Option.ite_none_right_eq_some]
  exact hs.exists_finding_iff fun tree => tree.kind ∈ kinds ∧ what tree = some x

/-- The words of an assigned expression are recorded. -/
theorem Surveyed.rpn_of_assigns (hs : p.Surveyed (p.procedures.map Procedure.name) s)
    (ht : p.Assigns n v t) : (FactBase.assemble s g f).rpn? n = some t.rpn := by
  obtain ⟨q, k, ht⟩ := ht
  exact hs.note_iff.2 ⟨q, _, k, ht, rfl, by simp [Stmt.toTree], rfl⟩

/-- **To find the words of a pattern is to find its tree.** The facts of a program that was read
can be found, and record the words of every assigned expression. For every text that can be
read as an expression, the pattern of its words is found in them as a part exactly if the tree
of the text is a part of the tree that is assigned, and as a whole exactly if the two trees are
the same. Every pattern that a query has comes from such a text. -/
theorem pattern_matches_iff_subtree {source : String} (h : parse source = .ok p)
    (ht : p.Assigns n v t) :
    ∃ kb rpn, FactBase.ofTree p.toTree = .ok kb ∧ kb.rpn? n = some rpn ∧
      (∀ text parsed, Expr.parseText text = .ok parsed →
        (Pattern.matches ⟨true, parsed.rpn⟩ rpn ↔ parsed.tree ∈ t.subtrees) ∧
        (Pattern.matches ⟨false, parsed.rpn⟩ rpn ↔ parsed.tree = t)) ∧
      ∀ (ts : List QueryToken) (r : Reading Argument ts) (pattern : Pattern),
        Query.parseExpression ts = .ok r → r.value = .expr pattern →
          ∃ text parsed, .quoted text ∈ ts ∧ Expr.parseText text = .ok parsed ∧
            pattern.rpn = parsed.rpn := by
  have hp := wellFormed_of_parse h
  obtain ⟨s, hs, hkb⟩ := exists_surveyed hp.toConsistent
  refine ⟨_, t.rpn, hkb, hs.rpn_of_assigns ht, fun text parsed hparsed => ?_, fun ts r pattern => ?_⟩
  · obtain ⟨hspelled, hrpn⟩ := Expr.spelled_of_parseText hparsed
    have hne : parsed.tree.rpn ≠ [] := by
      simpa [Expr.rpn] using parsed.tree.postorder_ne_nil
    rw [hrpn]
    constructor
    · rw [Pattern.matches_partly hne, Expr.infix_rpn_iff hspelled (ht.spelled hp)]
    · rw [Pattern.matches_whole, Expr.rpn_inj hspelled (ht.spelled hp)]
  · exact Query.exists_parsed_of_parseExpression

/-- An assignment of `b - c * d - b`. -/
def nestedDifference : Program :=
  ⟨[⟨"main", [.assign 1 "a" (.bin .sub (.bin .sub (.var "b") (.bin .mul (.var "c") (.var "d")))
    (.var "b"))]⟩]⟩

theorem wellFormed_nestedDifference : nestedDifference.WellFormed where
  toConsistent := consistent_of_rank (fun _ => 0) (by simp [nestedDifference]) (by decide)
    (by decide) (by decide)
  printable := by decide

/-- The product is a part of the expression, and not the whole. The last difference is none of
`d` and `b`, though these are the operands next to each other in the text. -/
theorem pattern_matches_nestedDifference :
    parse (nestedDifference.print .minimal) = .ok nestedDifference ∧
    ∃ kb rpn, FactBase.ofTree nestedDifference.toTree = .ok kb ∧ kb.rpn? 1 = some rpn ∧
      Pattern.matches ⟨true, ["c", "d", "*"]⟩ rpn ∧ ¬ Pattern.matches ⟨false, ["c", "d", "*"]⟩ rpn ∧
      ¬ Pattern.matches ⟨true, ["d", "b", "-"]⟩ rpn := by
  have hparse : parse (nestedDifference.print .minimal) = .ok nestedDifference :=
    parse_of_laid wellFormed_nestedDifference (Token.laid_phrase _)
  have hassigns : nestedDifference.Assigns 1 "a" (.bin .sub (.bin .sub (.var "b")
      (.bin .mul (.var "c") (.var "d"))) (.var "b")) :=
    ⟨_, _, _, .head _, rfl, .head⟩
  obtain ⟨kb, rpn, hkb, hrpn, hpattern, -⟩ := pattern_matches_iff_subtree hparse hassigns
  obtain ⟨hproduct, hwhole⟩ := hpattern "c * d"
    ⟨.bin .mul (.var "c") (.var "d"), [.var "c", .var "d", .arith .mul]⟩ (by decide +kernel)
  obtain ⟨hdifference, -⟩ := hpattern "d - b"
    ⟨.bin .sub (.var "d") (.var "b"), [.var "d", .var "b", .arith .sub]⟩ (by decide +kernel)
  refine ⟨hparse, kb, rpn, hkb, hrpn, hproduct.2 (by decide), fun h => ?_, fun h => ?_⟩
  · exact absurd (hwhole.1 h) (by decide)
  · exact absurd (hdifference.1 h) (by decide)

end Program

end ProgramFacts
