import ProgramFacts.Proofs.Program.RoundTrip
import ProgramFacts.Proofs.Survey
/-!
# The facts of a program — uses and modifications

The relations `uses` and `modifies` are exact: a statement or a procedure uses a variable if
something that it covers does so by itself, and likewise for modifications
(`uses_modifies_iff_covers`).
-/

namespace ProgramFacts

namespace FactBase

variable {s : Survey} {g : CallGraph} {f : Flow} {a : Access} {x y : Element}

/-- What is used or modified was found by the survey. -/
theorem holds_access : (assemble s g f).holds a.relation x y ↔
    (∃ v ∈ s.findings, x = .stmt v.number ∧ ∃ name ∈ a.of v.effects, y = .name name) ∨
      ∃ q e, s.procedures[q]? = some e ∧ x = .name q ∧ ∃ name ∈ a.of e, y = .name name := by
  have hcalls : ⟨a.relation, x, y⟩ ∉ Fact.ofCalls g := by
    cases a <;> simp [Fact.ofCalls, Access.relation]
  have hflow : ⟨a.relation, x, y⟩ ∉ Fact.ofFlow f (.ofSurvey s) := by
    cases a <;> simp [Fact.ofFlow, Access.relation]
  rw [holds_assemble, or_iff_left (not_or.2 ⟨hcalls, hflow⟩)]
  cases a <;> simp [Fact.ofSurvey, Fact.ofList, Fact.ofFinding, Access.relation, Access.of,
    Std.ExtTreeMap.mem_toList_iff_getElem?_eq_some]

end FactBase

namespace Program

variable {p : Program} {s : Survey} {g : CallGraph} {f : Flow} {a : Access} {q v : String}
  {t : Stmt} {k : Option Nat}

/-- **The effects of a statement are those of what it covers.** -/
theorem Surveyed.holds_stmt (hp : p.Consistent)
    (hs : p.Surveyed (p.procedures.map Procedure.name) s) (ht : p.Has q t k) :
    (FactBase.assemble s g f).holds a.relation (.stmt t.number) (.name v) ↔
      ∃ u, p.Covers t u ∧ v ∈ a.own u := by
  rw [FactBase.holds_access]
  constructor
  · rintro (⟨finding, hfinding, hnumber, name, hname, heq⟩ | ⟨_, _, _, hx, -⟩)
    · obtain ⟨q', -, t', k', ht', hfound⟩ := hs.sound finding hfinding
      have hsame : t = t' := hp.has_unique ht ht' ((Element.stmt.inj hnumber).trans hfound.number)
      subst hsame
      cases heq
      exact (hfound.effects a v).1 hname
    · cases hx
  · intro h
    obtain ⟨finding, hfinding, hfound⟩ := hs.complete q ht.mem_names t k ht
    exact .inl ⟨finding, hfinding, by rw [hfound.number], v, (hfound.effects a v).2 h, rfl⟩

/-- **The effects of a procedure are those of what it covers.** -/
theorem Surveyed.holds_procedure (hs : p.Surveyed (p.procedures.map Procedure.name) s)
    (hq : q ∈ p.procedures.map Procedure.name) :
    (FactBase.assemble s g f).holds a.relation (.name q) (.name v) ↔
      ∃ u, p.CoversIn q u ∧ v ∈ a.own u := by
  rw [FactBase.holds_access, ← hs.tabulates q hq hq a v, Std.ExtTreeMap.getD_eq_getD_getElem?]
  constructor
  · rintro (⟨_, _, hx, -⟩ | ⟨_, e, he, hx, name, hname, heq⟩)
    · cases hx
    · cases hx
      cases heq
      rw [he]
      exact hname
  · intro h
    cases he : s.procedures[q]? with
    | none =>
      rw [he] at h
      exact absurd h Access.not_mem_of_empty
    | some e =>
      rw [he] at h
      exact .inr ⟨q, e, he, rfl, v, h, rfl⟩

/-- **Uses and modifications are exact.** The facts of a program that was read can be found. They
say that a statement modifies a variable exactly if it covers an assignment to it or a read of
it, and uses a variable exactly if it covers an assignment of an expression with the variable, a
print of it, or a loop or branching whose condition has it; and the same of procedures. -/
theorem uses_modifies_iff_covers {source : String} (h : parse source = .ok p) :
    ∃ kb, FactBase.ofTree p.toTree = .ok kb ∧
      (∀ q t k v, p.Has q t k →
        (kb.holds .modifies (.stmt t.number) (.name v) ↔ ∃ u, p.Covers t u ∧ v ∈ u.modifies) ∧
        (kb.holds .uses (.stmt t.number) (.name v) ↔ ∃ u, p.Covers t u ∧ v ∈ u.uses)) ∧
      ∀ q ∈ p.procedures.map Procedure.name, ∀ v,
        (kb.holds .modifies (.name q) (.name v) ↔ ∃ u, p.CoversIn q u ∧ v ∈ u.modifies) ∧
        (kb.holds .uses (.name q) (.name v) ↔ ∃ u, p.CoversIn q u ∧ v ∈ u.uses) := by
  have hp := (wellFormed_of_parse h).toConsistent
  obtain ⟨s, hs, hkb⟩ := exists_surveyed hp
  refine ⟨_, hkb, fun q t k v ht => ?_, fun q hq v => ?_⟩
  · exact ⟨hs.holds_stmt (a := .modifies) hp ht, hs.holds_stmt (a := .uses) hp ht⟩
  · exact ⟨hs.holds_procedure (a := .modifies) hq, hs.holds_procedure (a := .uses) hq⟩

/-- What is read in the shared procedure is modified by the loop, two calls up; and of the two
calls in the loop only the first modifies what is assigned in a branch below it. -/
theorem uses_modifies_sharedCallee :
    parse (sharedCallee.print .minimal) = .ok sharedCallee ∧
    ∃ kb, FactBase.ofTree sharedCallee.toTree = .ok kb ∧
      kb.holds .modifies (.stmt 2) (.name "i") ∧ kb.holds .uses (.name "main") (.name "y") ∧
      kb.holds .modifies (.stmt 3) (.name "x") ∧ ¬ kb.holds .modifies (.stmt 5) (.name "x") := by
  obtain ⟨kb, hkb, hstmt, hprocedure⟩ := uses_modifies_iff_covers parse_sharedCallee
  have hleft : sharedCallee.Covers (.call 3 "left") (.assign 8 "x" (.var "y")) :=
    .of_coversIn ⟨_, .tail _ (.head _), rfl, _, .head _, .elseBranch (.head _) .self⟩
  have hright : ∀ n, sharedCallee.Covers (.call n "right") (.read 10 "i") := fun n =>
    .of_coversIn ⟨_, .tail _ (.tail _ (.head _)), rfl, _, .head _,
      .of_coversIn ⟨_, .tail _ (.tail _ (.tail _ (.head _))), rfl, _, .head _, .self⟩⟩
  have hloop : sharedCallee.Has "main" (.whileLoop 2 (.compare .gt (.var "i") (.const "0"))
      [.call 3 "left", .assign 4 "y" (.bin .add (.var "x") (.var "y")), .call 5 "right"]) none :=
    ⟨_, .head _, rfl, .tail .head⟩
  have hin : ∀ t k, Stmt.Occurs (some 2) [.call 3 "left",
      .assign 4 "y" (.bin .add (.var "x") (.var "y")), .call 5 "right"] t k →
      sharedCallee.Has "main" t k := fun t k ht => ⟨_, .head _, rfl, .tail (.loop ht)⟩
  refine ⟨parse_sharedCallee, kb, hkb, ?_, ?_, ?_, ?_⟩
  · exact (hstmt _ _ _ "i" hloop).1.2 ⟨_, .loop (.tail _ (.tail _ (.head _))) (hright 5),
      by decide⟩
  · exact (hprocedure "main" (.head _) "y").2.2 ⟨.assign 8 "x" (.var "y"),
      ⟨_, .head _, rfl, _, .tail _ (.head _), .loop (.head _) hleft⟩, by decide⟩
  · exact (hstmt _ _ _ "x" (hin _ _ .head)).1.2 ⟨_, hleft, by decide⟩
  · intro h
    obtain ⟨u, hu, hx⟩ := (hstmt _ _ _ "x" (hin _ _ (.tail (.tail .head)))).1.1 h
    -- the second call covers two calls and a read of another variable
    have hp := wellFormed_sharedCallee.toConsistent
    have hshared : (⟨"shared", [.read 10 "i"]⟩ : Procedure) ∈ sharedCallee.procedures :=
      .tail _ (.tail _ (.tail _ (.head _)))
    have hright : (⟨"right", [.call 9 "shared"]⟩ : Procedure) ∈ sharedCallee.procedures :=
      .tail _ (.tail _ (.head _))
    simp only [covers_call_iff, hp.coversIn_iff hright, hp.coversIn_iff hshared,
      List.mem_singleton, exists_eq_left] at hu
    rcases hu with rfl | rfl | hu
    · simp [Stmt.modifies] at hx
    · simp [Stmt.modifies] at hx
    · cases hu
      simp [Stmt.modifies] at hx

end Program

end ProgramFacts
