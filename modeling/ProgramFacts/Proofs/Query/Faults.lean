import ProgramFacts.Proofs.FactBase.Patterns
import ProgramFacts.Proofs.Query.Exactness
/-!
# Queries — when there is no answer

A query means nothing if a fault was noted when it was read, or if one of its clauses is refused;
`Query.firstFault?` is what is told of it. Nothing else goes wrong. To look up an attribute can
fail in the midst of joining tables and again when what is selected is read off, but only at a call,
a read or a print of which nothing is recorded, and the facts of a program record every one of them
(`Program.Surveyed.recorded`). So an answer is missing exactly if there is a first fault and the
query asks for more than whether there is an answer (`answer_fails_iff`).
-/

namespace ProgramFacts

/-! ## What is recorded of a program -/

namespace Program.Surveyed

variable {p : Program} {s : Survey} {g : CallGraph} {f : Flow} {n : Nat}
variable (hs : p.Surveyed (p.procedures.map Procedure.name) s)
include hs

/-- The statements of a fact base are those of the program, each under its own kind. -/
theorem statements_iff {kind : StatementKind} :
    (FactBase.assemble s g f).statements[n]? = some kind ↔
      ∃ q t k, p.Has q t k ∧ t.number = n ∧ t.toTree.kind.statementKind? = some kind := by
  refine (Ordered.getElem?_ofList_filterMap hs.nodup).trans ?_
  exact hs.exists_finding_iff fun tree => tree.kind.statementKind? = some kind

theorem isSome_callee (h : (FactBase.assemble s g f).statements[n]? = some .call) :
    ((FactBase.assemble s g f).callee? n).isSome := by
  obtain ⟨q, t, k, ht, hn, hkind⟩ := hs.statements_iff.1 h
  cases t with
  | call m callee =>
    have hnote := @note_iff p s n String hs [.call] (fun t => some t.calleeName) callee
    have hcallee : (FactBase.assemble s g f).callee? n = some callee :=
      hnote.2 ⟨q, _, k, ht, hn, List.mem_singleton.2 rfl, rfl⟩
    rw [hcallee]
    rfl
  | _ => cases hkind

theorem isSome_transfer {kind : StatementKind} (hkind : kind = .read ∨ kind = .print)
    (h : (FactBase.assemble s g f).statements[n]? = some kind) :
    ((FactBase.assemble s g f).transfer? kind n).isSome := by
  obtain ⟨q, t, k, ht, hn, hstatement⟩ := hs.statements_iff.1 h
  have hnote := @note_iff p s n String hs [.read, .print] (fun t => some t.subject) t.toTree.subject
  have hnoted : t.toTree.kind ∈ [NodeKind.read, .print] →
      (FactBase.assemble s g f).transfers[n]? = some t.toTree.subject := fun hmem =>
    hnote.2 ⟨q, t, k, ht, hn, hmem, rfl⟩
  rw [FactBase.transfer?, if_pos h]
  cases t with
  | read m v | print m v =>
    rw [hnoted (by simp [Stmt.toTree])]
    rfl
  | _ =>
    -- the kinds of other statements are neither of the two
    cases hstatement
    simp at hkind

/-- **The facts of a program record every call, read and print.** -/
theorem recorded : (FactBase.assemble s g f).Recorded where
  call _ h := hs.isSome_callee h
  read _ h := hs.isSome_transfer (.inl rfl) h
  print _ h := hs.isSome_transfer (.inr rfl) h

end Program.Surveyed

/-! ## Faults -/

/-- What is wrong with a clause. -/
def Clause.fault? (c : Clause) : Option SemanticFault :=
  match c.check with
  | .error fault => some fault
  | .ok () => none

theorem Clause.fault?_eq_none {c : Clause} : c.fault? = none ↔ c.check = .ok () := by
  unfold fault?
  split <;> simp_all

namespace Query

variable {kb : FactBase} {q : Query} {strategy : Strategy} {fault : SemanticFault}

/-- **What is told of a query that means nothing**: the fault that was noted in it, or else that
of its first clause that is refused. -/
def firstFault? (q : Query) : Option SemanticFault :=
  q.fault.or (q.clauses.findSome? Clause.fault?)

theorem firstFault?_eq_none :
    q.firstFault? = none ↔ q.fault = none ∧ ∀ c ∈ q.clauses, c.check = .ok () := by
  simp only [firstFault?, Option.or_eq_none_iff, List.findSome?_eq_none_iff, Clause.fault?_eq_none]

/-- A query means nothing if a fault was noted or a clause is refused. -/
theorem exists_firstFault? :
    (∃ fault, q.firstFault? = some fault) ↔
      q.fault ≠ none ∨ ∃ c ∈ q.clauses, c.check ≠ .ok () := by
  rw [← Option.ne_none_iff_exists', ne_eq, firstFault?_eq_none, not_and_or]
  simp only [not_forall, ne_eq, exists_prop]

/-- The first clause that is refused ends the checks. -/
theorem forM_check_of_fault {clauses : List Clause}
    (h : clauses.findSome? Clause.fault? = some fault) :
    clauses.forM Clause.check = .error fault := by
  induction clauses with
  | nil => cases h
  | cons c clauses ih =>
    have hcons : (c :: clauses).forM Clause.check =
        c.check.bind fun _ => clauses.forM Clause.check := rfl
    rw [hcons]
    cases hcheck : c.check with
    | error first =>
      have hfirst : c.fault? = some first := by rw [Clause.fault?, hcheck]
      rw [List.findSome?_cons, hfirst] at h
      rw [← Option.some.inj h]
      rfl
    | ok =>
      have hnone : c.fault? = none := Clause.fault?_eq_none.2 hcheck
      rw [List.findSome?_cons, hnone] at h
      exact ih h

theorem evaluate_of_firstFault? (h : q.firstFault? = some fault) :
    evaluate kb strategy q = .error fault := by
  rcases Option.or_eq_some_iff.1 h with hnoted | ⟨hnone, hrefused⟩
  · simp only [evaluate, hnoted]
    rfl
  · simp only [evaluate, hnone, forM_check_of_fault hrefused]
    rfl

/-- **Where nothing is wrong with a query, evaluating it succeeds**, with a truth value if it asks
for one. -/
theorem evaluate_of_no_fault (strategy : Strategy) (hkb : kb.Recorded) (hsorts : q.OneSort)
    (h : q.firstFault? = none) :
    ∃ a, evaluate kb strategy q = .ok a ∧ (q.selection = .boolean → ∃ b, a = .boolean b) := by
  obtain ⟨hfault, hcheck⟩ := firstFault?_eq_none.1 h
  by_cases hselection : q.selection = .elements []
  · have hboolean : q.selection ≠ .boolean := by simp [hselection]
    rcases evaluate_nothing strategy hkb hsorts hfault hcheck hselection with ⟨ha, -⟩ | ⟨ha, -⟩
    · exact ⟨_, ha, fun hb => absurd hb hboolean⟩
    · exact ⟨_, ha, fun hb => absurd hb hboolean⟩
  · obtain ⟨a, ha, hanswers⟩ := evaluate_answers strategy hkb hsorts hfault hcheck hselection
    refine ⟨a, ha, fun hboolean => ?_⟩
    rw [Answers, hboolean] at hanswers
    obtain ⟨b, hb, -⟩ := hanswers
    exact ⟨b, hb⟩

/-- **An answer is missing for the first fault, and for nothing else.** -/
theorem answer_eq_error_iff (hkb : kb.Recorded) (hsorts : q.OneSort) :
    answer kb strategy q = .error fault ↔ q.isBoolean = false ∧ q.firstFault? = some fault := by
  cases hfirst : q.firstFault? with
  | some first =>
    have heval : evaluate kb strategy q = .error first := evaluate_of_firstFault? hfirst
    rw [answer, heval]
    cases q.isBoolean <;> simp
  | none =>
    obtain ⟨a, heval, -⟩ := evaluate_of_no_fault strategy hkb hsorts hfirst
    rw [answer, heval]
    simp

/-- A query that asks whether there is an answer gets a truth value, whatever is wrong with it. -/
theorem exists_boolean_answer (hkb : kb.Recorded) (hsorts : q.OneSort) (hq : q.isBoolean) :
    ∃ b, answer kb strategy q = .ok (.boolean b) := by
  cases hfirst : q.firstFault? with
  | some first =>
    have heval : evaluate kb strategy q = .error first := evaluate_of_firstFault? hfirst
    exact ⟨false, by rw [answer, heval]; simp [hq]⟩
  | none =>
    obtain ⟨a, heval, hboolean⟩ := evaluate_of_no_fault strategy hkb hsorts hfirst
    obtain ⟨b, rfl⟩ := hboolean (by simpa [isBoolean] using hq)
    exact ⟨b, by rw [answer, heval]⟩

/-- **Once a query means something it has an answer.** The facts of a program that was read can be
found. Over them, and whatever the strategy, a query whose synonyms have one sort each fails exactly
if it asks for more than whether there is an answer, and a fault was noted in it or one of its
clauses is refused. The error is then that of a query that means nothing: the fault that was noted,
or else that of the first clause that is refused. A query that only asks whether there is an answer
always gets a truth value. -/
theorem answer_fails_iff {p : Program} {source : String} (h : Program.parse source = .ok p) :
    ∃ kb, FactBase.ofTree p.toTree = .ok kb ∧ ∀ (q : Query) (strategy : Strategy), q.OneSort →
      ((∃ e, (q.answer kb strategy).mapError QueryError.meaningless = .error e) ↔
        q.isBoolean = false ∧ (q.fault ≠ none ∨ ∃ c ∈ q.clauses, c.check ≠ .ok ())) ∧
      (∀ e, (q.answer kb strategy).mapError QueryError.meaningless = .error e →
        e.kind = .meaningless ∧ ∃ fault, q.firstFault? = some fault ∧ e = .meaningless fault) ∧
      (q.isBoolean → ∃ b, q.answer kb strategy = .ok (.boolean b)) := by
  have hp := (Program.wellFormed_of_parse h).toConsistent
  obtain ⟨s, hs, hkb⟩ := Program.exists_surveyed hp
  refine ⟨_, hkb, fun q strategy hsorts => ?_⟩
  have hfails : ∀ e, (q.answer (.assemble s (.ofTree p.toTree) p.flow) strategy).mapError
        QueryError.meaningless = .error e ↔
      q.isBoolean = false ∧ ∃ fault, q.firstFault? = some fault ∧ e = .meaningless fault := by
    intro e
    rw [Outcome.mapError_eq_error]
    simp only [answer_eq_error_iff hs.recorded hsorts, exists_and_left, and_assoc]
  refine ⟨?_, fun e he => ?_, exists_boolean_answer hs.recorded hsorts⟩
  · simp only [hfails, exists_and_left, ← exists_firstFault?]
    refine and_congr_right fun _ => ⟨?_, ?_⟩
    · intro ⟨e, fault, hfault, _⟩
      exact ⟨fault, hfault⟩
    · intro ⟨fault, hfault⟩
      exact ⟨_, fault, hfault, rfl⟩
  · obtain ⟨-, fault, hfault, rfl⟩ := (hfails e).1 he
    exact ⟨rfl, fault, hfault, rfl⟩

/-- Which calls have a variable in their condition: none has a condition. -/
def calledIf : Query where
  declarations := [⟨.call, "c"⟩, ⟨.var, "v"⟩]
  selection := .elements [⟨⟨.call, "c"⟩, some .procName⟩]
  clauses := [.suchThat .modifies (.synonym ⟨.call, "c"⟩) (.synonym ⟨.var, "v"⟩),
    .pattern ⟨.call, "c"⟩ (.synonym ⟨.var, "v"⟩) .wildcard]

theorem answer_fails_sharedCallee :
    Program.parse (Program.sharedCallee.print .minimal) = .ok Program.sharedCallee ∧
      calledIf.OneSort ∧ readAfterCall.OneSort ∧
      ∃ kb, FactBase.ofTree Program.sharedCallee.toTree = .ok kb ∧
        (∃ e, (calledIf.answer kb .full).mapError QueryError.meaningless = .error e) ∧
        ¬∃ e, (readAfterCall.answer kb .full).mapError QueryError.meaningless = .error e := by
  have hcalled : calledIf.OneSort := by
    unfold OneSort
    decide
  refine ⟨Program.parse_sharedCallee, hcalled, oneSort_readAfterCall, ?_⟩
  obtain ⟨kb, hkb, hall⟩ := answer_fails_iff Program.parse_sharedCallee
  have hrefused := (hall calledIf .full hcalled).1
  have haccepted := (hall readAfterCall .full oneSort_readAfterCall).1
  exact ⟨kb, hkb, hrefused.2 (by decide), fun hfails => absurd (haccepted.1 hfails) (by decide)⟩

end Query

end ProgramFacts
