import ProgramFacts.Proofs.Query.Selection
import ProgramFacts.Proofs.Strategy
/-!
# Queries — answers are exact

The answer to a query that means something lists what is selected in its solutions
(`plain_answer_exact`), and strategies only change the way there
(`answer_eq_of_strategies`): a strategy keeps all clauses, joining tables in groups loses
no rows, and there is only one exact answer.
-/

namespace ProgramFacts

namespace Query

variable {kb : FactBase} {q : Query}

/-- The sort that a synonym occurs with. -/
def sortOf (q : Query) (name : String) : Entity :=
  ((q.occurrences.find? (·.name = name)).map Synonym.entity).getD .stmt

theorem OneSort.sorted (hsorts : q.OneSort) : Sorted q.sortOf q.occurrences := by
  intro s hs
  unfold sortOf
  cases hfind : q.occurrences.find? (·.name = s.name) with
  | none => exact absurd (decide_eq_true rfl) (List.find?_eq_none.1 hfind s hs)
  | some s' =>
    have hname : s'.name = s.name := by simpa using List.find?_some hfind
    exact hsorts s hs s' (List.mem_of_find?_eq_some hfind) hname.symm

/-! ## From clauses to tables -/

theorem joined_joined (strategy : Strategy) {db : List Table} (hdb : ∀ t ∈ db, t.Regular) :
    Table.Joined db (joined strategy db) := by
  unfold joined
  split
  · exact Table.joined_joinGroups hdb
  · exact Table.joined_joinOne hdb

/-- Tables with rows that clauses come down to settle a query, once they are joined. -/
theorem settled_of_narrowed (hsorts : q.OneSort) {db us : List Table}
    (hnarrowed : ∀ t ∈ db, Narrowed kb q.sortOf t) (hjoined : Table.Joined db us)
    (hrows : ∀ u ∈ us, 0 < u.height)
    (hinhabited : Inhabited kb (q.clauses.flatMap Clause.occurrences))
    (hiff : ∀ {ρ}, Admits kb ρ (q.clauses.flatMap Clause.occurrences) →
      (HoldAll us ρ ↔ ∀ c ∈ q.clauses, c.Satisfied kb ρ)) :
    Settled kb q.sortOf q us := by
  refine ⟨hsorts.sorted, hjoined.regular, hrows, hjoined.apart, ?_, hinhabited, hiff⟩
  intro ρ hρ u hu s hs
  obtain ⟨t, ht, hhas⟩ := (hjoined.has_iff s).1 ⟨u, hu, hs⟩
  exact (hnarrowed t ht).sorted ((hjoined.holds_iff ρ).1 hρ t ht) hhas

/-- **The tables that clauses come down to**: one without rows means that there is no
solution, and without such the query is settled. -/
theorem settled_or_unsolvable (strategy : Strategy) (hkb : kb.Recorded) (hsorts : q.OneSort)
    (hcheck : ∀ c ∈ q.clauses, c.check = .ok ()) :
    ∃ out, narrow kb [] (strategy.arrange q.clauses) = .ok out ∧
      match out with
      | none => ¬ ∃ ρ, Solution kb ρ q
      | some db => if (joined strategy db).any Table.isEmpty then ¬ ∃ ρ, Solution kb ρ q
        else Settled kb q.sortOf q (joined strategy db) := by
  have hoccurrences : ∀ s, s ∈ (strategy.arrange q.clauses).flatMap Clause.occurrences ↔
      s ∈ q.clauses.flatMap Clause.occurrences := by
    simp only [List.mem_flatMap, Strategy.mem_arrange, implies_true]
  have hadmits : ∀ {ρ}, Solution kb ρ q →
      Admits kb ρ ((strategy.arrange q.clauses).flatMap Clause.occurrences) := fun hρ s hs =>
    hρ.admits s (List.mem_append_left _ ((hoccurrences s).1 hs))
  have hnone : ∀ t ∈ ([] : List Table), Narrowed kb q.sortOf t := by simp
  obtain ⟨out, hout, hnarrows⟩ := narrow_tells hkb hnone
    (fun s hs => hsorts.sorted s (List.mem_append_left _ ((hoccurrences s).1 hs)))
    (fun c hc => hcheck c (Strategy.mem_arrange.1 hc))
  refine ⟨out, hout, ?_⟩
  cases out with
  | none =>
    rintro ⟨ρ, hρ⟩
    obtain ⟨c, hc, hnot⟩ := hnarrows ρ (by simp [HoldAll]) (hadmits hρ)
    exact hnot (hρ.satisfied c (Strategy.mem_arrange.1 hc))
  | some db =>
    obtain ⟨hnarrowed, hinhabited, hholds⟩ := hnarrows
    have hjoined : Table.Joined db (joined strategy db) :=
      joined_joined strategy fun t ht => (hnarrowed t ht).regular
    have hiff : ∀ {ρ}, Admits kb ρ (q.clauses.flatMap Clause.occurrences) →
        (HoldAll (joined strategy db) ρ ↔ ∀ c ∈ q.clauses, c.Satisfied kb ρ) := by
      intro ρ hρ
      refine (hjoined.holds_iff ρ).trans ((hholds ρ fun s hs => hρ s ((hoccurrences s).1 hs)).trans ?_)
      simp [HoldAll, Strategy.mem_arrange]
    dsimp only
    split
    · next hempty =>
      -- a solution would have a row in every table
      rintro ⟨ρ, hρ⟩
      obtain ⟨u, hu, hheight⟩ := List.any_eq_true.1 hempty
      obtain ⟨i, hi, -⟩ := (hiff fun s hs => hρ.admits s (List.mem_append_left _ hs)).2
        hρ.satisfied u hu
      simp only [Table.isEmpty, decide_eq_true_eq] at hheight
      omega
    · next hempty =>
      refine settled_of_narrowed hsorts hnarrowed hjoined (fun u hu => ?_)
        (fun s hs => hinhabited s ((hoccurrences s).2 hs)) hiff
      rw [Nat.pos_iff_ne_zero]
      intro hheight
      exact hempty (List.any_eq_true.2 ⟨u, hu, by simpa [Table.isEmpty] using hheight⟩)

/-! ## Evaluation -/

theorem forM_check {clauses : List Clause} :
    clauses.forM Clause.check = .ok () ↔ ∀ c ∈ clauses, c.check = .ok () := by
  induction clauses with
  | nil => simp [List.forM, pure, Except.pure]
  | cons c clauses ih =>
    have hcons : (c :: clauses).forM Clause.check =
        c.check.bind fun _ => clauses.forM Clause.check := rfl
    rw [hcons, List.forall_mem_cons, ← ih]
    cases c.check <;> simp [Except.bind]

/-- **A query that means something is either unsolvable or settled**, and never without
an answer. -/
theorem evaluate_cases (strategy : Strategy) (hkb : kb.Recorded) (hsorts : q.OneSort)
    (hfault : q.fault = none) (hcheck : ∀ c ∈ q.clauses, c.check = .ok ()) :
    ((¬ ∃ ρ, Solution kb ρ q) ∧ evaluate kb strategy q = .ok (.none q.selection)) ∨
      ∃ us, Settled kb q.sortOf q us ∧ evaluate kb strategy q = select kb q.selection us := by
  obtain ⟨out, hout, hsettled⟩ := settled_or_unsolvable strategy hkb hsorts hcheck
  cases out with
  | none =>
    refine .inl ⟨hsettled, ?_⟩
    simp only [evaluate, hfault, forM_check.2 hcheck, hout]
    rfl
  | some db =>
    dsimp only at hsettled
    by_cases hempty : (joined strategy db).any Table.isEmpty
    · rw [if_pos hempty] at hsettled
      refine .inl ⟨hsettled, ?_⟩
      simp only [evaluate, hfault, forM_check.2 hcheck, hout, Bind.bind, Except.bind]
      rw [if_pos hempty]
      rfl
    · rw [if_neg hempty] at hsettled
      refine .inr ⟨_, hsettled, ?_⟩
      simp only [evaluate, hfault, forM_check.2 hcheck, hout, Bind.bind, Except.bind]
      rw [if_neg hempty]

/-- Where there is no solution, the answer that there is none is exact. -/
theorem none_answers (hsolution : ¬ ∃ ρ, Solution kb ρ q) (hselection : q.selection ≠ .elements []) :
    q.Answers kb (.none q.selection) := by
  have hnone : ∀ P : Valuation → Prop, ¬ ∃ ρ, Solution kb ρ q ∧ P ρ := fun P ⟨ρ, hρ, _⟩ =>
    hsolution ⟨ρ, hρ⟩
  unfold Answers
  cases hq : q.selection with
  | boolean => exact ⟨false, rfl, iff_of_false (by simp) hsolution⟩
  | elements selected =>
    match selected, hq with
    | [], hq => exact absurd hq hselection
    | [s], _ =>
      dsimp only [Answer.none]
      split
      · exact ⟨_, rfl, fun n => iff_of_false Std.ExtTreeSet.not_mem_empty (hnone _)⟩
      · exact ⟨_, rfl, fun text => iff_of_false Std.ExtTreeSet.not_mem_empty (hnone _)⟩
    | s :: s' :: rest, _ =>
      exact ⟨[], rfl, .nil, fun row => iff_of_false List.not_mem_nil (hnone _)⟩

/-- **Evaluation gives the exact answer**, whatever the strategy. -/
theorem evaluate_answers (strategy : Strategy) (hkb : kb.Recorded) (hsorts : q.OneSort)
    (hfault : q.fault = none) (hcheck : ∀ c ∈ q.clauses, c.check = .ok ())
    (hselection : q.selection ≠ .elements []) :
    ∃ a, evaluate kb strategy q = .ok a ∧ q.Answers kb a := by
  rcases evaluate_cases strategy hkb hsorts hfault hcheck with
    ⟨hsolution, heval⟩ | ⟨us, hsettled, heval⟩
  · exact ⟨_, heval, none_answers hsolution hselection⟩
  · rw [heval]
    exact select_answers hkb hsettled hselection

/-- **There is only one exact answer.** -/
theorem Answers.unique {a a' : Answer} (h : q.Answers kb a) (h' : q.Answers kb a') : a = a' := by
  unfold Answers at h h'
  cases hq : q.selection with
  | boolean =>
    rw [hq] at h h'
    obtain ⟨b, rfl, hb⟩ := h
    obtain ⟨b', rfl, hb'⟩ := h'
    rw [Bool.eq_iff_iff.2 (hb.trans hb'.symm)]
  | elements selected =>
    rw [hq] at h h'
    have hrows : ∀ {a a' : Answer},
        (∃ rows, a = .tuples rows ∧ rows.Pairwise (fun r r' => compare r r' = .lt) ∧
          ∀ row, row ∈ rows ↔ ∃ ρ, Solution kb ρ q ∧
            selected.mapM (fun s => shown kb s (ρ s.synonym.name)) = .ok row) →
        (∃ rows, a' = .tuples rows ∧ rows.Pairwise (fun r r' => compare r r' = .lt) ∧
          ∀ row, row ∈ rows ↔ ∃ ρ, Solution kb ρ q ∧
            selected.mapM (fun s => shown kb s (ρ s.synonym.name)) = .ok row) → a = a' := by
      rintro _ _ ⟨rows, rfl, hsorted, hmem⟩ ⟨rows', rfl, hsorted', hmem'⟩
      rw [Ordered.eq_of_ascending hsorted hsorted' fun row => (hmem row).trans (hmem' row).symm]
    match selected with
    | [] => exact hrows h h'
    | [s] =>
      dsimp only at h h'
      by_cases hyields : s.yieldsStatements
      · rw [if_pos hyields] at h h'
        obtain ⟨numbers, rfl, hmem⟩ := h
        obtain ⟨numbers', rfl, hmem'⟩ := h'
        rw [Std.ExtTreeSet.ext_mem fun n => (hmem n).trans (hmem' n).symm]
      · rw [if_neg hyields] at h h'
        obtain ⟨texts, rfl, hmem⟩ := h
        obtain ⟨texts', rfl, hmem'⟩ := h'
        rw [Std.ExtTreeSet.ext_mem fun text => (hmem text).trans (hmem' text).symm]
    | s :: s' :: rest => exact hrows h h'

/-! ## Strategies -/

/-- Nothing selected is answered with no rows, or without a solution with no names. -/
theorem evaluate_nothing (strategy : Strategy) (hkb : kb.Recorded) (hsorts : q.OneSort)
    (hfault : q.fault = none) (hcheck : ∀ c ∈ q.clauses, c.check = .ok ())
    (hselection : q.selection = .elements []) :
    evaluate kb strategy q = .ok (.tuples []) ∧ (∃ ρ, Solution kb ρ q) ∨
      evaluate kb strategy q = .ok (.names ∅) ∧ ¬ ∃ ρ, Solution kb ρ q := by
  rcases evaluate_cases strategy hkb hsorts hfault hcheck with
    ⟨hsolution, heval⟩ | ⟨us, hsettled, heval⟩
  · refine .inr ⟨?_, hsolution⟩
    rw [heval, hselection]
    rfl
  · refine .inl ⟨?_, ?_⟩
    · rw [heval, hselection]
      exact selectRows_nil
    · exact hsettled.solvable (by rw [hselection]; rfl)

/-- **Strategies never change what a query is evaluated to.** -/
theorem evaluate_eq_of_strategies (hkb : kb.Recorded) (hsorts : q.OneSort) (s s' : Strategy) :
    evaluate kb s q = evaluate kb s' q := by
  cases hfault : q.fault with
  | some fault =>
    simp only [evaluate, hfault]
    rfl
  | none =>
    cases hcheck : q.clauses.forM Clause.check with
    | error fault =>
      simp only [evaluate, hfault, hcheck]
      rfl
    | ok u =>
      have hcheck := forM_check.1 hcheck
      by_cases hselection : q.selection = .elements []
      · rcases evaluate_nothing s hkb hsorts hfault hcheck hselection with ⟨h, hs⟩ | ⟨h, hs⟩ <;>
          rcases evaluate_nothing s' hkb hsorts hfault hcheck hselection with ⟨h', hs'⟩ | ⟨h', hs'⟩
        · rw [h, h']
        · exact absurd hs hs'
        · exact absurd hs' hs
        · rw [h, h']
      · obtain ⟨a, ha, hanswers⟩ := evaluate_answers s hkb hsorts hfault hcheck hselection
        obtain ⟨a', ha', hanswers'⟩ := evaluate_answers s' hkb hsorts hfault hcheck hselection
        rw [ha, ha', hanswers.unique hanswers']

/-! ## Answers -/

/-- A call of `p`, and after it a statement that reads `x`. -/
def callThenRead : FactBase :=
  ((((FactBase.empty.insertStatement 1 .call).insertStatement 2 .read).setCallee 1 "p").setTransfer
    2 "x").insertFact ⟨.follows, .stmt 1, .stmt 2⟩

/-- What is read right after a call of `p`. -/
def readAfterCall : Query where
  declarations := [⟨.call, "c"⟩, ⟨.read, "r"⟩]
  selection := .elements [⟨⟨.read, "r"⟩, some .varName⟩]
  clauses := [.suchThat .follows (.synonym ⟨.call, "c"⟩) (.synonym ⟨.read, "r"⟩),
    .equal ⟨.synonym ⟨.call, "c"⟩, some .procName⟩ ⟨.name "p", none⟩]

theorem recorded_callThenRead : callThenRead.Recorded := by
  have hstatements : ∀ n kind, callThenRead.statements[n]? = some kind →
      n = 1 ∧ kind = .call ∨ n = 2 ∧ kind = .read := by
    intro n kind hn
    have hinsert : callThenRead.statements =
        ((∅ : Std.ExtTreeMap Nat StatementKind).insert 1 .call).insert 2 .read := rfl
    rw [hinsert] at hn
    grind
  refine ⟨fun n hn => ?_, fun n hn => ?_, fun n hn => ?_⟩
  · obtain ⟨rfl, -⟩ | ⟨-, hkind⟩ := hstatements n _ hn
    · rfl
    · cases hkind
  · obtain ⟨-, hkind⟩ | ⟨rfl, -⟩ := hstatements n _ hn
    · cases hkind
    · rfl
  · obtain ⟨-, hkind⟩ | ⟨-, hkind⟩ := hstatements n _ hn <;> cases hkind

theorem oneSort_readAfterCall : readAfterCall.OneSort := by
  unfold OneSort
  decide

theorem answer_callThenRead :
    answer callThenRead .plain readAfterCall = .ok (.names (.ofList ["x"])) :=
  Outcome.toOption_eq_some.1 (by decide +kernel)

/-- **The plain answer is exact**: it lists what is selected in the solutions, and
nothing else. -/
theorem plain_answer_exact (hkb : kb.Recorded) (hfault : q.fault = none)
    (hcheck : ∀ c ∈ q.clauses, c.check = .ok ()) (hsorts : q.OneSort)
    (hselection : q.selection ≠ .elements []) :
    ∃ a, answer kb .plain q = .ok a ∧ q.Answers kb a := by
  obtain ⟨a, ha, hanswers⟩ := evaluate_answers .plain hkb hsorts hfault hcheck hselection
  exact ⟨a, by rw [answer, ha], hanswers⟩

/-- The variable that is read is shown, and not the number of the statement that reads it. -/
theorem plain_answer_readAfterCall :
    callThenRead.Recorded ∧ readAfterCall.OneSort ∧
      answer callThenRead .plain readAfterCall = .ok (.names (.ofList ["x"])) ∧
      readAfterCall.Answers callThenRead (.names (.ofList ["x"])) := by
  have hcheck : ∀ c ∈ readAfterCall.clauses, c.check = .ok () := by
    intro c hc
    simp only [readAfterCall, List.mem_cons, List.not_mem_nil, or_false] at hc
    rcases hc with rfl | rfl <;> rfl
  obtain ⟨a, ha, hanswers⟩ := plain_answer_exact recorded_callThenRead rfl hcheck
    oneSort_readAfterCall nofun
  obtain rfl := Except.ok.inj (ha.symm.trans answer_callThenRead)
  exact ⟨recorded_callThenRead, oneSort_readAfterCall, answer_callThenRead, hanswers⟩

/-- **Strategies never change an answer**, be it a fault or not. -/
theorem answer_eq_of_strategies (hkb : kb.Recorded) (hsorts : q.OneSort) (s s' : Strategy) :
    answer kb s q = answer kb s' q := by
  rw [answer, answer, evaluate_eq_of_strategies hkb hsorts s s']

/-- What is read after the call is told by the full strategy too. -/
theorem full_answer_readAfterCall :
    callThenRead.Recorded ∧ readAfterCall.OneSort ∧
      answer callThenRead .full readAfterCall = answer callThenRead .plain readAfterCall ∧
      answer callThenRead .full readAfterCall = .ok (.names (.ofList ["x"])) := by
  have heq := answer_eq_of_strategies recorded_callThenRead oneSort_readAfterCall .full .plain
  exact ⟨recorded_callThenRead, oneSort_readAfterCall, heq, heq.trans answer_callThenRead⟩

end Query

end ProgramFacts
