import ProgramFacts.Proofs.Dataflow
import ProgramFacts.Proofs.Flow.Steps
/-!
# Data flow — across procedures as within them

What is so within the procedures is so across them. A path within a procedure steps over the
calls that it comes to; across procedures control goes through the called procedure instead, and
comes back to the same call (`transGen_passes_of_next`). If the call did not overwrite a variable,
then nothing that the procedure covers overwrites it, so the value gets through as well
(`Surveyed.clear_of_not_kills`). In a program without calls there is nothing else to walk through,
and the relations across procedures are the relations within them
(`acrossProcedures_extends_within`).
-/

namespace ProgramFacts

open ProgramFacts.Flow

namespace Program

variable {p : Program} {s : Survey} {v : String} {n m a b : Nat} {stop : Nat → Bool}

/-! ## From within procedures to across them -/

/-- What control can come to within a procedure, it can come to across procedures. -/
theorem mem_reach_of_transGen_next (hp : p.WellFormed) (h : Relation.TransGen p.Next a b) :
    b ∈ p.flow.reach a := by
  have hstep : ∀ n m, p.Next n m → Relation.TransGen p.Walks ⟨n, []⟩ ⟨m, []⟩ := by
    intro n m hnext
    have hclear : ∀ callee, p.CallOf callee n → p.Clear (fun _ => false) callee :=
      fun _ _ _ _ => rfl
    exact Relation.TransGen.mono (fun _ _ hpass => hpass.2) _ _
      (transGen_passes_of_next hp rfl hclear hnext)
  have hwalk := Relation.TransGen.lift' (fun n => (⟨n, []⟩ : State)) hstep _ _ h
  exact (mem_reach hp).2 ⟨[], hwalk⟩

/-- What overwrites a variable modifies it. -/
theorem Overwrites.mem_modifies (hp : p.Consistent) {q : String} {u : Stmt} {k : Option Nat}
    (h : p.Overwrites v u.number) (hu : p.Has q u k) : v ∈ u.modifies := by
  rcases h with ⟨value, q', k', h⟩ | ⟨q', k', h⟩
  · rw [hp.has_unique hu h rfl]
    exact List.mem_singleton_self v
  · rw [hp.has_unique hu h rfl]
    exact List.mem_singleton_self v

/-- **A call that does not overwrite a variable** calls a procedure that covers nothing which
does. -/
theorem Surveyed.clear_of_not_kills (hs : p.Surveyed (p.procedures.map Procedure.name) s)
    (hp : p.Consistent) (hn : ¬ p.Kills v n) {callee : String} (hcall : p.CallOf callee n) :
    p.Clear ((Dataflow.ofSurvey s).overwrites v) callee := by
  intro u hu
  refine Bool.eq_false_iff.2 fun hstop => hn (.inr ⟨callee, hcall, u, hu, ?_⟩)
  obtain ⟨procedure, hprocedure, -, t, ht, hcovers⟩ := hu
  obtain ⟨k, ht⟩ := Stmt.exists_occurs_of_mem none ht
  obtain ⟨q', k', hhas⟩ := hcovers.exists_has ⟨procedure, hprocedure, rfl, ht⟩
  exact ((hs.overwrites_iff hp).1 hstop).mem_modifies hp hhas

/-- **A value that gets somewhere within a procedure gets there across procedures.** -/
theorem Surveyed.mem_walk_of_reachThrough (hs : p.Surveyed (p.procedures.map Procedure.name) s)
    (hp : p.WellFormed) (ha : ∀ q, ¬ p.CallOf q a)
    (h : b ∈ p.flow.graph.reachThrough (!(Dataflow.ofSurvey s).kills v ·) a) :
    b ∈ p.flow.walk ((Dataflow.ofSurvey s).overwrites v) a := by
  obtain ⟨c, hc, h⟩ := Digraph.mem_reachThrough_iff_leads.1 h
  have hfirst : p.Walks ⟨a, []⟩ ⟨c, []⟩ := .resume ha (.next (mem_next.1 hc))
  have hstep : ∀ n m, (p.flow.graph.space (!(Dataflow.ofSurvey s).kills v ·)).Leads n m →
      Relation.ReflTransGen (p.Passes ((Dataflow.ofSurvey s).overwrites v)) ⟨n, []⟩ ⟨m, []⟩ := by
    intro n m hleads
    obtain ⟨hpass, hnext⟩ := Digraph.leads_space.1 hleads
    have hkills : ¬ p.Kills v n := by
      rw [← hs.kills_iff hp.toConsistent]
      simpa using hpass
    have hstop : (Dataflow.ofSurvey s).overwrites v n = false := by
      refine Bool.eq_false_iff.2 fun hstop => hkills (.inl ?_)
      exact (hs.overwrites_iff hp.toConsistent).1 hstop
    have hclear : ∀ callee, p.CallOf callee n →
        p.Clear ((Dataflow.ofSurvey s).overwrites v) callee :=
      fun _ hcall => hs.clear_of_not_kills hp.toConsistent hkills hcall
    exact (transGen_passes_of_next hp hstop hclear (mem_next.1 hnext)).to_reflTransGen
  have hrest := Relation.ReflTransGen.lift' (fun n => (⟨n, []⟩ : State)) hstep _ _ h
  exact List.mem_map.2 ⟨⟨b, []⟩, (mem_walkStates hp).2 ⟨_, hfirst, hrest⟩, rfl⟩

/-- The edges within procedures are edges across them. -/
theorem Surveyed.affectsBip_of_affects (hs : p.Surveyed (p.procedures.map Procedure.name) s)
    (hp : p.WellFormed) (h : b ∈ ((Dataflow.ofSurvey s).affects p.flow).next a) :
    b ∈ ((Dataflow.ofSurvey s).affectsBip p.flow).next a := by
  rw [← Digraph.mem_edgeList] at h ⊢
  obtain ⟨v, huse, hreach⟩ := (hs.mem_edgeList_iff fun v =>
    p.flow.graph.reachThrough (!(Dataflow.ofSurvey s).kills v ·)).1 h
  refine (hs.mem_edgeList_iff fun v => p.flow.walk ((Dataflow.ofSurvey s).overwrites v)).2
    ⟨v, huse, hs.mem_walk_of_reachThrough hp ?_ hreach⟩
  -- the path starts at an assignment, which is no call
  obtain ⟨⟨value, q, k, hassign⟩, -⟩ := huse
  exact not_callOf hp.toConsistent hassign (by simp [Stmt.toTree])

/-! ## Without calls -/

section NoCalls

variable (hcalls : ∀ callee n, ¬ p.CallOf callee n)
include hcalls

theorem mem_linked_of_no_calls (hp : p.Consistent) :
    m ∈ p.flow.linked.next n ↔ p.Next n m := by
  rw [mem_linked hp, walks_nil_iff, resumes_nil_iff]
  simp [hcalls]

theorem kills_iff_of_no_calls : p.Kills v n ↔ p.Overwrites v n := by
  simp [Kills, hcalls]

/-- A walk through a program without calls goes on within a procedure. -/
theorem next_of_walks (hp : p.Consistent) {x y : State} (h : p.Walks x y)
    (hx : p.Nested x.stmt x.stack) : p.Next x.stmt y.stmt :=
  (mem_linked_of_no_calls hcalls hp).1 (h.mem_linked hp hx)

theorem mem_reach_of_no_calls (hp : p.WellFormed) :
    b ∈ p.flow.reach a ↔ Relation.TransGen p.Next a b := by
  constructor
  · intro h
    obtain ⟨stack, hwalk⟩ := (mem_reach hp).1 h
    have hlinked := transGen_linked_of_walk hp.toConsistent hwalk trivial
    simpa only [mem_linked_of_no_calls hcalls hp.toConsistent] using hlinked
  · exact mem_reach_of_transGen_next hp

/-- Without calls a walk passes the statements that a path within a procedure passes. -/
theorem reflTransGen_next_of_passes (hp : p.Consistent) {x y : State}
    (h : Relation.ReflTransGen (p.Passes stop) x y) (hx : p.Nested x.stmt x.stack) :
    Relation.ReflTransGen (fun n m => stop n = false ∧ p.Next n m) x.stmt y.stmt := by
  induction h using Relation.ReflTransGen.head_induction_on with
  | refl => exact .refl
  | head hstep _ ih =>
    obtain ⟨hstop, hwalks⟩ := hstep
    exact .head ⟨hstop, next_of_walks hcalls hp hwalks hx⟩ (ih (hx.of_walks hp hwalks))

theorem Surveyed.mem_walk_of_no_calls (hs : p.Surveyed (p.procedures.map Procedure.name) s)
    (hp : p.WellFormed) :
    b ∈ p.flow.walk ((Dataflow.ofSurvey s).overwrites v) a ↔
      b ∈ p.flow.graph.reachThrough (!(Dataflow.ofSurvey s).kills v ·) a := by
  have hsame : (Dataflow.ofSurvey s).kills v = (Dataflow.ofSurvey s).overwrites v := by
    funext n
    rw [Bool.eq_iff_iff, hs.kills_iff hp.toConsistent, hs.overwrites_iff hp.toConsistent,
      kills_iff_of_no_calls hcalls]
  constructor
  · intro h
    obtain ⟨y, hy, rfl⟩ := List.mem_map.1 h
    obtain ⟨x, hfirst, hrest⟩ := (mem_walkStates hp).1 hy
    have hnested : p.Nested x.stmt x.stack :=
      Nested.of_walks (s := ⟨a, []⟩) hp.toConsistent hfirst trivial
    have hnext := next_of_walks hcalls hp.toConsistent hfirst trivial
    have hpath := reflTransGen_next_of_passes hcalls hp.toConsistent hrest hnested
    refine Digraph.mem_reachThrough_iff_leads.2 ⟨x.stmt, mem_next.2 hnext, ?_⟩
    refine Relation.ReflTransGen.mono (fun n m hstep => ?_) _ _ hpath
    refine Digraph.leads_space.2 ⟨?_, mem_next.2 hstep.2⟩
    rw [hsame, hstep.1]
    rfl
  · exact hs.mem_walk_of_reachThrough hp fun q => hcalls q a

theorem Surveyed.affectsBip_iff_of_no_calls (hs : p.Surveyed (p.procedures.map Procedure.name) s)
    (hp : p.WellFormed) : b ∈ ((Dataflow.ofSurvey s).affectsBip p.flow).next a ↔
      b ∈ ((Dataflow.ofSurvey s).affects p.flow).next a := by
  rw [← Digraph.mem_edgeList, ← Digraph.mem_edgeList]
  refine (hs.mem_edgeList_iff fun v => p.flow.walk ((Dataflow.ofSurvey s).overwrites v)).trans ?_
  simp only [hs.mem_walk_of_no_calls hcalls hp]
  exact (hs.mem_edgeList_iff fun v =>
    p.flow.graph.reachThrough (!(Dataflow.ofSurvey s).kills v ·)).symm

end NoCalls

/-! ## The relations -/

/-- **The relations across procedures extend those within them.** The facts of a program that was
read can be found. What control can come to within a procedure it can come to across procedures,
and an assignment that affects another one within a procedure does so across procedures. If the
program has no call, the relations across procedures hold of the same elements as those within
them, over one step and over any number of steps. -/
theorem acrossProcedures_extends_within {source : String} (h : parse source = .ok p) :
    ∃ kb, FactBase.ofTree p.toTree = .ok kb ∧
      (∀ x y, kb.holds .nextStar x y → kb.holds .nextBipStar x y) ∧
      (∀ x y, kb.holds .affects x y → kb.holds .affectsBip x y) ∧
      ((∀ callee n, ¬ p.CallOf callee n) → ∀ x y,
        (kb.holds .nextBip x y ↔ kb.holds .next x y) ∧
        (kb.holds .nextBipStar x y ↔ kb.holds .nextStar x y) ∧
        (kb.holds .affectsBip x y ↔ kb.holds .affects x y) ∧
        (kb.holds .affectsBipStar x y ↔ kb.holds .affectsStar x y)) := by
  have hp := wellFormed_of_parse h
  obtain ⟨s, hs, hkb⟩ := exists_surveyed hp.toConsistent
  have hnext : (fun n m => m ∈ p.flow.graph.next n) = p.Next := by
    funext n m
    exact propext mem_next
  refine ⟨_, hkb, fun x y hxy => ?_, fun x y hxy => ?_, fun hcalls x y => ⟨?_, ?_, ?_, ?_⟩⟩
  · obtain ⟨a, b, rfl, rfl⟩ := FactBase.exists_stmts_of_holds (by decide) hxy
    have hreach : b ∈ p.flow.reach a := by
      rw [FactBase.holds_nextStar, Digraph.mem_closure, hnext] at hxy
      exact mem_reach_of_transGen_next hp hxy
    exact FactBase.holds_nextBipStar.2 ⟨mem_statements_of_reach hp hreach, hreach⟩
  · obtain ⟨a, b, rfl, rfl⟩ := FactBase.exists_stmts_of_holds (by decide) hxy
    rw [FactBase.holds_affects, Digraph.mem_edgeList] at hxy
    rw [FactBase.holds_affectsBip, Digraph.mem_edgeList]
    exact hs.affectsBip_of_affects hp hxy
  · refine FactBase.holds_congr (by decide) (by decide) fun a b => ?_
    rw [FactBase.holds_nextBip, FactBase.holds_next, mem_next,
      mem_linked_of_no_calls hcalls hp.toConsistent]
  · refine FactBase.holds_congr (by decide) (by decide) fun a b => ?_
    rw [FactBase.holds_nextBipStar, FactBase.holds_nextStar, Digraph.mem_closure, hnext,
      and_iff_right_of_imp (mem_statements_of_reach hp), mem_reach_of_no_calls hcalls hp]
  · refine FactBase.holds_congr (by decide) (by decide) fun a b => ?_
    rw [FactBase.holds_affectsBip, FactBase.holds_affects, Digraph.mem_edgeList,
      Digraph.mem_edgeList, hs.affectsBip_iff_of_no_calls hcalls hp]
  · refine FactBase.holds_congr (by decide) (by decide) fun a b => ?_
    rw [FactBase.holds_affectsBipStar, FactBase.holds_affectsStar, Digraph.mem_closure,
      Digraph.mem_closure]
    simp only [hs.affectsBip_iff_of_no_calls hcalls hp]

/-- A loop without calls that adds up. -/
def accumulation : Program :=
  ⟨[⟨"main",
      [.assign 1 "x" (.const "1"),
        .whileLoop 2 (.compare .gt (.var "i") (.const "0"))
          [.assign 3 "x" (.bin .add (.var "x") (.var "i"))]]⟩]⟩

theorem wellFormed_accumulation : accumulation.WellFormed where
  toConsistent := consistent_of_rank (fun _ => 0) (by simp [accumulation]) (by decide) (by decide)
    (by decide)
  printable := by decide

theorem not_callOf_accumulation (callee : String) (n : Nat) : ¬ accumulation.CallOf callee n := by
  rintro ⟨q, k, h⟩
  obtain ⟨procedure, hprocedure, -, hcallee⟩ := calls_of_has h
  have hnone : ∀ q ∈ accumulation.procedures, Stmt.calleesOf q.body = [] := by decide
  rw [hnone procedure hprocedure] at hcallee
  cases hcallee

/-- The value of the first assignment gets into the loop, which nothing on the way overwrites. -/
theorem affects_accumulation :
    ∃ kb, FactBase.ofTree accumulation.toTree = .ok kb ∧ kb.holds .affects (.stmt 1) (.stmt 3) := by
  have hp := wellFormed_accumulation.toConsistent
  obtain ⟨s, hs, hkb⟩ := exists_surveyed hp
  have hloop : accumulation.Has "main" (.whileLoop 2 (.compare .gt (.var "i") (.const "0"))
      [.assign 3 "x" (.bin .add (.var "x") (.var "i"))]) none := ⟨_, .head _, rfl, .tail .head⟩
  have hone : accumulation.Assigns 1 "x" (.const "1") := ⟨_, _, _, .head _, rfl, .head⟩
  have hthree : accumulation.Assigns 3 "x" (.bin .add (.var "x") (.var "i")) :=
    ⟨_, _, _, .head _, rfl, .tail (.loop .head)⟩
  have hkills : ¬ accumulation.Kills "x" 2 := by
    rw [kills_iff_of_no_calls not_callOf_accumulation]
    rintro (⟨_, _, _, h⟩ | ⟨_, _, h⟩) <;> cases hp.has_unique hloop h rfl
  refine ⟨_, hkb, FactBase.holds_affects.2 ?_⟩
  refine (hs.mem_edgeList_iff fun v =>
    accumulation.flow.graph.reachThrough (!(Dataflow.ofSurvey s).kills v ·)).2
    ⟨"x", ⟨⟨_, hone⟩, _, _, hthree, by decide⟩, Digraph.mem_reachThrough.2 ⟨[2], ?_, ?_⟩⟩
  · decide +kernel
  · simpa [← hs.kills_iff hp] using hkills

/-- Without calls the value gets there across procedures as well; and with calls control gets past
one that has to be gone through. -/
theorem extends_accumulation_sharedCallee :
    (parse (accumulation.print .minimal) = .ok accumulation ∧
      (∀ callee n, ¬ accumulation.CallOf callee n) ∧
      ∃ kb, FactBase.ofTree accumulation.toTree = .ok kb ∧
        kb.holds .affects (.stmt 1) (.stmt 3) ∧ kb.holds .affectsBip (.stmt 1) (.stmt 3) ∧
        ¬ kb.holds .affectsBip (.stmt 3) (.stmt 1)) ∧
    parse (sharedCallee.print .minimal) = .ok sharedCallee ∧
      ∃ kb, FactBase.ofTree sharedCallee.toTree = .ok kb ∧
        kb.holds .nextStar (.stmt 3) (.stmt 5) ∧ kb.holds .nextBipStar (.stmt 3) (.stmt 5) := by
  have hparse : parse (accumulation.print .minimal) = .ok accumulation :=
    parse_of_laid wellFormed_accumulation (Token.laid_phrase _)
  refine ⟨⟨hparse, not_callOf_accumulation, ?_⟩, parse_sharedCallee, ?_⟩
  · obtain ⟨kb, hkb, -, -, hsame⟩ := acrossProcedures_extends_within hparse
    obtain ⟨kb', hkb', haffects⟩ := affects_accumulation
    obtain rfl := Except.ok.inj (hkb.symm.trans hkb')
    have hbip := fun a b => (hsame not_callOf_accumulation (.stmt a) (.stmt b)).2.2.1
    refine ⟨kb, hkb, haffects, (hbip 1 3).2 haffects, fun h => ?_⟩
    -- the first assignment uses no variable
    obtain ⟨s, hs, hkb'⟩ := exists_surveyed wellFormed_accumulation.toConsistent
    obtain rfl := Except.ok.inj (hkb.symm.trans hkb')
    obtain ⟨v, ⟨-, _, _, ⟨_, _, hassign⟩, hv⟩, -⟩ := (hs.mem_edgeList_iff fun v =>
      accumulation.flow.graph.reachThrough (!(Dataflow.ofSurvey s).kills v ·)).1
      (FactBase.holds_affects.1 ((hbip 3 1).1 h))
    have hone : accumulation.Has "main" (.assign 1 "x" (.const "1")) (some 2) :=
      ⟨_, .head _, rfl, .head⟩
    cases wellFormed_accumulation.toConsistent.has_unique hone hassign rfl
    cases hv
  · obtain ⟨kb, hkb, hstar, -⟩ := acrossProcedures_extends_within parse_sharedCallee
    obtain ⟨s, -, hkb'⟩ := exists_surveyed wellFormed_sharedCallee.toConsistent
    obtain rfl := Except.ok.inj (hkb.symm.trans hkb')
    have hpath : Relation.TransGen (fun n m => m ∈ sharedCallee.flow.graph.next n) 3 5 :=
      .tail (.single (b := 4) (by decide +kernel)) (by decide +kernel)
    refine ⟨_, hkb, ?_, hstar _ _ ?_⟩ <;>
      exact FactBase.holds_nextStar.2 (Digraph.mem_closure.2 hpath)

end Program

end ProgramFacts
