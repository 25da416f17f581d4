import ProgramFacts.Proofs.Flow.Paths
import ProgramFacts.Proofs.Survey
/-!
# Data flow — which assignments affect which

A value reaches a statement if a path leads there on which nothing overwrites the variable. What
counts as overwriting depends on the paths: a path within a procedure steps over a call, which
then stands for all that the called procedure modifies (`Program.Kills`); a path across
procedures goes through the call, and only assignments and reads count
(`Program.Overwrites`). Both relations between assignments are exact (`affects_iff_path`,
`affectsBip_iff_matched_path`).

A survey that has found everything gives the data flow: each table of `Dataflow` says of a
number what the program says of the statement of that number.
-/

namespace ProgramFacts

open ProgramFacts.Flow

namespace Program

variable {p : Program} {s : Survey} {q v : String} {n : Nat} {t : Stmt} {k : Option Nat}

/-! ## What overwrites a variable -/

/-- The statement `n` assigns the value of an expression to a variable. -/
def Assigns (p : Program) (n : Nat) (v : String) (value : Expr) : Prop :=
  ∃ q k, p.Has q (.assign n v value) k

/-- The statement `n` reads a variable. -/
def Reads (p : Program) (n : Nat) (v : String) : Prop :=
  ∃ q k, p.Has q (.read n v) k

/-- **An assignment to a variable or a read of it.** -/
def Overwrites (p : Program) (v : String) (n : Nat) : Prop :=
  (∃ value, p.Assigns n v value) ∨ p.Reads n v

/-- **What overwrites a variable within a procedure**: an assignment to it, a read of it, or a
call of a procedure that covers one of these. -/
def Kills (p : Program) (v : String) (n : Nat) : Prop :=
  p.Overwrites v n ∨ ∃ callee, p.CallOf callee n ∧ ∃ u, p.CoversIn callee u ∧ v ∈ u.modifies

/-! ## The tables of a data flow -/

namespace Surveyed

variable (hs : p.Surveyed (p.procedures.map Procedure.name) s)
include hs

/-- What is found of the trees of statements is so of the statements. -/
theorem exists_finding_iff (P : Tree → Prop) :
    (∃ f ∈ s.findings, f.number = n ∧ P f.statement) ↔
      ∃ q t k, p.Has q t k ∧ t.number = n ∧ P t.toTree := by
  constructor
  · rintro ⟨f, hf, rfl, hP⟩
    obtain ⟨q, -, t, k, ht, hfound⟩ := hs.sound f hf
    exact ⟨q, t, k, ht, hfound.number.symm, hfound.statement ▸ hP⟩
  · rintro ⟨q, t, k, ht, rfl, hP⟩
    obtain ⟨f, hf, hfound⟩ := hs.complete q ht.mem_names t k ht
    exact ⟨f, hf, hfound.number, hfound.statement ▸ hP⟩

/-- A table of what the trees of some kind say is one of what the statements say. -/
theorem getElem?_iff {β : Type} {kind : NodeKind} {value : Tree → β} {x : β} :
    (Std.ExtTreeMap.ofList (s.findings.filterMap fun f =>
        if f.statement.kind = kind then some (f.number, value f.statement) else none))[n]? =
      some x ↔ ∃ q t k, p.Has q t k ∧ t.number = n ∧ t.toTree.kind = kind ∧ value t.toTree = x := by
  have hvalue : (s.findings.filterMap fun f =>
      if f.statement.kind = kind then some (f.number, value f.statement) else none) =
      s.findings.filterMap fun f =>
        (if f.statement.kind = kind then some (value f.statement) else none).map (f.number, ·) := by
    refine List.filterMap_congr fun f _ => ?_
    split <;> rfl
  rw [hvalue, Ordered.getElem?_ofList_filterMap hs.nodup]
  simp only [Option.ite_none_right_eq_some, Option.some.injEq]
  exact hs.exists_finding_iff fun tree => tree.kind = kind ∧ value tree = x

theorem assignments_iff {x : Assignment} : (Dataflow.ofSurvey s).assignments[n]? = some x ↔
    ∃ value, p.Assigns n x.target value ∧ value.toTree.variableNames = x.used := by
  refine hs.getElem?_iff.trans ⟨?_, ?_⟩
  · rintro ⟨q, t, k, ht, rfl, hkind, rfl⟩
    cases t with
    | assign n v value => exact ⟨value, ⟨q, k, ht⟩, rfl⟩
    | _ => cases hkind
  · rintro ⟨value, ⟨q, k, ht⟩, hused⟩
    exact ⟨q, _, k, ht, rfl, rfl, congrArg (Assignment.mk x.target) hused⟩

theorem reads_iff : (Dataflow.ofSurvey s).reads[n]? = some v ↔ p.Reads n v := by
  refine hs.getElem?_iff.trans ⟨?_, ?_⟩
  · rintro ⟨q, t, k, ht, rfl, hkind, rfl⟩
    cases t with
    | read n v => exact ⟨q, k, ht⟩
    | _ => cases hkind
  · rintro ⟨q, k, ht⟩
    exact ⟨q, _, k, ht, rfl, rfl, rfl⟩

theorem mem_calls : n ∈ (Dataflow.ofSurvey s).calls ↔ ∃ callee, p.CallOf callee n := by
  have hfindings : n ∈ (Dataflow.ofSurvey s).calls ↔
      ∃ f ∈ s.findings, f.number = n ∧ f.statement.kind = .call := by
    simp [Dataflow.ofSurvey, and_comm]
  refine hfindings.trans ((hs.exists_finding_iff (Tree.kind · = .call)).trans ⟨?_, ?_⟩)
  · rintro ⟨q, t, k, ht, rfl, hkind⟩
    cases t with
    | call n callee => exact ⟨callee, q, k, ht⟩
    | _ => cases hkind
  · rintro ⟨callee, q, k, ht⟩
    exact ⟨q, _, k, ht, rfl, rfl⟩

/-- What the statement of a number modifies is what it covers that modifies something. -/
theorem mem_modified (ht : p.Has q t k) :
    v ∈ (Dataflow.ofSurvey s).modified.getD t.number ∅ ↔ ∃ u, p.Covers t u ∧ v ∈ u.modifies := by
  obtain ⟨f, hf, hfound⟩ := hs.complete q ht.mem_names t k ht
  have hvalue : (s.findings.filterMap fun f =>
      if f.number ∈ f.ancestors then none else some (f.number, f.effects.modifies)) =
      s.findings.filterMap fun f => (some f.effects.modifies).map (f.number, ·) := by
    -- no statement is in one of the same number, so none is passed over
    refine List.filterMap_congr fun f hf => ?_
    obtain ⟨_, -, _, _, -, hfound⟩ := hs.sound f hf
    rw [if_neg hfound.outside]
    rfl
  have hmodified : (Dataflow.ofSurvey s).modified[t.number]? = some f.effects.modifies := by
    rw [Dataflow.ofSurvey, hvalue, Ordered.getElem?_ofList_filterMap hs.nodup]
    exact ⟨f, hf, hfound.number, rfl⟩
  rw [Std.ExtTreeMap.getD_eq_getD_getElem?, hmodified]
  exact hfound.effects .modifies v

/-! ## What the tables say of variables -/

/-- The users of a variable are the assignments of expressions with it. -/
theorem isUser_iff : (Dataflow.ofSurvey s).isUser v n ↔
    ∃ target value, p.Assigns n target value ∧ v ∈ value.names := by
  have hassigned : (Dataflow.ofSurvey s).isUser v n ↔
      ∃ x, (Dataflow.ofSurvey s).assignments[n]? = some x ∧ v ∈ x.used := by
    rw [Dataflow.isUser]
    cases (Dataflow.ofSurvey s).assignments[n]? <;> simp
  rw [hassigned]
  constructor
  · rintro ⟨x, hx, hv⟩
    obtain ⟨value, hassigns, hused⟩ := hs.assignments_iff.1 hx
    exact ⟨x.target, value, hassigns, value.mem_variableNames.1 (hused ▸ hv)⟩
  · rintro ⟨target, value, hassigns, hv⟩
    exact ⟨⟨target, value.toTree.variableNames⟩, hs.assignments_iff.2 ⟨value, hassigns, rfl⟩,
      value.mem_variableNames.2 hv⟩

/-- A call modifies what the called procedure covers that modifies something. -/
theorem call_modifies_iff : (Dataflow.ofSurvey s).calls.contains n ∧
    ((Dataflow.ofSurvey s).modified.getD n ∅).contains v ↔
      ∃ callee, p.CallOf callee n ∧ ∃ u, p.CoversIn callee u ∧ v ∈ u.modifies := by
  rw [Std.ExtTreeSet.contains_iff_mem, Std.ExtTreeSet.contains_iff_mem, hs.mem_calls,
    ← exists_and_right]
  refine exists_congr fun callee => and_congr_right ?_
  rintro ⟨q, k, ht⟩
  refine (hs.mem_modified ht).trans ?_
  simp only [covers_call_iff, or_and_right, exists_or, exists_eq_left, Stmt.modifies,
    List.not_mem_nil, false_or]

variable (hp : p.Consistent)
include hp

theorem overwrites_iff : (Dataflow.ofSurvey s).overwrites v n ↔ p.Overwrites v n := by
  rw [Dataflow.overwrites]
  cases hx : (Dataflow.ofSurvey s).assignments[n]? with
  | none =>
    have hassigns : ¬ ∃ value, p.Assigns n v value := by
      rintro ⟨value, h⟩
      rw [hs.assignments_iff (x := ⟨v, _⟩) |>.2 ⟨value, h, rfl⟩] at hx
      cases hx
    rw [Overwrites, or_iff_right hassigns, ← hs.reads_iff]
    exact decide_eq_true_iff
  | some x =>
    obtain ⟨value, ⟨q, k, ht⟩, -⟩ := hs.assignments_iff.1 hx
    -- the statement is an assignment, so it is the one that the table tells of, and no read
    constructor
    · intro h
      obtain rfl := of_decide_eq_true h
      exact .inl ⟨value, q, k, ht⟩
    · rintro (⟨_, _, _, ht'⟩ | ⟨_, _, ht'⟩)
      · obtain ⟨-, rfl, -⟩ := Stmt.assign.inj (hp.has_unique ht ht' rfl)
        exact decide_eq_true rfl
      · cases hp.has_unique ht ht' rfl

theorem kills_iff : (Dataflow.ofSurvey s).kills v n ↔ p.Kills v n := by
  rw [Kills, ← hs.overwrites_iff hp, ← hs.call_modifies_iff, Dataflow.kills]
  split
  · next hassignment hread =>
    rw [Dataflow.overwrites, hassignment, hread]
    simp
  · next hsome =>
    -- a call is no assignment and no read, and would be found in neither table
    refine (or_iff_left fun hcall => ?_).symm
    obtain ⟨callee, ⟨q, k, ht⟩, -⟩ := hs.call_modifies_iff.1 hcall
    refine hsome (Option.eq_none_iff_forall_ne_some.2 fun x hx => ?_)
      (Option.eq_none_iff_forall_ne_some.2 fun x hx => ?_)
    · obtain ⟨value, ⟨_, _, ht'⟩, -⟩ := hs.assignments_iff.1 hx
      cases hp.has_unique ht ht' rfl
    · obtain ⟨_, _, ht'⟩ := hs.reads_iff.1 hx
      cases hp.has_unique ht ht' rfl

end Surveyed

/-! ## Which assignments affect which -/

/-- `a` is an assignment to a variable, and `b` is an assignment of an expression with it. -/
def DefUse (p : Program) (v : String) (a b : Nat) : Prop :=
  (∃ value, p.Assigns a v value) ∧ ∃ target value, p.Assigns b target value ∧ v ∈ value.names

/-- The edges from each assignment to the users of its target among what it reaches. -/
theorem Surveyed.mem_edgeList_iff (hs : p.Surveyed (p.procedures.map Procedure.name) s)
    (reach : String → Nat → List Nat) {a b : Nat} :
    (a, b) ∈ (Digraph.ofRows ((Dataflow.ofSurvey s).assignments.toList.map fun (n, x) =>
        (n, (reach x.target n).filter ((Dataflow.ofSurvey s).isUser x.target)))).edgeList ↔
      ∃ v, p.DefUse v a b ∧ b ∈ reach v a := by
  rw [Digraph.mem_edgeList, Digraph.mem_next_ofRows]
  constructor
  · rintro ⟨_, hrow, rfl, hb⟩
    obtain ⟨⟨n, x⟩, hx, rfl⟩ := List.mem_map.1 hrow
    obtain ⟨hreach, huser⟩ := List.mem_filter.1 hb
    obtain ⟨value, hassigns, -⟩ :=
      hs.assignments_iff.1 (Std.ExtTreeMap.mem_toList_iff_getElem?_eq_some.1 hx)
    exact ⟨x.target, ⟨⟨value, hassigns⟩, hs.isUser_iff.1 huser⟩, hreach⟩
  · rintro ⟨v, ⟨⟨value, hassigns⟩, huser⟩, hreach⟩
    have hx := hs.assignments_iff (x := ⟨v, _⟩) |>.2 ⟨value, hassigns, rfl⟩
    exact ⟨_, List.mem_map_of_mem (Std.ExtTreeMap.mem_toList_iff_getElem?_eq_some.2 hx), rfl,
      List.mem_filter.2 ⟨hreach, hs.isUser_iff.2 huser⟩⟩

/-- **Within procedures the relation between assignments is exact.** The facts of a program that
was read can be found. They say that one assignment affects another exactly if the second uses
the variable that the first assigns, and control can get from the first to the second within
their procedure so that no statement in between overwrites the variable: none is an assignment
to it, a read of it, or a call of a procedure that modifies it, in whatever nested statement and
through whatever further calls. -/
theorem affects_iff_path {source : String} (h : parse source = .ok p) :
    ∃ kb, FactBase.ofTree p.toTree = .ok kb ∧
      (∀ a b, kb.holds .next (.stmt a) (.stmt b) ↔ p.Next a b) ∧
      ∀ a b, kb.holds .affects (.stmt a) (.stmt b) ↔ ∃ v, p.DefUse v a b ∧
        ∃ inner : List Nat, (a :: (inner ++ [b])).IsChain p.Next ∧ ∀ n ∈ inner, ¬ p.Kills v n := by
  have hp := (wellFormed_of_parse h).toConsistent
  obtain ⟨s, hs, hkb⟩ := exists_surveyed hp
  refine ⟨_, hkb, fun a b => ?_, fun a b => ?_⟩
  · rw [FactBase.holds_next, mem_next]
  · have hnext : (fun n m => m ∈ p.flow.graph.next n) = p.Next := by
      funext n m
      exact propext mem_next
    rw [FactBase.holds_affects]
    refine (hs.mem_edgeList_iff fun v =>
      p.flow.graph.reachThrough (!(Dataflow.ofSurvey s).kills v ·)).trans ?_
    simp only [Digraph.mem_reachThrough, hnext, ← hs.kills_iff hp, Bool.not_eq_true',
      Bool.not_eq_true]

/-- In this program every caller is declared before its callees. -/
theorem surveyed_sharedCallee : sharedCallee.Surveyed (sharedCallee.procedures.map Procedure.name)
    (.ofTree sharedCallee.toTree (sharedCallee.procedures.map Procedure.name)) := by
  have hcalls : ∀ {a : String} {rest : List String},
      (∀ q ∈ sharedCallee.procedures, q.name = a → ∀ b ∈ Stmt.calleesOf q.body, b ∈ rest) →
      ∀ b, (CallGraph.ofTree sharedCallee.toTree).Calls a b → b ∈ rest := by
    intro a rest h b hab
    obtain ⟨q, hq, hname, hb⟩ := calls_ofTree.1 hab
    exact h q hq hname b hb
  refine surveyed_ofTree wellFormed_sharedCallee.toConsistent ?_
  exact ⟨hcalls (by decide), by decide, hcalls (by decide), by decide, hcalls (by decide),
    by decide, hcalls (by decide), by decide, trivial⟩

/-- Around the loop the assignment affects itself, past two calls that leave its target alone. The
first assignment does not affect it: the call between them may overwrite the variable. -/
theorem affects_sharedCallee :
    parse (sharedCallee.print .minimal) = .ok sharedCallee ∧
    ∃ kb, FactBase.ofTree sharedCallee.toTree = .ok kb ∧
      kb.holds .affects (.stmt 4) (.stmt 4) ∧ ¬ kb.holds .affects (.stmt 1) (.stmt 4) := by
  obtain ⟨kb, hkb, -, haffects⟩ := affects_iff_path parse_sharedCallee
  have hp := wellFormed_sharedCallee.toConsistent
  have hassigns : sharedCallee.Assigns 4 "y" (.bin .add (.var "x") (.var "y")) :=
    ⟨_, _, _, .head _, rfl, .tail (.loop (.tail .head))⟩
  refine ⟨parse_sharedCallee, kb, hkb, ?_, fun h => ?_⟩
  · refine (haffects 4 4).2 ⟨"y", ⟨⟨_, hassigns⟩, _, _, hassigns, by decide⟩, [5, 2, 3], ?_, ?_⟩
    · refine List.IsChain.imp (fun n m => mem_next.1) ?_
      decide +kernel
    · simp only [← surveyed_sharedCallee.kills_iff hp]
      decide +kernel
  · obtain ⟨v, ⟨⟨value, q, k, hv⟩, -⟩, inner, hsteps, hinner⟩ := (haffects 1 4).1 h
    have hone : sharedCallee.Has "main" (.assign 1 "x" (.const "1")) (some 2) :=
      ⟨_, .head _, rfl, .head⟩
    cases hp.has_unique hone hv rfl
    -- control comes to the fourth statement only from the call before it
    have hbefore : ∀ n, sharedCallee.Next n 4 → n = 3 := by
      intro n hn
      obtain ⟨q, hin, -⟩ := hn.exists_in
      have hall : ∀ n ∈ sharedCallee.flow.statements, 4 ∈ sharedCallee.flow.next n → n = 3 := by
        decide +kernel
      exact hall n (mem_statements.2 ⟨q, hin⟩) (mem_next.2 hn)
    obtain ⟨-, -, hlast⟩ := List.isChain_append.1 (List.cons_append ▸ hsteps)
    have hthree : 3 ∈ 1 :: inner := by
      rw [← hbefore _ (hlast _ (List.getLast?_eq_some_getLast (List.cons_ne_nil 1 inner)) 4 rfl)]
      exact List.getLast_mem _
    refine hinner 3 ((List.mem_cons.1 hthree).resolve_left (by decide)) ?_
    rw [← surveyed_sharedCallee.kills_iff hp]
    decide +kernel

/-- **Across procedures the relation between assignments is exact.** The path is now a matched one
across procedures, and every call that it comes to is entered: so what a called procedure does
to the variable is seen on the path itself, and only an assignment to the variable or a read of
it may not stand in between.

For what control can come to it makes no difference whether a path may also leave a procedure at
its last call, but here it does. In `main { call p; y = x; } p { x = 1; call q; } q { x = 2; }` such
a path goes from `x = 1` to the call of `q` and from there right to `y = x`, although `q` overwrites
`x` on every way that enters it. -/
theorem affectsBip_iff_matched_path {source : String} (h : parse source = .ok p) :
    ∃ kb, FactBase.ofTree p.toTree = .ok kb ∧
      ∀ a b, kb.holds .affectsBip (.stmt a) (.stmt b) ↔ ∃ v, p.DefUse v a b ∧
        ∃ moves, p.Path a moves b ∧ (∀ x ∈ moves, p.EntersCalls x) ∧ Matched (crossings moves) ∧
          ∀ n ∈ between moves, ¬ p.Overwrites v n := by
  have hp := wellFormed_of_parse h
  obtain ⟨s, hs, hkb⟩ := exists_surveyed hp.toConsistent
  refine ⟨_, hkb, fun a b => ?_⟩
  rw [FactBase.holds_affectsBip]
  refine (hs.mem_edgeList_iff fun v => p.flow.walk ((Dataflow.ofSurvey s).overwrites v)).trans ?_
  simp only [mem_walk hp, ← hs.overwrites_iff hp.toConsistent, Bool.not_eq_true]

/-- The value of the first assignment gets past the call that overwrites it in one of the branches
of the called procedure. -/
theorem affectsBip_sharedCallee :
    parse (sharedCallee.print .minimal) = .ok sharedCallee ∧
    ∃ kb, FactBase.ofTree sharedCallee.toTree = .ok kb ∧
      kb.holds .affectsBip (.stmt 1) (.stmt 4) := by
  obtain ⟨kb, hkb, haffects⟩ := affectsBip_iff_matched_path parse_sharedCallee
  have hp := wellFormed_sharedCallee.toConsistent
  have hone : sharedCallee.Assigns 1 "x" (.const "1") := ⟨_, _, _, .head _, rfl, .head⟩
  have hfour : sharedCallee.Assigns 4 "y" (.bin .add (.var "x") (.var "y")) :=
    ⟨_, _, _, .head _, rfl, .tail (.loop (.tail .head))⟩
  have hnocall : ∀ {n}, sharedCallee.flow.callee[n]? = none → ∀ q, ¬ sharedCallee.CallOf q n := by
    intro n hnone q hq
    rw [hp.callee_iff.2 hq] at hnone
    cases hnone
  have hleft : sharedCallee.CallOf "left" 3 := hp.callee_iff.1 (by decide +kernel)
  have hshared : sharedCallee.CallOf "shared" 7 := hp.callee_iff.1 (by decide +kernel)
  -- to the first call, into the branch that does not assign, and back from the shared procedure
  have hcall : sharedCallee.Path 1 [.next 1 2, .next 2 3] 3 :=
    .concat (x := .next 2 3)
      (.single (x := .next 1 2) ⟨hnocall (by decide +kernel), mem_next.1 (by decide +kernel)⟩)
      ⟨hnocall (by decide +kernel), mem_next.1 (by decide +kernel)⟩
  have hbranch : sharedCallee.Path 1 ([.next 1 2, .next 2 3] ++ [.enter 3 6] ++ [.next 6 7]) 7 :=
    .concat (x := .next 6 7)
      (.concat (x := .enter 3 6) hcall ⟨_, hleft, hp.first_iff.1 (by decide +kernel)⟩)
      ⟨hnocall (by decide +kernel), mem_next.1 (by decide +kernel)⟩
  have hleaves : sharedCallee.Leaves 10 [7, 3] 4 :=
    .outward (mem_exitsFrom.1 (by decide +kernel)) hshared
      (.back (mem_exitsFrom.1 (by decide +kernel)) hleft (mem_next.1 (by decide +kernel)))
  have hpath : sharedCallee.Path 1 [.next 1 2, .next 2 3, .enter 3 6, .next 6 7, .enter 7 10,
      .leave 10 [7, 3] 4] 4 :=
    .concat (x := .leave 10 [7, 3] 4)
      (.concat (x := .enter 7 10) hbranch ⟨_, hshared, hp.first_iff.1 (by decide +kernel)⟩) hleaves
  refine ⟨parse_sharedCallee, kb, hkb, (haffects 1 4).2 ⟨"x", ⟨⟨_, hone⟩, _, _, hfour, by decide⟩,
    _, hpath, ?_, ?_, ?_⟩⟩
  · simpa [EntersCalls] using hnocall (n := 10) (by decide +kernel)
  · exact ((matched_nil.enter.enter).back (by simp [unreturned, Crossing.apply])).back
      (by simp [unreturned, Crossing.apply])
  · simp only [← surveyed_sharedCallee.overwrites_iff hp]
    decide +kernel

end Program

end ProgramFacts
