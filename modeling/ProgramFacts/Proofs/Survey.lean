import ProgramFacts.Proofs.FactBase.Extraction
import ProgramFacts.Proofs.Program.Coverage
/-!
# Surveys — what is found

A survey visits the statements of a program in preorder, so the effects of a statement come
from what is inside it and from the table of the procedures visited so far
(`Access.mem_ofStatement`). `Program.Surveyed` says what a survey of some procedures has found:
one finding for each of their statements, and for each statement and procedure the variables
that what it covers uses and modifies. To visit a procedure whose callees have all been visited
keeps this (`Surveyed.visit`); hence a survey that follows a topological order from its end has
found everything (`surveyed_ofTree`).
-/

namespace ProgramFacts

/-! ## Uses and modifications alike -/

/-- The two ways to have an effect on a variable. -/
inductive Access
  | uses | modifies

namespace Access

/-- The variables that a statement has such an effect on by itself. -/
def own : Access → Stmt → List String
  | .uses => Stmt.uses
  | .modifies => Stmt.modifies

/-- The relation that tells of such an effect. -/
def relation : Access → Relation
  | .uses => .uses
  | .modifies => .modifies

/-- The variables that have such an effect among some effects. -/
def of : Access → Effects → Std.ExtTreeSet String
  | .uses => Effects.uses
  | .modifies => Effects.modifies

/-- What a visited statement adds to the effects, given the effects of procedures. -/
def ownIn : Access → Effects.Table → Tree → List String
  | .uses => Effects.ownUses
  | .modifies => Effects.ownModifies

end Access

theorem Expr.mem_variableNames {v : String} (e : Expr) :
    v ∈ e.toTree.variableNames ↔ v ∈ e.names := by
  have hvalues : ∀ e : Expr, v ∈ e.toTree.values .variableRef ↔ v ∈ e.names := by
    intro e
    induction e with
    | var | const =>
      rw [Tree.mem_values]
      simp [toTree, Tree.leaf, names, eq_comm]
    | bin op left right ihl ihr =>
      rw [Tree.mem_values, names, List.mem_append, ← ihl, ← ihr]
      simp [toTree, Tree.leaf]
  rw [Tree.variableNames, Ordered.mem_ofList, hvalues]

theorem Condition.mem_variableNames {v : String} (c : Condition) :
    v ∈ c.toTree.variableNames ↔ v ∈ c.names := by
  have hvalues : ∀ c : Condition, v ∈ c.toTree.values .variableRef ↔ v ∈ c.names := by
    intro c
    induction c with
    | compare op left right =>
      have hl := left.mem_variableNames (v := v)
      have hr := right.mem_variableNames (v := v)
      rw [Tree.variableNames, Ordered.mem_ofList] at hl hr
      rw [Tree.mem_values, names, List.mem_append, ← hl, ← hr]
      simp [toTree, Tree.leaf]
    | not inner ih =>
      rw [Tree.mem_values, names, ← ih]
      simp [toTree, Tree.leaf]
    | join op left right ihl ihr =>
      rw [Tree.mem_values, names, List.mem_append, ← ihl, ← ihr]
      simp [toTree, Tree.leaf]
  rw [Tree.variableNames, Ordered.mem_ofList, hvalues]

namespace Access

variable {a : Access} {table : Effects.Table} {s : Stmt} {v : String} {visits : List Visit}

/-- A visited statement adds what it does by itself, and a call what the table says of the
procedure. -/
theorem mem_ownIn : v ∈ a.ownIn table s.toTree ↔ v ∈ a.own s ∨
    ∃ n callee, s = .call n callee ∧ v ∈ a.of (table.getD callee {}) := by
  cases s with
  | call n callee =>
    cases a <;> simp [ownIn, own, of, Effects.ownUses, Effects.ownModifies, Stmt.uses,
      Stmt.modifies, Stmt.toTree, Tree.leaf, Tree.calleeName]
  | _ =>
    cases a <;> simp [ownIn, own, Effects.ownUses, Effects.ownModifies, Stmt.uses, Stmt.modifies,
      Stmt.toTree, Tree.leaf, Tree.subject, Tree.formulaVariables, Tree.formula?,
      Expr.mem_variableNames, Condition.mem_variableNames]

theorem mem_total : v ∈ a.of (Effects.total table visits) ↔
    ∃ x ∈ visits, v ∈ a.ownIn table x.statement := by
  cases a <;> simp [of, ownIn, Effects.total]

theorem not_mem_of_empty : v ∉ a.of {} := by
  cases a <;> exact Std.ExtTreeSet.not_mem_empty

end Access

/-! ## Visits -/

namespace Stmt

variable {ss : List Stmt} {v : Visit}

mutual

/-- A statement is visited with those inside it, in preorder. -/
theorem map_ofStatement (ancestors : List Nat) (s : Stmt) :
    (Visit.ofStatement ancestors s.toTree).map (fun v => (v.number, v.statement)) =
      s.preorder.map fun t => (t.number, t.toTree) := by
  match s with
  | .assign .. | .read .. | .print .. | .call .. => rfl
  | .whileLoop n c body =>
    show (n, (Stmt.whileLoop n c body).toTree) ::
      (Visit.ofStatements (ancestors ++ [n]) (toTrees body) ++ []).map _ = _
    rw [List.append_nil, map_ofStatements (ancestors ++ [n]) body, preorder, List.map_cons, number]
  | .ifElse n c thenBody elseBody =>
    show (n, (Stmt.ifElse n c thenBody elseBody).toTree) ::
      (Visit.ofStatements (ancestors ++ [n]) (toTrees thenBody) ++
        (Visit.ofStatements (ancestors ++ [n]) (toTrees elseBody) ++ [])).map _ = _
    rw [List.append_nil, List.map_append, map_ofStatements (ancestors ++ [n]) thenBody,
      map_ofStatements (ancestors ++ [n]) elseBody, preorder, List.map_cons, List.map_append,
      number]

theorem map_ofStatements (ancestors : List Nat) (ss : List Stmt) :
    (Visit.ofStatements ancestors (toTrees ss)).map (fun v => (v.number, v.statement)) =
      (preorderOf ss).map fun t => (t.number, t.toTree) := by
  match ss with
  | [] => rfl
  | s :: ss =>
    rw [toTrees, Visit.ofStatements, List.map_append, map_ofStatement ancestors s,
      map_ofStatements ancestors ss, preorderOf, List.map_append]

end

mutual

/-- Where no number occurs twice, no statement has the number of one that it is in. -/
theorem number_notMem_ofStatement (ancestors : List Nat) (s : Stmt) (hs : s.numbers.Nodup)
    (hancestors : ∀ n ∈ ancestors, n ∉ s.numbers)
    (hv : v ∈ Visit.ofStatement ancestors s.toTree) : v.number ∉ v.ancestors := by
  match s with
  | .assign .. | .read .. | .print .. | .call .. =>
    obtain rfl := List.mem_singleton.1 hv
    exact fun h => hancestors _ h List.mem_cons_self
  | .whileLoop n c body =>
    obtain ⟨hn, hbody⟩ := List.nodup_cons.1 hs
    have hinner : ∀ m ∈ ancestors ++ [n], m ∉ numbersOf body := by
      refine List.forall_mem_append.2 ⟨fun m hm hin => ?_, List.forall_mem_singleton.2 hn⟩
      exact hancestors m hm (List.mem_cons_of_mem n hin)
    change v ∈ _ :: (Visit.ofStatements (ancestors ++ [n]) (toTrees body) ++ []) at hv
    rw [List.append_nil, List.mem_cons] at hv
    rcases hv with rfl | hv
    · exact fun h => hancestors _ h List.mem_cons_self
    · exact number_notMem_ofStatements (ancestors ++ [n]) body hbody hinner hv
  | .ifElse n c thenBody elseBody =>
    obtain ⟨hn, hbodies⟩ := List.nodup_cons.1 hs
    obtain ⟨hthen, helse, -⟩ := List.nodup_append.1 hbodies
    have hinner : ∀ m ∈ ancestors ++ [n], m ∉ numbersOf thenBody ++ numbersOf elseBody := by
      refine List.forall_mem_append.2 ⟨fun m hm hin => ?_, List.forall_mem_singleton.2 hn⟩
      exact hancestors m hm (List.mem_cons_of_mem n hin)
    change v ∈ _ :: (Visit.ofStatements (ancestors ++ [n]) (toTrees thenBody) ++
      (Visit.ofStatements (ancestors ++ [n]) (toTrees elseBody) ++ [])) at hv
    rw [List.append_nil, List.mem_cons, List.mem_append] at hv
    rcases hv with rfl | hv | hv
    · exact fun h => hancestors _ h List.mem_cons_self
    · exact number_notMem_ofStatements (ancestors ++ [n]) thenBody hthen
        (fun m hm hin => hinner m hm (List.mem_append_left _ hin)) hv
    · exact number_notMem_ofStatements (ancestors ++ [n]) elseBody helse
        (fun m hm hin => hinner m hm (List.mem_append_right _ hin)) hv

theorem number_notMem_ofStatements (ancestors : List Nat) (ss : List Stmt)
    (hss : (numbersOf ss).Nodup) (hancestors : ∀ n ∈ ancestors, n ∉ numbersOf ss)
    (hv : v ∈ Visit.ofStatements ancestors (toTrees ss)) : v.number ∉ v.ancestors := by
  match ss with
  | [] => cases hv
  | s :: ss =>
    obtain ⟨hs, hss, -⟩ := List.nodup_append.1 hss
    rcases List.mem_append.1 hv with hv | hv
    · exact number_notMem_ofStatement ancestors s hs
        (fun n hn hin => hancestors n hn (List.mem_append_left _ hin)) hv
    · exact number_notMem_ofStatements ancestors ss hss
        (fun n hn hin => hancestors n hn (List.mem_append_right _ hin)) hv

end

end Stmt

/-! ## Effects -/

namespace Program

variable {p : Program} {a : Access} {table : Effects.Table} {v q : String} {s t : Stmt}
  {k : Option Nat} {done : List String}

/-- The table of effects is right about a procedure. -/
def Tabulates (p : Program) (table : Effects.Table) (q : String) : Prop :=
  ∀ (a : Access) (v : String),
    v ∈ a.of (table.getD q {}) ↔ ∃ u, p.CoversIn q u ∧ v ∈ a.own u

/-- What the visited statements cover is what their effects are made of, if the table is right
about the procedures that they call. -/
theorem mem_total_iff {visits : List Visit} {ts : List Stmt}
    (hvisits : visits.map (fun v => (v.number, v.statement)) = ts.map fun t => (t.number, t.toTree))
    (htable : ∀ n callee, .call n callee ∈ ts → p.Tabulates table callee) :
    v ∈ a.of (Effects.total table visits) ↔ ∃ u,
      (∃ t ∈ ts, t = u ∨ ∃ n callee, t = .call n callee ∧ p.CoversIn callee u) ∧ v ∈ a.own u := by
  have hstatements : visits.map Visit.statement = ts.map Stmt.toTree := by
    simpa [Function.comp_def] using congrArg (List.map Prod.snd) hvisits
  have hmem : v ∈ a.of (Effects.total table visits) ↔
      ∃ t ∈ ts, v ∈ a.ownIn table t.toTree :=
    calc v ∈ a.of (Effects.total table visits)
      _ ↔ ∃ tree ∈ visits.map Visit.statement, v ∈ a.ownIn table tree := by simp [Access.mem_total]
      _ ↔ ∃ t ∈ ts, v ∈ a.ownIn table t.toTree := by simp [hstatements]
  rw [hmem]
  simp only [Access.mem_ownIn]
  constructor
  · rintro ⟨t, ht, hv | ⟨n, callee, rfl, hv⟩⟩
    · exact ⟨t, ⟨t, ht, .inl rfl⟩, hv⟩
    · obtain ⟨u, hu, hv⟩ := (htable n callee ht a v).1 hv
      exact ⟨u, ⟨_, ht, .inr ⟨n, callee, rfl, hu⟩⟩, hv⟩
  · rintro ⟨u, ⟨t, ht, rfl | ⟨n, callee, rfl, hu⟩⟩, hv⟩
    · exact ⟨t, ht, .inl hv⟩
    · exact ⟨_, ht, .inr ⟨n, callee, rfl, (htable n callee ht a v).2 ⟨u, hu, hv⟩⟩⟩

/-- **The effects of a statement are those of what it covers.** -/
theorem mem_ofStatement
    (htable : ∀ n callee, .call n callee ∈ s.preorder → p.Tabulates table callee) :
    v ∈ a.of (Effects.ofStatement table s.toTree) ↔ ∃ u, p.Covers s u ∧ v ∈ a.own u := by
  simp only [covers_iff]
  exact mem_total_iff (Stmt.map_ofStatement [] s) htable

/-! ## Findings -/

/-- A finding tells what there is to know of a statement. -/
structure Found (p : Program) (t : Stmt) (f : Finding) : Prop where
  number : f.number = t.number
  statement : f.statement = t.toTree
  /-- The statement is not in one of the same number. -/
  outside : f.number ∉ f.ancestors
  effects : ∀ (a : Access) (v : String), v ∈ a.of f.effects ↔ ∃ u, p.Covers t u ∧ v ∈ a.own u

/-- **What a survey of some procedures has found**: the effects of each of them, and one finding
for each of their statements. -/
structure Surveyed (p : Program) (done : List String) (s : Survey) : Prop where
  visited : ∀ q, q ∈ s.procedures ↔ q ∈ done ∧ q ∈ p.procedures.map Procedure.name
  tabulates : ∀ q ∈ done, q ∈ p.procedures.map Procedure.name → p.Tabulates s.procedures q
  sound : ∀ f ∈ s.findings, ∃ q ∈ done, ∃ t k, p.Has q t k ∧ p.Found t f
  complete : ∀ q ∈ done, ∀ t k, p.Has q t k → ∃ f ∈ s.findings, p.Found t f
  nodup : (s.findings.map (·.number)).Nodup

end Program

/-- The visits of the statements of a procedure. -/
def Procedure.visits (procedure : Procedure) : List Visit :=
  Visit.ofStatements [] (Stmt.toTrees procedure.body)

namespace Program

variable {p : Program} {s : Survey} {procedure : Procedure} {rest : List String}

theorem flatMap_ofList : (procedure.toTree.children.take 1).flatMap (Visit.ofList []) =
    procedure.visits := by
  simp [Procedure.toTree, Tree.leaf, Tree.statementList, Visit.ofList, Procedure.visits]

theorem procedures_visit : (s.visit procedure.name procedure.toTree).procedures =
    s.procedures.insert procedure.name (.total s.procedures procedure.visits) := by
  simp only [Survey.visit, flatMap_ofList]

theorem findings_visit : (s.visit procedure.name procedure.toTree).findings = s.findings ++
    procedure.visits.map fun v => { v with effects := .ofStatement s.procedures v.statement } := by
  simp only [Survey.visit, flatMap_ofList]

/-- The statements of a procedure are those that it lists. -/
theorem Consistent.exists_has_iff (hp : p.Consistent) (h : procedure ∈ p.procedures) {t : Stmt} :
    (∃ k, p.Has procedure.name t k) ↔ t ∈ Stmt.preorderOf procedure.body := by
  rw [← Stmt.exists_occurs_iff (k := none)]
  constructor
  · rintro ⟨k, procedure', h', hname, ht⟩
    obtain rfl := hp.procedure_unique h' h hname
    exact ⟨k, ht⟩
  · rintro ⟨k, ht⟩
    exact ⟨k, procedure, h, rfl, ht⟩

theorem map_visits (procedure : Procedure) :
    procedure.visits.map (fun v => (v.number, v.statement)) =
      (Stmt.preorderOf procedure.body).map fun t => (t.number, t.toTree) :=
  Stmt.map_ofStatements [] procedure.body

namespace Surveyed

variable (hp : p.Consistent) (hprocedure : procedure ∈ p.procedures) (hs : p.Surveyed rest s)
  (hcallees : ∀ callee, p.Calls procedure.name callee → callee ∈ rest)
include hp hprocedure hs

section Callees

include hcallees

/-- The table is right about what a procedure calls, once its callees have been visited. -/
theorem tabulates_callee (n : Nat) (callee : String)
    (hcall : .call n callee ∈ Stmt.preorderOf procedure.body) :
    p.Tabulates s.procedures callee := by
  obtain ⟨k, hcall⟩ := (hp.exists_has_iff hprocedure).2 hcall
  have hcalls := calls_of_has hcall
  exact hs.tabulates callee (hcallees callee hcalls) (hp.declared _ _ hcalls)

/-- Then the procedure itself can be tabulated. -/
theorem tabulates_visit {q : String} (hq : q ∈ procedure.name :: rest)
    (hdeclared : q ∈ p.procedures.map Procedure.name) :
    p.Tabulates (s.visit procedure.name procedure.toTree).procedures q := by
  intro a v
  rw [procedures_visit]
  by_cases hname : q = procedure.name
  · subst hname
    rw [Std.ExtTreeMap.getD_insert_self,
      mem_total_iff (map_visits procedure) (hs.tabulates_callee hp hprocedure hcallees)]
    simp only [hp.coversIn_iff hprocedure, exists_covers_iff]
  · have hne : ¬ compare procedure.name q = .eq := fun h =>
      hname (Std.LawfulEqCmp.eq_of_compare h).symm
    rw [Std.ExtTreeMap.getD_insert, if_neg hne]
    exact hs.tabulates q ((List.mem_cons.1 hq).resolve_left hname) hdeclared a v

/-- And its statements can be found. -/
theorem found_of_visit {v : Visit} (hv : v ∈ procedure.visits) {t : Stmt}
    (ht : t ∈ Stmt.preorderOf procedure.body)
    (heq : (v.number, v.statement) = (t.number, t.toTree)) :
    p.Found t { v with effects := .ofStatement s.procedures v.statement } where
  number := congrArg Prod.fst heq
  statement := congrArg Prod.snd heq
  outside := by
    refine Stmt.number_notMem_ofStatements [] procedure.body ?_ (by simp) hv
    exact (List.nodup_flatMap.1 hp.nodup_numbers).1 procedure hprocedure
  effects a name := by
    have hstatement : v.statement = t.toTree := congrArg Prod.snd heq
    show name ∈ a.of (.ofStatement s.procedures v.statement) ↔ _
    rw [hstatement]
    exact mem_ofStatement fun n callee hcall => hs.tabulates_callee hp hprocedure hcallees n callee
      (Stmt.mem_preorderOf_trans ht hcall)

end Callees

/-- No number is found twice, since the procedure has not been visited before. -/
theorem nodup_visit (hnew : procedure.name ∉ rest) :
    ((s.visit procedure.name procedure.toTree).findings.map (·.number)).Nodup := by
  have hnumbers : procedure.visits.map (·.number) =
      (Stmt.preorderOf procedure.body).map Stmt.number := by
    simpa [Function.comp_def] using congrArg (List.map Prod.fst) (map_visits procedure)
  have hnodup : (procedure.visits.map (·.number)).Nodup := by
    rw [hnumbers, Stmt.map_number_preorderOf]
    exact (List.nodup_flatMap.1 hp.nodup_numbers).1 procedure hprocedure
  rw [findings_visit, List.map_append, List.map_map]
  refine List.nodup_append.2 ⟨hs.nodup, hnodup, ?_⟩
  intro n hn m hm
  obtain ⟨f, hf, rfl⟩ := List.mem_map.1 hn
  obtain ⟨q, hq, t, k, ht, hfound⟩ := hs.sound f hf
  obtain ⟨t', ht', rfl⟩ := List.mem_map.1 (hnumbers ▸ hm)
  obtain ⟨k', ht'⟩ := (hp.exists_has_iff hprocedure).2 ht'
  -- both are statements of one number, so the procedures they are in are the same
  intro heq
  have hsame : q = procedure.name :=
    hp.in_unique ⟨t, k, ht, rfl⟩ ⟨t', k', ht', heq.symm.trans hfound.number⟩
  exact hnew (hsame ▸ hq)

include hcallees

/-- **To visit a procedure after those that it calls** finds what there is to find in it. -/
theorem visit (hnew : procedure.name ∉ rest) :
    p.Surveyed (procedure.name :: rest) (s.visit procedure.name procedure.toTree) where
  visited q := by
    have hname := List.mem_map_of_mem (f := Procedure.name) hprocedure
    rw [procedures_visit, Std.ExtTreeMap.mem_insert, Std.LawfulEqCmp.compare_eq_iff_eq, hs.visited,
      List.mem_cons, or_and_right, eq_comm]
    exact or_congr_left (and_iff_left_of_imp fun heq => heq ▸ hname).symm
  tabulates _ hq hdeclared := hs.tabulates_visit hp hprocedure hcallees hq hdeclared
  sound f hf := by
    rw [findings_visit, List.mem_append, List.mem_map] at hf
    rcases hf with hf | ⟨v, hv, rfl⟩
    · obtain ⟨q, hq, hfound⟩ := hs.sound f hf
      exact ⟨q, List.mem_cons_of_mem _ hq, hfound⟩
    · obtain ⟨t, ht, heq⟩ := List.mem_map.1 (map_visits procedure ▸ List.mem_map_of_mem hv)
      obtain ⟨k, hk⟩ := (hp.exists_has_iff hprocedure).2 ht
      exact ⟨procedure.name, List.mem_cons_self, t, k, hk,
        hs.found_of_visit hp hprocedure hcallees hv ht heq.symm⟩
  complete q hq t k ht := by
    rw [findings_visit]
    rcases List.mem_cons.1 hq with rfl | hq
    · have ht := (hp.exists_has_iff hprocedure).1 ⟨k, ht⟩
      obtain ⟨v, hv, heq⟩ := List.mem_map.1 (map_visits procedure ▸ List.mem_map_of_mem ht)
      exact ⟨_, List.mem_append_right _ (List.mem_map_of_mem hv),
        hs.found_of_visit hp hprocedure hcallees hv ht heq⟩
    · obtain ⟨f, hf, hfound⟩ := hs.complete q hq t k ht
      exact ⟨f, List.mem_append_left _ hf, hfound⟩
  nodup := hs.nodup_visit hp hprocedure hnew

end Surveyed

/-! ## Surveys of programs -/

theorem Consistent.namedProcedures_iff (hp : p.Consistent) {name : String} {tree : Tree} :
    (Survey.namedProcedures p.toTree)[name]? = some tree ↔
      ∃ procedure ∈ p.procedures, procedure.name = name ∧ procedure.toTree = tree := by
  have hnamed : Survey.namedProcedures p.toTree = .ofList (p.procedures.filterMap fun procedure =>
      (some procedure.toTree).map (procedure.name, ·)) := by
    refine congrArg (Std.ExtTreeMap.ofList · compare) ?_
    show (p.procedures.map Procedure.toTree).filterMap _ = _
    rw [List.filterMap_map]
    rfl
  rw [hnamed, Ordered.getElem?_ofList_filterMap hp.nodup]
  simp only [Option.some.injEq]

/-- **A survey that visits every caller after its callees finds everything.** -/
theorem surveyed_ofTree (hp : p.Consistent) {order : List String}
    (h : (CallGraph.ofTree p.toTree).Topological order) :
    p.Surveyed order (.ofTree p.toTree order) := by
  induction order with
  | nil =>
    exact ⟨by simp [Survey.ofTree], by simp, by simp [Survey.ofTree], by simp,
      by simp [Survey.ofTree]⟩
  | cons name rest ih =>
    obtain ⟨hcallees, hnew, hrest⟩ := h
    have hs := ih hrest
    rw [Survey.ofTree, List.foldr_cons]
    split
    · next tree htree =>
      obtain ⟨procedure, hprocedure, rfl, rfl⟩ := hp.namedProcedures_iff.1 htree
      exact hs.visit hp hprocedure (fun callee hcall => hcallees callee (calls_ofTree.2 hcall)) hnew
    · next hnone =>
      -- there is no such procedure, and nothing to find
      have hundeclared : name ∉ p.procedures.map Procedure.name := by
        intro hname
        obtain ⟨procedure, hprocedure, rfl⟩ := List.mem_map.1 hname
        rw [hp.namedProcedures_iff.2 ⟨procedure, hprocedure, rfl, rfl⟩] at hnone
        cases hnone
      refine ⟨fun q => ?_, fun q hq hdeclared => ?_, fun f hf => ?_, fun q hq t k ht => ?_,
        hs.nodup⟩
      · have hother : q = name → q ∉ p.procedures.map Procedure.name := fun heq => heq ▸ hundeclared
        refine (hs.visited q).trans (and_congr_left fun hdeclared => ?_)
        rw [List.mem_cons, or_iff_right fun heq => hother heq hdeclared]
      · have hne : q ≠ name := by
          rintro rfl
          exact hundeclared hdeclared
        exact hs.tabulates q ((List.mem_cons.1 hq).resolve_left hne) hdeclared
      · obtain ⟨q, hq, hfound⟩ := hs.sound f hf
        exact ⟨q, List.mem_cons_of_mem _ hq, hfound⟩
      · have hne : q ≠ name := by
          rintro rfl
          exact hundeclared ht.mem_names
        exact hs.complete q ((List.mem_cons.1 hq).resolve_left hne) t k ht

/-- **The facts of a consistent program come from a survey that has found everything**, in an order
of the procedures. -/
theorem exists_order_surveyed (hp : p.Consistent) : ∃ order : List String,
    p.Surveyed (p.procedures.map Procedure.name) (.ofTree p.toTree order) ∧
      FactBase.ofTree p.toTree =
        .ok (.assemble (.ofTree p.toTree order) (.ofTree p.toTree) p.flow) := by
  obtain ⟨order, horder, hkb⟩ := exists_order hp
  obtain ⟨htopological, hall⟩ := CallGraph.topological_of_order horder
  have hs := surveyed_ofTree hp htopological
  have hmem : ∀ q ∈ p.procedures.map Procedure.name, q ∈ order := fun q hq =>
    hall q (declares_ofTree.2 hq)
  refine ⟨order, ⟨fun q => ?_, fun q hq hdeclared => ?_, fun f hf => ?_, fun q hq => ?_, hs.nodup⟩,
    hkb⟩
  · rw [hs.visited q]
    exact and_congr_left fun hdeclared => iff_of_true (hmem q hdeclared) hdeclared
  · exact hs.tabulates q (hmem q hq) hdeclared
  · obtain ⟨q, -, t, k, ht, hfound⟩ := hs.sound f hf
    exact ⟨q, ht.mem_names, t, k, ht, hfound⟩
  · exact hs.complete q (hmem q hq)

theorem exists_surveyed (hp : p.Consistent) : ∃ s : Survey,
    p.Surveyed (p.procedures.map Procedure.name) s ∧
      FactBase.ofTree p.toTree = .ok (.assemble s (.ofTree p.toTree) p.flow) := by
  obtain ⟨order, hs, hkb⟩ := exists_order_surveyed hp
  exact ⟨_, hs, hkb⟩

end Program

end ProgramFacts
