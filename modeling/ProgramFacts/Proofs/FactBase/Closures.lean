import ProgramFacts.Proofs.Dataflow
import ProgramFacts.Proofs.Survey.Placement
/-!
# The facts of a program — starred relations

A starred relation holds over one step or more of the relation that it is named for. This is found
in three ways. Statements that follow each other are read off the statement lists, later ones with
all before them; statements around others are written down on the way into them; and the rest is
found by a search along the edges of a graph. Each of them comes to the transitive closure
(`starred_iff_transGen`). The first two do because a survey has every statement in one list and
under one number (`Survey.Placed`). The exception is what control can come to across procedures,
where not every chain of steps returns to where it came from.
-/

namespace ProgramFacts

/-! ## Lists -/

namespace Fact

variable {α : Type} {l : List α} {a b c : α}

theorem mem_of_laterPairs (h : (a, b) ∈ laterPairs l) : a ∈ l ∧ b ∈ l := by
  induction l with
  | nil => cases h
  | cons c l ih =>
    rcases List.mem_append.1 h with h | h
    · obtain ⟨b, hb, heq⟩ := List.mem_map.1 h
      cases heq
      exact ⟨List.mem_cons_self, List.mem_cons_of_mem _ hb⟩
    · obtain ⟨ha, hb⟩ := ih h
      exact ⟨List.mem_cons_of_mem _ ha, List.mem_cons_of_mem _ hb⟩

theorem mem_laterPairs_cons : (a, b) ∈ laterPairs (c :: l) ↔
    (a = c ∧ b ∈ l) ∨ (a, b) ∈ laterPairs l := by
  simp [laterPairs, eq_comm, and_comm]

/-- The next item is a later one. -/
theorem mem_laterPairs_of_adjacent (h : (a, b) ∈ l.zip l.tail) : (a, b) ∈ laterPairs l := by
  induction l with
  | nil => cases h
  | cons c l ih =>
    cases l with
    | nil => cases h
    | cons d l =>
      rcases List.mem_cons.1 h with heq | h
      · cases heq
        exact mem_laterPairs_cons.2 (.inl ⟨rfl, List.mem_cons_self⟩)
      · exact mem_laterPairs_cons.2 (.inr (ih h))

/-- A later item is come to from one item to the next. -/
theorem transGen_of_laterPairs (h : (a, b) ∈ laterPairs l) :
    Relation.TransGen (fun x y => (x, y) ∈ l.zip l.tail) a b := by
  induction l generalizing a with
  | nil => cases h
  | cons c l ih =>
    cases l with
    | nil => simp [laterPairs] at h
    | cons d l =>
      have hlift : ∀ {x y}, Relation.TransGen (fun x y => (x, y) ∈ (d :: l).zip l) x y →
          Relation.TransGen (fun x y => (x, y) ∈ (c :: d :: l).zip (d :: l)) x y := fun hxy =>
        Relation.TransGen.mono (fun _ _ hstep => List.mem_cons_of_mem _ hstep) _ _ hxy
      rcases mem_laterPairs_cons.1 h with ⟨rfl, hb⟩ | h
      · have hfirst : (a, d) ∈ (a :: d :: l).zip (d :: l) := List.mem_cons_self
        rcases List.mem_cons.1 hb with rfl | hb
        · exact .single hfirst
        · exact .head hfirst (hlift (ih (mem_laterPairs_cons.2 (.inl ⟨rfl, hb⟩))))
      · exact hlift (ih h)

/-- Where no item occurs twice, what is later than the next item is later. -/
theorem laterPairs_of_adjacent (hl : l.Nodup) (hab : (a, b) ∈ l.zip l.tail)
    (hbc : (b, c) ∈ laterPairs l) : (a, c) ∈ laterPairs l := by
  induction l with
  | nil => cases hab
  | cons x l ih =>
    obtain ⟨hx, hl⟩ := List.nodup_cons.1 hl
    have hb : b ∈ l := (List.of_mem_zip hab).2
    -- the first item is not `b`, so `c` comes after `b` in the rest
    have hrest : (b, c) ∈ laterPairs l := by
      refine (mem_laterPairs_cons.1 hbc).resolve_left fun hfirst => ?_
      exact hx (hfirst.1 ▸ hb)
    cases l with
    | nil => cases hb
    | cons d l =>
      rcases List.mem_cons.1 hab with heq | hab
      · cases heq
        exact mem_laterPairs_cons.2 (.inl ⟨rfl, (mem_of_laterPairs hrest).2⟩)
      · exact mem_laterPairs_cons.2 (.inr (ih hl hab hrest))

end Fact

/-! ## Placement -/

namespace Survey

variable {s : Survey} {a b : Nat}

/-- A statement directly follows another one. -/
def Follows (s : Survey) (a b : Nat) : Prop :=
  ∃ list ∈ s.lists, (a, b) ∈ list.numbers.zip list.numbers.tail

/-- A statement follows another one, directly or later. -/
def FollowsLater (s : Survey) (a b : Nat) : Prop :=
  ∃ list ∈ s.lists, (a, b) ∈ Fact.laterPairs list.numbers

/-- A statement is directly around another one. -/
def Around (s : Survey) (a b : Nat) : Prop :=
  ∃ f ∈ s.findings, f.ancestors.getLast? = some a ∧ f.number = b

/-- A statement is around another one, directly or further out. -/
def AroundFar (s : Survey) (a b : Nat) : Prop :=
  ∃ f ∈ s.findings, a ∈ f.ancestors ∧ f.number = b

variable (hs : s.Placed) (hnodup : (s.findings.map (·.number)).Nodup)
include hs hnodup

namespace Placed

/-- A statement stands in one list only. -/
theorem list_unique {list list' : Tree} (hlist : list ∈ s.lists) (hlist' : list' ∈ s.lists)
    (ha : a ∈ list.numbers) (ha' : a ∈ list'.numbers) : list = list' := by
  obtain ⟨-, hdisjoint⟩ := List.nodup_flatMap.1 (hs.listed.nodup_iff.2 hnodup)
  by_contra hne
  have hsymmetric : Std.Symm (Function.onFun List.Disjoint Tree.numbers) :=
    ⟨fun _ _ h _ hy hx => h hx hy⟩
  exact hdisjoint.forall hlist hlist' hne ha ha'

theorem followsLater_iff : s.FollowsLater a b ↔ Relation.TransGen s.Follows a b := by
  constructor
  · intro ⟨list, hlist, h⟩
    refine Relation.TransGen.mono (fun x y hxy => ?_) _ _ (Fact.transGen_of_laterPairs h)
    exact ⟨list, hlist, hxy⟩
  · intro h
    induction h using Relation.TransGen.head_induction_on with
    | single h =>
      obtain ⟨list, hlist, h⟩ := h
      exact ⟨list, hlist, Fact.mem_laterPairs_of_adjacent h⟩
    | head hstep _ ih =>
      obtain ⟨list, hlist, hab⟩ := hstep
      obtain ⟨list', hlist', hbc⟩ := ih
      have hl : list.numbers.Nodup :=
        (List.nodup_flatMap.1 (hs.listed.nodup_iff.2 hnodup)).1 list hlist
      have hb := List.mem_of_mem_tail (List.of_mem_zip hab).2
      obtain rfl := hs.list_unique hnodup hlist hlist' hb (Fact.mem_of_laterPairs hbc).1
      exact ⟨list, hlist, Fact.laterPairs_of_adjacent hl hab hbc⟩

theorem aroundFar_iff : s.AroundFar a b ↔ Relation.TransGen s.Around a b := by
  constructor
  · intro ⟨f, hf, ha, hb⟩
    -- the induction is on how far out `a` is: the innermost statement is taken off each time
    obtain ⟨ancestors, hancestors⟩ : ∃ ancestors, f.ancestors = ancestors := ⟨_, rfl⟩
    rw [hancestors] at ha
    induction ancestors using List.reverseRecOn generalizing f b with
    | nil => cases ha
    | append_singleton above c ih =>
      have hstep : s.Around c b := ⟨f, hf, by rw [hancestors, List.getLast?_concat], hb⟩
      rcases List.mem_append.1 ha with ha | ha
      · obtain ⟨g, hg, hc, hg', -⟩ := hs.exists_around hf hancestors
        exact .tail (ih g hg hc ha hg') hstep
      · obtain rfl := List.mem_singleton.1 ha
        exact .single hstep
  · intro h
    induction h with
    | single h =>
      obtain ⟨f, hf, ha, hb⟩ := h
      exact ⟨f, hf, List.mem_of_getLast? ha, hb⟩
    | tail _ hstep ih =>
      obtain ⟨f, hf, hc, hb⟩ := hstep
      obtain ⟨g, hg, ha, hgc⟩ := ih
      obtain ⟨above, habove⟩ := List.getLast?_eq_some_iff.1 hc
      obtain ⟨g', hg', hgc', habove', -⟩ := hs.exists_around hf habove
      -- both are findings of one number
      obtain rfl := List.inj_on_of_nodup_map hnodup hg hg' (hgc.trans hgc'.symm)
      rw [habove'] at ha
      exact ⟨f, hf, habove ▸ List.mem_append_left _ ha, hb⟩

end Placed

end Survey

/-! ## Starred relations -/

namespace FactBase

variable {kb : FactBase} {α : Type} {wrap : α → Element} {r r' : Relation} {R : α → α → Prop}

/-- A relation holds of the elements that stand for related items, and of no others. -/
def Says (kb : FactBase) (wrap : α → Element) (r : Relation) (R : α → α → Prop) : Prop :=
  ∀ x y, kb.holds r x y ↔ ∃ a b, R a b ∧ x = wrap a ∧ y = wrap b

/-- **Chains of facts are chains of items**, if no two items are one element. -/
theorem Says.starred_iff (hwrap : Function.Injective wrap) (hr : kb.Says wrap r R)
    (hr' : kb.Says wrap r' (Relation.TransGen R)) (x y : Element) :
    kb.holds r' x y ↔ Relation.TransGen (fun x y => kb.holds r x y) x y := by
  rw [hr' x y]
  constructor
  · rintro ⟨a, b, h, rfl, rfl⟩
    exact Relation.TransGen.lift wrap (fun a b hab => (hr _ _).2 ⟨a, b, hab, rfl, rfl⟩) _ _ h
  · intro h
    induction h with
    | single h =>
      obtain ⟨a, b, hab, rfl, rfl⟩ := (hr _ _).1 h
      exact ⟨a, b, .single hab, rfl, rfl⟩
    | tail _ hstep ih =>
      obtain ⟨a, b, hab, rfl, rfl⟩ := ih
      obtain ⟨b', c, hbc, hb, rfl⟩ := (hr _ _).1 hstep
      obtain rfl := hwrap hb
      exact ⟨a, c, .tail hab hbc, rfl, rfl⟩

/-- What some items say, one by one, they say together. -/
theorem says_of_each {ι : Type} {items : List ι} {S : ι → Nat → Nat → Prop}
    (h : ∀ x y, kb.holds r x y ↔
      ∃ i ∈ items, ∃ a b, S i a b ∧ x = .stmt a ∧ y = .stmt b) :
    kb.Says .stmt r fun a b => ∃ i ∈ items, S i a b := by
  intro x y
  rw [h]
  constructor
  · intro ⟨i, hi, a, b, hab, hx, hy⟩
    exact ⟨a, b, ⟨i, hi, hab⟩, hx, hy⟩
  · intro ⟨a, b, ⟨i, hi, hab⟩, hx, hy⟩
    exact ⟨i, hi, a, b, hab, hx, hy⟩

variable {s : Survey} {g : CallGraph} {f : Flow}

/-- Where control and values go is said by what is said of statements. -/
theorem says_of_stmts {R : Nat → Nat → Prop} (hr : r ∈ Relation.flows)
    (h : ∀ a b, (assemble s g f).holds r (.stmt a) (.stmt b) ↔ R a b) :
    (assemble s g f).Says .stmt r R := by
  intro x y
  constructor
  · intro hxy
    obtain ⟨a, b, rfl, rfl⟩ := exists_stmts_of_holds hr hxy
    exact ⟨a, b, (h a b).1 hxy, rfl, rfl⟩
  · rintro ⟨a, b, hab, rfl, rfl⟩
    exact (h a b).2 hab

/-- **What a search along the edges of a graph finds** is told by chains of its edges. -/
theorem starred_iff_of_digraph (graph : Digraph Nat)
    (hr : r ∈ Relation.flows) (hr' : r' ∈ Relation.flows)
    (h : ∀ a b, (assemble s g f).holds r (.stmt a) (.stmt b) ↔ b ∈ graph.next a)
    (h' : ∀ a b, (assemble s g f).holds r' (.stmt a) (.stmt b) ↔ (a, b) ∈ graph.closure)
    (x y : Element) : (assemble s g f).holds r' x y ↔
      Relation.TransGen (fun x y => (assemble s g f).holds r x y) x y := by
  have hbase := says_of_stmts hr h
  have hstar := says_of_stmts hr' fun a b => (h' a b).trans Digraph.mem_closure
  exact hbase.starred_iff (fun _ _ => Element.stmt.inj) hstar x y

/-- Where statements are placed is found in the lists and the visits of the survey only. -/
theorem holds_placement {x y : Element}
    (hr : r ∈ [.follows, .followsStar, .parent, .parentStar]) :
    (assemble s g f).holds r x y ↔
      (∃ list ∈ s.lists, ⟨r, x, y⟩ ∈ Fact.ofList list) ∨
        ∃ v ∈ s.findings, ⟨r, x, y⟩ ∈ Fact.ofFinding v := by
  rw [holds_assemble]
  simp only [List.mem_cons, List.not_mem_nil, or_false] at hr
  rcases hr with rfl | rfl | rfl | rfl <;> simp [Fact.ofSurvey, Fact.ofCalls, Fact.ofFlow]

theorem says_follows : (assemble s g f).Says .stmt .follows s.Follows := by
  refine says_of_each fun x y => ?_
  rw [holds_placement (by decide)]
  simp [Fact.ofList, Fact.ofFinding]

theorem says_followsStar : (assemble s g f).Says .stmt .followsStar s.FollowsLater := by
  refine says_of_each fun x y => ?_
  rw [holds_placement (by decide)]
  simp [Fact.ofList, Fact.ofFinding]

theorem says_parent : (assemble s g f).Says .stmt .parent s.Around := by
  refine says_of_each fun x y => ?_
  rw [holds_placement (by decide)]
  simp [Fact.ofList, Fact.ofFinding]

theorem says_parentStar : (assemble s g f).Says .stmt .parentStar s.AroundFar := by
  refine says_of_each fun x y => ?_
  rw [holds_placement (by decide)]
  simp [Fact.ofList, Fact.ofFinding]

theorem says_calls : (assemble s g f).Says .name .calls fun a b => b ∈ g.graph.next a := by
  intro x y
  rw [holds_assemble]
  simp [Fact.ofSurvey, Fact.ofList, Fact.ofFinding, Fact.ofCalls, Fact.ofFlow, Digraph.mem_edgeList]

theorem says_callsStar : (assemble s g f).Says .name .callsStar
    (Relation.TransGen fun a b => b ∈ g.graph.next a) := by
  intro x y
  rw [holds_assemble]
  simp [Fact.ofSurvey, Fact.ofList, Fact.ofFinding, Fact.ofCalls, Fact.ofFlow, Digraph.mem_closure]

end FactBase

namespace Program

variable {p : Program}

/-- **Starred relations are transitive closures.** The facts of a program that was read can be
found. A starred relation holds of two elements exactly if a chain of one or more facts of the
relation that it is named for leads from the one to the other. This is so of what follows what, of
what is around what, of calls, and of where control and values go; only what control can come to
across procedures is not among them. -/
theorem starred_iff_transGen {source : String} (h : parse source = .ok p) :
    ∃ kb, FactBase.ofTree p.toTree = .ok kb ∧
      ∀ pair ∈ [(Relation.follows, Relation.followsStar), (.parent, .parentStar),
        (.calls, .callsStar), (.next, .nextStar), (.affects, .affectsStar),
        (.affectsBip, .affectsBipStar)],
      ∀ x y, kb.holds pair.2 x y ↔ Relation.TransGen (fun a b => kb.holds pair.1 a b) x y := by
  have hp := (wellFormed_of_parse h).toConsistent
  obtain ⟨order, hs, hkb⟩ := exists_order_surveyed hp
  have hplaced := placed_ofTree hp order
  have hstmt : Function.Injective Element.stmt := fun _ _ => Element.stmt.inj
  have hname : Function.Injective Element.name := fun _ _ => Element.name.inj
  refine ⟨_, hkb, ?_⟩
  simp only [List.forall_mem_cons]
  refine ⟨?_, ?_, ?_, ?_, ?_, ?_, by simp⟩
  · have hlater : (Survey.ofTree p.toTree order).FollowsLater =
        Relation.TransGen (Survey.ofTree p.toTree order).Follows := by
      funext a b
      exact propext (hplaced.followsLater_iff hs.nodup)
    exact FactBase.says_follows.starred_iff hstmt (hlater ▸ FactBase.says_followsStar)
  · have hfar : (Survey.ofTree p.toTree order).AroundFar =
        Relation.TransGen (Survey.ofTree p.toTree order).Around := by
      funext a b
      exact propext (hplaced.aroundFar_iff hs.nodup)
    exact FactBase.says_parent.starred_iff hstmt (hfar ▸ FactBase.says_parentStar)
  · exact FactBase.says_calls.starred_iff hname FactBase.says_callsStar
  · exact FactBase.starred_iff_of_digraph p.flow.graph (by decide) (by decide)
      (fun _ _ => FactBase.holds_next) fun _ _ => FactBase.holds_nextStar
  · exact FactBase.starred_iff_of_digraph _ (by decide) (by decide)
      (fun _ _ => FactBase.holds_affects.trans Digraph.mem_edgeList)
      fun _ _ => FactBase.holds_affectsStar
  · exact FactBase.starred_iff_of_digraph _ (by decide) (by decide)
      (fun _ _ => FactBase.holds_affectsBip.trans Digraph.mem_edgeList)
      fun _ _ => FactBase.holds_affectsBipStar

/-- The main procedure calls the shared one through others only, and is not called back. -/
theorem starred_sharedCallee :
    parse (sharedCallee.print .minimal) = .ok sharedCallee ∧
    ∃ kb, FactBase.ofTree sharedCallee.toTree = .ok kb ∧
      ¬ kb.holds .calls (.name "main") (.name "shared") ∧
      kb.holds .callsStar (.name "main") (.name "shared") ∧
      ¬ kb.holds .callsStar (.name "shared") (.name "main") := by
  obtain ⟨kb, hkb, hstarred⟩ := starred_iff_transGen parse_sharedCallee
  have hstar := hstarred (.calls, .callsStar) (by simp)
  obtain ⟨s, -, hkb'⟩ := exists_surveyed wellFormed_sharedCallee.toConsistent
  obtain rfl := Except.ok.inj (hkb.symm.trans hkb')
  have hcalls : ∀ x y, (FactBase.assemble s (.ofTree sharedCallee.toTree) sharedCallee.flow).holds
      .calls x y ↔ ∃ a b, sharedCallee.Calls a b ∧ x = .name a ∧ y = .name b := by
    intro x y
    simp only [← calls_ofTree]
    exact FactBase.says_calls x y
  refine ⟨parse_sharedCallee, _, hkb, fun h => ?_, ?_, fun h => ?_⟩
  · obtain ⟨a, b, hab, ha, hb⟩ := (hcalls _ _).1 h
    cases ha
    cases hb
    exact absurd hab (by unfold Program.Calls; decide)
  · refine (hstar _ _).2 (.tail (b := .name "left") (.single ?_) ?_)
    · exact (hcalls _ _).2 ⟨_, _, ⟨_, .head _, rfl, by decide⟩, rfl, rfl⟩
    · exact (hcalls _ _).2 ⟨_, _, ⟨_, .tail _ (.head _), rfl, by decide⟩, rfl, rfl⟩
  · -- the first step of a chain would be a call by the shared procedure, which has none
    obtain ⟨x, hx, -⟩ := Relation.TransGen.head'_iff.1 ((hstar _ _).1 h)
    obtain ⟨a, b, ⟨procedure, hprocedure, hname, hb⟩, ha, -⟩ := (hcalls _ _).1 hx
    cases ha
    have hnone : ∀ q ∈ sharedCallee.procedures, q.name = "shared" → Stmt.calleesOf q.body = [] := by
      decide
    rw [hnone procedure hprocedure hname] at hb
    cases hb

end Program

end ProgramFacts
