import ProgramFacts.Proofs.FactBase.Closures
import ProgramFacts.Proofs.Flow.Steps
import ProgramFacts.Proofs.Flow.Traces
import ProgramFacts.Query.Evaluation
/-!
# The facts of a program — irreflexive relations

Some relations can never hold between an element and itself, and queries rely on it: equal
arguments of such a relation fail before any fact is looked up. The reasons differ. A statement
stands in one list and there once, so it does not follow itself, and it is not among the
statements around it. Control moves on from each statement, since what is next to it has another
number. And no procedure calls itself, not even through others: so a procedure that is entered, and
one that is left through trailing calls, is not the one where control goes on
(`not_mem_linked_self`).
-/

namespace ProgramFacts

/-! ## Places -/

/-- Where no item occurs twice, none is later than itself. -/
theorem Fact.not_mem_laterPairs_self {α : Type} {l : List α} {a : α} (hl : l.Nodup) :
    (a, a) ∉ laterPairs l := by
  induction l with
  | nil => exact List.not_mem_nil
  | cons b l ih =>
    obtain ⟨hb, hl⟩ := List.nodup_cons.1 hl
    intro h
    rcases mem_laterPairs_cons.1 h with ⟨rfl, ha⟩ | h
    · exact hb ha
    · exact ih hl h

namespace Survey

variable {s : Survey} {a b : Nat}

theorem Follows.later (h : s.Follows a b) : s.FollowsLater a b := by
  obtain ⟨list, hlist, hab⟩ := h
  exact ⟨list, hlist, Fact.mem_laterPairs_of_adjacent hab⟩

theorem Around.far (h : s.Around a b) : s.AroundFar a b := by
  obtain ⟨f, hf, ha, hb⟩ := h
  exact ⟨f, hf, List.mem_of_getLast? ha, hb⟩

theorem Placed.not_followsLater_self (hs : s.Placed)
    (hnodup : (s.findings.map (·.number)).Nodup) : ¬ s.FollowsLater a a := by
  intro ⟨list, hlist, h⟩
  have hl : list.numbers.Nodup :=
    (List.nodup_flatMap.1 (hs.listed.nodup_iff.2 hnodup)).1 list hlist
  exact Fact.not_mem_laterPairs_self hl h

end Survey

theorem Program.Surveyed.not_aroundFar_self {p : Program} {s : Survey} {done : List String}
    {a : Nat} (hs : p.Surveyed done s) : ¬ s.AroundFar a a := by
  intro ⟨f, hf, ha, hnumber⟩
  obtain ⟨q, -, t, k, -, hfound⟩ := hs.sound f hf
  exact hfound.outside (hnumber ▸ ha)

/-! ## Control moves on -/

namespace Stmt

variable {R : Nat → Option Nat → Prop} {k k' : Option Nat} {s t : Stmt} {ss : List Stmt}

/-- The first statement of a list is not where the list leads. -/
theorem Placed.ne_of_firstOf {n : Nat} (h : Placed R (some n) ss) : firstOf ss ≠ some n := by
  intro hfirst
  exact h.apart n (mem_numbersOf_of_firstOf hfirst) rfl

theorem Placed.notMem_branches {n : Nat} {c : Condition} {thenBody elseBody : List Stmt}
    (h : Placed R k [.ifElse n c thenBody elseBody]) :
    n ∉ numbersOf thenBody ++ numbersOf elseBody := by
  have hnodup : (n :: (numbersOf thenBody ++ numbersOf elseBody)).Nodup := by
    simpa [numbersOf, numbers] using h.nodup
  exact (List.nodup_cons.1 hnodup).1

/-- **Control goes from a statement to another one.** -/
theorem Placed.not_goes_self (h : Placed R k [s]) : ¬ s.Goes k (some s.number) := by
  have hself : s.number ∈ numbersOf [s] := (Occurs.head (k := k)).mem_numbersOf
  intro hgoes
  cases hgoes with
  | done => exact h.apart _ hself rfl
  | loop hm => exact h.loop.ne_of_firstOf hm
  | thenBranch hm =>
    exact h.notMem_branches (List.mem_append_left _ (mem_numbersOf_of_firstOf hm))
  | elseBranch hm =>
    exact h.notMem_branches (List.mem_append_right _ (mem_numbersOf_of_firstOf hm))

/-- A statement that occurs in a placed list is placed itself. -/
theorem Placed.of_occurs (h : Placed R k ss) (ht : Occurs k ss t k') : Placed R k' [t] := by
  induction ht with
  | head => exact h.head
  | tail _ ih => exact ih h.tail
  | loop _ ih => exact ih h.head.loop
  | thenBranch _ ih => exact ih h.head.thenBranch
  | elseBranch _ ih => exact ih h.head.elseBranch

end Stmt

namespace Program

variable {p : Program} {q q' : String} {n : Nat}

theorem not_next_self (hp : p.Consistent) : ¬ p.Next n n := by
  intro ⟨q, s, k, ⟨procedure, hprocedure, hq, hs⟩, hn, hgoes⟩
  have hplaced := (hp.placed hprocedure).of_occurs hs
  exact hplaced.not_goes_self (hn.symm ▸ hgoes)

theorem EndsCalling.calls (hp : p.Consistent) (h : p.EndsCalling q q') : p.Calls q q' := by
  obtain ⟨n, hexit, hcall⟩ := h
  exact hcall.calls hp hexit.mem

/-- **No statement is next to itself across procedures**, neither into a procedure nor out of
one. -/
theorem not_mem_linked_self (hp : p.Consistent) : n ∉ p.flow.linked.next n := by
  rw [mem_linked hp, walks_nil_iff, resumes_nil_iff]
  rintro (⟨q, hcall, hentry⟩ | ⟨-, hnext | ⟨q, call, hcall, ⟨q', hchain, hexit⟩, hnext⟩⟩)
  · -- the procedure that is entered would call itself
    exact hp.acyclic q (.single (hcall.calls hp hentry.mem))
  · exact not_next_self hp hnext
  · -- control goes on in the caller, and the procedure that is left would be that one
    obtain ⟨caller, hcaller, hn⟩ := hnext.exists_in
    obtain rfl := hp.in_unique hn hexit.mem
    have hdown : Relation.ReflTransGen p.Calls q caller :=
      Relation.ReflTransGen.mono (fun _ _ hcalls => hcalls.calls hp) _ _ hchain
    exact hp.acyclic caller (.head' (hcall.calls hp hcaller) hdown)

end Program

/-! ## Facts -/

namespace FactBase

variable {kb : FactBase} {s : Survey} {g : CallGraph} {f : Flow}

theorem Says.not_holds_self {α : Type} {wrap : α → Element} {r : Relation} {R : α → α → Prop}
    (h : kb.Says wrap r R) (hwrap : Function.Injective wrap) (hR : ∀ a, ¬ R a a) (x : Element) :
    ¬ kb.holds r x x := by
  intro hx
  obtain ⟨a, b, hab, ha, hb⟩ := (h x x).1 hx
  obtain rfl := hwrap (ha.symm.trans hb)
  exact hR a hab

theorem says_next : (assemble s g f).Says .stmt .next fun a b => b ∈ f.next a :=
  says_of_stmts (by decide) fun _ _ => holds_next

theorem says_nextBip : (assemble s g f).Says .stmt .nextBip fun a b => b ∈ f.linked.next a :=
  says_of_stmts (by decide) fun _ _ => holds_nextBip

end FactBase

namespace Query

variable {kb : FactBase} {db : List Table} {a : Argument} {sort sort' : Option Entity}

/-- An argument on both sides stands for the same element on both, unless it is a wildcard. -/
theorem eq_of_mem_candidates_self (ha : a ≠ .wildcard) {x y : Element}
    (h : (x, y) ∈ candidates kb db a sort a sort') : x = y := by
  cases a with
  | synonym s =>
    have hpair : (x, y) ∈ (synonymValues kb db s).map fun z => (z, z) := by
      simpa [candidates, values, Argument.synonymName?, Argument.synonym?] using h
    obtain ⟨z, -, hz⟩ := List.mem_map.1 hpair
    exact (congrArg Prod.fst hz).symm.trans (congrArg Prod.snd hz)
  | name text | index n =>
    have hpair : (x, y) ∈ allPairs [_] [_] := h
    simp only [allPairs, List.flatMap_cons, List.flatMap_nil, List.map_cons, List.map_nil,
      List.append_nil, List.mem_singleton, Prod.mk.injEq] at hpair
    rw [hpair.1, hpair.2]
  | wildcard => exact absurd rfl ha
  | expr pattern => cases h

/-- **Where a relation never holds between an element and itself, equal arguments need not be
looked up.** -/
theorem suchThat_self {r : Relation} (hr : r.irreflexive) (hholds : ∀ x, ¬ kb.holds r x x)
    (ha : a ≠ .wildcard) :
    suchThat kb db r a a = bind a a ((candidates kb db a r.left.wildcard? a
      r.right.wildcard?).filter fun (x, y) => kb.holds r x y) := by
  have hnone : ((candidates kb db a r.left.wildcard? a r.right.wildcard?).filter
      fun (x, y) => kb.holds r x y) = [] := by
    refine List.filter_eq_nil_iff.2 fun (x, y) hxy => ?_
    obtain rfl := eq_of_mem_candidates_self ha hxy
    exact hholds x
  rw [hnone, suchThat, if_pos ⟨hr, rfl, ha⟩]
  rfl

end Query

namespace Program

variable {p : Program}

/-- **Irreflexive relations are irreflexive.** The facts of a program that was read can be found.
No relation that is said to be irreflexive holds between an element and itself. So equal arguments
of such a relation, other than wildcards, come to the same verdict at once and by looking up the
facts, whatever tables there are. -/
theorem not_holds_self_of_irreflexive {source : String} (h : parse source = .ok p) :
    ∃ kb, FactBase.ofTree p.toTree = .ok kb ∧ ∀ r : Relation, r.irreflexive →
      (∀ x, ¬ kb.holds r x x) ∧
      ∀ (db : List Table) (a : Argument), a ≠ .wildcard →
        Query.suchThat kb db r a a = Query.bind a a ((Query.candidates kb db a r.left.wildcard? a
          r.right.wildcard?).filter fun (x, y) => kb.holds r x y) := by
  have hp := (wellFormed_of_parse h).toConsistent
  obtain ⟨order, hs, hkb⟩ := exists_order_surveyed hp
  have hplaced := placed_ofTree hp order
  have hstmt : Function.Injective Element.stmt := fun _ _ => Element.stmt.inj
  have hname : Function.Injective Element.name := fun _ _ => Element.name.inj
  have hlater := fun a => hplaced.not_followsLater_self hs.nodup (a := a)
  have hfar := fun a => hs.not_aroundFar_self (a := a)
  have hcycle := acyclic_ofTree hp
  refine ⟨_, hkb, fun r hr => ?_⟩
  have hholds : ∀ x, ¬ (FactBase.assemble (.ofTree p.toTree order) (.ofTree p.toTree)
      p.flow).holds r x x := by
    cases r with
    | follows =>
      exact FactBase.says_follows.not_holds_self hstmt fun a hself => hlater a hself.later
    | followsStar => exact FactBase.says_followsStar.not_holds_self hstmt hlater
    | parent => exact FactBase.says_parent.not_holds_self hstmt fun a hself => hfar a hself.far
    | parentStar => exact FactBase.says_parentStar.not_holds_self hstmt hfar
    | calls =>
      exact FactBase.says_calls.not_holds_self hname fun a hself => hcycle a (.single hself)
    | callsStar => exact FactBase.says_callsStar.not_holds_self hname hcycle
    | next =>
      exact FactBase.says_next.not_holds_self hstmt fun a hself =>
        not_next_self hp (mem_next.1 hself)
    | nextBip => exact FactBase.says_nextBip.not_holds_self hstmt fun a => not_mem_linked_self hp
    | _ => cases hr
  exact ⟨hholds, fun db a ha => Query.suchThat_self hr hholds ha⟩

/-- The shared procedure is left through the trailing call of its caller, and not for itself. -/
theorem not_holds_self_twoCallers :
    parse (twoCallers.print .minimal) = .ok twoCallers ∧
    ∃ kb, FactBase.ofTree twoCallers.toTree = .ok kb ∧ Relation.nextBip.irreflexive ∧
      ¬ kb.holds .nextBip (.stmt 6) (.stmt 6) ∧
      ¬ kb.holds .callsStar (.name "middle") (.name "middle") := by
  have hparse : parse (twoCallers.print .minimal) = .ok twoCallers :=
    parse_of_laid wellFormed_twoCallers (Token.laid_phrase _)
  obtain ⟨kb, hkb, hself⟩ := not_holds_self_of_irreflexive hparse
  exact ⟨hparse, kb, hkb, rfl, (hself .nextBip rfl).1 _, (hself .callsStar rfl).1 _⟩

end Program

end ProgramFacts
