import ProgramFacts.Digraph
import ProgramFacts.Proofs.Ordered
import ProgramFacts.Proofs.Search
import Mathlib.Data.List.Chain
import Mathlib.Tactic.Tauto
/-!
# Directed graphs — nodes, edges and paths

What a graph has after a node or an edge has been added, and so what a graph that is built
from rows has (`mem_next_ofRows`). A walk through chosen nodes finds the nodes that a path
leads to whose inner nodes are all chosen (`mem_reachThrough`), and if all nodes are chosen the
pairs it finds are the transitive closure of the edges (`mem_closure`). Every such pair is listed
once, and in ascending order (`closure_exact`).
-/

namespace ProgramFacts

namespace Digraph

variable {α : Type} [Ord α] [Std.TransOrd α] [Std.LawfulEqOrd α] {g : Digraph α} {a b c d : α}

theorem mem_nodes : a ∈ g.nodes ↔ a ∈ g.edges :=
  Std.ExtTreeMap.mem_keys

theorem mem_next : b ∈ g.next a ↔ b ∈ g.edges.getD a ∅ :=
  Std.ExtTreeSet.mem_toList

/-- What comes next is what the edges say. -/
theorem mem_next_iff : b ∈ g.next a ↔ ∃ bs, g.edges[a]? = some bs ∧ b ∈ bs := by
  rw [mem_next, Std.ExtTreeMap.getD_eq_getD_getElem?]
  cases g.edges[a]? with
  | none => simp
  | some bs => simp

theorem not_mem_nodes_empty : a ∉ (empty : Digraph α).nodes := by
  rw [mem_nodes]
  exact Std.ExtTreeMap.not_mem_empty

theorem not_mem_next_empty : b ∉ (empty : Digraph α).next a := by
  rw [mem_next, empty, Std.ExtTreeMap.getD_empty]
  exact Std.ExtTreeSet.not_mem_empty

/-- To add a node adds it and nothing else. -/
theorem mem_nodes_addNode : b ∈ (g.addNode a).nodes ↔ b = a ∨ b ∈ g.nodes := by
  rw [mem_nodes, mem_nodes, addNode, Std.ExtTreeMap.mem_insertIfNew,
    Std.LawfulEqCmp.compare_eq_iff_eq, eq_comm]

theorem mem_nodes_addEdge : c ∈ (g.addEdge a b).nodes ↔ c = a ∨ c ∈ g.nodes := by
  rw [mem_nodes, mem_nodes, addEdge, Std.ExtTreeMap.mem_insert,
    Std.LawfulEqCmp.compare_eq_iff_eq, eq_comm]

/-- And it adds no edge. -/
theorem mem_next_addNode : c ∈ (g.addNode a).next b ↔ c ∈ g.next b := by
  rw [mem_next, mem_next, addNode, Std.ExtTreeMap.getD_insertIfNew]
  split
  · next h =>
    rw [Std.LawfulEqCmp.compare_eq_iff_eq] at h
    obtain ⟨rfl, hnew⟩ := h
    rw [Std.ExtTreeMap.getD_eq_fallback hnew]
  · rfl

/-- **To add an edge adds it and nothing else.** -/
theorem mem_next_addEdge : d ∈ (g.addEdge a b).next c ↔ c = a ∧ d = b ∨ d ∈ g.next c := by
  rw [mem_next, mem_next, addEdge, Std.ExtTreeMap.getD_insert]
  split
  · next h =>
    obtain rfl := Std.LawfulEqCmp.compare_eq_iff_eq.1 h
    rw [Std.ExtTreeSet.mem_insert, Std.LawfulEqCmp.compare_eq_iff_eq, eq_comm,
      and_iff_right rfl]
  · next h =>
    have hne : c ≠ a := fun hca => h (Std.LawfulEqCmp.compare_eq_iff_eq.2 hca.symm)
    rw [or_iff_right fun hca => hne hca.1]

/-- To add edges adds the node that they start from. -/
theorem mem_nodes_addEdges {bs : List α} : c ∈ (g.addEdges a bs).nodes ↔ c = a ∨ c ∈ g.nodes := by
  have hfold : ∀ g : Digraph α, a ∈ g.nodes →
      (c ∈ (bs.foldl (fun g b => g.addEdge a b) g).nodes ↔ c ∈ g.nodes) := by
    induction bs with
    | nil => exact fun g _ => Iff.rfl
    | cons b bs ih =>
      intro g ha
      have hsame : ∀ d, d ∈ (g.addEdge a b).nodes ↔ d ∈ g.nodes := fun d => by
        rw [mem_nodes_addEdge, or_iff_right_of_imp]
        rintro rfl
        exact ha
      rw [List.foldl_cons, ih _ ((hsame a).2 ha), hsame]
  rw [addEdges, hfold _ (mem_nodes_addNode.2 (.inl rfl)), mem_nodes_addNode]

/-- To add several edges adds each of them. -/
theorem mem_next_addEdges {bs : List α} :
    d ∈ (g.addEdges a bs).next c ↔ c = a ∧ d ∈ bs ∨ d ∈ g.next c := by
  have hfold : ∀ g : Digraph α, d ∈ (bs.foldl (fun g b => g.addEdge a b) g).next c ↔
      c = a ∧ d ∈ bs ∨ d ∈ g.next c := by
    induction bs with
    | nil => simp
    | cons b bs ih =>
      intro g
      rw [List.foldl_cons, ih, mem_next_addEdge, List.mem_cons]
      tauto
  rw [addEdges, hfold, mem_next_addNode]

/-! ## Graphs from rows -/

variable {rows : List (α × List α)}

theorem mem_nodes_ofRows : a ∈ (ofRows rows).nodes ↔ ∃ row ∈ rows, row.1 = a := by
  have hfold : ∀ g : Digraph α, a ∈ (rows.foldl (fun g row => g.addEdges row.1 row.2) g).nodes ↔
      (∃ row ∈ rows, row.1 = a) ∨ a ∈ g.nodes := by
    induction rows with
    | nil => simp
    | cons row rows ih =>
      intro g
      rw [List.foldl_cons, ih, mem_nodes_addEdges, List.exists_mem_cons_iff, eq_comm (a := a),
        or_left_comm, or_assoc]
  rw [ofRows, hfold, or_iff_left not_mem_nodes_empty]

/-- **The edges of a graph are those of its rows.** -/
theorem mem_next_ofRows : b ∈ (ofRows rows).next a ↔ ∃ row ∈ rows, row.1 = a ∧ b ∈ row.2 := by
  have hfold : ∀ g : Digraph α, b ∈ (rows.foldl (fun g row => g.addEdges row.1 row.2) g).next a ↔
      (∃ row ∈ rows, row.1 = a ∧ b ∈ row.2) ∨ b ∈ g.next a := by
    induction rows with
    | nil => simp
    | cons row rows ih =>
      intro g
      rw [List.foldl_cons, ih, mem_next_addEdges, List.exists_mem_cons_iff, eq_comm (a := a),
        or_left_comm, or_assoc]
  rw [ofRows, hfold, or_iff_left not_mem_next_empty]

/-- What has something next to it is a node. -/
theorem mem_nodes_of_mem_next (h : b ∈ g.next a) : a ∈ g.nodes := by
  refine Classical.byContradiction fun ha => ?_
  rw [mem_next, Std.ExtTreeMap.getD_eq_fallback (mt mem_nodes.2 ha)] at h
  exact Std.ExtTreeSet.not_mem_empty h

/-- The edges are listed as pairs. -/
theorem mem_edgeList : (a, b) ∈ g.edgeList ↔ b ∈ g.next a := by
  simp only [edgeList, List.mem_flatMap, List.mem_map, Prod.mk.injEq]
  constructor
  · rintro ⟨_, -, _, hb, rfl, rfl⟩
    exact hb
  · exact fun hb => ⟨a, mem_nodes_of_mem_next hb, b, hb, rfl, rfl⟩

/-! ## Paths -/

variable {pass : α → Bool}

/-- In the search one node leads to another if it may be passed and has an edge to it. -/
theorem leads_space : (g.space pass).Leads a b ↔ pass a ∧ b ∈ g.next a := by
  show b ∈ (if pass a then g.next a else []) ↔ _
  cases pass a <;> simp

/-- A step, and a walk from there on, are a path. -/
theorem exists_path_of_leads (hab : b ∈ g.next a)
    (h : Relation.ReflTransGen (g.space pass).Leads b c) :
    ∃ inner : List α, (a :: (inner ++ [c])).IsChain (fun x y => y ∈ g.next x) ∧
      ∀ x ∈ inner, pass x := by
  induction h using Relation.ReflTransGen.head_induction_on generalizing a with
  | refl => exact ⟨[], .cons_cons hab (.singleton c), by simp⟩
  | @head b b' hstep _ ih =>
    obtain ⟨hpass, hnext⟩ := leads_space.1 hstep
    obtain ⟨inner, hsteps, hinner⟩ := ih hnext
    exact ⟨b :: inner, .cons_cons hab hsteps, List.forall_mem_cons.2 ⟨hpass, hinner⟩⟩

variable [DecidableEq α]

/-- A walk goes one edge, and from there on through the chosen nodes. -/
theorem mem_reachThrough_iff_leads : b ∈ g.reachThrough pass a ↔
    ∃ c ∈ g.next a, Relation.ReflTransGen (g.space pass).Leads c b :=
  Search.Space.mem_visits

/-- **A walk finds what paths through the chosen nodes lead to.** -/
theorem mem_reachThrough : b ∈ g.reachThrough pass a ↔
    ∃ inner : List α, (a :: (inner ++ [b])).IsChain (fun x y => y ∈ g.next x) ∧
      ∀ x ∈ inner, pass x := by
  rw [mem_reachThrough_iff_leads]
  constructor
  · rintro ⟨c, hc, h⟩
    exact exists_path_of_leads hc h
  · rintro ⟨inner, hsteps, hinner⟩
    induction inner generalizing a with
    | nil => exact ⟨b, (List.isChain_cons_cons.1 hsteps).1, .refl⟩
    | cons c inner ih =>
      obtain ⟨hc, hsteps⟩ := List.isChain_cons_cons.1 hsteps
      obtain ⟨hpass, hinner⟩ := List.forall_mem_cons.1 hinner
      obtain ⟨d, hd, h⟩ := ih hsteps hinner
      exact ⟨c, hc, .head (leads_space.2 ⟨hpass, hd⟩) h⟩

/-! ## The transitive closure -/

/-- **What is reached is what a path of one step or more leads to.** -/
theorem mem_reach : b ∈ g.reach a ↔ Relation.TransGen (fun x y => y ∈ g.next x) a b := by
  have hleads : (g.space fun _ => true).Leads = fun x y => y ∈ g.next x := by
    funext x y
    exact propext (leads_space.trans (and_iff_right rfl))
  rw [reach, Ordered.mem_ofList, mem_reachThrough_iff_leads, hleads,
    Relation.TransGen.head'_iff]

/-- **A pair is in the closure if a path of one edge or more connects it.** -/
theorem mem_closure : (a, b) ∈ g.closure ↔ Relation.TransGen (fun x y => y ∈ g.next x) a b := by
  simp only [closure, List.mem_flatMap, List.mem_map, Std.ExtTreeSet.mem_toList, Prod.mk.injEq,
    mem_reach]
  constructor
  · rintro ⟨_, -, _, h, rfl, rfl⟩
    exact h
  · intro h
    -- a path has a first edge, so a graph knows where it starts
    obtain ⟨c, hc, -⟩ := Relation.TransGen.head'_iff.1 h
    exact ⟨a, mem_nodes_of_mem_next hc, b, h, rfl, rfl⟩

/-- The closure is sorted strictly, by the first of a pair and then by the second. -/
theorem closure_ascends : g.closure.Pairwise fun p q =>
    compare p.1 q.1 = .lt ∨ p.1 = q.1 ∧ compare p.2 q.2 = .lt := by
  refine List.pairwise_flatMap.2 ⟨fun a _ => ?_, ?_⟩
  · refine List.pairwise_map.2 (Std.ExtTreeSet.ordered_toList.imp ?_)
    intro b c hlt
    exact .inr ⟨rfl, hlt⟩
  · refine Std.ExtTreeMap.ordered_keys.imp ?_
    intro a b hlt p hp q hq
    obtain ⟨c, -, rfl⟩ := List.mem_map.1 hp
    obtain ⟨d, -, rfl⟩ := List.mem_map.1 hq
    exact .inl hlt

/-- **The closure is exact.** It lists the pairs that a path of one edge or more connects, each of
them once, by their first nodes and then by their second. -/
theorem closure_exact (g : Digraph α) :
    (∀ a b, (a, b) ∈ g.closure ↔
      Relation.TransGen (fun x y => ∃ ys, g.edges[x]? = some ys ∧ y ∈ ys) a b) ∧
    g.closure.Nodup ∧
    g.closure.Pairwise fun p q =>
      compare p.1 q.1 = .lt ∨ p.1 = q.1 ∧ compare p.2 q.2 = .lt := by
  refine ⟨fun a b => ?_, ?_, closure_ascends⟩
  · simp only [mem_closure, mem_next_iff]
  · refine closure_ascends.imp ?_
    rintro p _ hlt rfl
    rcases hlt with hlt | ⟨-, hlt⟩ <;> simp [Std.ReflOrd.compare_self] at hlt

/-- A cycle leads back to where it starts, and `5` is met although it is no node with edges of its
own; so nothing leads on from it. -/
theorem closure_cycleAndSink :
    let g : Digraph Nat := ofRows [(1, [2]), (2, [1]), (4, [4, 5])]
    (1, 1) ∈ g.closure ∧ (4, 5) ∈ g.closure ∧ (5, 4) ∉ g.closure ∧ g.closure.Nodup ∧
      g.closure.Pairwise fun p q =>
        compare p.1 q.1 = .lt ∨ p.1 = q.1 ∧ compare p.2 q.2 = .lt := by
  intro g
  obtain ⟨hpath, hnodup, hascends⟩ := closure_exact g
  have hedge : ∀ a b, (∃ bs, g.edges[a]? = some bs ∧ b ∈ bs) ↔
      ∃ row ∈ [(1, [2]), (2, [1]), (4, [4, 5])], row.1 = a ∧ b ∈ row.2 :=
    fun a b => mem_next_iff.symm.trans mem_next_ofRows
  simp only [hedge] at hpath
  refine ⟨(hpath 1 1).2 ?_, (hpath 4 5).2 (.single (by decide)), fun h => ?_, hnodup, hascends⟩
  · exact .tail (b := 2) (.single (by decide)) (by decide)
  · obtain ⟨c, hc, -⟩ := Relation.TransGen.head'_iff.1 ((hpath 5 4).1 h)
    simp at hc

end Digraph

end ProgramFacts
