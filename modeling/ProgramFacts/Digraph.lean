import ProgramFacts.Search
import Std.Data.ExtTreeMap
import Std.Data.ExtTreeSet
/-!
# Directed graphs

A graph maps a node to the set of its successors; a node may be a successor and
have none itself. `Digraph.reach` walks along edges, if asked through chosen nodes
only, and `Digraph.closure` lists the pairs that a path of one edge or more
connects, in ascending order.
-/

namespace ProgramFacts

/-- The successors of every node. -/
structure Digraph (α : Type) [Ord α] [Std.TransOrd α] where
  edges : Std.ExtTreeMap α (Std.ExtTreeSet α)

namespace Digraph

variable {α : Type} [Ord α] [Std.TransOrd α] [Std.LawfulEqOrd α]

def empty : Digraph α := ⟨∅⟩

/-- Makes a node known. -/
def addNode (g : Digraph α) (a : α) : Digraph α :=
  ⟨g.edges.insertIfNew a ∅⟩

/-- Adds an edge, and makes its source known. -/
def addEdge (g : Digraph α) (a b : α) : Digraph α :=
  ⟨g.edges.insert a ((g.edges.getD a ∅).insert b)⟩

/-- Adds an edge to each of some targets, and makes their source known. -/
def addEdges (g : Digraph α) (a : α) (bs : List α) : Digraph α :=
  bs.foldl (fun g b => g.addEdge a b) (g.addNode a)

/-- The graph of a list of nodes, each with some of its successors. -/
def ofRows (rows : List (α × List α)) : Digraph α :=
  rows.foldl (fun g row => g.addEdges row.1 row.2) empty

/-- The known nodes, in ascending order. -/
def nodes (g : Digraph α) : List α :=
  g.edges.keys

/-- The successors of a node, in ascending order. -/
def next (g : Digraph α) (a : α) : List α :=
  (g.edges.getD a ∅).toList

/-- The edges, in ascending order. -/
def edgeList (g : Digraph α) : List (α × α) :=
  g.nodes.flatMap fun a => (g.next a).map (a, ·)

/-- Everything that is a successor. -/
def targets (g : Digraph α) : List α :=
  g.nodes.flatMap g.next

theorem mem_targets {g : Digraph α} {a b : α} (h : b ∈ g.next a) : b ∈ g.targets := by
  refine List.mem_flatMap.2 ⟨a, ?_, h⟩
  apply Std.ExtTreeMap.mem_keys.2
  apply Classical.byContradiction
  intro ha
  simp [next, Std.ExtTreeMap.getD_eq_fallback ha] at h

variable [DecidableEq α]

/-- The walks that go on from a node only if it may be passed. -/
def space (g : Digraph α) (pass : α → Bool) : Search.Space α where
  next a := if pass a then g.next a else []
  Within a := a ∈ g.targets
  closed a _ b hb := by
    split at hb
    · exact mem_targets hb
    · cases hb
  finite := ⟨g.targets, fun _ h => h⟩

/-- The nodes that one edge or more lead to from `a`, all but the last of them to nodes
that may be passed; in the order of a breadth-first walk. -/
def reachThrough (g : Digraph α) (pass : α → Bool) (a : α) : List α :=
  (g.space pass).visits (g.next a) fun _ hb => mem_targets hb

/-- The nodes that one edge or more lead to. -/
def reach (g : Digraph α) (a : α) : Std.ExtTreeSet α :=
  .ofList (g.reachThrough (fun _ => true) a)

/-- **The transitive closure**, in ascending order. -/
def closure (g : Digraph α) : List (α × α) :=
  g.nodes.flatMap fun a => (g.reach a).toList.map (a, ·)

end Digraph

end ProgramFacts
