import ProgramFacts.Search
import ProgramFacts.Table
/-!
# Groups of tables

Tables that share a synonym, directly or through others, form a group. Joining each
group on its own keeps the tables small: nothing relates one group to another. A
group is joined in the order of a breadth-first walk, which may be made to prefer
tables with few rows.
-/

namespace ProgramFacts

namespace Table

variable (ts : List Table)

/-- The number of rows of the table at a place. -/
def heightAt (i : Nat) : Nat :=
  (ts[i]?.map height).getD 0

/-- Places in ascending order of height, if that is asked for; equals stay in order. -/
def byHeight (sort : Bool) (places : List Nat) : List Nat :=
  if sort then places.mergeSort fun i j => heightAt ts i ≤ heightAt ts j else places

/-- Whether the tables at two places are different and share a synonym. -/
def linked (i j : Nat) : Bool :=
  i ≠ j &&
    match ts[i]?, ts[j]? with
    | some t, some u => t.shares u
    | _, _ => false

/-- The places of the tables that are linked to the one at a place. -/
def neighbours (sort : Bool) (i : Nat) : List Nat :=
  byHeight ts sort ((List.range ts.length).filter (linked ts i))

theorem lt_of_mem_neighbours {sort : Bool} {i j : Nat} (h : j ∈ neighbours ts sort i) :
    j < ts.length := by
  unfold neighbours byHeight at h
  split at h
  · exact List.mem_range.1 (List.mem_filter.1 ((List.mergeSort_perm _ _).mem_iff.1 h)).1
  · exact List.mem_range.1 (List.mem_filter.1 h).1

/-- From a table to those that it is linked to. -/
def linkSpace (sort : Bool) : Search.Space Nat where
  next := neighbours ts sort
  Within i := i < ts.length
  closed _ _ _ h := lt_of_mem_neighbours ts h
  finite := ⟨List.range ts.length, fun _ => List.mem_range.2⟩

/-- The places of the group that a place belongs to, in the order of the walk. -/
def groupOf (sort : Bool) (i : Fin ts.length) : List Nat :=
  (linkSpace ts sort).visits [i.val] fun _ h => List.mem_singleton.1 h ▸ i.isLt

/-- The groups that the given places belong to, apart from those with a place that has
been dealt with. -/
def groupsFrom (sort : Bool) (done : List Nat) : List Nat → List (List Nat)
  | [] => []
  | i :: rest =>
    if h : i < ts.length ∧ i ∉ done then
      let group := groupOf ts sort ⟨i, h.1⟩
      group :: groupsFrom sort (group ++ done) rest
    else groupsFrom sort done rest

/-- The places of every group. -/
def groupPlaces (sort : Bool) : List (List Nat) :=
  groupsFrom ts sort [] (byHeight ts sort (List.range ts.length))

/-- **The tables of each group joined.** -/
def joinGroups (sort : Bool) : List Table :=
  (groupPlaces ts sort).filterMap fun places => joinAll? (places.filterMap (ts[·]?))

/-- **All tables joined**, which are one table or none. -/
def joinOne : List Table :=
  (joinAll? ts).toList

end Table

end ProgramFacts
