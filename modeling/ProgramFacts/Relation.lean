import ProgramFacts.Entity
import Std.Data.ExtTreeMap
/-!
# Relations

The relations between elements that are derived from a program, and what may stand
on either side of each. The starred ones hold over one step or more. The relations
that cross procedures are known as *bip*, for branching into procedures.
-/

namespace ProgramFacts

/-- What may stand on one side of a relation. -/
inductive Domain
  | statement | assignment | statementOrProcedure | proc | var
  deriving DecidableEq

namespace Domain

/-- Whether a synonym of a sort may stand here. -/
def accepts : Domain → Entity → Bool
  | .statement, e | .assignment, e => e.isStatement
  | .statementOrProcedure, e => e.isStatement || e = .proc
  | .proc, e => e = .proc
  | .var, e => e = .var

/-- Whether the number of a statement may stand here. -/
def acceptsNumber : Domain → Bool
  | .statement | .assignment | .statementOrProcedure => true
  | .proc | .var => false

/-- Whether a name may stand here. -/
def acceptsName : Domain → Bool
  | .statementOrProcedure | .proc | .var => true
  | .statement | .assignment => false

/-- What a wildcard stands for. Where both statements and procedures are possible a
wildcard would be ambiguous. -/
def wildcard? : Domain → Option Entity
  | .statement => some .stmt
  | .assignment => some .assign
  | .statementOrProcedure => none
  | .proc => some .proc
  | .var => some .var

end Domain

/-- Relations between elements. -/
inductive Relation
  | follows | followsStar
  | parent | parentStar
  | uses | modifies
  | calls | callsStar
  | next | nextStar
  | affects | affectsStar
  | nextBip | nextBipStar
  | affectsBip | affectsBipStar
  deriving DecidableEq

namespace Relation

def all : List Relation :=
  [.follows, .followsStar, .parent, .parentStar, .uses, .modifies, .calls, .callsStar,
    .next, .nextStar, .affects, .affectsStar, .nextBip, .nextBipStar, .affectsBip,
    .affectsBipStar]

/-- The name of a relation in queries. -/
def text : Relation → String
  | .follows => "Follows" | .followsStar => "Follows*"
  | .parent => "Parent" | .parentStar => "Parent*"
  | .uses => "Uses" | .modifies => "Modifies"
  | .calls => "Calls" | .callsStar => "Calls*"
  | .next => "Next" | .nextStar => "Next*"
  | .affects => "Affects" | .affectsStar => "Affects*"
  | .nextBip => "NextBip" | .nextBipStar => "NextBip*"
  | .affectsBip => "AffectsBip" | .affectsBipStar => "AffectsBip*"

def ofText? (s : String) : Option Relation :=
  all.find? (·.text = s)

/-- Whether the relation crosses procedures. -/
def isBip : Relation → Bool
  | .nextBip | .nextBipStar | .affectsBip | .affectsBipStar => true
  | _ => false

/-- Whether the relation can never hold between an element and itself. -/
def irreflexive : Relation → Bool
  | .follows | .followsStar | .parent | .parentStar | .calls | .callsStar
  | .next | .nextBip => true
  | _ => false

/-- What may stand on the left. -/
def left : Relation → Domain
  | .uses | .modifies => .statementOrProcedure
  | .calls | .callsStar => .proc
  | .affects | .affectsStar | .affectsBip | .affectsBipStar => .assignment
  | _ => .statement

/-- What may stand on the right. -/
def right : Relation → Domain
  | .uses | .modifies => .var
  | .calls | .callsStar => .proc
  | .affects | .affectsStar | .affectsBip | .affectsBipStar => .assignment
  | _ => .statement

theorem ofText?_text (r : Relation) : ofText? r.text = some r := by
  cases r <;> decide

/-! ## Order -/

/-- The place of a relation in the list of all. -/
def rank (r : Relation) : Nat :=
  all.idxOf r

theorem getElem?_rank (r : Relation) : all[r.rank]? = some r := by
  cases r <;> decide

theorem rank_injective {r s : Relation} (h : r.rank = s.rank) : r = s :=
  Option.some.inj (by rw [← getElem?_rank r, h, getElem?_rank s])

instance : Ord Relation where
  compare := compareOn rank

instance : Std.TransOrd Relation :=
  inferInstanceAs (Std.TransCmp (compareOn rank))

theorem compare_eq (r s : Relation) : compare r s = compare r.rank s.rank := rfl

instance : Std.LawfulEqOrd Relation where
  eq_of_compare h := rank_injective (by simpa [compare_eq] using h)

end Relation

end ProgramFacts
