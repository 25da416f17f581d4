import ProgramFacts.Query
/-!
# Queries — what clauses may say

Whether a clause means anything depends on the sorts of its arguments alone:
`Clause.check` accepts a clause or tells what is wrong with it.
-/

namespace ProgramFacts

namespace Clause

/-- Whether an argument may stand on a side of a relation. -/
def fits (domain : Domain) : Argument → Bool
  | .synonym s => domain.accepts s.entity
  | .name _ => domain.acceptsName
  | .index _ => domain.acceptsNumber
  | .wildcard => domain.wildcard?.isSome
  | .expr _ => false

def checkArgument (relation : Relation) (domain : Domain) (a : Argument) :
    Except SemanticFault Unit :=
  if fits domain a then .ok () else .error (.invalidArgument a relation)

/-- Whether statements of a sort can be matched with a pattern. -/
def hasPattern : Entity → Bool
  | .assign | .whileLoop | .ifElse => true
  | _ => false

/-- Whether an argument can be the variable of a pattern. -/
def isPatternVariable : Argument → Bool
  | .synonym s => s.entity = .var
  | .name _ | .wildcard => true
  | .index _ | .expr _ => false

/-- Whether an argument can be the expression in a pattern of a sort of statement. -/
def isPatternExpression (entity : Entity) : Argument → Bool
  | .wildcard => true
  | .expr _ => entity = .assign
  | _ => false

/-- Whether one side of a comparison is a name; otherwise it is a number. -/
def comparesName (c : Comparand) : Except SemanticFault Bool :=
  match c.argument, c.attr with
  | .name _, none => .ok true
  | .index _, none => .ok false
  | .synonym s, some attr =>
    if attr.appliesTo s.entity then .ok attr.isName else .error (.incomparable c.argument)
  | .synonym s, none =>
    if s.entity = .progLine then .ok false else .error (.incomparable c.argument)
  | _, _ => .error (.incomparable c.argument)

/-- **Accepts a clause**, or tells why it means nothing. -/
def check (clause : Clause) : Except SemanticFault Unit :=
  match clause with
  | .suchThat relation left right => do
    checkArgument relation relation.left left
    checkArgument relation relation.right right
  | .pattern statement left right =>
    if !hasPattern statement.entity then .error (.noPatternStatement statement.name)
    else if isPatternVariable left && isPatternExpression statement.entity right then .ok ()
    else .error (.invalidPattern clause)
  | .equal left right => do
    let isName ← comparesName left
    let isName' ← comparesName right
    if isName = isName' then .ok () else .error (.nameWithNumber clause)

end Clause

end ProgramFacts
