import ProgramFacts.Digraph
import ProgramFacts.SourceError
import ProgramFacts.Tree
/-!
# Call graphs

Which procedures are declared and which procedures each of them calls. A graph
grows by declarations and calls in any order, or is read off a tree. Two checks
speak of a whole program: every callee is declared (`checkDeclared`), and no
procedure calls itself, directly or through others (`order`, which on success lists
every caller before its callees).
-/

namespace ProgramFacts

/-- The declared procedures, and an edge to each callee. -/
structure CallGraph where
  graph : Digraph String

namespace CallGraph

def empty : CallGraph := ⟨.empty⟩

/-- Whether a procedure is declared, or was given a callee. -/
def declares (g : CallGraph) (p : String) : Bool :=
  g.graph.edges.contains p

/-- Declares a procedure; one that is there keeps its callees. -/
def declare (g : CallGraph) (p : String) : CallGraph :=
  ⟨g.graph.addNode p⟩

/-- Adds a call. -/
def addCall (g : CallGraph) (caller callee : String) : CallGraph :=
  ⟨g.graph.addEdge caller callee⟩

/-- The declared procedures in ascending order. -/
def procedures (g : CallGraph) : List String :=
  g.graph.nodes

/-- The callees of a procedure in ascending order. -/
def callees (g : CallGraph) (p : String) : List String :=
  g.graph.next p

/-- The call graph of a tree: a procedure for every child of the root, and a call for
every call node anywhere below it. -/
def ofTree (root : Tree) : CallGraph :=
  root.children.foldl
    (fun g procedure =>
      let name := procedure.value.getD ""
      (procedure.values .call).foldl (fun g callee => g.addCall name callee) (g.declare name))
    empty

/-! ## Every callee is declared -/

/-- The first call of a procedure that is not declared: callers in ascending order,
and callees in ascending order for each. -/
def undeclared? (g : CallGraph) : Option (String × String) :=
  g.procedures.findSome? fun caller =>
    ((g.callees caller).find? (!g.declares ·)).map (caller, ·)

def checkDeclared (g : CallGraph) : Except SourceError Unit :=
  match g.undeclared? with
  | some (caller, callee) => .error (.undeclaredCallee caller callee)
  | none => .ok ()

/-! ## No recursion

A depth-first search: `path` holds the procedures whose calls are being followed,
`finished` those that are done with, the last first. The search goes down only from
procedures that are not on the path, so it ends. A callee on the path is refused with
its caller, so the search never comes to a procedure of the path itself. -/

/-- Every procedure that is declared or called. -/
def members (g : CallGraph) : List String :=
  g.procedures ++ g.graph.targets

/-- How many procedures are off the path. -/
def offPath (g : CallGraph) (path : List String) : Nat :=
  g.members.countP (!path.contains ·)

theorem offPath_cons_lt {g : CallGraph} {path : List String} {p : String}
    (hp : p ∈ g.members) (hpath : p ∉ path) : g.offPath (p :: path) < g.offPath path := by
  refine Search.countP_lt_countP (a := p) ?_ hp (by simpa using hpath) (by simp)
  intro q _
  simp only [List.contains_cons, Bool.not_or, Bool.and_eq_true]
  exact And.right

mutual

/-- Follows the calls of `p`, unless it is finished. A procedure that the graph does not
have calls nothing. -/
def visit (g : CallGraph) (path finished : List String) (p : String) :
    Except SourceError (List String) :=
  if finished.contains p then .ok finished
  else if _hpath : p ∈ path then .error (.callCycle p)
  else if _hp : p ∈ g.members then do
    let finished ← visitCallees g p (p :: path) finished (g.callees p)
    return p :: finished
  else .ok (p :: finished)
termination_by (g.offPath path, 0)
decreasing_by exact Prod.Lex.left _ _ (offPath_cons_lt _hp _hpath)

/-- Follows the given callees of `caller`, the first on the path. -/
def visitCallees (g : CallGraph) (caller : String) (path finished : List String) :
    List String → Except SourceError (List String)
  | [] => .ok finished
  | callee :: rest =>
    if path.contains callee then .error (.recursiveCall caller callee)
    else do
      let finished ← visit g path finished callee
      visitCallees g caller path finished rest
termination_by callees => (g.offPath path, callees.length + 1)

end

/-- **The procedures, every caller before its callees**, or the call that closes a
cycle. -/
def order (g : CallGraph) : Except SourceError (List String) :=
  g.procedures.foldlM (g.visit []) []

end CallGraph

end ProgramFacts
