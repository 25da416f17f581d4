import ProgramFacts.Query.Evaluation
import ProgramFacts.Query.Parser
import ProgramFacts.Text.Blank
/-!
# Profiles

A profile switches parts of query answering on and off: the relations that cross
procedures, and what is done to answer faster. Flags from outside may switch the
former on and the latter off. `Profile.ask` reads a query and answers it.
-/

namespace ProgramFacts

/-- What is switched on. -/
structure Profile where
  optimize : Bool := true
  /-- The strategy if optimization is on. -/
  strategy : Strategy := .full
  /-- Whether the relations that cross procedures may be asked for. -/
  bip : Bool := false
  deriving DecidableEq

/-- Switches that come from outside. -/
structure Flags where
  enableBip : Bool := false
  disableOptimizer : Bool := false

/-- Whether a text switches something on. -/
def Flags.isOn (text : String) : Bool :=
  ["1", "true", "yes", "on"].contains (String.ofList ((Text.trim text.toList).map Char.toLower))

namespace Profile

/-- A profile under flags. -/
def withFlags (p : Profile) (flags : Flags) : Profile :=
  { p with
    optimize := p.optimize && !flags.disableOptimizer
    bip := p.bip || flags.enableBip }

/-- The strategy in force. -/
def inForce (p : Profile) : Strategy :=
  if p.optimize then p.strategy else .plain

/-- **Reads a query and answers it.** -/
def ask (p : Profile) (kb : FactBase) (text : String) : Except QueryError Answer := do
  let q ← Query.parse p.bip text
  (q.answer kb p.inForce).mapError .meaningless

end Profile

end ProgramFacts
