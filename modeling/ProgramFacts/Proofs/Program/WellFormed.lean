import ProgramFacts.Proofs.CallGraph
import ProgramFacts.Proofs.Program.Grammar
import Mathlib.Data.List.Nodup
/-!
# Programs — what is accepted

A program is *consistent* if it has a procedure, no procedure twice, calls only what it
declares, and never calls in a circle, with its statements numbered from 1 in the order
in which they start. The parser accepts the tokens of such programs, and no others
(`accepts_iff`). While it reads it keeps a call graph; `Enters` says how the graph and
the numbers move on from procedure to procedure.
-/

namespace ProgramFacts

/-! ## Consistency -/

namespace Program

/-- The numbers of all statements, in the order in which they start. -/
def numbers (p : Program) : List Nat := p.procedures.flatMap (Stmt.numbersOf ·.body)

/-- One procedure calls another. -/
def Calls (p : Program) (a b : String) : Prop :=
  ∃ q ∈ p.procedures, q.name = a ∧ b ∈ Stmt.calleesOf q.body

/-- **What is asked of a program as a whole.** -/
structure Consistent (p : Program) : Prop where
  nonempty : p.procedures ≠ []
  nodup : (p.procedures.map Procedure.name).Nodup
  numbered : p.numbers = List.range' 1 p.numbers.length
  declared : ∀ a b, p.Calls a b → b ∈ p.procedures.map Procedure.name
  acyclic : ∀ a, ¬ Relation.TransGen p.Calls a a

/-- Consistency, checked procedure by procedure. -/
theorem consistent_of_rank {p : Program} (rank : String → Nat) (hne : p.procedures ≠ [])
    (hnodup : (p.procedures.map Procedure.name).Nodup)
    (hnumbered : p.numbers = List.range' 1 p.numbers.length)
    (hcalls : ∀ q ∈ p.procedures, ∀ b ∈ Stmt.calleesOf q.body,
      b ∈ p.procedures.map Procedure.name ∧ rank q.name < rank b) : p.Consistent where
  nonempty := hne
  nodup := hnodup
  numbered := hnumbered
  declared := by
    rintro a b ⟨q, hq, rfl, hb⟩
    exact (hcalls q hq b hb).1
  acyclic := by
    refine CallGraph.not_transGen_self_of_rank rank ?_
    rintro a b ⟨q, hq, rfl, hb⟩
    exact (hcalls q hq b hb).2

end Program

/-! ## Writing procedures -/

section Written

variable (E : Expr → List Token → Prop) (C : Condition → List Token → Prop)

/-- The grammar of procedures. -/
def Procedure.Written (p : Procedure) (ts : List Token) : Prop :=
  ∃ block, Stmt.WrittenAll E C p.body block ∧ p.body ≠ [] ∧
    ts = .keyword .procedureWord :: .proc p.name :: .leftBrace :: (block ++ [.rightBrace])

/-- Procedures one after the other. -/
def Procedure.WrittenAll : List Procedure → List Token → Prop
  | [], ts => ts = []
  | p :: ps, ts => ∃ first rest, p.Written E C first ∧ WrittenAll ps rest ∧ ts = first ++ rest

end Written

/-! ## Reading procedures -/

namespace Program

variable {before middle after : Tally} {ts : List Token}

/-- A procedure moves a tally on: it is declared, and then its statements are read. -/
def Tally.EntersOne (before : Tally) (p : Procedure) (after : Tally) : Prop :=
  { before with calls := before.calls.declare p.name }.Advances p.name
    (Stmt.numbersOf p.body) (Stmt.calleesOf p.body) after

/-- **Procedures move a tally on**, and those that were declared before are repeated. -/
def Tally.Enters (before : Tally) : List Procedure → List String → Tally → Prop
  | [], repeated, after => repeated = [] ∧ after = before
  | p :: ps, repeated, after => ∃ middle repeated', before.EntersOne p middle ∧
      middle.Enters ps repeated' after ∧
      repeated = if before.calls.declares p.name then p.name :: repeated' else repeated'

/-- **A procedure is read as it is written.** -/
theorem parseProcedure_of_written {p : Procedure} {used : List Token} (rest : List Token)
    (h : p.Written Expr.Reads Condition.Reads used) (hcount : before.EntersOne p after) :
    ∃ h, parseProcedure before (used ++ rest) = .ok ⟨(p, after), rest, h⟩ := by
  obtain ⟨block, hbody, hne, rfl⟩ := h
  obtain ⟨_, hblock⟩ := parseBlock_of_parseBody
    (parseBody_of_written p.body (.rightBrace :: rest) hne rfl hbody hcount)
  have hused : Token.keyword .procedureWord :: .proc p.name :: .leftBrace :: (block ++ [.rightBrace])
      ++ rest = .keyword .procedureWord :: .proc p.name :: .leftBrace ::
        (block ++ .rightBrace :: rest) := by simp
  rw [hused]
  exact ⟨by simp +arith, Outcome.bind_eq_ok.2 ⟨_, Token.expect_cons rfl, Outcome.bind_eq_ok.2
    ⟨_, Token.expect_cons rfl, Outcome.bind_eq_ok.2 ⟨_, hblock, rfl⟩⟩⟩⟩

/-- **What is read as a procedure is written as one.** -/
theorem written_of_parseProcedure {r : Reading (Procedure × Tally) ts}
    (h : parseProcedure before ts = .ok r) :
    ∃ used, ts = used ++ r.rest ∧ r.value.1.Written Expr.Reads Condition.Reads used ∧
      before.EntersOne r.value.1 r.value.2 := by
  obtain ⟨word, hword, h⟩ := Outcome.bind_eq_ok.1 h
  obtain ⟨name, hname, h⟩ := Outcome.bind_eq_ok.1 h
  obtain ⟨body, hbody, h⟩ := Outcome.bind_eq_ok.1 h
  obtain rfl := Except.ok.inj h
  have hts := sign_of_expect (t := .keyword .procedureWord) rfl hword
  have hrest := proc_of_expect hname
  obtain ⟨block, hblock, hne, hwritten, hcount⟩ := written_of_parseBlock rfl hbody
  refine ⟨_, ?_, ⟨block, hwritten, hne, rfl⟩, hcount⟩
  rw [hrest, hblock] at hts
  simp [hts]

/-- **The parser reads procedures that are written so, and no others.** -/
theorem parseProcedures_eq_ok {ps : List Procedure} {repeated : List String} :
    parseProcedures before ts = .ok (ps, repeated, after) ↔
      Procedure.WrittenAll Expr.Reads Condition.Reads ps ts ∧
        before.Enters ps repeated after := by
  constructor
  · intro h
    fun_induction parseProcedures before ts generalizing ps repeated after with
    | case1 before ts hempty =>
      cases h
      exact ⟨List.isEmpty_iff.1 hempty, rfl, rfl⟩
    | case2 before ts hne ih =>
      obtain ⟨first, hfirst, h⟩ := Outcome.bind_eq_ok.1 h
      obtain ⟨⟨procedures, repeated', final⟩, hmore, h⟩ := Outcome.bind_eq_ok.1 h
      obtain ⟨hwritten', henters⟩ := ih first hmore
      obtain ⟨used, hused, hwritten, hone⟩ := written_of_parseProcedure hfirst
      cases h
      exact ⟨⟨used, first.rest, hwritten, hwritten', hused⟩, _, repeated', hone, henters, rfl⟩
  · rintro ⟨hwritten, henters⟩
    induction ps generalizing before ts repeated with
    | nil =>
      obtain rfl := hwritten
      obtain ⟨rfl, rfl⟩ := henters
      rw [parseProcedures]
      rfl
    | cons p ps ih =>
      obtain ⟨first, rest, hfirst, hrest, rfl⟩ := hwritten
      obtain ⟨middle, repeated', hone, henters, rfl⟩ := henters
      obtain ⟨_, hread⟩ := parseProcedure_of_written rest hfirst hone
      have hne : (first ++ rest).isEmpty = false := by
        obtain ⟨block, -, -, rfl⟩ := hfirst
        rfl
      rw [parseProcedures, hne]
      exact Outcome.bind_eq_ok.2 ⟨_, hread, Outcome.bind_eq_ok.2 ⟨_, ih hrest henters, rfl⟩⟩

end Program

/-! ## The call graph that comes of it -/

namespace CallGraph

variable {g : CallGraph} {caller : String} {p : Procedure}

theorem declares_foldl_addCall (callees : List String) (hcaller : g.declares caller) {q : String} :
    (callees.foldl (·.addCall caller) g).declares q ↔ g.declares q := by
  induction callees generalizing g with
  | nil => rfl
  | cons callee callees ih =>
    have hsame : ∀ q, (g.addCall caller callee).declares q ↔ g.declares q := fun q => by
      rw [declares_addCall, or_iff_right_of_imp]
      rintro rfl
      exact hcaller
    rw [List.foldl_cons, ih ((hsame caller).2 hcaller), hsame]

/-- Calls of one caller are added one by one. -/
theorem calls_foldl_addCall (callees : List String) {a b : String} :
    (callees.foldl (·.addCall caller) g).Calls a b ↔
      a = caller ∧ b ∈ callees ∨ g.Calls a b := by
  induction callees generalizing g with
  | nil => simp
  | cons callee callees ih =>
    rw [List.foldl_cons, ih, calls_addCall, List.mem_cons]
    tauto

/-- **What a procedure does to a call graph**: it is declared, and then its calls are added. -/
def enter (g : CallGraph) (p : Procedure) : CallGraph :=
  (Stmt.calleesOf p.body).foldl (·.addCall p.name) (g.declare p.name)

theorem declares_enter {q : String} : (g.enter p).declares q ↔ q = p.name ∨ g.declares q := by
  rw [enter, declares_foldl_addCall _ (declares_declare.2 (.inl rfl)), declares_declare]

/-- To enter a procedure adds the calls in its body. -/
theorem calls_enter {a b : String} :
    (g.enter p).Calls a b ↔ a = p.name ∧ b ∈ Stmt.calleesOf p.body ∨ g.Calls a b := by
  rw [enter, calls_foldl_addCall, calls_declare]

/-- To enter procedures declares them. -/
theorem declares_foldl_enter (ps : List Procedure) {q : String} :
    (ps.foldl enter g).declares q ↔ q ∈ ps.map Procedure.name ∨ g.declares q := by
  induction ps generalizing g with
  | nil => simp
  | cons p ps ih =>
    rw [List.foldl_cons, ih, declares_enter, List.map_cons, List.mem_cons, or_left_comm, or_assoc]

/-- To enter procedures adds the calls in their bodies. -/
theorem calls_foldl_enter (ps : List Procedure) {a b : String} :
    (ps.foldl enter g).Calls a b ↔
      (∃ p ∈ ps, p.name = a ∧ b ∈ Stmt.calleesOf p.body) ∨ g.Calls a b := by
  induction ps generalizing g with
  | nil => simp
  | cons p ps ih =>
    rw [List.foldl_cons, ih, calls_enter, List.exists_mem_cons_iff, eq_comm (a := a), or_left_comm,
      or_assoc]

end CallGraph

namespace Program

variable {before middle after : Tally} {ts : List Token}

namespace Tally

variable {p : Procedure} {ps : List Procedure} {repeated : List String}

/-- **The call graph is that of the procedures**, one after the other. -/
theorem Enters.calls_eq (h : before.Enters ps repeated after) :
    after.calls = ps.foldl CallGraph.enter before.calls := by
  induction ps generalizing before repeated with
  | nil =>
    obtain ⟨-, rfl⟩ := h
    rfl
  | cons p ps ih =>
    obtain ⟨middle, repeated', hone, henters, -⟩ := h
    rw [ih henters, hone.calls, List.foldl_cons]
    rfl

/-- **Nothing is repeated** if no name is declared before, by the procedures themselves
or by what was read earlier. -/
theorem Enters.repeated_eq_nil (h : before.Enters ps repeated after) :
    repeated = [] ↔ (ps.map Procedure.name).Nodup ∧
      ∀ q ∈ ps.map Procedure.name, ¬ before.calls.declares q := by
  induction ps generalizing before repeated with
  | nil =>
    obtain ⟨rfl, -⟩ := h
    simp
  | cons p ps ih =>
    obtain ⟨middle, repeated', hone, henters, rfl⟩ := h
    have hrest := ih henters
    have hmiddle : middle.calls = before.calls.enter p := hone.calls
    simp only [hmiddle, CallGraph.declares_enter, not_or] at hrest
    rw [List.map_cons, List.nodup_cons, List.forall_mem_cons]
    by_cases hdeclared : before.calls.declares p.name
    · simp [hdeclared]
    · rw [if_neg hdeclared, hrest]
      constructor
      · rintro ⟨hnodup, hfresh⟩
        exact ⟨⟨fun hin => (hfresh p.name hin).1 rfl, hnodup⟩, hdeclared, fun q hq => (hfresh q hq).2⟩
      · rintro ⟨⟨hnot, hnodup⟩, -, hfresh⟩
        exact ⟨hnodup, fun q hq => ⟨fun heq => hnot (heq ▸ hq), hfresh q hq⟩⟩

/-- Procedures can be entered exactly if their statements are numbered on. -/
theorem exists_enters : (∃ repeated after, before.Enters ps repeated after) ↔
    ps.flatMap (Stmt.numbersOf ·.body) =
      List.range' (before.count + 1) (ps.flatMap (Stmt.numbersOf ·.body)).length := by
  induction ps generalizing before with
  | nil => simp [Enters]
  | cons p ps ih =>
    have hsplit : (∃ repeated after, before.Enters (p :: ps) repeated after) ↔
        ∃ middle, before.EntersOne p middle ∧ ∃ repeated after, middle.Enters ps repeated after := by
      constructor
      · rintro ⟨repeated, after, middle, repeated', hone, henters, -⟩
        exact ⟨middle, hone, repeated', after, henters⟩
      · rintro ⟨middle, hone, repeated', after, henters⟩
        exact ⟨_, after, middle, repeated', hone, henters, rfl⟩
    rw [hsplit, List.flatMap_cons, append_eq_range']
    simp only [ih]
    constructor
    · rintro ⟨middle, hone, hrest⟩
      rw [hone.count, Nat.add_right_comm] at hrest
      exact ⟨hone.consecutive, hrest⟩
    · rintro ⟨hfirst, hrest⟩
      refine ⟨⟨_, _⟩, ⟨hfirst, rfl, rfl⟩, ?_⟩
      rw [Nat.add_right_comm] at hrest
      exact hrest

end Tally

/-! ## Accepting -/

/-- **What the checks of a program ask for**: no name twice, every callee declared, no recursion.
-/
theorem check_eq_ok {d : Draft} : d.check = .ok () ↔
    d.repeated = [] ∧ (∀ a b, d.calls.Calls a b → d.calls.declares b) ∧ d.calls.Acyclic := by
  rw [← CallGraph.checkDeclared_iff, ← CallGraph.exists_order_iff]
  unfold Draft.check
  cases d.repeated with
  | cons name repeated => simp
  | nil =>
    simp only [true_and]
    show (d.calls.checkDeclared >>= fun _ => discard d.calls.order) = .ok () ↔ _
    rw [Outcome.bind_eq_ok, ← Outcome.discard_eq_ok]
    constructor
    · rintro ⟨⟨⟩, hdeclared, horder⟩
      exact ⟨hdeclared, horder⟩
    · rintro ⟨hdeclared, horder⟩
      exact ⟨(), hdeclared, horder⟩

/-- The checks on a whole program are about the program that was read. -/
theorem check_iff_of_enters {p : Program} {repeated : List String}
    (h : Tally.Enters ⟨0, .empty⟩ p.procedures repeated after) :
    Draft.check ⟨p, after.calls, repeated⟩ = .ok () ↔
      (p.procedures.map Procedure.name).Nodup ∧
        (∀ a b, p.Calls a b → b ∈ p.procedures.map Procedure.name) ∧
        ∀ a, ¬ Relation.TransGen p.Calls a a := by
  have hcalls : after.calls.Calls = p.Calls := by
    funext a b
    rw [h.calls_eq]
    exact propext ((CallGraph.calls_foldl_enter _).trans (or_iff_left CallGraph.not_calls_empty))
  have hdeclares : ∀ q, after.calls.declares q ↔ q ∈ p.procedures.map Procedure.name := by
    intro q
    rw [h.calls_eq]
    exact (CallGraph.declares_foldl_enter _).trans (or_iff_left CallGraph.not_declares_empty)
  rw [check_eq_ok, CallGraph.Acyclic, hcalls, h.repeated_eq_nil]
  simp [hdeclares, CallGraph.not_declares_empty]

/-- **What is read before the checks**: the tokens are those of one procedure or more, and the
call graph and the repeated names are what entering these procedures makes of them. -/
theorem parseTokens_eq_ok {d : Draft} : parseTokens ts = .ok d ↔
    d.program.procedures ≠ [] ∧
      Procedure.WrittenAll Expr.Reads Condition.Reads d.program.procedures ts ∧
      ∃ tally, Tally.Enters ⟨0, .empty⟩ d.program.procedures d.repeated tally ∧
        tally.calls = d.calls := by
  have hempty : ∀ {ps}, Procedure.WrittenAll Expr.Reads Condition.Reads ps ts →
      (ts.isEmpty ↔ ps = []) := by
    intro ps hwritten
    cases ps with
    | nil =>
      obtain rfl : ts = [] := hwritten
      simp
    | cons q ps =>
      obtain ⟨first, rest, ⟨block, -, -, rfl⟩, -, rfl⟩ := hwritten
      simp
  unfold parseTokens
  constructor
  · intro h
    split at h
    · cases h
    · next hne =>
      obtain ⟨⟨ps, repeated, tally⟩, hread, h⟩ := Outcome.bind_eq_ok.1 h
      obtain rfl := Except.ok.inj h
      obtain ⟨hwritten, henters⟩ := parseProcedures_eq_ok.1 hread
      exact ⟨mt (hempty hwritten).2 hne, hwritten, tally, henters, rfl⟩
  · obtain ⟨⟨ps⟩, calls, repeated⟩ := d
    rintro ⟨hne, hwritten, tally, henters, rfl⟩
    rw [if_neg (mt (hempty hwritten).1 hne)]
    exact Outcome.bind_eq_ok.2 ⟨_, parseProcedures_eq_ok.2 ⟨hwritten, henters⟩, rfl⟩

/-- **The parser accepts the tokens of consistent programs**, and no others. -/
theorem accepts_iff {p : Program} :
    (∃ d, parseTokens ts = .ok d ∧ d.check = .ok () ∧ d.program = p) ↔
      Procedure.WrittenAll Expr.Reads Condition.Reads p.procedures ts ∧ p.Consistent := by
  constructor
  · rintro ⟨⟨p, calls, repeated⟩, hparse, hcheck, rfl⟩
    obtain ⟨hne, hwritten, tally, henters, rfl⟩ := parseTokens_eq_ok.1 hparse
    obtain ⟨hnodup, hdeclared, hacyclic⟩ := (check_iff_of_enters henters).1 hcheck
    exact ⟨hwritten, hne, hnodup, Tally.exists_enters.1 ⟨repeated, tally, henters⟩, hdeclared,
      hacyclic⟩
  · rintro ⟨hwritten, hp⟩
    have henters : ∃ repeated tally, Tally.Enters ⟨0, .empty⟩ p.procedures repeated tally :=
      Tally.exists_enters.2 hp.numbered
    obtain ⟨repeated, tally, henters⟩ := henters
    have hcheck := (check_iff_of_enters henters).2 ⟨hp.nodup, hp.declared, hp.acyclic⟩
    refine ⟨⟨p, tally.calls, repeated⟩, ?_, hcheck, rfl⟩
    exact parseTokens_eq_ok.2 ⟨hp.nonempty, hwritten, tally, henters, rfl⟩

end Program

end ProgramFacts
