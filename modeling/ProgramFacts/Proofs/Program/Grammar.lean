import ProgramFacts.Program.Parser
import ProgramFacts.Proofs.Condition.Grammar
import ProgramFacts.Proofs.Expr.Acceptance
/-!
# Programs — the grammar

How statements, procedures and programs may be written. `Stmt.Written` leaves open how
expressions and conditions are: the parser is exact for whatever it can read as such
(`parseStmt_of_written`, `written_of_parseStmt`), and expressions and conditions that
keep to their own grammars are among that. Beside the tokens a statement determines its
numbers, in the order in which they are given out, and the procedures that it calls.
-/

namespace ProgramFacts

namespace Stmt

/-! ## Numbers and callees -/

mutual

/-- The numbers of a statement and of those inside it, in preorder. -/
def numbers : Stmt → List Nat
  | .assign n .. | .read n .. | .print n .. | .call n .. => [n]
  | .whileLoop n _ body => n :: numbersOf body
  | .ifElse n _ thenBody elseBody => n :: (numbersOf thenBody ++ numbersOf elseBody)

/-- The numbers of a list of statements, in preorder. -/
def numbersOf : List Stmt → List Nat
  | [] => []
  | s :: ss => s.numbers ++ numbersOf ss

end

mutual

/-- The procedures that a statement calls, in preorder. -/
def callees : Stmt → List String
  | .assign .. | .read .. | .print .. => []
  | .call _ callee => [callee]
  | .whileLoop _ _ body => calleesOf body
  | .ifElse _ _ thenBody elseBody => calleesOf thenBody ++ calleesOf elseBody

/-- The procedures that a list of statements calls, in preorder. -/
def calleesOf : List Stmt → List String
  | [] => []
  | s :: ss => s.callees ++ calleesOf ss

end

/-! ## Ways to write -/

section Written

variable (E : Expr → List Token → Prop) (C : Condition → List Token → Prop)

mutual

/-- **The grammar of statements**, given the ways to write expressions and conditions. -/
def Written : Stmt → List Token → Prop
  | .assign _ target value, ts =>
    ∃ run, E value run ∧ ts = .var target :: .assign :: (run ++ [.semicolon])
  | .read _ name, ts => ts = [.keyword .readWord, .var name, .semicolon]
  | .print _ name, ts => ts = [.keyword .printWord, .var name, .semicolon]
  | .call _ callee, ts => ts = [.keyword .callWord, .proc callee, .semicolon]
  | .whileLoop _ condition body, ts =>
    ∃ run block, C condition run ∧ WrittenAll body block ∧ body ≠ [] ∧
      ts = .keyword .whileWord :: .leftParen :: (run ++ .rightParen :: .leftBrace ::
        (block ++ [.rightBrace]))
  | .ifElse _ condition thenBody elseBody, ts =>
    ∃ run block block', C condition run ∧ WrittenAll thenBody block ∧ thenBody ≠ [] ∧
      WrittenAll elseBody block' ∧ elseBody ≠ [] ∧
      ts = .keyword .ifWord :: .leftParen :: (run ++ .rightParen :: .keyword .thenWord ::
        .leftBrace :: (block ++ .rightBrace :: .keyword .elseWord :: .leftBrace ::
          (block' ++ [.rightBrace])))

/-- Statements one after the other. -/
def WrittenAll : List Stmt → List Token → Prop
  | [], ts => ts = []
  | s :: ss, ts => ∃ first rest, s.Written first ∧ WrittenAll ss rest ∧ ts = first ++ rest

end

end Written

end Stmt

/-! ## Counting -/

namespace Program

variable {procedure : String} {before middle after : Tally} {numbers numbers' : List Nat}
  {callees callees' : List String}

/-- **What reading does to a tally.** The numbers that were given out come right after
those before, and the calls that were met are in the graph. -/
structure Tally.Advances (procedure : String) (before : Tally) (numbers : List Nat)
    (callees : List String) (after : Tally) : Prop where
  consecutive : numbers = List.range' (before.count + 1) numbers.length
  count : after.count = before.count + numbers.length
  calls : after.calls = callees.foldl (·.addCall procedure) before.calls

namespace Tally

/-- With nothing given out and nothing called, a tally stays as it is. -/
theorem advances_nil : before.Advances procedure [] [] after ↔ after = before := by
  constructor
  · rintro ⟨-, hcount, hcalls⟩
    cases after
    cases before
    simp_all
  · rintro rfl
    exact ⟨rfl, rfl, rfl⟩

/-- The first number to be given out is the one after the count. -/
theorem advances_cons {n : Nat} : before.Advances procedure (n :: numbers) callees after ↔
    n = before.count + 1 ∧
      { before with count := n }.Advances procedure numbers callees after := by
  constructor
  · rintro ⟨hnumbers, hcount, hcalls⟩
    rw [List.length_cons, List.range'_succ, List.cons.injEq] at hnumbers
    obtain ⟨rfl, hnumbers⟩ := hnumbers
    exact ⟨rfl, hnumbers, by rw [hcount, List.length_cons]; simp only; omega, hcalls⟩
  · rintro ⟨rfl, hnumbers, hcount, hcalls⟩
    refine ⟨?_, by rw [hcount, List.length_cons]; simp only; omega, hcalls⟩
    rw [List.length_cons, List.range'_succ, ← hnumbers]

/-- Two runs of numbers are consecutive if each is, and the second starts where the first ends. -/
theorem append_eq_range' {start : Nat} : numbers ++ numbers' =
    List.range' start (numbers ++ numbers').length ↔
      numbers = List.range' start numbers.length ∧
        numbers' = List.range' (start + numbers.length) numbers'.length := by
  rw [List.length_append, ← List.range'_append_1]
  constructor
  · intro h
    exact List.append_inj h (by simp)
  · rintro ⟨hfirst, hsecond⟩
    rw [← hfirst, ← hsecond]

/-- **What is read in two parts advances a tally twice.** -/
theorem advances_append :
    before.Advances procedure (numbers ++ numbers') (callees ++ callees') after ↔
      ∃ middle, before.Advances procedure numbers callees middle ∧
        middle.Advances procedure numbers' callees' after := by
  constructor
  · rintro ⟨hnumbers, hcount, hcalls⟩
    obtain ⟨hfirst, hsecond⟩ := append_eq_range'.1 hnumbers
    rw [List.length_append] at hcount
    rw [List.foldl_append] at hcalls
    refine ⟨⟨before.count + numbers.length, callees.foldl (·.addCall procedure) before.calls⟩,
      ⟨hfirst, rfl, rfl⟩, ?_, ?_, hcalls⟩
    · rw [Nat.add_right_comm]
      exact hsecond
    · rw [hcount, Nat.add_assoc]
  · rintro ⟨middle, ⟨hfirst, hcount, hcalls⟩, hsecond, hcount', hcalls'⟩
    rw [hcount, Nat.add_right_comm] at hsecond
    refine ⟨append_eq_range'.2 ⟨hfirst, hsecond⟩, ?_, ?_⟩
    · rw [List.length_append]
      omega
    · rw [hcalls', hcalls, List.foldl_append]

end Tally

end Program

/-! ## What the parser takes for an expression or a condition -/

/-- A run that is read as the expression. -/
def Expr.Reads (e : Expr) (run : List Token) : Prop :=
  ∃ p, Expr.parse run = .ok p ∧ p.tree = e

/-- A run that is read as the condition, and ends where the parenthesis around it does. -/
def Condition.Reads (c : Condition) (run : List Token) : Prop :=
  Condition.parse run = .ok c ∧
    ∀ rest, Token.enclosed? 0 (run ++ .rightParen :: rest) = some ⟨run, rest, rfl⟩

/-- An expression that keeps to its grammar can be read. -/
theorem Expr.Derives.reads {e : Expr} {run : List Token} (h : Expr.Derives 1 run e) :
    e.Reads run :=
  ⟨_, Expr.parse_of_derives h, rfl⟩

/-- And so can such a condition. -/
theorem Condition.Derives.reads {c : Condition} {run : List Token} (h : Condition.Derives run c) :
    c.Reads run :=
  ⟨Condition.parse_of_derives h, h.balanced.enclosed?⟩

namespace Program

section Pieces

variable {ts rest : List Token}

theorem expect_of_eq {kind : TokenKind} {t : Token} (hts : ts = t :: rest) (ht : t.kind = kind) :
    ∃ h, Token.expect kind ts = .ok ⟨t, rest, h⟩ := by
  subst hts
  exact ⟨_, Token.expect_cons ht⟩

/-- **A condition in parentheses is taken**, up to the parenthesis that closes it. -/
theorem takeCondition_of_reads {c : Condition} {run : List Token} (hc : c.Reads run)
    (rest : List Token) :
    ∃ h, takeCondition (.leftParen :: (run ++ .rightParen :: rest)) = .ok ⟨c, rest, h⟩ := by
  have hlt : rest.length < (Token.leftParen :: (run ++ .rightParen :: rest)).length := by
    simp only [List.length_cons, List.length_append]
    omega
  refine ⟨hlt, Outcome.bind_eq_ok.2 ⟨_, Token.expect_cons rfl, ?_⟩⟩
  simp only [Reading.one, hc.2 rest]
  exact Outcome.bind_eq_ok.2 ⟨c, hc.1, rfl⟩

/-- **An expression is taken**, up to the first semicolon. -/
theorem takeExpression_of_reads {e : Expr} {run : List Token} (he : e.Reads run)
    (rest : List Token) :
    ∃ h, takeExpression (run ++ .semicolon :: rest) = .ok ⟨e, rest, h⟩ := by
  obtain ⟨p, hp, rfl⟩ := he
  have hrun : ∀ t ∈ run, decide (t ≠ .semicolon) = true := by
    intro t ht
    have hallowed := (Expr.derives_of_parse hp).allows t ht
    simp only [ne_eq, decide_eq_true_eq]
    rintro rfl
    cases hallowed
  have htake : (run ++ .semicolon :: rest).takeWhile (· ≠ .semicolon) = run := by
    rw [List.takeWhile_append_of_pos hrun]
    simp
  have hdrop : (run ++ .semicolon :: rest).dropWhile (· ≠ .semicolon) = .semicolon :: rest := by
    rw [List.dropWhile_append_of_pos hrun]
    simp
  obtain ⟨hstop, hexpect⟩ := expect_of_eq hdrop (rfl : Token.semicolon.kind = .semicolon)
  have hlt : rest.length < (run ++ .semicolon :: rest).length := by
    simp only [List.length_cons, List.length_append]
    omega
  refine ⟨hlt, Outcome.bind_eq_ok.2 ⟨_, hexpect, Outcome.bind_eq_ok.2 ⟨p, ?_, rfl⟩⟩⟩
  rw [htake]
  exact Outcome.mapError_eq_ok.2 hp

/-- Tokens that are the only ones of their kind. -/
def isSign : Token → Bool
  | .keyword _ | .leftBrace | .rightBrace | .leftParen | .rightParen | .semicolon | .assign => true
  | _ => false

/-- A sign is the only token of its kind. -/
theorem eq_of_kind_eq {t t' : Token} (ht : isSign t) (h : t'.kind = t.kind) : t' = t := by
  cases t <;> cases t' <;> simp_all [isSign, Token.kind]

/-- So a sign that was expected is there. -/
theorem sign_of_expect {t : Token} (ht : isSign t) {r : Reading Token ts}
    (h : Token.expect t.kind ts = .ok r) : ts = t :: r.rest := by
  obtain ⟨hts, hkind⟩ := Token.eq_of_expect h
  exact hts.trans (congrArg (· :: r.rest) (eq_of_kind_eq ht hkind))

/-- A variable that was expected is there, with the name that was read. -/
theorem var_of_expect {r : Reading Token ts} (h : Token.expect .variableName ts = .ok r) :
    ts = .var r.value.text :: r.rest := by
  obtain ⟨hts, hkind⟩ := Token.eq_of_expect h
  have hvar : r.value = .var r.value.text := by
    cases hv : r.value <;> simp_all [Token.kind, Token.text]
  exact hts.trans (congrArg (· :: r.rest) hvar)

/-- And so is the name of a procedure. -/
theorem proc_of_expect {r : Reading Token ts} (h : Token.expect .procedureName ts = .ok r) :
    ts = .proc r.value.text :: r.rest := by
  obtain ⟨hts, hkind⟩ := Token.eq_of_expect h
  have hproc : r.value = .proc r.value.text := by
    cases hv : r.value <;> simp_all [Token.kind, Token.text]
  exact hts.trans (congrArg (· :: r.rest) hproc)

theorem cons_semicolon_of_expect {t : Token} (hts : ts = t :: rest) {r : Reading Token rest}
    (h : Token.expect .semicolon rest = .ok r) : ts = t :: .semicolon :: r.rest :=
  hts.trans (congrArg (t :: ·) (sign_of_expect (t := .semicolon) rfl h))

/-- What is taken as a condition stands in parentheses and can be read as one. -/
theorem reads_of_takeCondition {r : Reading Condition ts} (h : takeCondition ts = .ok r) :
    ∃ run, r.value.Reads run ∧ ts = .leftParen :: (run ++ .rightParen :: r.rest) := by
  obtain ⟨opening, hopening, h⟩ := Outcome.bind_eq_ok.1 h
  have hts := sign_of_expect (t := .leftParen) rfl hopening
  split at h
  · cases h
  · next run rest cut henclosed =>
    obtain ⟨c, hc, h⟩ := Outcome.bind_eq_ok.1 h
    obtain rfl := Except.ok.inj h
    exact ⟨run, ⟨hc, Token.enclosed?_of_enclosed? henclosed⟩,
      hts.trans (congrArg (Token.leftParen :: ·) cut)⟩

/-- What is taken as an expression stands before a semicolon and can be read as one. -/
theorem reads_of_takeExpression {r : Reading Expr ts} (h : takeExpression ts = .ok r) :
    ∃ run, r.value.Reads run ∧ ts = run ++ .semicolon :: r.rest := by
  obtain ⟨stop, hstop, h⟩ := Outcome.bind_eq_ok.1 h
  obtain ⟨p, hp, h⟩ := Outcome.bind_eq_ok.1 h
  obtain rfl := Except.ok.inj h
  have hdrop := sign_of_expect (t := .semicolon) rfl hstop
  exact ⟨_, ⟨p, Outcome.mapError_eq_ok.1 hp, rfl⟩,
    List.takeWhile_append_dropWhile.symm.trans (congrArg (ts.takeWhile (· ≠ .semicolon) ++ ·) hdrop)⟩

end Pieces

/-! ## Statements are read back -/

section Statements

variable {procedure : String}

/-- A statement does not begin with what ends a list of them. -/
theorem not_endsBody {E : Expr → List Token → Prop} {C : Condition → List Token → Prop} {s : Stmt}
    {used : List Token} (h : Stmt.Written E C s used) (rest : List Token) :
    endsBody (used ++ rest) = false := by
  cases s with
  | assign n target value =>
    obtain ⟨run, -, rfl⟩ := h
    rfl
  | read | print | call =>
    obtain rfl := h
    rfl
  | whileLoop n condition body =>
    obtain ⟨run, block, -, -, -, rfl⟩ := h
    rfl
  | ifElse n condition thenBody elseBody =>
    obtain ⟨run, block, block', -, -, -, -, -, rfl⟩ := h
    rfl

/-- A block is a list of statements in braces. -/
theorem parseBlock_of_parseBody {ss : List Stmt} {used rest : List Token} {before after : Tally}
    (h : ∃ h, parseBody procedure before (used ++ .rightBrace :: rest) =
      .ok ⟨(ss, after), .rightBrace :: rest, h⟩) :
    ∃ h, parseBlock procedure before (.leftBrace :: (used ++ .rightBrace :: rest)) =
      .ok ⟨(ss, after), rest, h⟩ := by
  obtain ⟨_, hbody⟩ := h
  rw [parseBlock]
  exact ⟨by simp +arith, Outcome.bind_eq_ok.2 ⟨_, Token.expect_cons rfl, Outcome.bind_eq_ok.2
    ⟨_, hbody, Outcome.bind_eq_ok.2 ⟨_, Token.expect_cons rfl, rfl⟩⟩⟩⟩

mutual

/-- **A statement that is written so is read back**, whatever comes after it. -/
theorem parseStmt_of_written (s : Stmt) {used : List Token} {before after : Tally}
    (rest : List Token) (h : Stmt.Written Expr.Reads Condition.Reads s used)
    (hcount : before.Advances procedure s.numbers s.callees after) :
    ∃ h, parseStmt procedure before (used ++ rest) = .ok ⟨(s, after), rest, h⟩ := by
  match s with
  | .assign n target value =>
    obtain ⟨run, hvalue, rfl⟩ := h
    obtain ⟨rfl, hcount⟩ := Tally.advances_cons.1 hcount
    obtain rfl := Tally.advances_nil.1 hcount
    obtain ⟨hlt, htake⟩ := takeExpression_of_reads hvalue rest
    have hused : Token.var target :: .assign :: (run ++ [.semicolon]) ++ rest =
        .var target :: .assign :: (run ++ .semicolon :: rest) := by simp
    rw [hused, parseStmt]
    exact ⟨by simp +arith, Outcome.bind_eq_ok.2
      ⟨_, Token.expect_cons rfl, Outcome.bind_eq_ok.2 ⟨_, htake, rfl⟩⟩⟩
  | .read n name | .print n name =>
    obtain rfl := h
    obtain ⟨rfl, hcount⟩ := Tally.advances_cons.1 hcount
    obtain rfl := Tally.advances_nil.1 hcount
    refine ⟨by simp +arith, ?_⟩
    simp only [List.cons_append, List.nil_append]
    rw [parseStmt]
    rfl
  | .call n callee =>
    obtain rfl := h
    obtain ⟨rfl, -, hcount, hcalls⟩ := Tally.advances_cons.1 hcount
    refine ⟨by simp +arith, ?_⟩
    show parseStmt procedure before (.keyword .callWord :: .proc callee :: .semicolon :: rest) = _
    obtain ⟨count, calls⟩ := after
    obtain rfl : count = _ := hcount
    obtain rfl : calls = _ := hcalls
    rw [parseStmt]
    rfl
  | .whileLoop n condition body =>
    obtain ⟨run, block, hcondition, hbody, hne, rfl⟩ := h
    obtain ⟨rfl, hcount⟩ := Tally.advances_cons.1 hcount
    obtain ⟨_, hblock⟩ := parseBlock_of_parseBody
      (parseBody_of_written body (.rightBrace :: rest) hne rfl hbody hcount)
    obtain ⟨_, htake⟩ := takeCondition_of_reads hcondition
      (.leftBrace :: (block ++ .rightBrace :: rest))
    have hused : Token.keyword .whileWord :: .leftParen :: (run ++ .rightParen :: .leftBrace ::
        (block ++ [.rightBrace])) ++ rest = .keyword .whileWord :: .leftParen ::
          (run ++ .rightParen :: .leftBrace :: (block ++ .rightBrace :: rest)) := by simp
    rw [hused, parseStmt]
    exact ⟨by simp +arith, Outcome.bind_eq_ok.2
      ⟨_, htake, Outcome.bind_eq_ok.2 ⟨_, hblock, rfl⟩⟩⟩
  | .ifElse n condition thenBody elseBody =>
    obtain ⟨run, block, block', hcondition, hthen, hne, helse, hne', rfl⟩ := h
    obtain ⟨rfl, hcount⟩ := Tally.advances_cons.1 hcount
    obtain ⟨middle, hcount, hcount'⟩ := Tally.advances_append.1 hcount
    obtain ⟨_, hblock'⟩ := parseBlock_of_parseBody
      (parseBody_of_written elseBody (.rightBrace :: rest) hne' rfl helse hcount')
    obtain ⟨_, hblock⟩ := parseBlock_of_parseBody (parseBody_of_written thenBody (.rightBrace ::
      .keyword .elseWord :: .leftBrace :: (block' ++ .rightBrace :: rest)) hne rfl hthen hcount)
    obtain ⟨_, htake⟩ := takeCondition_of_reads hcondition (.keyword .thenWord :: .leftBrace ::
      (block ++ .rightBrace :: .keyword .elseWord :: .leftBrace ::
        (block' ++ .rightBrace :: rest)))
    have hused : Token.keyword .ifWord :: .leftParen :: (run ++ .rightParen :: .keyword .thenWord ::
        .leftBrace :: (block ++ .rightBrace :: .keyword .elseWord :: .leftBrace ::
          (block' ++ [.rightBrace]))) ++ rest =
        .keyword .ifWord :: .leftParen :: (run ++ .rightParen :: .keyword .thenWord ::
          .leftBrace :: (block ++ .rightBrace :: .keyword .elseWord :: .leftBrace ::
            (block' ++ .rightBrace :: rest))) := by simp
    rw [hused, parseStmt]
    exact ⟨by simp +arith, Outcome.bind_eq_ok.2 ⟨_, htake, Outcome.bind_eq_ok.2
      ⟨_, Token.expect_cons rfl, Outcome.bind_eq_ok.2 ⟨_, hblock, Outcome.bind_eq_ok.2
        ⟨_, Token.expect_cons rfl, Outcome.bind_eq_ok.2 ⟨_, hblock', rfl⟩⟩⟩⟩⟩⟩

/-- **A list of statements is read as it is written**, up to what ends it. -/
theorem parseBody_of_written (ss : List Stmt) {used : List Token} {before after : Tally}
    (rest : List Token) (hne : ss ≠ []) (hrest : endsBody rest)
    (h : Stmt.WrittenAll Expr.Reads Condition.Reads ss used)
    (hcount : before.Advances procedure (Stmt.numbersOf ss) (Stmt.calleesOf ss) after) :
    ∃ h, parseBody procedure before (used ++ rest) = .ok ⟨(ss, after), rest, h⟩ := by
  match ss with
  | [s] =>
    obtain ⟨first, _, hs, rfl, rfl⟩ := h
    obtain ⟨_, hfirst, hmore⟩ := Tally.advances_append.1 hcount
    obtain rfl := Tally.advances_nil.1 hmore
    obtain ⟨hlt, hstmt⟩ := parseStmt_of_written s rest hs hfirst
    rw [List.append_nil, parseBody, not_endsBody hs rest]
    refine ⟨hlt, Outcome.bind_eq_ok.2 ⟨_, hstmt, ?_⟩⟩
    rw [if_pos hrest]
    rfl
  | s :: s' :: ss =>
    obtain ⟨first, more, hs, hss, rfl⟩ := h
    obtain ⟨middle, hfirst, hmore⟩ := Tally.advances_append.1 hcount
    obtain ⟨hlt, hstmt⟩ := parseStmt_of_written s (more ++ rest) hs hfirst
    obtain ⟨hlt', hbody⟩ := parseBody_of_written (s' :: ss) rest (by simp) hrest hss hmore
    have hmore : endsBody (more ++ rest) = false := by
      obtain ⟨next, last, hs', -, rfl⟩ := hss
      rw [List.append_assoc]
      exact not_endsBody hs' (last ++ rest)
    rw [List.append_assoc, parseBody, not_endsBody hs (more ++ rest)]
    refine ⟨Nat.lt_trans hlt' hlt, Outcome.bind_eq_ok.2 ⟨_, hstmt, ?_⟩⟩
    simp only [hmore]
    exact Outcome.bind_eq_ok.2 ⟨_, hbody, rfl⟩

end

/-! ## Nothing else is read -/

mutual

/-- **What is read as a statement is written so**, and the tally moves on by what the
statement has in it. -/
theorem written_of_parseStmt {n : Nat} {before : Tally} {ts : List Token} (hn : ts.length = n)
    {r : Reading (Stmt × Tally) ts} (h : parseStmt procedure before ts = .ok r) :
    ∃ used, ts = used ++ r.rest ∧ Stmt.Written Expr.Reads Condition.Reads r.value.1 used ∧
      before.Advances procedure r.value.1.numbers r.value.1.callees r.value.2 := by
  unfold parseStmt at h
  split at h
  -- a call, a read, a print: a name and a semicolon
  · obtain ⟨callee, hcallee, h⟩ := Outcome.bind_eq_ok.1 h
    obtain ⟨stop, hstop, h⟩ := Outcome.bind_eq_ok.1 h
    obtain rfl := Except.ok.inj h
    have hused := cons_semicolon_of_expect (proc_of_expect hcallee) hstop
    exact ⟨_, congrArg (Token.keyword .callWord :: ·) hused, rfl, ⟨rfl, rfl, rfl⟩⟩
  · obtain ⟨name, hname, h⟩ := Outcome.bind_eq_ok.1 h
    obtain ⟨stop, hstop, h⟩ := Outcome.bind_eq_ok.1 h
    obtain rfl := Except.ok.inj h
    have hused := cons_semicolon_of_expect (var_of_expect hname) hstop
    exact ⟨_, congrArg (Token.keyword .readWord :: ·) hused, rfl, ⟨rfl, rfl, rfl⟩⟩
  · obtain ⟨name, hname, h⟩ := Outcome.bind_eq_ok.1 h
    obtain ⟨stop, hstop, h⟩ := Outcome.bind_eq_ok.1 h
    obtain rfl := Except.ok.inj h
    have hused := cons_semicolon_of_expect (var_of_expect hname) hstop
    exact ⟨_, congrArg (Token.keyword .printWord :: ·) hused, rfl, ⟨rfl, rfl, rfl⟩⟩
  -- an assignment
  · obtain ⟨mark, hmark, h⟩ := Outcome.bind_eq_ok.1 h
    obtain ⟨value, hvalue, h⟩ := Outcome.bind_eq_ok.1 h
    obtain rfl := Except.ok.inj h
    have hmark := sign_of_expect (t := .assign) rfl hmark
    obtain ⟨run, hreads, hrun⟩ := reads_of_takeExpression hvalue
    refine ⟨_, ?_, ⟨run, hreads, rfl⟩, ⟨rfl, rfl, rfl⟩⟩
    rw [hrun] at hmark
    simp [hmark]
  -- a loop
  · obtain ⟨condition, hcondition, h⟩ := Outcome.bind_eq_ok.1 h
    obtain ⟨body, hbody, h⟩ := Outcome.bind_eq_ok.1 h
    obtain rfl := Except.ok.inj h
    have hlt := condition.shorter
    obtain ⟨run, hreads, hrun⟩ := reads_of_takeCondition hcondition
    obtain ⟨block, hblock, hne, hwritten, hcount⟩ := written_of_parseBlock rfl hbody
    refine ⟨_, ?_, ⟨run, block, hreads, hwritten, hne, rfl⟩, Tally.advances_cons.2 ⟨rfl, hcount⟩⟩
    rw [hblock] at hrun
    simp [hrun]
  -- a branching, whose second body is counted from where the first one ends
  · obtain ⟨condition, hcondition, h⟩ := Outcome.bind_eq_ok.1 h
    obtain ⟨thenMark, hthenMark, h⟩ := Outcome.bind_eq_ok.1 h
    obtain ⟨thenBody, hthen, h⟩ := Outcome.bind_eq_ok.1 h
    obtain ⟨elseMark, helseMark, h⟩ := Outcome.bind_eq_ok.1 h
    obtain ⟨elseBody, helse, h⟩ := Outcome.bind_eq_ok.1 h
    obtain rfl := Except.ok.inj h
    have hlt := Nat.lt_trans thenMark.shorter condition.shorter
    have hlt' := Nat.lt_trans elseMark.shorter thenBody.shorter
    obtain ⟨run, hreads, hrun⟩ := reads_of_takeCondition hcondition
    have hthenMark := sign_of_expect (t := .keyword .thenWord) rfl hthenMark
    have helseMark := sign_of_expect (t := .keyword .elseWord) rfl helseMark
    obtain ⟨block, hblock, hne, hwritten, hcount⟩ := written_of_parseBlock rfl hthen
    obtain ⟨block', hblock', hne', hwritten', hcount'⟩ := written_of_parseBlock rfl helse
    refine ⟨_, ?_, ⟨run, block, block', hreads, hwritten, hne, hwritten', hne', rfl⟩,
      Tally.advances_cons.2 ⟨rfl, Tally.advances_append.2 ⟨_, hcount, hcount'⟩⟩⟩
    rw [hthenMark, hblock, helseMark, hblock'] at hrun
    simp [hrun]
  · cases h
termination_by (n, 0)
decreasing_by all_goals exact Prod.Lex.left _ _ (by simp only [List.length_cons] at hn; omega)

/-- What is read as a block is written in braces, and advances the tally by its numbers and calls.
-/
theorem written_of_parseBlock {n : Nat} {before : Tally} {ts : List Token} (hn : ts.length = n)
    {r : Reading (List Stmt × Tally) ts} (h : parseBlock procedure before ts = .ok r) :
    ∃ used, ts = .leftBrace :: (used ++ .rightBrace :: r.rest) ∧ r.value.1 ≠ [] ∧
      Stmt.WrittenAll Expr.Reads Condition.Reads r.value.1 used ∧
      before.Advances procedure (Stmt.numbersOf r.value.1) (Stmt.calleesOf r.value.1)
        r.value.2 := by
  unfold parseBlock at h
  obtain ⟨opening, hopening, h⟩ := Outcome.bind_eq_ok.1 h
  obtain ⟨body, hbody, h⟩ := Outcome.bind_eq_ok.1 h
  obtain ⟨closing, hclosing, h⟩ := Outcome.bind_eq_ok.1 h
  obtain rfl := Except.ok.inj h
  have hlt : opening.rest.length < n := hn ▸ opening.shorter
  have hopening := sign_of_expect (t := .leftBrace) rfl hopening
  have hclosing := sign_of_expect (t := .rightBrace) rfl hclosing
  obtain ⟨used, hused, hne, hwritten, hcount⟩ := written_of_parseBody rfl hbody
  refine ⟨used, ?_, hne, hwritten, hcount⟩
  rw [hused, hclosing] at hopening
  exact hopening
termination_by (n, 0)
decreasing_by exact Prod.Lex.left _ _ hlt

/-- **What is read as a list of statements is written so**, one after the other. -/
theorem written_of_parseBody {n : Nat} {before : Tally} {ts : List Token} (hn : ts.length = n)
    {r : Reading (List Stmt × Tally) ts} (h : parseBody procedure before ts = .ok r) :
    ∃ used, ts = used ++ r.rest ∧ r.value.1 ≠ [] ∧
      Stmt.WrittenAll Expr.Reads Condition.Reads r.value.1 used ∧
      before.Advances procedure (Stmt.numbersOf r.value.1) (Stmt.calleesOf r.value.1)
        r.value.2 := by
  unfold parseBody at h
  split at h
  · cases h
  · obtain ⟨first, hfirst, h⟩ := Outcome.bind_eq_ok.1 h
    have hlt := first.shorter
    obtain ⟨used, hused, hwritten, hcount⟩ := written_of_parseStmt hn hfirst
    split at h
    · obtain rfl := Except.ok.inj h
      exact ⟨used, hused, by simp, ⟨used, [], hwritten, rfl, by simp⟩,
        Tally.advances_append.2 ⟨_, hcount, Tally.advances_nil.2 rfl⟩⟩
    · obtain ⟨more, hmore, h⟩ := Outcome.bind_eq_ok.1 h
      obtain rfl := Except.ok.inj h
      obtain ⟨used', hused', -, hwritten', hcount'⟩ := written_of_parseBody rfl hmore
      refine ⟨used ++ used', ?_, by simp, ⟨used, used', hwritten, hwritten', rfl⟩,
        Tally.advances_append.2 ⟨_, hcount, hcount'⟩⟩
      rw [hused'] at hused
      rw [List.append_assoc]
      exact hused
termination_by (n, 1)
decreasing_by
  · exact Prod.Lex.right _ (by decide)
  · exact Prod.Lex.left _ _ (by omega)

end

end Statements

end Program

end ProgramFacts
