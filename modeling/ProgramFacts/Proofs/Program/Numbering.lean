import ProgramFacts.Proofs.Condition.Acceptance
import ProgramFacts.Proofs.Program.WellFormed
/-!
# Programs — the grammar of token lists

Which lists of tokens are programs, and which program each of them is. Expressions and conditions
are read exactly if their own grammars derive them, so the grammar of programs needs no word about
how they are read (`Program.Derives`). It says nothing of numbers either: these are given out anew,
in preorder from 1 on (`Program.numbered`). The parser accepts what the grammar derives, and what
it gives back is the derived program, numbered so (`parseTokens_iff_derives`).
-/

namespace ProgramFacts

/-- **The grammar of programs**: one procedure or more, with expressions and conditions as their
grammars derive them. The numbers of the statements do not matter. -/
def Program.Derives (ts : List Token) (p : Program) : Prop :=
  p.procedures ≠ [] ∧ Procedure.WrittenAll (fun e run => Expr.Derives 1 run e)
    (fun c run => Condition.Derives run c) p.procedures ts

/-! ## Expressions and conditions are derived -/

/-- **An expression can be read off a run exactly if the grammar derives it.** -/
theorem Expr.reads_iff {e : Expr} {run : List Token} : e.Reads run ↔ Expr.Derives 1 run e := by
  constructor
  · rintro ⟨p, hp, rfl⟩
    exact Expr.derives_of_parse hp
  · exact Expr.Derives.reads

/-- And so can a condition. -/
theorem Condition.reads_iff {c : Condition} {run : List Token} :
    c.Reads run ↔ Condition.Derives run c :=
  ⟨fun h => Condition.parse_eq_ok.1 h.1, Condition.Derives.reads⟩

/-- So programs are written in the same ways, whether parts of them have to be readable or
derivable. -/
theorem Procedure.writtenAll_reads_iff {ps : List Procedure} {ts : List Token} :
    Procedure.WrittenAll Expr.Reads Condition.Reads ps ts ↔
      Procedure.WrittenAll (fun e run => Expr.Derives 1 run e)
        (fun c run => Condition.Derives run c) ps ts := by
  have hexpr : Expr.Reads = fun e run => Expr.Derives 1 run e := by
    funext e run
    exact propext Expr.reads_iff
  have hcondition : Condition.Reads = fun c run => Condition.Derives run c := by
    funext c run
    exact propext Condition.reads_iff
  rw [hexpr, hcondition]

/-! ## Numbering -/

mutual

/-- The statement with its numbers given out anew, in preorder from `n` on. -/
def Stmt.renumber (n : Nat) : Stmt → Stmt
  | .assign _ target value => .assign n target value
  | .read _ name => .read n name
  | .print _ name => .print n name
  | .call _ callee => .call n callee
  | .whileLoop _ condition body => .whileLoop n condition (Stmt.renumberAll (n + 1) body)
  | .ifElse _ condition thenBody elseBody =>
    .ifElse n condition (Stmt.renumberAll (n + 1) thenBody)
      (Stmt.renumberAll (n + 1 + (Stmt.numbersOf thenBody).length) elseBody)

/-- Each statement is numbered on from where the one before it ends. -/
def Stmt.renumberAll (n : Nat) : List Stmt → List Stmt
  | [] => []
  | s :: ss => s.renumber n :: Stmt.renumberAll (n + s.numbers.length) ss

end

/-- The procedures with their statements numbered on across them. -/
def Procedure.renumberAll (n : Nat) : List Procedure → List Procedure
  | [] => []
  | p :: ps => ⟨p.name, Stmt.renumberAll n p.body⟩ ::
      Procedure.renumberAll (n + (Stmt.numbersOf p.body).length) ps

/-- **The program with its statements numbered from 1**, in preorder across procedures. -/
def Program.numbered (p : Program) : Program :=
  ⟨Procedure.renumberAll 1 p.procedures⟩

namespace Stmt

mutual

/-- A statement is given consecutive numbers, as many as it has statements. -/
theorem numbers_renumber (n : Nat) (s : Stmt) :
    (s.renumber n).numbers = List.range' n s.numbers.length := by
  match s with
  | .assign .. | .read .. | .print .. | .call .. => rfl
  | .whileLoop _ condition body =>
    simp only [renumber, numbers, numbersOf_renumberAll, List.length_cons, List.range'_succ]
  | .ifElse _ condition thenBody elseBody =>
    simp only [renumber, numbers, numbersOf_renumberAll, List.length_cons, List.length_append,
      List.range'_succ, List.range'_append_1]

/-- The numbers of a list go on from one statement to the next. -/
theorem numbersOf_renumberAll (n : Nat) (ss : List Stmt) :
    numbersOf (renumberAll n ss) = List.range' n (numbersOf ss).length := by
  match ss with
  | [] => rfl
  | s :: ss =>
    simp only [renumberAll, numbersOf, numbers_renumber, numbersOf_renumberAll, List.length_append,
      List.range'_append_1]

end

theorem renumberAll_eq_nil {n : Nat} {ss : List Stmt} : renumberAll n ss = [] ↔ ss = [] := by
  cases ss <;> simp [renumberAll]

section Written

variable {E : Expr → List Token → Prop} {C : Condition → List Token → Prop}

mutual

/-- The ways to write a statement do not depend on its numbers. -/
theorem written_renumber (n : Nat) (s : Stmt) (ts : List Token) :
    Written E C (s.renumber n) ts ↔ Written E C s ts := by
  match s with
  | .assign .. | .read .. | .print .. | .call .. => rfl
  | .whileLoop _ condition body =>
    simp only [renumber, Written, writtenAll_renumberAll, ne_eq, renumberAll_eq_nil]
  | .ifElse _ condition thenBody elseBody =>
    simp only [renumber, Written, writtenAll_renumberAll, ne_eq, renumberAll_eq_nil]

/-- **Numbers are not written.** -/
theorem writtenAll_renumberAll (n : Nat) (ss : List Stmt) (ts : List Token) :
    WrittenAll E C (renumberAll n ss) ts ↔ WrittenAll E C ss ts := by
  match ss with
  | [] => rfl
  | s :: ss => simp only [renumberAll, WrittenAll, written_renumber, writtenAll_renumberAll]

end

end Written

mutual

/-- A statement that is numbered on from `n` keeps its numbers. -/
theorem renumber_eq_self {n : Nat} (s : Stmt) (h : s.numbers = List.range' n s.numbers.length) :
    s.renumber n = s := by
  match s with
  | .assign m _ _ | .read m _ | .print m _ | .call m _ =>
    obtain rfl : m = n := (List.cons.inj h).1
    rfl
  | .whileLoop m condition body =>
    rw [numbers, List.length_cons, List.range'_succ] at h
    obtain ⟨rfl, hbody⟩ := List.cons.inj h
    rw [renumber, renumberAll_eq_self body hbody]
  | .ifElse m condition thenBody elseBody =>
    rw [numbers, List.length_cons, List.range'_succ] at h
    obtain ⟨rfl, hbodies⟩ := List.cons.inj h
    obtain ⟨hthen, helse⟩ := Program.Tally.append_eq_range'.1 hbodies
    rw [renumber, renumberAll_eq_self thenBody hthen, renumberAll_eq_self elseBody helse]

/-- What is numbered consecutively stays as it is. -/
theorem renumberAll_eq_self {n : Nat} (ss : List Stmt)
    (h : numbersOf ss = List.range' n (numbersOf ss).length) : renumberAll n ss = ss := by
  match ss with
  | [] => rfl
  | s :: ss =>
    obtain ⟨hfirst, hrest⟩ := Program.Tally.append_eq_range'.1 h
    rw [renumberAll, renumber_eq_self s hfirst, renumberAll_eq_self ss hrest]

end

end Stmt

namespace Procedure

/-- The numbers of procedures go on from one to the next. -/
theorem numbers_renumberAll (n : Nat) (ps : List Procedure) :
    (renumberAll n ps).flatMap (Stmt.numbersOf ·.body) =
      List.range' n (ps.flatMap (Stmt.numbersOf ·.body)).length := by
  induction ps generalizing n with
  | nil => rfl
  | cons p ps ih =>
    rw [renumberAll, List.flatMap_cons, List.flatMap_cons, ih, Stmt.numbersOf_renumberAll,
      List.length_append, List.range'_append_1]

theorem writtenAll_renumberAll {E : Expr → List Token → Prop} {C : Condition → List Token → Prop}
    (n : Nat) (ps : List Procedure) (ts : List Token) :
    WrittenAll E C (renumberAll n ps) ts ↔ WrittenAll E C ps ts := by
  induction ps generalizing n ts with
  | nil => rfl
  | cons p ps ih =>
    simp only [renumberAll, WrittenAll, Procedure.Written, ih, Stmt.writtenAll_renumberAll, ne_eq,
      Stmt.renumberAll_eq_nil]

/-- Procedures that are numbered consecutively stay as they are. -/
theorem renumberAll_eq_self {n : Nat} (ps : List Procedure)
    (h : ps.flatMap (Stmt.numbersOf ·.body) =
      List.range' n (ps.flatMap (Stmt.numbersOf ·.body)).length) : renumberAll n ps = ps := by
  induction ps generalizing n with
  | nil => rfl
  | cons p ps ih =>
    obtain ⟨hfirst, hrest⟩ := Program.Tally.append_eq_range'.1 h
    rw [renumberAll, Stmt.renumberAll_eq_self p.body hfirst, ih hrest]

end Procedure

namespace Program

/-- The statements of a numbered program are numbered from one on. -/
theorem numbers_numbered (p : Program) :
    p.numbered.numbers = List.range' 1 p.numbers.length :=
  Procedure.numbers_renumberAll 1 p.procedures

/-- **A program and the numbered one have the same tokens.** -/
theorem derives_numbered {ts : List Token} {p : Program} (h : Derives ts p) :
    Derives ts p.numbered := by
  obtain ⟨hne, hwritten⟩ := h
  refine ⟨?_, (Procedure.writtenAll_renumberAll 1 p.procedures ts).2 hwritten⟩
  unfold numbered
  cases hps : p.procedures with
  | nil => exact absurd hps hne
  | cons q ps => simp [Procedure.renumberAll]

/-- **The parser accepts what the grammar derives, and nothing else.** What it gives back is the
derived program with its statements numbered in preorder, across procedures and from 1 on,
without a gap. -/
theorem parseTokens_iff_derives :
    (∀ (ts : List Token) (q : Program), (∃ d, parseTokens ts = .ok d ∧ d.program = q) ↔
      ∃ p, Derives ts p ∧ q = p.numbered) ∧
    ∀ p : Program, p.numbered.numbers = List.range' 1 p.numbers.length := by
  refine ⟨fun ts q => ⟨?_, ?_⟩, numbers_numbered⟩
  · rintro ⟨d, hparse, rfl⟩
    obtain ⟨hne, hwritten, tally, henters, -⟩ := parseTokens_eq_ok.1 hparse
    have hnumbers := Tally.exists_enters.1 ⟨d.repeated, tally, henters⟩
    have hself : d.program.numbered = d.program :=
      congrArg Program.mk (Procedure.renumberAll_eq_self d.program.procedures hnumbers)
    exact ⟨d.program, ⟨hne, Procedure.writtenAll_reads_iff.1 hwritten⟩, hself.symm⟩
  · rintro ⟨p, hp, rfl⟩
    obtain ⟨hne, hwritten⟩ := derives_numbered hp
    obtain ⟨repeated, tally, henters⟩ : ∃ repeated tally,
        Tally.Enters ⟨0, .empty⟩ p.numbered.procedures repeated tally := by
      have hnumbers := numbers_numbered p
      have hlength : p.numbered.numbers.length = p.numbers.length := by
        rw [hnumbers, List.length_range']
      rw [← hlength] at hnumbers
      exact Tally.exists_enters.2 hnumbers
    exact ⟨⟨p.numbered, tally.calls, repeated⟩, parseTokens_eq_ok.2
      ⟨hne, Procedure.writtenAll_reads_iff.2 hwritten, tally, henters, rfl⟩, rfl⟩

end Program

end ProgramFacts
