import ProgramFacts.Proofs.Flow
import ProgramFacts.Proofs.Program.RoundTrip
/-!
# Programs — what a statement does, and what it covers

A statement uses and modifies variables by itself. Beyond that it stands for the statements
inside it, and a call stands for the procedure that it calls: `Program.Covers` is the least
relation that says so. Since a statement lists what is inside it (`Stmt.preorder`), it covers
these statements and whatever is covered by the procedures that they call (`covers_iff`).
-/

namespace ProgramFacts

/-! ## What statements do by themselves -/

/-- The variables of an expression, from left to right. -/
def Expr.names : Expr → List String
  | .var name => [name]
  | .const _ => []
  | .bin _ left right => left.names ++ right.names

/-- The variables of a condition, from left to right. -/
def Condition.names : Condition → List String
  | .compare _ left right => left.names ++ right.names
  | .not inner => inner.names
  | .join _ left right => left.names ++ right.names

namespace Stmt

/-- The variables that a statement uses by itself. -/
def uses : Stmt → List String
  | .assign _ _ value => value.names
  | .print _ name => [name]
  | .whileLoop _ condition _ | .ifElse _ condition _ _ => condition.names
  | .read .. | .call .. => []

/-- The variables that a statement modifies by itself. -/
def modifies : Stmt → List String
  | .assign _ target _ => [target]
  | .read _ name => [name]
  | .print .. | .call .. | .whileLoop .. | .ifElse .. => []

/-! ## What is inside a statement -/

mutual

/-- A statement and those inside it, in preorder. -/
def preorder : Stmt → List Stmt
  | .assign n target value => [.assign n target value]
  | .read n name => [.read n name]
  | .print n name => [.print n name]
  | .call n callee => [.call n callee]
  | .whileLoop n condition body => .whileLoop n condition body :: preorderOf body
  | .ifElse n condition thenBody elseBody =>
    .ifElse n condition thenBody elseBody :: (preorderOf thenBody ++ preorderOf elseBody)

/-- The statements of a list and those inside them, in preorder. -/
def preorderOf : List Stmt → List Stmt
  | [] => []
  | s :: ss => s.preorder ++ preorderOf ss

end

variable {k : Option Nat} {s t : Stmt} {ss : List Stmt}

/-- What is in a list is in one of its statements. -/
theorem mem_preorderOf : t ∈ preorderOf ss ↔ ∃ s ∈ ss, t ∈ s.preorder := by
  induction ss with
  | nil => simp [preorderOf]
  | cons s ss ih => simp [preorderOf, ih]

theorem self_mem_preorder (s : Stmt) : s ∈ s.preorder := by
  cases s <;> simp [preorder]

mutual

/-- Statements in preorder have their numbers in preorder. -/
theorem map_number_preorder (s : Stmt) : s.preorder.map number = s.numbers := by
  match s with
  | .assign .. | .read .. | .print .. | .call .. => rfl
  | .whileLoop n c body =>
    rw [preorder, List.map_cons, map_number_preorderOf body, numbers, number]
  | .ifElse n c thenBody elseBody =>
    rw [preorder, List.map_cons, List.map_append, map_number_preorderOf thenBody,
      map_number_preorderOf elseBody, numbers, number]

theorem map_number_preorderOf (ss : List Stmt) : (preorderOf ss).map number = numbersOf ss := by
  match ss with
  | [] => rfl
  | s :: ss =>
    rw [preorderOf, List.map_append, map_number_preorder s, map_number_preorderOf ss, numbersOf]

end

/-- What occurs in a list is in its preorder. -/
theorem Occurs.mem_preorderOf {k' : Option Nat} (h : Occurs k ss t k') : t ∈ preorderOf ss := by
  induction h with
  | @head k s ss => exact List.mem_append_left _ s.self_mem_preorder
  | tail _ ih => exact List.mem_append_right _ ih
  | loop _ ih => exact List.mem_append_left _ (List.mem_cons_of_mem _ ih)
  | thenBranch _ ih =>
    exact List.mem_append_left _ (List.mem_cons_of_mem _ (List.mem_append_left _ ih))
  | elseBranch _ ih =>
    exact List.mem_append_left _ (List.mem_cons_of_mem _ (List.mem_append_right _ ih))

mutual

/-- What is in the preorder of a statement occurs in it, and is followed by something. -/
theorem exists_occurs_of_mem_preorder (k : Option Nat) (s : Stmt) (h : t ∈ s.preorder) :
    ∃ k', Occurs k [s] t k' := by
  match s with
  | .assign .. | .read .. | .print .. | .call .. =>
    obtain rfl := List.mem_singleton.1 h
    exact ⟨_, .head⟩
  | .whileLoop n c body =>
    rcases List.mem_cons.1 h with rfl | h
    · exact ⟨_, .head⟩
    · obtain ⟨k', h⟩ := exists_occurs_of_mem_preorderOf (some n) body h
      exact ⟨k', .loop h⟩
  | .ifElse n c thenBody elseBody =>
    rcases List.mem_cons.1 h with rfl | h
    · exact ⟨_, .head⟩
    · rcases List.mem_append.1 h with h | h
      · obtain ⟨k', h⟩ := exists_occurs_of_mem_preorderOf k thenBody h
        exact ⟨k', .thenBranch h⟩
      · obtain ⟨k', h⟩ := exists_occurs_of_mem_preorderOf k elseBody h
        exact ⟨k', .elseBranch h⟩

/-- The same of a list. -/
theorem exists_occurs_of_mem_preorderOf (k : Option Nat) (ss : List Stmt)
    (h : t ∈ preorderOf ss) : ∃ k', Occurs k ss t k' := by
  match ss with
  | [] => cases h
  | s :: ss =>
    rcases List.mem_append.1 h with h | h
    · obtain ⟨k', h⟩ := exists_occurs_of_mem_preorder ((firstOf ss).or k) s h
      exact ⟨k', occurs_cons.2 (.inl h)⟩
    · obtain ⟨k', h⟩ := exists_occurs_of_mem_preorderOf k ss h
      exact ⟨k', .tail h⟩

end

/-- **The statements that occur in a list** are those that it lists in preorder. -/
theorem exists_occurs_iff : (∃ k', Occurs k ss t k') ↔ t ∈ preorderOf ss :=
  ⟨fun ⟨_, h⟩ => h.mem_preorderOf, exists_occurs_of_mem_preorderOf k ss⟩

theorem exists_occurs_of_mem (k : Option Nat) (h : t ∈ ss) : ∃ k', Occurs k ss t k' :=
  exists_occurs_of_mem_preorderOf k ss (mem_preorderOf.2 ⟨t, h, t.self_mem_preorder⟩)

/-- What is inside a statement of a list is in the list. -/
theorem mem_preorderOf_trans {u : Stmt} (ht : t ∈ preorderOf ss) (hu : u ∈ t.preorder) :
    u ∈ preorderOf ss := by
  obtain ⟨k', ht⟩ := exists_occurs_of_mem_preorderOf none ss ht
  obtain ⟨k'', hu⟩ := exists_occurs_of_mem_preorder k' t hu
  exact (ht.inside hu).mem_preorderOf

end Stmt

/-! ## Coverage -/

namespace Program

variable {p : Program} {q q' callee : String} {k k' : Option Nat} {s s' t u : Stmt}

/-- **What a statement covers**: itself; what is covered by a statement of its branches; and if
it is a call, what is covered by a statement of the procedure that it calls. -/
inductive Covers (p : Program) : Stmt → Stmt → Prop
  | self {s : Stmt} : Covers p s s
  | loop {n : Nat} {c : Condition} {body : List Stmt} {t u : Stmt} (ht : t ∈ body)
    (h : Covers p t u) : Covers p (.whileLoop n c body) u
  | thenBranch {n : Nat} {c : Condition} {thenBody elseBody : List Stmt} {t u : Stmt}
    (ht : t ∈ thenBody) (h : Covers p t u) : Covers p (.ifElse n c thenBody elseBody) u
  | elseBranch {n : Nat} {c : Condition} {thenBody elseBody : List Stmt} {t u : Stmt}
    (ht : t ∈ elseBody) (h : Covers p t u) : Covers p (.ifElse n c thenBody elseBody) u
  | call {n : Nat} {procedure : Procedure} {t u : Stmt} (hp : procedure ∈ p.procedures)
    (ht : t ∈ procedure.body) (h : Covers p t u) : Covers p (.call n procedure.name) u

/-- **What a procedure covers**: what is covered by a statement of its body. -/
def CoversIn (p : Program) (q : String) (u : Stmt) : Prop :=
  ∃ procedure ∈ p.procedures, procedure.name = q ∧ ∃ t ∈ procedure.body, p.Covers t u

/-- A call covers what the procedure covers that it calls. -/
theorem Covers.of_coversIn {n : Nat} (h : p.CoversIn callee u) : p.Covers (.call n callee) u := by
  obtain ⟨procedure, hp, rfl, t, ht, h⟩ := h
  exact .call hp ht h

mutual

/-- **A statement covers what is covered by anything inside it.** -/
theorem Covers.of_mem_preorder (s : Stmt) (ht : t ∈ s.preorder) (h : p.Covers t u) :
    p.Covers s u := by
  match s with
  | .assign .. | .read .. | .print .. | .call .. =>
    obtain rfl := List.mem_singleton.1 ht
    exact h
  | .whileLoop n c body =>
    rcases List.mem_cons.1 ht with rfl | ht
    · exact h
    · obtain ⟨s, hs, h⟩ := Covers.of_mem_preorderOf body ht h
      exact .loop hs h
  | .ifElse n c thenBody elseBody =>
    rcases List.mem_cons.1 ht with rfl | ht
    · exact h
    · rcases List.mem_append.1 ht with ht | ht
      · obtain ⟨s, hs, h⟩ := Covers.of_mem_preorderOf thenBody ht h
        exact .thenBranch hs h
      · obtain ⟨s, hs, h⟩ := Covers.of_mem_preorderOf elseBody ht h
        exact .elseBranch hs h

/-- So what is covered by anything inside a list is covered by one of its statements. -/
theorem Covers.of_mem_preorderOf (ss : List Stmt) (ht : t ∈ Stmt.preorderOf ss)
    (h : p.Covers t u) : ∃ s ∈ ss, p.Covers s u := by
  match ss with
  | [] => cases ht
  | s :: ss =>
    rcases List.mem_append.1 ht with ht | ht
    · exact ⟨s, List.mem_cons_self, Covers.of_mem_preorder s ht h⟩
    · obtain ⟨s', hs', h⟩ := Covers.of_mem_preorderOf ss ht h
      exact ⟨s', List.mem_cons_of_mem s hs', h⟩

end

/-- **A statement covers what is inside it**, and what the procedures cover that are called
there. -/
theorem covers_iff : p.Covers s u ↔ ∃ t ∈ s.preorder,
    t = u ∨ ∃ n callee, t = .call n callee ∧ p.CoversIn callee u := by
  constructor
  · intro h
    induction h with
    | @self s => exact ⟨s, s.self_mem_preorder, .inl rfl⟩
    | loop ht _ ih =>
      obtain ⟨t', ht', h⟩ := ih
      exact ⟨t', List.mem_cons_of_mem _ (Stmt.mem_preorderOf.2 ⟨_, ht, ht'⟩), h⟩
    | thenBranch ht _ ih =>
      obtain ⟨t', ht', h⟩ := ih
      have hin := Stmt.mem_preorderOf.2 ⟨_, ht, ht'⟩
      exact ⟨t', List.mem_cons_of_mem _ (List.mem_append_left _ hin), h⟩
    | elseBranch ht _ ih =>
      obtain ⟨t', ht', h⟩ := ih
      have hin := Stmt.mem_preorderOf.2 ⟨_, ht, ht'⟩
      exact ⟨t', List.mem_cons_of_mem _ (List.mem_append_right _ hin), h⟩
    | @call n procedure t u hp ht h _ =>
      have hcovers : p.CoversIn procedure.name u := ⟨procedure, hp, rfl, t, ht, h⟩
      exact ⟨_, Stmt.self_mem_preorder _, .inr ⟨n, procedure.name, rfl, hcovers⟩⟩
  · rintro ⟨t, ht, rfl | ⟨n, callee, rfl, h⟩⟩
    · exact Covers.of_mem_preorder s ht .self
    · exact Covers.of_mem_preorder s ht (.of_coversIn h)

/-- A call covers itself and what the called procedure covers. -/
theorem covers_call_iff {n : Nat} :
    p.Covers (.call n callee) u ↔ u = .call n callee ∨ p.CoversIn callee u := by
  rw [covers_iff, Stmt.preorder]
  simp [eq_comm]

/-- What the statements of a list cover, told alike. -/
theorem exists_covers_iff {ss : List Stmt} : (∃ s ∈ ss, p.Covers s u) ↔ ∃ t ∈ Stmt.preorderOf ss,
    t = u ∨ ∃ n callee, t = .call n callee ∧ p.CoversIn callee u := by
  simp only [covers_iff, Stmt.mem_preorderOf]
  constructor
  · rintro ⟨s, hs, t, ht, h⟩
    exact ⟨t, ⟨s, hs, ht⟩, h⟩
  · rintro ⟨t, ⟨s, hs, ht⟩, h⟩
    exact ⟨s, hs, t, ht, h⟩

/-- What a statement of a program covers is in the program. -/
theorem Covers.exists_has (h : p.Covers s u) (hs : p.Has q s k) : ∃ q' k', p.Has q' u k' := by
  induction h generalizing q k with
  | self => exact ⟨q, k, hs⟩
  | @loop n _ _ _ _ ht _ ih =>
    obtain ⟨k', ht⟩ := Stmt.exists_occurs_of_mem (some n) ht
    exact ih (hs.inside (.loop ht))
  | thenBranch ht _ ih =>
    obtain ⟨k', ht⟩ := Stmt.exists_occurs_of_mem k ht
    exact ih (hs.inside (.thenBranch ht))
  | elseBranch ht _ ih =>
    obtain ⟨k', ht⟩ := Stmt.exists_occurs_of_mem k ht
    exact ih (hs.inside (.elseBranch ht))
  | call hp ht _ ih =>
    obtain ⟨k', ht⟩ := Stmt.exists_occurs_of_mem none ht
    exact ih ⟨_, hp, rfl, ht⟩

/-! ## One statement for each number -/

/-- A procedure that has statements is one of the program. -/
theorem Has.mem_names (h : p.Has q s k) : q ∈ p.procedures.map Procedure.name := by
  obtain ⟨procedure, hp, hq, -⟩ := h
  exact List.mem_map.2 ⟨procedure, hp, hq⟩

/-- A statement is in the preorder of its procedure. -/
theorem Has.mem_preorderOf (h : p.Has q s k) :
    ∃ procedure ∈ p.procedures, procedure.name = q ∧ s ∈ Stmt.preorderOf procedure.body := by
  obtain ⟨procedure, hp, hq, h⟩ := h
  exact ⟨procedure, hp, hq, h.mem_preorderOf⟩

/-- The statements of a program, in the order in which they start. -/
def preorder (p : Program) : List Stmt := p.procedures.flatMap (Stmt.preorderOf ·.body)

/-- The preorder of a program has the statements of all procedures. -/
theorem mem_preorder : t ∈ p.preorder ↔ ∃ q k, p.Has q t k := by
  rw [preorder, List.mem_flatMap]
  constructor
  · intro ⟨procedure, hprocedure, ht⟩
    obtain ⟨k, ht⟩ := Stmt.exists_occurs_of_mem_preorderOf none procedure.body ht
    exact ⟨procedure.name, k, procedure, hprocedure, rfl, ht⟩
  · intro ⟨q, k, ht⟩
    obtain ⟨procedure, hprocedure, -, ht⟩ := ht.mem_preorderOf
    exact ⟨procedure, hprocedure, ht⟩

theorem map_number_preorder : p.preorder.map Stmt.number = p.numbers := by
  rw [preorder, List.map_flatMap, numbers]
  exact List.flatMap_congr fun procedure _ => Stmt.map_number_preorderOf procedure.body

namespace Consistent

variable (hp : p.Consistent)
include hp

/-- No two statements of a consistent program have the same number. -/
theorem nodup_numbers : p.numbers.Nodup := by
  rw [hp.numbered]
  exact List.nodup_range'

/-- **A number is that of one statement only.** -/
theorem has_unique (h : p.Has q s k) (h' : p.Has q' s' k') (hn : s.number = s'.number) :
    s = s' := by
  have hnodup : (p.preorder.map Stmt.number).Nodup := by
    rw [map_number_preorder]
    exact hp.nodup_numbers
  exact List.inj_on_of_nodup_map hnodup (mem_preorder.2 ⟨q, k, h⟩) (mem_preorder.2 ⟨q', k', h'⟩) hn

/-- **A name is that of one procedure only.** -/
theorem procedure_unique {procedure procedure' : Procedure} (h : procedure ∈ p.procedures)
    (h' : procedure' ∈ p.procedures) (hname : procedure.name = procedure'.name) :
    procedure = procedure' :=
  List.inj_on_of_nodup_map hp.nodup h h' hname

/-- **A procedure covers what its statements cover.** -/
theorem coversIn_iff {procedure : Procedure} (h : procedure ∈ p.procedures) :
    p.CoversIn procedure.name u ↔ ∃ t ∈ procedure.body, p.Covers t u := by
  constructor
  · rintro ⟨procedure', h', hname, hcovers⟩
    obtain rfl := hp.procedure_unique h' h hname
    exact hcovers
  · exact fun hcovers => ⟨procedure, h, rfl, hcovers⟩

end Consistent

/-- A procedure that is called in two ways from within a loop: at the end of a branch, and
directly. -/
def sharedCallee : Program :=
  ⟨[⟨"main",
      [.assign 1 "x" (.const "1"),
        .whileLoop 2 (.compare .gt (.var "i") (.const "0"))
          [.call 3 "left", .assign 4 "y" (.bin .add (.var "x") (.var "y")), .call 5 "right"]]⟩,
    ⟨"left",
      [.ifElse 6 (.compare .eq (.var "i") (.const "0")) [.call 7 "shared"]
        [.assign 8 "x" (.var "y")]]⟩,
    ⟨"right", [.call 9 "shared"]⟩,
    ⟨"shared", [.read 10 "i"]⟩]⟩

theorem wellFormed_sharedCallee : sharedCallee.WellFormed where
  toConsistent := consistent_of_rank
    (fun a => if a = "shared" then 2 else if a = "main" then 0 else 1)
    (by simp [sharedCallee]) (by decide) (by decide) (by decide)
  printable := by decide

theorem parse_sharedCallee : parse (sharedCallee.print .minimal) = .ok sharedCallee :=
  parse_of_laid wellFormed_sharedCallee (Token.laid_phrase _)

end Program

end ProgramFacts
