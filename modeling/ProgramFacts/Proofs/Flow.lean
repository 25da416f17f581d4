import ProgramFacts.Flow
import ProgramFacts.Proofs.Digraph
import ProgramFacts.Proofs.Ordered
import ProgramFacts.Proofs.Program.WellFormed
/-!
# Control flow — what a program says of it

A program says itself where control goes. `Stmt.Occurs` finds the statements of a list,
those inside others included, and where control goes on once each of them is done;
`Stmt.Goes` says where it goes from a statement. Hence what is next (`Program.Next`), where a
procedure is left (`Program.Exit`), where it is called and where it starts. The flow of the
program's tree says the same of all of these, because no number and no name occurs twice.
-/

namespace ProgramFacts

/-! ## Statements and what follows them -/

namespace Stmt

/-- The number of the first statement of a list. -/
def firstOf (ss : List Stmt) : Option Nat := ss.head?.map number

/-- **The statements of a list**, those inside others included. If control goes on at `k`
once the list is done, then it goes on at `k'` once the statement is; `none` is out of the
procedure. -/
inductive Occurs : Option Nat → List Stmt → Stmt → Option Nat → Prop
  | head {k : Option Nat} {s : Stmt} {ss : List Stmt} : Occurs k (s :: ss) s ((firstOf ss).or k)
  | tail {k k' : Option Nat} {s t : Stmt} {ss : List Stmt} (h : Occurs k ss t k') :
    Occurs k (s :: ss) t k'
  | loop {k k' : Option Nat} {n : Nat} {c : Condition} {t : Stmt} {body ss : List Stmt}
    (h : Occurs (some n) body t k') : Occurs k (.whileLoop n c body :: ss) t k'
  | thenBranch {k k' : Option Nat} {n : Nat} {c : Condition} {t : Stmt}
    {thenBody elseBody ss : List Stmt} (h : Occurs ((firstOf ss).or k) thenBody t k') :
    Occurs k (.ifElse n c thenBody elseBody :: ss) t k'
  | elseBranch {k k' : Option Nat} {n : Nat} {c : Condition} {t : Stmt}
    {thenBody elseBody ss : List Stmt} (h : Occurs ((firstOf ss).or k) elseBody t k') :
    Occurs k (.ifElse n c thenBody elseBody :: ss) t k'

/-- Whether a statement chooses between two lists. -/
def isBranching : Stmt → Bool
  | .ifElse .. => true
  | _ => false

/-- **Where control goes from a statement** that is followed by `k`. A loop is entered or
done with, a branching is entered, any other statement is done with. -/
inductive Goes (k : Option Nat) : Stmt → Option Nat → Prop
  | done {s : Stmt} (h : s.isBranching = false) : Goes k s k
  | loop {n m : Nat} {c : Condition} {body : List Stmt} (h : firstOf body = some m) :
    Goes k (.whileLoop n c body) (some m)
  | thenBranch {n m : Nat} {c : Condition} {thenBody elseBody : List Stmt}
    (h : firstOf thenBody = some m) : Goes k (.ifElse n c thenBody elseBody) (some m)
  | elseBranch {n m : Nat} {c : Condition} {thenBody elseBody : List Stmt}
    (h : firstOf elseBody = some m) : Goes k (.ifElse n c thenBody elseBody) (some m)

variable {k k' k'' : Option Nat} {n m : Nat} {c : Condition} {s t : Stmt} {ss body : List Stmt}

/-- What occurs in a list occurs in its first statement or in the others. -/
theorem occurs_cons :
    Occurs k (s :: ss) t k' ↔ Occurs ((firstOf ss).or k) [s] t k' ∨ Occurs k ss t k' := by
  constructor
  · intro h
    cases h with
    | head => exact .inl .head
    | tail h => exact .inr h
    | loop h => exact .inl (.loop h)
    | thenBranch h => exact .inl (.thenBranch h)
    | elseBranch h => exact .inl (.elseBranch h)
  · rintro (h | h)
    · cases h with
      | head => exact .head
      | tail h => cases h
      | loop h => exact .loop h
      | thenBranch h => exact .thenBranch h
      | elseBranch h => exact .elseBranch h
    · exact .tail h

/-- In a loop there are the loop itself and what occurs in its body, which is followed by the
loop. -/
theorem occurs_while : Occurs k [.whileLoop n c body] t k' ↔
    (t = .whileLoop n c body ∧ k' = k) ∨ Occurs (some n) body t k' := by
  constructor
  · intro h
    cases h with
    | head => exact .inl ⟨rfl, rfl⟩
    | tail h => cases h
    | loop h => exact .inr h
  · rintro (⟨rfl, rfl⟩ | h)
    · exact .head
    · exact .loop h

/-- In a branching there are the branching itself and what occurs in its branches, which are
followed by what follows it. -/
theorem occurs_if {thenBody elseBody : List Stmt} :
    Occurs k [.ifElse n c thenBody elseBody] t k' ↔
      (t = .ifElse n c thenBody elseBody ∧ k' = k) ∨ Occurs k thenBody t k' ∨
        Occurs k elseBody t k' := by
  constructor
  · intro h
    cases h with
    | head => exact .inl ⟨rfl, rfl⟩
    | tail h => cases h
    | thenBranch h => exact .inr (.inl h)
    | elseBranch h => exact .inr (.inr h)
  · rintro (⟨rfl, rfl⟩ | h | h)
    · exact .head
    · exact .thenBranch h
    · exact .elseBranch h

/-- The first statement of a list occurs in it. -/
theorem exists_occurs_of_firstOf (h : firstOf ss = some n) :
    ∃ t k', Occurs k ss t k' ∧ t.number = n := by
  cases ss with
  | nil => cases h
  | cons t ss => exact ⟨t, _, .head, Option.some.inj h⟩

theorem exists_firstOf (hne : ss ≠ []) : ∃ n, firstOf ss = some n := by
  obtain ⟨s, ss, rfl⟩ := List.exists_cons_of_ne_nil hne
  exact ⟨s.number, rfl⟩

/-- What follows a statement is in the rest of its list, or is what follows the list. -/
theorem firstOf_or_cases (k : Option Nat) (ss : List Stmt) :
    (firstOf ss).or k = k ∨
      ∃ t k', Occurs k ss t k' ∧ (firstOf ss).or k = some t.number := by
  cases ss with
  | nil => exact .inl rfl
  | cons t ss => exact .inr ⟨t, _, .head, rfl⟩

/-- Control stays among the statements of a list until the list is done. -/
theorem Occurs.stays (h : Occurs k ss s k') :
    k' = k ∨ ∃ t k'', Occurs k ss t k'' ∧ k' = some t.number := by
  induction h with
  | @head k s ss =>
    rcases firstOf_or_cases k ss with hk | ⟨t, k'', ht, hk⟩
    · exact .inl hk
    · exact .inr ⟨t, k'', .tail ht, hk⟩
  | tail _ ih =>
    rcases ih with rfl | ⟨t, k'', ht, rfl⟩
    · exact .inl rfl
    · exact .inr ⟨t, k'', .tail ht, rfl⟩
  | loop _ ih =>
    rcases ih with rfl | ⟨t, k'', ht, rfl⟩
    · exact .inr ⟨_, _, .head, rfl⟩
    · exact .inr ⟨t, k'', .loop ht, rfl⟩
  | @thenBranch k k' n c s thenBody elseBody ss _ ih =>
    rcases ih with rfl | ⟨t, k'', ht, rfl⟩
    · rcases firstOf_or_cases k ss with hk | ⟨t, k'', ht, hk⟩
      · exact .inl hk
      · exact .inr ⟨t, k'', .tail ht, hk⟩
    · exact .inr ⟨t, k'', .thenBranch ht, rfl⟩
  | @elseBranch k k' n c s thenBody elseBody ss _ ih =>
    rcases ih with rfl | ⟨t, k'', ht, rfl⟩
    · rcases firstOf_or_cases k ss with hk | ⟨t, k'', ht, hk⟩
      · exact .inl hk
      · exact .inr ⟨t, k'', .tail ht, hk⟩
    · exact .inr ⟨t, k'', .elseBranch ht, rfl⟩

/-- What is inside a statement of a list is in the list. -/
theorem Occurs.inside (h : Occurs k ss s k') (hs : Occurs k' [s] t k'') : Occurs k ss t k'' := by
  induction h with
  | head => exact occurs_cons.2 (.inl hs)
  | tail _ ih => exact .tail (ih hs)
  | loop _ ih => exact .loop (ih hs)
  | thenBranch _ ih => exact .thenBranch (ih hs)
  | elseBranch _ ih => exact .elseBranch (ih hs)

/-- Control goes from a statement to another one of the list, or to where the list leads. -/
theorem Occurs.goes (h : Occurs k ss s k') {dest : Option Nat} (hdest : Goes k' s dest) :
    dest = k ∨ ∃ t k'', Occurs k ss t k'' ∧ dest = some t.number := by
  cases hdest with
  | done => exact h.stays
  | loop hm =>
    obtain ⟨t, k'', ht, rfl⟩ := exists_occurs_of_firstOf hm
    exact .inr ⟨t, k'', h.inside (.loop ht), rfl⟩
  | thenBranch hm =>
    obtain ⟨t, k'', ht, rfl⟩ := exists_occurs_of_firstOf hm
    exact .inr ⟨t, k'', h.inside (.thenBranch ht), rfl⟩
  | elseBranch hm =>
    obtain ⟨t, k'', ht, rfl⟩ := exists_occurs_of_firstOf hm
    exact .inr ⟨t, k'', h.inside (.elseBranch ht), rfl⟩

/-- What a statement of a list calls, the list calls. -/
theorem Occurs.mem_calleesOf {callee : String} (h : Occurs k ss t k') (hc : callee ∈ t.callees) :
    callee ∈ calleesOf ss := by
  induction h with
  | head => exact List.mem_append_left _ hc
  | tail _ ih => exact List.mem_append_right _ (ih hc)
  | loop _ ih => exact List.mem_append_left _ (ih hc)
  | thenBranch _ ih => exact List.mem_append_left _ (List.mem_append_left _ (ih hc))
  | elseBranch _ ih => exact List.mem_append_left _ (List.mem_append_right _ (ih hc))

/-! ## Sites -/

/-- The site of a statement. -/
def site (q : String) (s : Stmt) (k : Option Nat) : Site := ⟨q, s.number, s.toTree, k⟩

theorem firstOf_toTrees (ss : List Stmt) :
    (toTrees ss).head?.bind Tree.number = firstOf ss := by
  cases ss with
  | nil => rfl
  | cons s ss => cases s <;> rfl

mutual

/-- **The sites of a statement are those of what occurs in it.** The induction goes along with the
one on lists. -/
theorem mem_ofStatement {q : String} (k : Option Nat) (s : Stmt) {x : Site} :
    x ∈ Site.ofStatement q k s.toTree ↔ ∃ t k', Occurs k [s] t k' ∧ x = t.site q k' := by
  match s with
  | .assign n .. | .read n .. | .print n .. | .call n .. =>
    constructor
    · intro h
      exact ⟨_, _, .head, List.mem_singleton.1 h⟩
    · rintro ⟨t, k', h, rfl⟩
      cases h with
      | head => exact List.mem_singleton.2 rfl
      | tail h => cases h
  | .whileLoop n c body =>
    have hbody := mem_ofStatements (q := q) (some n) body (x := x)
    show x ∈ (Stmt.whileLoop n c body).site q k :: Site.ofStatements q (some n) (toTrees body) ↔ _
    rw [List.mem_cons, hbody]
    simp only [occurs_while, or_and_right, exists_or]
    simp
  | .ifElse n c thenBody elseBody =>
    have hthen := mem_ofStatements (q := q) k thenBody (x := x)
    have helse := mem_ofStatements (q := q) k elseBody (x := x)
    show x ∈ (Stmt.ifElse n c thenBody elseBody).site q k ::
      (Site.ofStatements q k (toTrees thenBody) ++ (Site.ofStatements q k (toTrees elseBody) ++ [])) ↔ _
    rw [List.mem_cons, List.append_nil, List.mem_append, hthen, helse]
    simp only [occurs_if, or_and_right, exists_or]
    simp

/-- The sites of a list are those of what occurs in the list. -/
theorem mem_ofStatements {q : String} (k : Option Nat) (ss : List Stmt) {x : Site} :
    x ∈ Site.ofStatements q k (toTrees ss) ↔ ∃ t k', Occurs k ss t k' ∧ x = t.site q k' := by
  match ss with
  | [] =>
    refine iff_of_false (by simp [toTrees, Site.ofStatements]) ?_
    rintro ⟨t, k', h, -⟩
    cases h
  | s :: ss =>
    rw [toTrees, Site.ofStatements, List.mem_append, firstOf_toTrees,
      mem_ofStatement ((firstOf ss).or k) s, mem_ofStatements k ss]
    constructor
    · rintro (⟨t, k', h, rfl⟩ | ⟨t, k', h, rfl⟩)
      · exact ⟨t, k', occurs_cons.2 (.inl h), rfl⟩
      · exact ⟨t, k', .tail h, rfl⟩
    · rintro ⟨t, k', h, rfl⟩
      exact (occurs_cons.1 h).imp (⟨t, k', ·, rfl⟩) (⟨t, k', ·, rfl⟩)

end

mutual

/-- The sites of a statement have its numbers, in preorder. -/
theorem numbers_ofStatement (q : String) (k : Option Nat) (s : Stmt) :
    (Site.ofStatement q k s.toTree).map Site.number = s.numbers := by
  match s with
  | .assign .. | .read .. | .print .. | .call .. => rfl
  | .whileLoop n c body =>
    show n :: (Site.ofStatements q (some n) (toTrees body)).map Site.number = _
    rw [numbers_ofStatements q (some n) body, numbers]
  | .ifElse n c thenBody elseBody =>
    show n :: (Site.ofStatements q k (toTrees thenBody) ++
      (Site.ofStatements q k (toTrees elseBody) ++ [])).map Site.number = _
    rw [List.append_nil, List.map_append, numbers_ofStatements q k thenBody,
      numbers_ofStatements q k elseBody, numbers]

/-- And so have those of a list. -/
theorem numbers_ofStatements (q : String) (k : Option Nat) (ss : List Stmt) :
    (Site.ofStatements q k (toTrees ss)).map Site.number = numbersOf ss := by
  match ss with
  | [] => rfl
  | s :: ss =>
    rw [toTrees, Site.ofStatements, List.map_append, numbers_ofStatement,
      numbers_ofStatements q k ss, numbersOf]

end

/-- Entering some lists leads to the first statements of those that have one. -/
theorem mem_entries (bodies : List (List Stmt)) {dest : Option Nat} :
    dest ∈ ((bodies.map fun body => Tree.statementList (toTrees body)).filterMap
        Tree.firstNumber).map some ↔
      ∃ body ∈ bodies, ∃ m, firstOf body = some m ∧ dest = some m := by
  simp only [List.mem_map, List.mem_filterMap]
  constructor
  · rintro ⟨m, ⟨_, ⟨body, hbody, rfl⟩, hm⟩, rfl⟩
    exact ⟨body, hbody, m, (firstOf_toTrees body).symm.trans hm, rfl⟩
  · rintro ⟨body, hbody, m, hm, rfl⟩
    exact ⟨m, ⟨_, ⟨body, hbody, rfl⟩, (firstOf_toTrees body).trans hm⟩, rfl⟩

/-- **The targets of a site are where control goes from the statement.** -/
theorem mem_targets_site {q : String} {dest : Option Nat} :
    dest ∈ (s.site q k).targets ↔ Goes k s dest := by
  cases s with
  | assign | read | print | call =>
    constructor
    · intro h
      obtain rfl := List.mem_singleton.1 h
      exact .done rfl
    · intro h
      cases h with
      | done => exact List.mem_singleton.2 rfl
  | whileLoop n c body =>
    refine List.mem_append.trans ((or_congr (mem_entries [body]) List.mem_singleton).trans ?_)
    constructor
    · rintro (⟨_, hbody, m, hm, rfl⟩ | rfl)
      · obtain rfl := List.mem_singleton.1 hbody
        exact .loop hm
      · exact .done rfl
    · intro h
      cases h with
      | done => exact .inr rfl
      | loop hm => exact .inl ⟨body, List.mem_singleton.2 rfl, _, hm, rfl⟩
  | ifElse n c thenBody elseBody =>
    refine (mem_entries [thenBody, elseBody]).trans ?_
    constructor
    · rintro ⟨body, hbody, m, hm, rfl⟩
      rcases List.mem_cons.1 hbody with rfl | hbody
      · exact .thenBranch hm
      · obtain rfl := List.mem_singleton.1 hbody
        exact .elseBranch hm
    · intro h
      cases h with
      | done hs => cases hs
      | thenBranch hm => exact ⟨thenBody, by simp, _, hm, rfl⟩
      | elseBranch hm => exact ⟨elseBody, by simp, _, hm, rfl⟩

end Stmt

/-! ## Programs -/

namespace Program

variable {p : Program} {q q' callee : String} {s : Stmt} {k : Option Nat} {n m : Nat}

/-- A statement of the procedure `q`, and where control goes on once it is done. -/
def Has (p : Program) (q : String) (s : Stmt) (k : Option Nat) : Prop :=
  ∃ procedure ∈ p.procedures, procedure.name = q ∧ Stmt.Occurs none procedure.body s k

/-- The statement numbered `n` is in the procedure `q`. -/
def In (p : Program) (q : String) (n : Nat) : Prop :=
  ∃ s k, p.Has q s k ∧ s.number = n

/-- Control goes from one statement to another of the same procedure. -/
def Next (p : Program) (n m : Nat) : Prop :=
  ∃ q s k, p.Has q s k ∧ s.number = n ∧ s.Goes k (some m)

/-- Control may leave the procedure `q` at a statement. -/
def Exit (p : Program) (q : String) (n : Nat) : Prop :=
  ∃ s k, p.Has q s k ∧ s.number = n ∧ s.Goes k none

/-- A statement is a call of the procedure `callee`. -/
def CallOf (p : Program) (callee : String) (n : Nat) : Prop :=
  ∃ q k, p.Has q (.call n callee) k

/-- The procedure `q` starts at a statement. -/
def Entry (p : Program) (q : String) (n : Nat) : Prop :=
  ∃ procedure ∈ p.procedures, procedure.name = q ∧ Stmt.firstOf procedure.body = some n

/-- A procedure is entered at one of its own statements. -/
theorem Entry.mem (h : p.Entry q n) : p.In q n := by
  obtain ⟨procedure, hp, hq, hn⟩ := h
  obtain ⟨t, k, ht, hn⟩ := Stmt.exists_occurs_of_firstOf hn
  exact ⟨t, k, ⟨procedure, hp, hq, ht⟩, hn⟩

/-- It is left at one of its own statements. -/
theorem Exit.mem (h : p.Exit q n) : p.In q n := by
  obtain ⟨s, k, hs, hn, -⟩ := h
  exact ⟨s, k, hs, hn⟩

/-- A call is a statement of some procedure. -/
theorem CallOf.mem (h : p.CallOf callee n) : ∃ q, p.In q n := by
  obtain ⟨q, k, h⟩ := h
  exact ⟨q, _, k, h, rfl⟩

/-- Control stays in a procedure until it leaves it. -/
theorem Next.exists_in (h : p.Next n m) : ∃ q, p.In q n ∧ p.In q m := by
  obtain ⟨q, s, k, ⟨procedure, hp, hq, hs⟩, hn, hgoes⟩ := h
  refine ⟨q, ⟨s, k, ⟨procedure, hp, hq, hs⟩, hn⟩, ?_⟩
  rcases hs.goes hgoes with h | ⟨t, k', ht, h⟩
  · cases h
  · exact ⟨t, k', ⟨procedure, hp, hq, ht⟩, (Option.some.inj h).symm⟩

/-- What occurs in a statement of a procedure is in the procedure. -/
theorem Has.inside {t : Stmt} {k' : Option Nat} (h : p.Has q s k) (ht : Stmt.Occurs k [s] t k') :
    p.Has q t k' := by
  obtain ⟨procedure, hp, hq, hs⟩ := h
  exact ⟨procedure, hp, hq, hs.inside ht⟩

/-- A procedure with a call in it calls. -/
theorem calls_of_has (h : p.Has q (.call n callee) k) : p.Calls q callee := by
  obtain ⟨procedure, hp, hq, h⟩ := h
  exact ⟨procedure, hp, hq, h.mem_calleesOf (by simp [Stmt.callees])⟩

/-! ## The sites of a program's tree -/

/-- **The sites of a program are those of its statements.** -/
theorem mem_sites {x : Site} :
    x ∈ p.toTree.sites ↔ ∃ q s k, p.Has q s k ∧ x = s.site q k := by
  have hprocedure : ∀ procedure : Procedure, x ∈ Site.ofList procedure.name none
      (.statementList (Stmt.toTrees procedure.body)) ↔
        ∃ s k, Stmt.Occurs none procedure.body s k ∧ x = s.site procedure.name k :=
    fun procedure => Stmt.mem_ofStatements none procedure.body
  show x ∈ (p.procedures.map Procedure.toTree).flatMap _ ↔ _
  rw [List.flatMap_map, List.mem_flatMap]
  constructor
  · rintro ⟨procedure, hp, hx⟩
    obtain ⟨s, k, hs, rfl⟩ := (hprocedure procedure).1 hx
    exact ⟨procedure.name, s, k, ⟨procedure, hp, rfl, hs⟩, rfl⟩
  · rintro ⟨q, s, k, ⟨procedure, hp, rfl, hs⟩, rfl⟩
    exact ⟨procedure, hp, (hprocedure procedure).2 ⟨s, k, hs, rfl⟩⟩

/-- They have the numbers of the program, in order. -/
theorem numbers_sites : p.toTree.sites.map Site.number = p.numbers := by
  show ((p.procedures.map Procedure.toTree).flatMap _).map _ = _
  rw [List.flatMap_map, List.map_flatMap]
  exact List.flatMap_congr fun procedure _ =>
    Stmt.numbers_ofStatements procedure.name none procedure.body

/-! ## The flow of a program's tree

What is said last of a number or a name is kept, so this is where it counts that each of them
occurs once. -/

namespace Consistent

/-- In a consistent program no two sites have the same number. -/
theorem nodup_sites (hp : p.Consistent) : (p.toTree.sites.map Site.number).Nodup := by
  rw [numbers_sites, hp.numbered]
  exact List.nodup_range'

theorem site_inj (hp : p.Consistent) {x y : Site} (hx : x ∈ p.toTree.sites)
    (hy : y ∈ p.toTree.sites) (hxy : x.number = y.number) : x = y :=
  List.inj_on_of_nodup_map hp.nodup_sites hx hy hxy

/-- A number is in one procedure only. -/
theorem in_unique (hp : p.Consistent) (h : p.In q n) (h' : p.In q' n) : q = q' := by
  obtain ⟨s, k, hs, hn⟩ := h
  obtain ⟨s', k', hs', hn'⟩ := h'
  have hsite := hp.site_inj (mem_sites.2 ⟨q, s, k, hs, rfl⟩) (mem_sites.2 ⟨q', s', k', hs', rfl⟩)
    (hn.trans hn'.symm)
  exact congrArg Site.procedure hsite

end Consistent

/-- The flow that is computed from the tree. -/
def flow (p : Program) : Flow := Flow.ofTree p.toTree

/-- The flow has the statements of all procedures. -/
theorem mem_statements : n ∈ p.flow.statements ↔ ∃ q, p.In q n := by
  refine Digraph.mem_nodes_ofRows.trans ?_
  simp only [List.mem_map, exists_exists_and_eq_and]
  constructor
  · rintro ⟨x, hx, hn⟩
    obtain ⟨q, s, k, hs, rfl⟩ := mem_sites.1 hx
    exact ⟨q, s, k, hs, hn⟩
  · rintro ⟨q, s, k, hs, hn⟩
    exact ⟨_, mem_sites.2 ⟨q, s, k, hs, rfl⟩, hn⟩

/-- **The flow goes on where control goes on** inside a procedure. -/
theorem mem_next : m ∈ p.flow.next n ↔ p.Next n m := by
  have hnext : ∀ x : Site, m ∈ x.next ↔ some m ∈ x.targets := fun x => by simp [Site.next]
  refine Digraph.mem_next_ofRows.trans ?_
  simp only [List.mem_map, exists_exists_and_eq_and, hnext]
  constructor
  · rintro ⟨x, hx, hn, hm⟩
    obtain ⟨q, s, k, hs, rfl⟩ := mem_sites.1 hx
    exact ⟨q, s, k, hs, hn, Stmt.mem_targets_site.1 hm⟩
  · rintro ⟨q, s, k, hs, hn, hm⟩
    exact ⟨_, mem_sites.2 ⟨q, s, k, hs, rfl⟩, hn, Stmt.mem_targets_site.2 hm⟩

/-- The exits are collected site by site. -/
theorem mem_exitsOf {sites : List Site} : n ∈ (Flow.exitsOf sites).getD q ∅ ↔
    ∃ x ∈ sites, x.procedure = q ∧ x.number = n ∧ none ∈ x.targets := by
  have hfold : ∀ (sites : List Site) (exits : Std.ExtTreeMap String (Std.ExtTreeSet Nat)),
      n ∈ (sites.foldl (fun exits s => exits.insert s.procedure
        ((exits.getD s.procedure ∅).insert s.number)) exits).getD q ∅ ↔
      (∃ x ∈ sites, x.procedure = q ∧ x.number = n) ∨ n ∈ exits.getD q ∅ := by
    intro sites
    induction sites with
    | nil => simp
    | cons x sites ih =>
      intro exits
      have hinsert : n ∈ (exits.insert x.procedure
          ((exits.getD x.procedure ∅).insert x.number)).getD q ∅ ↔
          (x.procedure = q ∧ x.number = n) ∨ n ∈ exits.getD q ∅ := by
        rw [Std.ExtTreeMap.getD_insert]
        split
        · next h =>
          obtain rfl := Std.LawfulEqCmp.compare_eq_iff_eq.1 h
          rw [Std.ExtTreeSet.mem_insert, Std.LawfulEqCmp.compare_eq_iff_eq, and_iff_right rfl]
        · next h =>
          rw [or_iff_right fun hx => h (Std.LawfulEqCmp.compare_eq_iff_eq.2 hx.1)]
      rw [List.foldl_cons, ih, hinsert, List.exists_mem_cons_iff, or_left_comm, or_assoc]
  rw [Flow.exitsOf, hfold, Std.ExtTreeMap.getD_empty, or_iff_left Std.ExtTreeSet.not_mem_empty]
  simp only [List.mem_filter, Site.leaves, List.contains_iff_mem]
  exact exists_congr fun x => by tauto

/-- The exits of a procedure are where control leaves it. -/
theorem mem_exitsFrom : n ∈ p.flow.exitsFrom q ↔ p.Exit q n := by
  refine mem_exitsOf.trans ?_
  constructor
  · rintro ⟨x, hx, hq, hn, hleaves⟩
    obtain ⟨q, s, k, hs, rfl⟩ := mem_sites.1 hx
    obtain rfl := hq
    exact ⟨s, k, hs, hn, Stmt.mem_targets_site.1 hleaves⟩
  · rintro ⟨s, k, hs, hn, hleaves⟩
    exact ⟨_, mem_sites.2 ⟨q, s, k, hs, rfl⟩, rfl, hn, Stmt.mem_targets_site.2 hleaves⟩

namespace Consistent

variable (hp : p.Consistent)
include hp

/-- The flow knows the procedure of each statement. -/
theorem procedureOf_iff : p.flow.procedureOf[n]? = some q ↔ p.In q n := by
  have hkeys : ((p.toTree.sites.map fun x => (x.number, x.procedure)).map Prod.fst).Nodup := by
    rw [List.map_map]
    exact hp.nodup_sites
  refine (Ordered.getElem?_ofList hkeys).trans ?_
  rw [List.mem_map]
  constructor
  · rintro ⟨x, hx, heq⟩
    obtain ⟨q, s, k, hs, rfl⟩ := mem_sites.1 hx
    cases heq
    exact ⟨s, k, hs, rfl⟩
  · rintro ⟨s, k, hs, rfl⟩
    exact ⟨_, mem_sites.2 ⟨q, s, k, hs, rfl⟩, rfl⟩

/-- It knows what a call calls. -/
theorem callee_iff : p.flow.callee[n]? = some callee ↔ p.CallOf callee n := by
  refine (Ordered.getElem?_ofList_filterMap hp.nodup_sites).trans ?_
  constructor
  · rintro ⟨x, hx, hn, hcallee⟩
    obtain ⟨q, s, k, hs, rfl⟩ := mem_sites.1 hx
    cases s with
    | call =>
      cases hn
      cases hcallee
      exact ⟨q, k, hs⟩
    | _ => cases hcallee
  · rintro ⟨q, k, hs⟩
    exact ⟨_, mem_sites.2 ⟨q, _, k, hs, rfl⟩, rfl, rfl⟩

/-- It knows where a procedure is entered. -/
theorem first_iff : p.flow.first[q]? = some n ↔ p.Entry q n := by
  have hfirst : p.flow.first = .ofList (p.procedures.filterMap fun procedure =>
      (Stmt.firstOf procedure.body).map (procedure.name, ·)) := by
    refine congrArg (Std.ExtTreeMap.ofList · compare) ?_
    show (p.procedures.map Procedure.toTree).filterMap _ = _
    rw [List.filterMap_map]
    refine List.filterMap_congr fun procedure _ => ?_
    exact congrArg (Option.map _) (Stmt.firstOf_toTrees procedure.body)
  rw [hfirst, Ordered.getElem?_ofList_filterMap hp.nodup]
  rfl

theorem left?_iff : p.flow.left? n = some q ↔ p.Exit q n := by
  rw [Flow.left?, Option.filter_eq_some_iff, hp.procedureOf_iff, Std.ExtTreeSet.contains_iff_mem,
    mem_exitsFrom]
  exact and_iff_right_of_imp Exit.mem

/-- It knows the calls of each procedure. -/
theorem mem_callers : n ∈ p.flow.callers q ↔ p.CallOf q n := by
  rw [Flow.callers, List.mem_filterMap, ← hp.callee_iff]
  constructor
  · rintro ⟨⟨n', callee⟩, hmem, heq⟩
    rw [Std.ExtTreeMap.mem_toList_iff_getElem?_eq_some] at hmem
    simp only [Option.ite_none_right_eq_some, Option.some.injEq] at heq
    obtain ⟨rfl, rfl⟩ := heq
    exact hmem
  · intro h
    exact ⟨(n, q), Std.ExtTreeMap.mem_toList_iff_getElem?_eq_some.2 h, by simp⟩

/-- **A call goes to where the called procedure is entered.** -/
theorem entered?_iff : p.flow.entered? n = some m ↔ ∃ q, p.CallOf q n ∧ p.Entry q m := by
  rw [Flow.entered?, Option.bind_eq_some_iff]
  simp only [hp.callee_iff, hp.first_iff]

end Consistent

end Program

end ProgramFacts
