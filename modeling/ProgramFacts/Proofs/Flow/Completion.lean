import ProgramFacts.Proofs.FactBase.Extraction
import ProgramFacts.Proofs.Flow.Walk
import ProgramFacts.Proofs.Program.Coverage
/-!
# Control flow across procedures — calls come to an end

From every statement control can get past the statement: a loop may be done with, a branch
ends, and a called procedure is left again. So whatever comes after a call is met on a walk
that enters the call (`transGen_of_call`). The walk meets only what the called procedure covers,
so it gets through even if it has to stop at some statements, as long as the procedure covers
none of them (`transGen_passes_of_call`). The induction is on the calls, which do not form a
circle, and within a procedure on its statements.
-/

namespace ProgramFacts

namespace Program

open ProgramFacts.Flow (State)

variable {p : Program} {q : String} {n m : Nat} {k dest : Option Nat} {s : Stmt}
  {stack : List Nat} {t : State} {stop : Nat → Bool}

/-- Where control goes on in the procedure `q`: at a statement, or by leaving the procedure. -/
def GoesOn (p : Program) (q : String) : Option Nat → List Nat → State → Prop
  | some m, stack, t => t = ⟨m, stack⟩
  | none, [], t => ∃ call, p.CallOf q call ∧ p.Resumes call [] t
  | none, call :: stack, t => p.Resumes call stack t

/-- A statement is done where control goes from it. -/
theorem resumes_of_goes (hs : p.Has q s k) (hgoes : s.Goes k dest) (h : p.GoesOn q dest stack t) :
    p.Resumes s.number stack t := by
  cases dest with
  | some m =>
    obtain rfl : t = ⟨m, stack⟩ := h
    exact .next ⟨q, s, k, hs, rfl, hgoes⟩
  | none =>
    have hexit : p.Exit q s.number := ⟨s, k, hs, rfl, hgoes⟩
    cases stack with
    | nil =>
      obtain ⟨call, hcall, h⟩ := h
      exact .out hexit hcall h
    | cons call stack => exact .back hexit h

theorem not_callOf (hp : p.Consistent) (hs : p.Has q s k) (hkind : s.toTree.kind ≠ .call)
    (callee : String) : ¬ p.CallOf callee s.number := by
  rintro ⟨q', k', h⟩
  have hsite := hp.site_inj (mem_sites.2 ⟨q, s, k, hs, rfl⟩) (mem_sites.2 ⟨q', _, k', h, rfl⟩) rfl
  exact hkind (congrArg (fun x => x.statement.kind) hsite)

/-- What comes after a statement that is no call comes after one step. -/
theorem transGen_of_done (hp : p.Consistent) (hs : p.Has q s k) (hkind : s.toTree.kind ≠ .call)
    (hstop : stop s.number = false) (hgoes : s.Goes k dest) (h : p.GoesOn q dest stack t) :
    Relation.TransGen (p.Passes stop) ⟨s.number, stack⟩ t :=
  .single ⟨hstop, .resume (not_callOf hp hs hkind) (resumes_of_goes hs hgoes h)⟩

/-- A walk does not have to stop at anything that a procedure covers. -/
def Clear (p : Program) (stop : Nat → Bool) (q : String) : Prop :=
  ∀ u, p.CoversIn q u → stop u.number = false

/-- The calls of a procedure can be got past, unless the walk has to stop at them or at something
that the procedure covers. -/
def Completes (p : Program) (stop : Nat → Bool) (q : String) : Prop :=
  p.Clear stop q → ∀ n stack t, p.CallOf q n → stop n = false → p.Resumes n stack t →
    Relation.TransGen (p.Passes stop) ⟨n, stack⟩ t

mutual

/-- Control can get past a statement. -/
theorem transGen_of_stmt {k : Option Nat} {stack : List Nat} {t : State} (hp : p.Consistent)
    (hcalls : ∀ callee, p.Calls q callee → p.Completes stop callee) (s : Stmt) (hs : p.Has q s k)
    (hprintable : s.Printable) (hstop : ∀ u, p.Covers s u → stop u.number = false)
    (h : p.GoesOn q k stack t) : Relation.TransGen (p.Passes stop) ⟨s.number, stack⟩ t := by
  match s with
  | .assign .. | .read .. | .print .. | .whileLoop .. =>
    -- a loop is done with, without entering it
    exact transGen_of_done hp hs (by simp [Stmt.toTree]) (hstop _ .self) (.done rfl) h
  | .call n callee =>
    have hclear : p.Clear stop callee := fun u hu => hstop u (.of_coversIn hu)
    exact hcalls callee (calls_of_has hs) hclear n stack t ⟨q, k, hs⟩ (hstop _ .self)
      (resumes_of_goes hs (.done rfl) h)
  | .ifElse n c thenBody elseBody =>
    -- either branch would do
    obtain ⟨-, ⟨hthen, hne⟩, -⟩ := hprintable
    obtain ⟨m, hm⟩ := Stmt.exists_firstOf hne
    have hin : ∀ s k', Stmt.Occurs k thenBody s k' → p.Has q s k' :=
      fun s k' hs' => hs.inside (.thenBranch hs')
    have henter : Relation.TransGen (p.Passes stop) ⟨n, stack⟩ ⟨m, stack⟩ :=
      transGen_of_done hp hs (by simp [Stmt.toTree]) (hstop _ .self) (.thenBranch hm) rfl
    have hbranch : ∀ s ∈ thenBody, ∀ u, p.Covers s u → stop u.number = false :=
      fun s hs u hu => hstop u (.thenBranch hs hu)
    exact henter.trans (transGen_of_list hp hcalls thenBody hin hthen hbranch hm h)

/-- Control can get past a list of statements. -/
theorem transGen_of_list {k : Option Nat} {n : Nat} {stack : List Nat} {t : State}
    (hp : p.Consistent) (hcalls : ∀ callee, p.Calls q callee → p.Completes stop callee)
    (ss : List Stmt) (hin : ∀ s k', Stmt.Occurs k ss s k' → p.Has q s k')
    (hprintable : Stmt.PrintableAll ss)
    (hstop : ∀ s ∈ ss, ∀ u, p.Covers s u → stop u.number = false)
    (hn : Stmt.firstOf ss = some n) (h : p.GoesOn q k stack t) :
    Relation.TransGen (p.Passes stop) ⟨n, stack⟩ t := by
  match ss with
  | [] => cases hn
  | s :: rest =>
    cases hn
    have hs := hin s _ .head
    obtain ⟨hhead, htail⟩ := List.forall_mem_cons.1 hstop
    cases hrest : Stmt.firstOf rest with
    | none =>
      -- the last statement is followed by what follows the list
      rw [hrest] at hs
      exact transGen_of_stmt hp hcalls s hs hprintable.1 hhead h
    | some m =>
      rw [hrest] at hs
      have hnext : Relation.TransGen (p.Passes stop) ⟨s.number, stack⟩ ⟨m, stack⟩ :=
        transGen_of_stmt hp hcalls s hs hprintable.1 hhead rfl
      exact hnext.trans (transGen_of_list hp hcalls rest (fun s k' hs => hin s k' (.tail hs))
        hprintable.2 htail hrest h)

end

/-- **Control can get past a call without stopping**, by way of the procedure that is called, if
the procedure covers nothing to stop at. -/
theorem transGen_passes_of_call (hp : p.WellFormed) (hcall : p.CallOf q n)
    (hclear : p.Clear stop q) (hstop : stop n = false) (h : p.Resumes n stack t) :
    Relation.TransGen (p.Passes stop) ⟨n, stack⟩ t := by
  refine calls_induction hp.toConsistent (P := p.Completes stop) ?_ q hclear n stack t hcall hstop h
  intro q hcalls hclear n stack t hcall hstop h
  obtain ⟨m, hentry⟩ := hcall.exists_entry hp
  -- inside the procedure `n` is the last open call, so to leave it is to go on after `n`
  refine .head ⟨hstop, .enter hcall hentry⟩ ?_
  obtain ⟨procedure, hprocedure, hq, hm⟩ := hentry
  obtain ⟨-, hprintable, -⟩ := hp.printable procedure hprocedure
  have hbody : ∀ s ∈ procedure.body, ∀ u, p.Covers s u → stop u.number = false :=
    fun s hs u hu => hclear u ⟨procedure, hprocedure, hq, s, hs, hu⟩
  exact transGen_of_list hp.toConsistent hcalls procedure.body
    (fun s k hs => ⟨procedure, hprocedure, hq, hs⟩) hprintable hbody hm h

/-- **Control can get past every call.** -/
theorem transGen_of_call (hp : p.WellFormed) (hcall : p.CallOf q n) (h : p.Resumes n stack t) :
    Relation.TransGen p.Walks ⟨n, stack⟩ t := by
  have hclear : p.Clear (fun _ => false) q := fun _ _ => rfl
  exact Relation.TransGen.mono (fun _ _ hstep => hstep.2) _ _
    (transGen_passes_of_call hp hcall hclear rfl h)

/-- **What is next within a procedure is come to across procedures**, with the same calls open. A
call is got past by way of the procedure that it calls. -/
theorem transGen_passes_of_next (hp : p.WellFormed) (hstop : stop n = false)
    (hclear : ∀ callee, p.CallOf callee n → p.Clear stop callee) (h : p.Next n m) :
    Relation.TransGen (p.Passes stop) ⟨n, stack⟩ ⟨m, stack⟩ := by
  by_cases hcall : ∃ callee, p.CallOf callee n
  · obtain ⟨callee, hcall⟩ := hcall
    exact transGen_passes_of_call hp hcall (hclear callee hcall) hstop (.next h)
  · exact .single ⟨hstop, .resume (not_exists.1 hcall) (.next h)⟩

end Program

end ProgramFacts
