import ProgramFacts.Proofs.Survey
/-!
# Surveys — where statements are placed

A survey finds the lists that statements stand in and the statements that they are in. Every
visited statement stands in one list, once (`Survey.Placed.listed`), and what is directly around a
visited statement has been visited itself, with everything that is around it
(`Survey.Placed.rooted`). To visit a procedure keeps this, in whatever order the procedures are
visited (`Survey.Placed.visit`); hence it is so in every survey of a program (`placed_ofTree`).
-/

namespace ProgramFacts

/-! ## Lists of statements -/

namespace Stmt

theorem numbers_toTrees (ss : List Stmt) :
    (Tree.statementList (toTrees ss)).numbers = ss.map number := by
  show (toTrees ss).filterMap Tree.number = _
  induction ss with
  | nil => rfl
  | cons s ss ih => cases s <;> simp [toTrees, toTree, Tree.leaf, ih, number]

/-- The numbers of the statements that stand in the lists of a loop or a branching. -/
def listed (s : Stmt) : List Nat :=
  s.toTree.branches.flatMap Tree.numbers

/-- A loop lists the statements of its body. -/
theorem listed_while (n : Nat) (c : Condition) (body : List Stmt) :
    (Stmt.whileLoop n c body).listed = body.map number := by
  rw [← numbers_toTrees]
  simp [listed, toTree, Tree.branches]

/-- A branching lists those of both branches. -/
theorem listed_if (n : Nat) (c : Condition) (thenBody elseBody : List Stmt) :
    (Stmt.ifElse n c thenBody elseBody).listed = thenBody.map number ++ elseBody.map number := by
  rw [← numbers_toTrees, ← numbers_toTrees]
  simp [listed, toTree, Tree.branches]

mutual

/-- A statement that stands in a list, and the lists inside it, have the numbers of the statement
and of what is inside it. -/
theorem count_listed (x : Nat) (s : Stmt) :
    [s.number].count x + (s.preorder.flatMap listed).count x = s.numbers.count x := by
  match s with
  | .assign .. | .read .. | .print .. | .call .. => rfl
  | .whileLoop n c body =>
    have hbody := count_listedOf x body
    simp only [preorder, numbers, number, List.flatMap_cons, listed_while, List.count_append,
      List.count_cons, List.count_nil]
    omega
  | .ifElse n c thenBody elseBody =>
    have hthen := count_listedOf x thenBody
    have helse := count_listedOf x elseBody
    simp only [preorder, numbers, number, List.flatMap_cons, List.flatMap_append, listed_if,
      List.count_append, List.count_cons, List.count_nil]
    omega

/-- A list, and the lists inside it, have the numbers of all statements in it. -/
theorem count_listedOf (x : Nat) (ss : List Stmt) :
    (ss.map number).count x + ((preorderOf ss).flatMap listed).count x =
      (numbersOf ss).count x := by
  match ss with
  | [] => rfl
  | s :: ss =>
    have hs := count_listed x s
    have hss := count_listedOf x ss
    simp only [preorderOf, numbersOf, List.map_cons, List.flatMap_append, List.count_append,
      List.count_cons, List.count_nil] at hs ⊢
    omega

end

end Stmt

/-! ## What is around a statement -/

namespace Visit

variable {ancestors : List Nat} {visits visits' : List Visit}

/-- What is directly around a visited statement is what the visits started in, or is a loop or a
branching that has been visited itself: there, with what is further around the statement. -/
def Rooted (ancestors : List Nat) (visits : List Visit) : Prop :=
  ∀ v ∈ visits, ∀ above a, v.ancestors = above ++ [a] →
    above ++ [a] = ancestors ∨ ∃ w ∈ visits, w.number = a ∧ w.ancestors = above ∧
      w.statement.kind ∈ [.whileLoop, .ifElse]

/-- Visits that are rooted in the same stay so together. -/
theorem Rooted.append (h : Rooted ancestors visits) (h' : Rooted ancestors visits') :
    Rooted ancestors (visits ++ visits') := by
  intro v hv above a habove
  rcases List.mem_append.1 hv with hv | hv
  · refine (h v hv above a habove).imp_right fun ⟨w, hw, hplace⟩ => ?_
    exact ⟨w, List.mem_append_left _ hw, hplace⟩
  · refine (h' v hv above a habove).imp_right fun ⟨w, hw, hplace⟩ => ?_
    exact ⟨w, List.mem_append_right _ hw, hplace⟩

/-- The statements inside a visited loop or branching are rooted in it. -/
theorem Rooted.inside {n : Nat} {t : Tree} (h : Rooted (ancestors ++ [n]) visits)
    (ht : t.kind ∈ [.whileLoop, .ifElse]) : Rooted ancestors (⟨ancestors, n, t⟩ :: visits) := by
  intro v hv above a habove
  rcases List.mem_cons.1 hv with rfl | hv
  · exact .inl habove.symm
  · refine .inr ?_
    rcases h v hv above a habove with heq | ⟨w, hw, hplace⟩
    · obtain ⟨rfl, hlast⟩ := List.append_inj' heq rfl
      obtain rfl := List.singleton_inj.1 hlast
      exact ⟨_, List.mem_cons_self, rfl, rfl, ht⟩
    · exact ⟨w, List.mem_cons_of_mem _ hw, hplace⟩

theorem rooted_nil : Rooted ancestors [] := by
  intro v hv
  cases hv

theorem rooted_singleton {n : Nat} {t : Tree} : Rooted ancestors [⟨ancestors, n, t⟩] := by
  intro v hv above a habove
  obtain rfl := List.mem_singleton.1 hv
  exact .inl habove.symm

end Visit

namespace Stmt

open Visit (Rooted rooted_nil rooted_singleton)

mutual

/-- **The visits of a statement are rooted in what is around it.** -/
theorem rooted_ofStatement (ancestors : List Nat) (s : Stmt) :
    Rooted ancestors (Visit.ofStatement ancestors s.toTree) := by
  match s with
  | .assign .. | .read .. | .print .. | .call .. => exact rooted_singleton
  | .whileLoop n c body =>
    have hbody := rooted_ofStatements (ancestors ++ [n]) body
    exact (hbody.append rooted_nil).inside (by simp)
  | .ifElse n c thenBody elseBody =>
    have hthen := rooted_ofStatements (ancestors ++ [n]) thenBody
    have helse := rooted_ofStatements (ancestors ++ [n]) elseBody
    exact (hthen.append (helse.append rooted_nil)).inside (by simp)

/-- And so are those of a list. -/
theorem rooted_ofStatements (ancestors : List Nat) (ss : List Stmt) :
    Rooted ancestors (Visit.ofStatements ancestors (toTrees ss)) := by
  match ss with
  | [] => exact rooted_nil
  | s :: ss => exact (rooted_ofStatement ancestors s).append (rooted_ofStatements ancestors ss)

end

end Stmt

/-! ## Surveys -/

namespace Survey

/-- **How a survey has placed what it visited.** -/
structure Placed (s : Survey) : Prop where
  /-- The lists have every visited statement once. -/
  listed : (s.lists.flatMap Tree.numbers).Perm (s.findings.map (·.number))
  /-- What is around a visited statement has been visited. -/
  rooted : Visit.Rooted [] (s.findings.map Finding.toVisit)

variable {s : Survey} {procedure : Procedure}

/-- To visit a procedure adds the list of its body, and those of its loops and branchings. -/
theorem lists_visit : (s.visit procedure.name procedure.toTree).lists =
    s.lists ++ [.statementList (Stmt.toTrees procedure.body)] ++
      procedure.visits.flatMap (·.statement.branches) := by
  simp only [visit, Program.flatMap_ofList]
  simp [Procedure.toTree, Tree.leaf]

/-- The lists of a procedure have the numbers of its statements. -/
theorem perm_listed (procedure : Procedure) :
    ((Tree.statementList (Stmt.toTrees procedure.body)).numbers ++
        (procedure.visits.flatMap (·.statement.branches)).flatMap Tree.numbers).Perm
      (procedure.visits.map (·.number)) := by
  have hbranches : (procedure.visits.flatMap (·.statement.branches)).flatMap Tree.numbers =
      (Stmt.preorderOf procedure.body).flatMap Stmt.listed := by
    have hpairs := congrArg (List.flatMap fun x => x.2.branches.flatMap Tree.numbers)
      (Program.map_visits procedure)
    rw [List.flatMap_map, List.flatMap_map] at hpairs
    rw [List.flatMap_assoc]
    exact hpairs
  have hnumbers : procedure.visits.map (·.number) = Stmt.numbersOf procedure.body := by
    have hpairs := congrArg (List.map Prod.fst) (Program.map_visits procedure)
    rw [List.map_map, List.map_map] at hpairs
    rw [← Stmt.map_number_preorderOf]
    exact hpairs
  rw [hbranches, hnumbers, Stmt.numbers_toTrees, List.perm_iff_count]
  intro x
  rw [List.count_append]
  exact Stmt.count_listedOf x procedure.body

/-- **To visit a procedure places its statements.** -/
theorem Placed.visit (hs : s.Placed) : (s.visit procedure.name procedure.toTree).Placed where
  listed := by
    rw [lists_visit, Program.findings_visit, List.map_append, List.map_map, List.append_assoc,
      List.flatMap_append, List.flatMap_append, List.flatMap_singleton]
    exact hs.listed.append (perm_listed procedure)
  rooted := by
    have hvisits : Visit.Rooted [] procedure.visits := Stmt.rooted_ofStatements [] procedure.body
    rw [Program.findings_visit, List.map_append, List.map_map]
    exact hs.rooted.append (by simpa [Function.comp_def] using hvisits)

/-- What is directly around a visited statement is a loop or a branching, and is found where the
statement is found to be. -/
theorem Placed.exists_around (hs : s.Placed) {f : Finding} (hf : f ∈ s.findings)
    {above : List Nat} {a : Nat} (habove : f.ancestors = above ++ [a]) :
    ∃ g ∈ s.findings, g.number = a ∧ g.ancestors = above ∧
      g.statement.kind ∈ [.whileLoop, .ifElse] := by
  rcases hs.rooted f.toVisit (List.mem_map_of_mem hf) above a habove with hnil | ⟨w, hw, hplace⟩
  · simp at hnil
  · obtain ⟨g, hg, rfl⟩ := List.mem_map.1 hw
    exact ⟨g, hg, hplace⟩

end Survey

/-- **Every survey of a program has placed what it visited.** -/
theorem Program.placed_ofTree {p : Program} (hp : p.Consistent) (order : List String) :
    (Survey.ofTree p.toTree order).Placed := by
  induction order with
  | nil => exact ⟨.refl _, Visit.rooted_nil⟩
  | cons name rest ih =>
    rw [Survey.ofTree, List.foldr_cons]
    split
    · next tree htree =>
      obtain ⟨procedure, -, rfl, rfl⟩ := hp.namedProcedures_iff.1 htree
      exact ih.visit
    · exact ih

end ProgramFacts
