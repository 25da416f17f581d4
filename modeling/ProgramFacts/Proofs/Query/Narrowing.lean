import ProgramFacts.Proofs.Query.Candidates
/-!
# Queries — clause by clause

The tables that clauses leave behind hold, taken together, of exactly the valuations
that satisfy the clauses (`narrow_tells`). The step is `verdict_tells`: the verdict on a
clause is right about the valuations that the tables so far hold of. Neither fails to
come about if every call, read and print is recorded.
-/

namespace ProgramFacts

/-! ## Values of attributes -/

namespace FactBase

variable {kb : FactBase}

/-- The elements of a sort of statements. -/
theorem mem_entities {e : Entity} (he : e.isStatement) {a : Element} :
    a ∈ kb.entities e ↔
      ∃ n kind, a = .stmt n ∧ kb.statements[n]? = some kind ∧ e.admits kind := by
  have hentities : kb.entities e =
      (kb.statements.toList.filter (e.admits ·.2)).map (.stmt ·.1) := by
    cases e <;> first | rfl | cases he
  rw [hentities]
  simp only [List.mem_map, List.mem_filter, Prod.exists,
    Std.ExtTreeMap.mem_toList_iff_getElem?_eq_some]
  constructor
  · rintro ⟨n, kind, ⟨hn, hkind⟩, rfl⟩
    exact ⟨n, kind, rfl, hn, hkind⟩
  · rintro ⟨n, kind, rfl, hn, hkind⟩
    exact ⟨n, kind, ⟨hn, hkind⟩, rfl⟩

/-- A name is recorded of every statement of a kind. -/
theorem recorded_ok {e : Entity} {kind : StatementKind} {record : Record} {a : Element}
    (he : e.isStatement) (hadmits : ∀ kind', e.admits kind' → kind' = kind)
    (hrecord : ∀ n, kb.statements[n]? = some kind → (kb.record? record n).isSome)
    (ha : a ∈ kb.entities e) : ∃ value, kb.recorded record a = .ok value := by
  obtain ⟨n, kind', rfl, hn, hkind⟩ := (mem_entities he).1 ha
  obtain rfl := hadmits kind' hkind
  obtain ⟨text, htext⟩ := Option.isSome_iff_exists.1 (hrecord n hn)
  exact ⟨.name text, by simp only [recorded, htext]⟩

/-- **Elements have values** under every attribute. -/
theorem Recorded.attributeValue_ok (hkb : kb.Recorded) {e : Entity} {a : Element}
    (ha : a ∈ kb.entities e) (attr : Option Attribute) :
    ∃ value, kb.attributeValue e attr a = .ok value := by
  unfold attributeValue
  split
  · exact recorded_ok rfl (by simp [Entity.admits]) hkb.call ha
  · exact recorded_ok rfl (by simp [Entity.admits]) hkb.read ha
  · exact recorded_ok rfl (by simp [Entity.admits]) hkb.print ha
  · exact ⟨_, rfl⟩
  · exact ⟨_, rfl⟩

/-- A relation that holds of something is not empty. -/
theorem relationSize_ne_zero {relation : Relation} {a b : Element}
    (hab : kb.holds relation a b) : kb.relationSize relation ≠ 0 := by
  unfold relationSize
  rw [Ne, List.countP_eq_zero]
  intro hnone
  exact hnone ⟨relation, a, b⟩ (Std.ExtTreeSet.mem_toList.2 hab) (by simp)

end FactBase

/-! ## What checked clauses are like -/

namespace Clause

/-- What passes the check is matched with a wildcard or an expression. -/
theorem check_pattern {statement : Synonym} {left right : Argument}
    (h : (Clause.pattern statement left right).check = .ok ()) :
    right = .wildcard ∨ ∃ p, right = .expr p := by
  simp only [check] at h
  split at h
  · cases h
  · split at h
    · next hfits =>
      simp only [Bool.and_eq_true] at hfits
      cases right <;> simp_all [isPatternExpression]
    · cases h

/-- In a comparison that passes the check each side is a name or a number. -/
theorem check_equal {left right : Comparand} (h : (Clause.equal left right).check = .ok ()) :
    (∃ b, comparesName left = .ok b) ∧ ∃ b, comparesName right = .ok b := by
  simp only [check] at h
  cases hl : comparesName left with
  | error => simp [hl, bind, Except.bind] at h
  | ok b =>
    cases hr : comparesName right with
    | error => simp [hl, hr, bind, Except.bind] at h
    | ok b' => exact ⟨⟨b, rfl⟩, b', rfl⟩

end Clause

namespace Query

variable {kb : FactBase} {σ : String → Entity} {ρ : Valuation} {db : List Table}

/-- **Every element that a side ranges over has a value to compare.** -/
theorem comparedValue_ok (hkb : kb.Recorded) {c : Comparand} {a : Element}
    (ha : Argument.Ranges kb none c.argument a) : ∃ value, comparedValue kb c a = .ok value := by
  unfold comparedValue
  split
  · next s hs => exact hkb.attributeValue_ok (ha.1 s hs) c.attr
  · exact ⟨a, rfl⟩

/-- A side that can be compared has a value under every valuation. -/
theorem exists_comparedValue (hkb : kb.Recorded) {c : Comparand} {b : Bool}
    (hc : Clause.comparesName c = .ok b) (hρ : Admits kb ρ c.argument.synonym?.toList) :
    ∃ a value, c.argument.Takes kb ρ none a ∧ comparedValue kb c a = .ok value := by
  rcases hargument : c.argument with s | text | n | _ | p
  · have hs : ρ s.name ∈ kb.entities s.entity := hρ s (by simp [hargument, Argument.synonym?])
    obtain ⟨value, hvalue⟩ := hkb.attributeValue_ok hs c.attr
    exact ⟨_, value, rfl, by simp [comparedValue, hargument, hvalue]⟩
  · exact ⟨.name text, .name text, rfl, by simp only [comparedValue, hargument]⟩
  · exact ⟨.stmt n, .stmt n, rfl, by simp only [comparedValue, hargument]⟩
  · cases hattr : c.attr <;> simp [Clause.comparesName, hargument, hattr] at hc
  · cases hattr : c.attr <;> simp [Clause.comparesName, hargument, hattr] at hc

/-- So no pair fails to be compared. -/
theorem equalPairs_ok {left right : Comparand} {pairs : List (Element × Element)}
    (hpairs : ∀ a b, (a, b) ∈ pairs →
      (∃ x, comparedValue kb left a = .ok x) ∧ ∃ y, comparedValue kb right b = .ok y) :
    ∃ kept, equalPairs kb left right pairs = .ok kept ∧ ∀ a b, (a, b) ∈ kept ↔
      (a, b) ∈ pairs ∧ ∃ x, comparedValue kb left a = .ok x ∧ comparedValue kb right b = .ok x := by
  induction pairs with
  | nil => exact ⟨[], rfl, by simp⟩
  | cons p pairs ih =>
    obtain ⟨a, b⟩ := p
    obtain ⟨⟨x, hx⟩, y, hy⟩ := hpairs a b (by simp)
    obtain ⟨kept, hkept, hmem⟩ := ih fun a b hab => hpairs a b (by simp [hab])
    refine ⟨if x = y then (a, b) :: kept else kept, ?_, fun a' b' => ?_⟩
    · simp only [equalPairs, hx, hy, hkept]
      rfl
    · by_cases hxy : x = y
      · subst hxy
        simp only [if_true, List.mem_cons, hmem, Prod.mk.injEq]
        constructor
        · rintro (⟨rfl, rfl⟩ | h)
          · exact ⟨.inl ⟨rfl, rfl⟩, x, hx, hy⟩
          · exact ⟨.inr h.1, h.2⟩
        · rintro ⟨⟨rfl, rfl⟩ | h, hx⟩
          · exact .inl ⟨rfl, rfl⟩
          · exact .inr ⟨h, hx⟩
      · simp only [if_neg hxy, List.mem_cons, hmem, Prod.mk.injEq]
        constructor
        · rintro ⟨h, hx⟩
          exact ⟨.inr h, hx⟩
        · rintro ⟨⟨rfl, rfl⟩ | h, z, hz, hz'⟩
          · rw [hx] at hz
            rw [hy] at hz'
            exact absurd ((Except.ok.inj hz).trans (Except.ok.inj hz').symm) hxy
          · exact ⟨h, z, hz, hz'⟩

/-! ## Clauses -/

/-- **What a verdict on a clause has to tell**, given the tables so far. -/
def Verdict.TellsClause (kb : FactBase) (σ : String → Entity) (db : List Table) (c : Clause)
    (v : Verdict) : Prop :=
  v.Tells kb σ c.occurrences (fun ρ => HoldAll db ρ ∧ Admits kb ρ c.occurrences) (c.Satisfied kb)

/-- Two wildcards ask whether the relation holds of anything of their sorts. -/
theorem anyPair_iff {relation : Relation} {left right : Option Entity} :
    anyPair kb relation left right ↔ ∃ a b, Argument.wildcard.Takes kb ρ left a ∧
      Argument.wildcard.Takes kb ρ right b ∧ kb.holds relation a b := by
  unfold anyPair
  split
  · next e e' =>
    simp only [Bool.and_eq_true, decide_eq_true_eq, List.any_eq_true, Argument.Takes,
      Option.some.injEq, exists_eq_left']
    constructor
    · rintro ⟨-, a, ha, b, hb, hab⟩
      exact ⟨a, b, ha, hb, hab⟩
    · rintro ⟨a, b, ha, hb, hab⟩
      exact ⟨FactBase.relationSize_ne_zero hab, a, ha, b, hb, hab⟩
  · next hne =>
    refine iff_of_false (by simp) ?_
    rintro ⟨a, b, ⟨e, rfl, -⟩, ⟨e', rfl, -⟩, -⟩
    exact hne e e' rfl rfl

/-- **The verdict on a relation is right.** -/
theorem suchThat_tells {relation : Relation} {left right : Argument}
    (hdb : ∀ t ∈ db, Narrowed kb σ t) (hleft : Sorted σ left.synonym?.toList)
    (hright : Sorted σ right.synonym?.toList) :
    (suchThat kb db relation left right).TellsClause kb σ db (.suchThat relation left right) := by
  unfold suchThat
  dsimp only
  split
  · next h => exact fun ρ _ hsatisfied => hsatisfied.1 h
  · next h =>
    split
    · next hwild =>
      obtain ⟨rfl, rfl⟩ := hwild
      have hany : ∀ ρ, Clause.Satisfied kb ρ (.suchThat relation .wildcard .wildcard) ↔
          anyPair kb relation relation.left.wildcard? relation.right.wildcard? := fun ρ =>
        (and_iff_right h).trans (anyPair_iff (ρ := ρ)).symm
      split
      · next hholds =>
        refine ⟨by simp [Inhabited, Clause.occurrences, Argument.synonym?], by simp, fun ρ _ => ?_⟩
        simpa using (hany ρ).2 hholds
      · next hfails => exact fun ρ _ hsatisfied => hfails ((hany ρ).1 hsatisfied)
    · refine (filter_tells hdb hleft hright).imp (fun _ hρ => hρ) fun ρ _ => ?_
      exact (and_iff_right h).symm

/-- A pattern asks for an assignment with a fitting value, or for a condition with the variable in
it. -/
theorem fitsPattern_iff {statement : Synonym} {right : Argument} {a b : Element} :
    fitsPattern kb statement.entity right a b ↔
      if statement.entity = .assign then
        kb.holds .modifies a b ∧ Clause.AssignsFitting kb right a
      else ∃ n text, a = .stmt n ∧ b = .name text ∧ text ∈ kb.conditionVariables n := by
  unfold fitsPattern
  split
  · rw [Bool.and_eq_true]
    refine and_congr_right fun _ => ?_
    cases right with
    | expr p =>
      simp only [assignsMatching, Clause.AssignsFitting]
      cases a with
      | name text => simp [Element.stmt?]
      | stmt n => cases hrpn : kb.rpn? n <;> simp [Element.stmt?, hrpn]
    | _ => simp [assignsMatching, Clause.AssignsFitting]
  · cases a <;> cases b <;> simp [inCondition]

/-- **The verdict on a pattern is right.** -/
theorem pattern_tells {statement : Synonym} {left right : Argument}
    (hdb : ∀ t ∈ db, Narrowed kb σ t) (hstatement : statement.entity = σ statement.name)
    (hleft : Sorted σ left.synonym?.toList) (hright : right.synonym? = none) :
    (pattern kb db statement left right).TellsClause kb σ db (.pattern statement left right) := by
  have hsynonym : Sorted σ (Argument.synonym statement).synonym?.toList := by
    simpa [Sorted, Argument.synonym?] using hstatement
  have hoccurrences : (Clause.pattern statement left right).occurrences =
      (Argument.synonym statement).synonym?.toList ++ left.synonym?.toList := by
    rw [Clause.occurrences, hright, Option.toList_none, List.append_nil]
    rfl
  unfold Verdict.TellsClause
  rw [hoccurrences]
  refine (filter_tells hdb hsynonym hleft).imp (fun _ hρ => hρ) fun ρ _ => ?_
  simp only [fitsPattern_iff, Clause.Satisfied]
  constructor
  · rintro ⟨a, b, rfl, hb, hkeep⟩
    exact ⟨b, hb, hkeep⟩
  · rintro ⟨b, hb, hkeep⟩
    exact ⟨_, b, rfl, hb, hkeep⟩

/-- A comparison of equal sides leaves no table behind: it is satisfied as soon as its
synonym stands for anything. -/
theorem equal_self_tells (hkb : kb.Recorded) {c : Comparand} {b : Bool}
    (hdb : ∀ t ∈ db, Narrowed kb σ t) (hsorted : Sorted σ c.argument.synonym?.toList)
    (hc : Clause.comparesName c = .ok b) :
    (if (values kb db none c.argument).isEmpty then Verdict.fails else .holds none).TellsClause
      kb σ db (.equal c c) := by
  have hadmits : ∀ {ρ}, Admits kb ρ (Clause.equal c c).occurrences →
      Admits kb ρ c.argument.synonym?.toList := fun hρ s hs => hρ s (List.mem_append_left _ hs)
  split
  · next hempty =>
    rintro ρ ⟨hρ, hρ'⟩ ⟨a, -, -, ha, -⟩
    have hmem := mem_values hdb hρ (hadmits hρ') ha
    rw [List.isEmpty_iff.1 hempty] at hmem
    exact List.not_mem_nil hmem
  · next hne =>
    obtain ⟨a, ha⟩ := List.exists_mem_of_ne_nil _ (mt List.isEmpty_iff.2 hne)
    have hranges := ranges_of_mem_values hdb hsorted ha
    refine ⟨fun s hs => ?_, by simp, ?_⟩
    · simp only [Clause.occurrences, List.mem_append, or_self, Option.mem_toList,
        synonym?_eq_some] at hs
      exact ⟨a, hranges.1 s hs⟩
    · rintro ρ ⟨-, hρ⟩
      obtain ⟨a, value, ha, hvalue⟩ := exists_comparedValue hkb hc (hadmits hρ)
      simp only [Option.not_mem_none, false_imp_iff, implies_true, true_iff]
      exact ⟨a, a, value, ha, ha, hvalue, hvalue⟩

/-- **The verdict on a comparison is right**, and there always is one. -/
theorem equal_tells (hkb : kb.Recorded) {left right : Comparand}
    (hdb : ∀ t ∈ db, Narrowed kb σ t) (hleft : Sorted σ left.argument.synonym?.toList)
    (hright : Sorted σ right.argument.synonym?.toList)
    (hcheck : (Clause.equal left right).check = .ok ()) :
    ∃ v, equal kb db left right = .ok v ∧ v.TellsClause kb σ db (.equal left right) := by
  obtain ⟨⟨b, hb⟩, -⟩ := Clause.check_equal hcheck
  unfold equal
  by_cases hsame : left = right
  · subst hsame
    rw [if_pos rfl]
    exact ⟨_, rfl, equal_self_tells hkb hdb hleft hb⟩
  · have hvalues : ∀ a b, (a, b) ∈ candidates kb db left.argument none right.argument none →
        (∃ x, comparedValue kb left a = .ok x) ∧ ∃ y, comparedValue kb right b = .ok y := by
      intro a b hab
      obtain ⟨ha, hb, -⟩ := ranges_of_mem_candidates hdb hleft hright hab
      exact ⟨comparedValue_ok hkb ha, comparedValue_ok hkb hb⟩
    obtain ⟨kept, hkept, hmem⟩ := equalPairs_ok hvalues
    refine ⟨Query.bind left.argument right.argument kept, ?_, ?_⟩
    · rw [if_neg hsame, hkept]
      rfl
    · refine (candidates_tells hdb hleft hright hmem).imp (fun _ hρ => hρ) fun ρ _ => ?_
      constructor
      · rintro ⟨a, b, ha, hb, x, hx, hx'⟩
        exact ⟨a, b, x, ha, hb, hx, hx'⟩
      · rintro ⟨a, b, x, ha, hb, hx, hx'⟩
        exact ⟨a, b, ha, hb, x, hx, hx'⟩

/-- **The verdict on a clause is right.** -/
theorem verdict_tells (hkb : kb.Recorded) {c : Clause} (hdb : ∀ t ∈ db, Narrowed kb σ t)
    (hsorted : Sorted σ c.occurrences) (hcheck : c.check = .ok ()) :
    ∃ v, verdict kb db c = .ok v ∧ v.TellsClause kb σ db c := by
  cases c with
  | suchThat relation left right =>
    exact ⟨_, rfl, suchThat_tells hdb (fun s hs => hsorted s (List.mem_append_left _ hs))
      fun s hs => hsorted s (List.mem_append_right _ hs)⟩
  | pattern statement left right =>
    have hright : right.synonym? = none := by
      rcases Clause.check_pattern hcheck with rfl | ⟨p, rfl⟩ <;> rfl
    exact ⟨_, rfl, pattern_tells hdb (hsorted statement List.mem_cons_self)
      (fun s hs => hsorted s (List.mem_cons_of_mem _ (List.mem_append_left _ hs))) hright⟩
  | equal left right =>
    exact equal_tells hkb hdb (fun s hs => hsorted s (List.mem_append_left _ hs))
      (fun s hs => hsorted s (List.mem_append_right _ hs)) hcheck

/-! ## All clauses -/

/-- **The tables that clauses leave behind are right**: there are none only if no
valuation that the tables before hold of satisfies all clauses, and otherwise they hold
of exactly those that do. -/
def Narrows (kb : FactBase) (σ : String → Entity) (db : List Table) (clauses : List Clause) :
    Option (List Table) → Prop
  | none => ∀ ρ, HoldAll db ρ → Admits kb ρ (clauses.flatMap Clause.occurrences) →
      ∃ c ∈ clauses, ¬ c.Satisfied kb ρ
  | some db' => (∀ t ∈ db', Narrowed kb σ t) ∧
      Inhabited kb (clauses.flatMap Clause.occurrences) ∧
      ∀ ρ, Admits kb ρ (clauses.flatMap Clause.occurrences) →
        (HoldAll db' ρ ↔ HoldAll db ρ ∧ ∀ c ∈ clauses, c.Satisfied kb ρ)

theorem holdAll_append {db' : List Table} :
    HoldAll (db ++ db') ρ ↔ HoldAll db ρ ∧ HoldAll db' ρ := by
  simp only [HoldAll, List.mem_append, or_imp, forall_and]

/-- A clause before others: the tables are narrowed by it, then by the others. -/
theorem Narrows.cons {c : Clause} {clauses : List Clause} {table : Option Table}
    {out : Option (List Table)} (hc : (Verdict.holds table).TellsClause kb σ db c)
    (h : Narrows kb σ (db ++ table.toList) clauses out) : Narrows kb σ db (c :: clauses) out := by
  obtain ⟨hinhabited, -, htable⟩ := hc
  have hstep : ∀ ρ, Admits kb ρ c.occurrences →
      (HoldAll (db ++ table.toList) ρ ↔ HoldAll db ρ ∧ c.Satisfied kb ρ) := by
    intro ρ hρ
    rw [holdAll_append]
    refine and_congr_right fun hdb => ?_
    simpa only [HoldAll, Option.mem_toList, Option.mem_def] using htable ρ ⟨hdb, hρ⟩
  have hsplit : ∀ {ρ}, Admits kb ρ ((c :: clauses).flatMap Clause.occurrences) →
      Admits kb ρ c.occurrences ∧ Admits kb ρ (clauses.flatMap Clause.occurrences) := by
    intro ρ hρ
    simp only [Admits, List.flatMap_cons, List.mem_append, or_imp, forall_and] at hρ
    exact hρ
  cases out with
  | none =>
    intro ρ hρ hadmits
    obtain ⟨hadmits, hadmits'⟩ := hsplit hadmits
    by_cases hsatisfied : c.Satisfied kb ρ
    · obtain ⟨d, hd, hnot⟩ := h ρ ((hstep ρ hadmits).2 ⟨hρ, hsatisfied⟩) hadmits'
      exact ⟨d, List.mem_cons_of_mem _ hd, hnot⟩
    · exact ⟨c, List.mem_cons_self, hsatisfied⟩
  | some db' =>
    obtain ⟨hnarrowed, hinhabited', hdb'⟩ := h
    refine ⟨hnarrowed, ?_, fun ρ hρ => ?_⟩
    · intro s hs
      rw [List.flatMap_cons, List.mem_append] at hs
      exact hs.elim (hinhabited s) (hinhabited' s)
    · obtain ⟨hρ, hρ'⟩ := hsplit hρ
      rw [hdb' ρ hρ', hstep ρ hρ, List.forall_mem_cons, and_assoc]

/-- **Clauses narrow the tables to their solutions**, and never without an outcome. -/
theorem narrow_tells (hkb : kb.Recorded) {clauses : List Clause}
    (hdb : ∀ t ∈ db, Narrowed kb σ t) (hsorted : Sorted σ (clauses.flatMap Clause.occurrences))
    (hcheck : ∀ c ∈ clauses, c.check = .ok ()) :
    ∃ out, narrow kb db clauses = .ok out ∧ Narrows kb σ db clauses out := by
  induction clauses generalizing db with
  | nil => exact ⟨some db, rfl, hdb, by simp [Inhabited], by simp⟩
  | cons c clauses ih =>
    have hsorted' : Sorted σ c.occurrences ∧ Sorted σ (clauses.flatMap Clause.occurrences) := by
      simpa only [Sorted, List.flatMap_cons, List.mem_append, or_imp, forall_and] using hsorted
    obtain ⟨v, hv, htells⟩ := verdict_tells hkb hdb hsorted'.1 (hcheck c List.mem_cons_self)
    cases v with
    | fails =>
      refine ⟨none, ?_, fun ρ hρ hadmits => ⟨c, List.mem_cons_self, htells ρ ⟨hρ, ?_⟩⟩⟩
      · rw [narrow, hv]
        rfl
      · exact fun s hs => hadmits s (by rw [List.flatMap_cons]; exact List.mem_append_left _ hs)
    | holds table =>
      have hdb' : ∀ t ∈ db ++ table.toList, Narrowed kb σ t := by
        intro t ht
        rw [List.mem_append, Option.mem_toList] at ht
        exact ht.elim (hdb t) (htells.2.1 t)
      obtain ⟨out, hout, hnarrows⟩ := ih hdb' hsorted'.2
        fun d hd => hcheck d (List.mem_cons_of_mem _ hd)
      refine ⟨out, ?_, hnarrows.cons htells⟩
      rw [narrow, hv]
      exact hout

end Query

end ProgramFacts
