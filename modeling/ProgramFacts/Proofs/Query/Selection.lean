import ProgramFacts.Proofs.Outcome
import ProgramFacts.Proofs.Query.Narrowing
import ProgramFacts.Proofs.Sorting
import ProgramFacts.Proofs.Table.Group
import Mathlib.Data.List.Pairwise
/-!
# Queries — what is selected

Once the tables of a query have rows and no synonym in common, any choice of a row from
each of them is part of a solution (`Settled.exists_solution`): rows of different tables
do not interfere, and a synonym that no table has may stand for any element of its sort.
So what is read off the tables is what is selected in the solutions (`select_answers`).
-/

namespace ProgramFacts

namespace Query

variable {kb : FactBase} {σ : String → Entity} {ρ : Valuation} {q : Query} {us : List Table}

/-- **Tables that a query has come down to**: they have rows, share no synonym, and hold
together of the valuations that satisfy all clauses. -/
structure Settled (kb : FactBase) (σ : String → Entity) (q : Query) (us : List Table) : Prop where
  sorts : Sorted σ q.occurrences
  regular : ∀ u ∈ us, u.Regular
  height_pos : ∀ u ∈ us, 0 < u.height
  apart : us.Pairwise Table.Apart
  sorted : ∀ {ρ}, HoldAll us ρ → ∀ u ∈ us, ∀ s, u.has s → ρ s ∈ kb.entities (σ s)
  inhabited : Inhabited kb (q.clauses.flatMap Clause.occurrences)
  satisfied_iff : ∀ {ρ}, Admits kb ρ (q.clauses.flatMap Clause.occurrences) →
    (HoldAll us ρ ↔ ∀ c ∈ q.clauses, c.Satisfied kb ρ)

/-! ## Choosing rows -/

/-- Of tables that share no synonym, only one has a given synonym. -/
theorem eq_of_has (hapart : us.Pairwise Table.Apart) {u u' : Table} (hu : u ∈ us)
    (hu' : u' ∈ us) {s : String} (hs : u.has s) (hs' : u'.has s) : u = u' := by
  by_contra hne
  have : Std.Symm Table.Apart := ⟨fun t u h s hu ht => h s ht hu⟩
  exact hapart.forall hu hu' hne s hs hs'

/-- **Valuations of tables that share no synonym are put together** to one; what no table
has is taken from elsewhere. -/
theorem exists_glued (hapart : us.Pairwise Table.Apart) (f : Table → Valuation) (τ : Valuation) :
    ∃ ρ : Valuation, (∀ u ∈ us, ∀ s, u.has s → ρ s = f u s) ∧
      ∀ s, (∀ u ∈ us, ¬ u.has s) → ρ s = τ s := by
  let ρ : Valuation := fun s => ((us.find? (·.has s)).elim τ f) s
  refine ⟨ρ, fun u hu s hs => ?_, fun s hs => ?_⟩
  · cases hfind : us.find? (·.has s) with
    | none => exact absurd hs (List.find?_eq_none.1 hfind u hu)
    | some u' =>
      have hs' := List.find?_some hfind
      obtain rfl := eq_of_has hapart hu (List.mem_of_find?_eq_some hfind) hs hs'
      simp only [ρ, hfind, Option.elim_some]
  · simp only [ρ, List.find?_eq_none.2 hs, Option.elim_none]

namespace Settled

variable (h : Settled kb σ q us)
include h

theorem solution_iff : Solution kb ρ q ↔ Admits kb ρ q.occurrences ∧ HoldAll us ρ := by
  constructor
  · rintro ⟨hadmits, hsatisfied⟩
    refine ⟨hadmits, (h.satisfied_iff fun s hs => ?_).2 hsatisfied⟩
    exact hadmits s (List.mem_append_left _ hs)
  · rintro ⟨hadmits, hholds⟩
    refine ⟨hadmits, (h.satisfied_iff fun s hs => ?_).1 hholds⟩
    exact hadmits s (List.mem_append_left _ hs)

/-- Rows may be chosen from the tables independently. -/
theorem exists_holdAll (f : Table → Valuation) (hf : ∀ u ∈ us, u.Holds (f u)) (τ : Valuation) :
    ∃ ρ, HoldAll us ρ ∧ (∀ u ∈ us, ∀ s, u.has s → ρ s = f u s) ∧
      ∀ s, (∀ u ∈ us, ¬ u.has s) → ρ s = τ s := by
  obtain ⟨ρ, hρ, hτ⟩ := exists_glued h.apart f τ
  exact ⟨ρ, fun u hu => (Table.holds_congr (hρ u hu)).2 (hf u hu), hρ, hτ⟩

/-- **What the tables hold of is part of a solution**, if it gives what is selected
elements of the right sorts. -/
theorem exists_solution (hρ : HoldAll us ρ) (hselection : Admits kb ρ q.selection.occurrences) :
    ∃ ρ', Solution kb ρ' q ∧ ∀ s, ρ s ∈ kb.entities (σ s) → ρ' s = ρ s := by
  classical
  -- Only a synonym that is neither in a table nor selected has to change its element.
  let ρ' : Valuation := fun s =>
    if hs : ρ s ∉ kb.entities (σ s) ∧ ∃ a, a ∈ kb.entities (σ s) then hs.2.choose else ρ s
  have hkeep : ∀ s, ρ s ∈ kb.entities (σ s) → ρ' s = ρ s := fun s hs =>
    dif_neg fun hs' => hs'.1 hs
  have hadmits : ∀ s, (∃ a, a ∈ kb.entities (σ s)) → ρ' s ∈ kb.entities (σ s) := by
    intro s hs
    by_cases hmem : ρ s ∈ kb.entities (σ s)
    · rwa [hkeep s hmem]
    · simp only [ρ', dif_pos (And.intro hmem hs)]
      exact hs.choose_spec
  refine ⟨ρ', h.solution_iff.2 ⟨fun s hs => ?_, fun u hu => ?_⟩, hkeep⟩
  · rw [h.sorts s hs]
    refine hadmits s.name ?_
    rw [← h.sorts s hs]
    rcases List.mem_append.1 hs with hs | hs
    · exact h.inhabited s hs
    · exact ⟨_, hselection s hs⟩
  · exact (Table.holds_congr fun s hs => hkeep s (h.sorted hρ u hu s hs)).2 (hρ u hu)

/-- **What rows of the tables say of what is selected is part of a solution**, together with
elements of the right sorts for what is selected and in no table. -/
theorem exists_solution_of_rows
    (hrows : ∀ u ∈ us, (∃ s ∈ q.selection.occurrences, u.has s.name) → ∃ ρ', u.Holds ρ' ∧
      ∀ s ∈ q.selection.occurrences, u.has s.name → ρ' s.name = ρ s.name)
    (hfree : ∀ s ∈ q.selection.occurrences, (∀ u ∈ us, ¬ u.has s.name) →
      ρ s.name ∈ kb.entities (σ s.name)) :
    ∃ ρ', Solution kb ρ' q ∧ ∀ s ∈ q.selection.occurrences, ρ' s.name = ρ s.name := by
  classical
  -- from a table without anything that is selected the first row will do
  have hrow : ∀ u ∈ us, ∃ ρ', u.Holds ρ' ∧
      ∀ s ∈ q.selection.occurrences, u.has s.name → ρ' s.name = ρ s.name := by
    intro u hu
    by_cases hsome : ∃ s ∈ q.selection.occurrences, u.has s.name
    · exact hrows u hu hsome
    · refine ⟨u.valuation 0, Table.holds_valuation (h.height_pos u hu), fun s hs hhas => ?_⟩
      exact absurd ⟨s, hs, hhas⟩ hsome
  choose! f hf hagree using hrow
  obtain ⟨ρ₀, hρ₀, hglued, hτ⟩ := h.exists_holdAll f hf ρ
  have hvalue : ∀ s ∈ q.selection.occurrences,
      ρ₀ s.name = ρ s.name ∧ ρ₀ s.name ∈ kb.entities (σ s.name) := by
    intro s hs
    by_cases htable : ∃ u ∈ us, u.has s.name
    · obtain ⟨u, hu, hhas⟩ := htable
      exact ⟨(hglued u hu _ hhas).trans (hagree u hu s hs hhas), h.sorted hρ₀ u hu _ hhas⟩
    · have hnone : ∀ u ∈ us, ¬ u.has s.name := fun u hu hhas => htable ⟨u, hu, hhas⟩
      have heq := hτ s.name hnone
      exact ⟨heq, by rw [heq]; exact hfree s hs hnone⟩
  have hadmits : Admits kb ρ₀ q.selection.occurrences := by
    intro s hs
    rw [h.sorts s (List.mem_append_right _ hs)]
    exact (hvalue s hs).2
  obtain ⟨ρ', hρ', hkeep⟩ := h.exists_solution hρ₀ hadmits
  exact ⟨ρ', hρ', fun s hs => (hkeep _ (hvalue s hs).2).trans (hvalue s hs).1⟩

/-- There is a solution if nothing is selected. -/
theorem solvable (hselection : q.selection.occurrences = []) : ∃ ρ, Solution kb ρ q := by
  have hnone : ∀ s, s ∉ q.selection.occurrences := by simp [hselection]
  obtain ⟨ρ, hρ, -⟩ := h.exists_solution_of_rows (ρ := default)
    (fun u _ ⟨s, hs, _⟩ => absurd hs (hnone s)) fun s hs => absurd hs (hnone s)
  exact ⟨ρ, hρ⟩

/-- The elements that a selected synonym still stands for are those it stands for in the
solutions. -/
theorem mem_synonymValues_iff {s : Synonym} (hs : q.selection.occurrences = [s]) {a : Element} :
    a ∈ synonymValues kb us s ↔ ∃ ρ, Solution kb ρ q ∧ ρ s.name = a := by
  have honly : ∀ s' ∈ q.selection.occurrences, s' = s := by simp [hs]
  have hself : s ∈ q.selection.occurrences := by simp [hs]
  unfold synonymValues
  cases hfind : us.find? (·.has s.name) with
  | some u =>
    have hu := List.mem_of_find?_eq_some hfind
    have hhas := List.find?_some hfind
    simp only [(h.regular u hu).mem_distinct hhas]
    constructor
    · rintro ⟨ρ, hρ, rfl⟩
      have hrows : ∀ u' ∈ us, (∃ s' ∈ q.selection.occurrences, u'.has s'.name) → ∃ ρ', u'.Holds ρ' ∧
          ∀ s' ∈ q.selection.occurrences, u'.has s'.name → ρ' s'.name = ρ s'.name := by
        rintro u' hu' ⟨s', hs', hhas'⟩
        obtain rfl := honly s' hs'
        obtain rfl := eq_of_has h.apart hu hu' hhas hhas'
        exact ⟨ρ, hρ, fun _ _ _ => rfl⟩
      obtain ⟨ρ', hρ', hagree⟩ := h.exists_solution_of_rows hrows fun s' hs' hnone =>
        absurd (honly s' hs' ▸ hhas) (hnone u hu)
      exact ⟨ρ', hρ', hagree s hself⟩
    · rintro ⟨ρ, hρ, rfl⟩
      exact ⟨ρ, (h.solution_iff.1 hρ).2 u hu, rfl⟩
  | none =>
    constructor
    · intro ha
      have hnone : ∀ u ∈ us, ¬ ∃ s' ∈ q.selection.occurrences, u.has s'.name := by
        rintro u hu ⟨s', hs', hhas⟩
        exact List.find?_eq_none.1 hfind u hu (honly s' hs' ▸ hhas)
      have hsort : a ∈ kb.entities (σ s.name) := by
        rwa [← h.sorts s (List.mem_append_right _ hself)]
      obtain ⟨ρ', hρ', hagree⟩ := h.exists_solution_of_rows (ρ := fun _ => a)
        (fun u hu hsome => absurd hsome (hnone u hu)) fun s' hs' _ => honly s' hs' ▸ hsort
      exact ⟨ρ', hρ', hagree s hself⟩
    · rintro ⟨ρ, hρ, rfl⟩
      exact hρ.admits s (List.mem_append_right _ hself)

end Settled

/-! ## One selection -/

theorem shown_ok (hkb : kb.Recorded) {s : Selected} {a : Element}
    (ha : a ∈ kb.entities s.synonym.entity) : ∃ text, shown kb s a = .ok text := by
  unfold shown
  split
  · exact ⟨_, rfl⟩
  · obtain ⟨value, hvalue⟩ := hkb.attributeValue_ok ha s.attr
    exact ⟨value.text, by rw [hvalue]; rfl⟩

theorem selectOne_answers (hkb : kb.Recorded) (h : Settled kb σ q us) {s : Selected}
    (hs : q.selection = .elements [s]) :
    ∃ a, selectOne kb s us = .ok a ∧ q.Answers kb a := by
  have hoccurrences : q.selection.occurrences = [s.synonym] := by rw [hs]; rfl
  have hvalues := fun a => h.mem_synonymValues_iff hoccurrences (a := a)
  unfold selectOne Answers
  rw [hs]
  dsimp only
  by_cases hyields : s.yieldsStatements
  · simp only [if_pos hyields]
    refine ⟨_, rfl, _, rfl, fun n => ?_⟩
    rw [Ordered.mem_ofList, List.mem_filterMap]
    constructor
    · rintro ⟨a, ha, hn⟩
      obtain ⟨ρ, hρ, rfl⟩ := (hvalues a).1 ha
      refine ⟨ρ, hρ, ?_⟩
      cases hvalue : ρ s.synonym.name <;> simp_all [Element.stmt?]
    · rintro ⟨ρ, hρ, hn⟩
      exact ⟨_, (hvalues _).2 ⟨ρ, hρ, hn⟩, rfl⟩
  · simp only [if_neg hyields]
    have hok : ∀ a ∈ synonymValues kb us s.synonym, ∃ text, shown kb s a = .ok text := by
      intro a ha
      obtain ⟨ρ, hρ, rfl⟩ := (hvalues a).1 ha
      exact shown_ok hkb (hρ.admits _ (List.mem_append_right _ (by simp [hoccurrences])))
    obtain ⟨texts, htexts, hmem⟩ := Outcome.mapM_ok hok
    refine ⟨.names (.ofList texts), by rw [htexts]; rfl, _, rfl, fun text => ?_⟩
    rw [Ordered.mem_ofList, hmem]
    constructor
    · rintro ⟨a, ha, htext⟩
      obtain ⟨ρ, hρ, rfl⟩ := (hvalues a).1 ha
      exact ⟨ρ, hρ, htext⟩
    · rintro ⟨ρ, hρ, htext⟩
      exact ⟨_, (hvalues _).2 ⟨ρ, hρ, rfl⟩, htext⟩

/-! ## Several selections -/

/-- A table's part in a selection: its rows, restricted to the names that are wanted. -/
def restricted (names : List String) (all t : Table) : Table :=
  let wanted := names.filter t.has
  if wanted.isEmpty then all else all.cross (t.project wanted)

/-- A synonym's part in a selection, if no table has it: the elements of its sort. -/
def extended (kb : FactBase) (all : Table) (s : Selected) : Table :=
  if all.has s.synonym.name then all
  else all.cross (.single s.synonym.name (kb.entities s.synonym.entity))

theorem combined_eq (selected : List Selected) (db : List Table) :
    combined kb selected db = selected.foldl (extended kb)
      (db.foldl (restricted (selected.map (·.synonym.name)).eraseDups) Table.empty) := rfl

/-- Nothing selected is answered with no rows. -/
theorem selectRows_nil : selectRows kb [] us = .ok (.tuples []) := by
  have hnone : ∀ all, us.foldl (restricted []) all = all := by
    intro all
    induction us with
    | nil => rfl
    | cons u us ih => exact ih
  have hcombined : combined kb [] us = Table.empty := by
    rw [combined_eq]
    exact hnone Table.empty
  rw [selectRows, hcombined]
  rfl

section Combined

variable {all : Table} {S : String → Prop} {H : Valuation → Prop}

/-- Whether a row of a table has the wanted values. -/
def Extends (names : List String) (u : Table) (ρ : Valuation) : Prop :=
  (∃ s ∈ names, u.has s) → ∃ ρ', u.Holds ρ' ∧ ∀ s ∈ names, u.has s → ρ' s = ρ s

theorem restricted_spans {names : List String} (hnames : names.Nodup) {u : Table}
    (hu : u.Regular) (hall : all.Spans S H) (hapart : ∀ s, S s → ¬ u.has s) :
    (restricted names all u).Spans (fun s => S s ∨ s ∈ names ∧ u.has s)
      fun ρ => H ρ ∧ Extends names u ρ := by
  unfold restricted
  dsimp only
  by_cases hwanted : names.filter u.has = []
  · have hnone : ∀ s ∈ names, ¬ u.has s := List.filter_eq_nil_iff.1 hwanted
    rw [if_pos (List.isEmpty_iff.2 hwanted)]
    refine hall.congr (fun s => ?_) fun ρ => ?_
    · exact (or_iff_left fun hs => hnone s hs.1 hs.2).symm
    · exact (and_iff_left fun ⟨s, hs, hhas⟩ => absurd hhas (hnone s hs)).symm
  · have hfilter : (names.filter u.has).filter u.has = names.filter u.has := by
      rw [List.filter_filter]
      simp
    have hne : (names.filter u.has).filter u.has ≠ [] := by rwa [hfilter]
    have hnodup := hnames.filter u.has
    have hhas : ∀ s, (u.project (names.filter u.has)).has s ↔ s ∈ names ∧ u.has s := by
      intro s
      rw [Table.Regular.has_project, List.mem_filter]
      exact and_iff_left_of_imp fun hs => hs.2
    rw [if_neg (mt List.isEmpty_iff.1 hwanted)]
    refine (hall.cross (hu.project hnodup hne) fun s hs hs' => ?_).congr (fun s => ?_) fun ρ => ?_
    · exact hapart s hs ((hhas s).1 hs').2
    · rw [hhas]
    · obtain ⟨s, hs⟩ := List.exists_mem_of_ne_nil _ hwanted
      rw [hu.holds_project hnodup hne, Extends, imp_iff_right ⟨s, List.mem_filter.1 hs⟩]
      simp only [List.mem_filter, and_imp]
      refine and_congr_right fun _ => exists_congr fun ρ' => and_congr_right fun _ => ?_
      exact ⟨fun hagree s hs hhas => hagree s hs hhas hhas,
        fun hagree s hs hhas _ => hagree s hs hhas⟩

theorem foldl_restricted {names : List String} (hnames : names.Nodup)
    (hregular : ∀ u ∈ us, u.Regular) (hapart : us.Pairwise Table.Apart) (hall : all.Spans S H)
    (hfresh : ∀ u ∈ us, ∀ s, S s → ¬ u.has s) :
    (us.foldl (restricted names) all).Spans (fun s => S s ∨ s ∈ names ∧ ∃ u ∈ us, u.has s)
      fun ρ => H ρ ∧ ∀ u ∈ us, Extends names u ρ := by
  induction us generalizing all S H with
  | nil => exact hall.congr (by simp) (by simp)
  | cons u us ih =>
    obtain ⟨hhead, htail⟩ := List.pairwise_cons.1 hapart
    have hstep := restricted_spans hnames (hregular u List.mem_cons_self) hall
      (hfresh u List.mem_cons_self)
    refine (ih (fun v hv => hregular v (List.mem_cons_of_mem u hv)) htail hstep ?_).congr
      (fun s => ?_) fun ρ => ?_
    · rintro v hv s (hs | ⟨-, hs⟩)
      · exact hfresh v (List.mem_cons_of_mem u hv) s hs
      · exact hhead v hv s hs
    · rw [List.exists_mem_cons_iff, and_or_left, or_assoc]
    · rw [List.forall_mem_cons, and_assoc]

theorem extended_spans {s : Selected} (hs : s.synonym.entity = σ s.synonym.name)
    (hall : all.Spans S H) :
    (extended kb all s).Spans (fun n => S n ∨ n = s.synonym.name)
      fun ρ => H ρ ∧ (¬ S s.synonym.name → ρ s.synonym.name ∈ kb.entities (σ s.synonym.name)) := by
  unfold extended
  by_cases hhas : all.has s.synonym.name
  · have hS := (hall.has_iff _).1 hhas
    rw [if_pos hhas]
    refine hall.congr (fun n => ?_) fun ρ => ?_
    · exact (or_iff_left_of_imp fun hn => hn ▸ hS).symm
    · exact (and_iff_left fun hnot => absurd hS hnot).symm
  · have hS := mt (hall.has_iff _).2 hhas
    rw [if_neg hhas]
    refine (hall.cross (Table.regular_single _ _).1 fun n hn hn' => ?_).congr (fun n => ?_)
      fun ρ => ?_
    · exact hS (Table.has_single.1 hn' ▸ hn)
    · rw [Table.has_single]
    · rw [Table.holds_single, imp_iff_right hS, hs]

theorem foldl_extended {selected : List Selected}
    (hselected : ∀ s ∈ selected, s.synonym.entity = σ s.synonym.name) (hall : all.Spans S H) :
    (selected.foldl (extended kb) all).Spans
      (fun n => S n ∨ ∃ s ∈ selected, s.synonym.name = n)
      fun ρ => H ρ ∧ ∀ s ∈ selected, ¬ S s.synonym.name →
        ρ s.synonym.name ∈ kb.entities (σ s.synonym.name) := by
  induction selected generalizing all S H with
  | nil => exact hall.congr (by simp) (by simp)
  | cons s selected ih =>
    have hstep : (extended kb all s).Spans _ _ :=
      extended_spans (hselected s List.mem_cons_self) hall
    refine (ih (fun s' hs' => hselected s' (List.mem_cons_of_mem s hs')) hstep).congr
      (fun n => ?_) fun ρ => ?_
    · rw [List.exists_mem_cons_iff, or_assoc, eq_comm]
    · rw [List.forall_mem_cons, and_assoc]
      refine and_congr_right fun _ => and_congr_right fun hρ => ?_
      refine forall₂_congr fun s' _ => ⟨fun h' hS => ?_, fun h' hS => h' fun hS' => hS (.inl hS')⟩
      by_cases hname : s'.synonym.name = s.synonym.name
      · rw [hname] at hS ⊢
        exact hρ hS
      · exact h' (not_or.2 ⟨hS, hname⟩)

end Combined

/-- **The rows of all that is selected are those of the solutions.** -/
theorem Settled.combined_holds (h : Settled kb σ q us) {selected : List Selected}
    (hq : q.selection = .elements selected) (hne : selected ≠ []) :
    (combined kb selected us).Regular ∧
      (∀ s ∈ selected, (combined kb selected us).has s.synonym.name) ∧
      ∀ ρ, (combined kb selected us).Holds ρ ↔
        ∃ ρ', Solution kb ρ' q ∧ ∀ s ∈ selected, ρ' s.synonym.name = ρ s.synonym.name := by
  have hoccurrences : ∀ s ∈ selected, s.synonym ∈ q.selection.occurrences := fun s hs => by
    rw [hq]
    exact List.mem_map_of_mem hs
  have hselected : ∀ s' ∈ q.selection.occurrences, ∃ s ∈ selected, s.synonym = s' := fun s' hs' => by
    rw [hq] at hs'
    exact List.mem_map.1 hs'
  have hsort : ∀ s ∈ selected, s.synonym.entity = σ s.synonym.name := fun s hs =>
    h.sorts _ (List.mem_append_right _ (hoccurrences s hs))
  have hnames : ∀ n, n ∈ (selected.map (·.synonym.name)).eraseDups ↔
      ∃ s ∈ selected, s.synonym.name = n := by simp
  have hspans : (combined kb selected us).Spans _ _ := foldl_extended hsort
    (foldl_restricted (Sorting.nodup_eraseDups _) h.regular h.apart .empty fun _ _ _ hs => hs.elim)
  have hhas : ∀ s ∈ selected, (combined kb selected us).has s.synonym.name := fun s hs =>
    (hspans.has_iff _).2 (.inr ⟨s, hs, rfl⟩)
  obtain ⟨s₀, hs₀⟩ := List.exists_mem_of_ne_nil selected hne
  have hexists : ∃ n, (combined kb selected us).has n := ⟨_, hhas s₀ hs₀⟩
  refine ⟨hspans.regular hexists, hhas, fun ρ => ?_⟩
  have hholds := hspans.holds_iff ρ
  rw [imp_iff_right hexists] at hholds
  rw [hholds]
  simp only [true_and, false_or, hnames]
  constructor
  · rintro ⟨hrows, hfree⟩
    have hrows' : ∀ u ∈ us, (∃ s ∈ q.selection.occurrences, u.has s.name) → ∃ ρ', u.Holds ρ' ∧
        ∀ s ∈ q.selection.occurrences, u.has s.name → ρ' s.name = ρ s.name := by
      rintro u hu ⟨_, hs', hhas⟩
      obtain ⟨s, hs, rfl⟩ := hselected _ hs'
      obtain ⟨ρ', hρ', hagree⟩ := hrows u hu ⟨_, (hnames _).2 ⟨s, hs, rfl⟩, hhas⟩
      refine ⟨ρ', hρ', fun _ hs' => ?_⟩
      obtain ⟨s, hs, rfl⟩ := hselected _ hs'
      exact hagree _ ((hnames _).2 ⟨s, hs, rfl⟩)
    have hfree' : ∀ s ∈ q.selection.occurrences, (∀ u ∈ us, ¬ u.has s.name) →
        ρ s.name ∈ kb.entities (σ s.name) := by
      intro _ hs' hnone
      obtain ⟨s, hs, rfl⟩ := hselected _ hs'
      exact hfree s hs fun ⟨_, u, hu, hhas⟩ => hnone u hu hhas
    obtain ⟨ρ', hρ', hagree⟩ := h.exists_solution_of_rows hrows' hfree'
    exact ⟨ρ', hρ', fun s hs => hagree _ (hoccurrences s hs)⟩
  · rintro ⟨ρ', hρ', hagree⟩
    refine ⟨fun u hu _ => ⟨ρ', (h.solution_iff.1 hρ').2 u hu, fun n hn _ => ?_⟩, fun s hs _ => ?_⟩
    · obtain ⟨s, hs, rfl⟩ := (hnames n).1 hn
      exact hagree s hs
    · rw [← hagree s hs, ← hsort s hs]
      exact hρ'.admits _ (List.mem_append_right _ (hoccurrences s hs))

/-- The texts of a row of a table that has all that is selected. -/
theorem shownRow_row {t : Table} (ht : t.Regular) {selected : List Selected}
    (hhas : ∀ s ∈ selected, t.has s.synonym.name) {i : Nat} (hi : i < t.height) :
    shownRow kb selected (t.row i) =
      selected.mapM fun s => shown kb s (t.valuation i s.synonym.name) := by
  have hcells : selected.filterMap (fun s => (Table.valueIn? (t.row i) s.synonym.name).map (s, ·)) =
      selected.map fun s => (s, t.valuation i s.synonym.name) := by
    rw [← List.filterMap_eq_map]
    refine List.filterMap_congr fun s hs => ?_
    rw [ht.valueIn?_row hi, if_pos (hhas s hs)]
    rfl
  rw [shownRow, hcells, List.mapM_map]
  rfl

/-- **Several selections are answered with the rows of the solutions.** -/
theorem selectRows_tuples (hkb : kb.Recorded) (h : Settled kb σ q us) {selected : List Selected}
    (hq : q.selection = .elements selected) (hne : selected ≠ []) :
    ∃ rows, selectRows kb selected us = .ok (.tuples rows) ∧
      rows.Pairwise (fun r r' => compare r r' = .lt) ∧ ∀ row, row ∈ rows ↔
        ∃ ρ, Solution kb ρ q ∧ selected.mapM (fun s => shown kb s (ρ s.synonym.name)) = .ok row := by
  obtain ⟨hregular, hhas, hholds⟩ := h.combined_holds hq hne
  have hshown : ∀ {ρ ρ' : Valuation}, (∀ s ∈ selected, ρ' s.synonym.name = ρ s.synonym.name) →
      selected.mapM (fun s => shown kb s (ρ' s.synonym.name)) =
        selected.mapM fun s => shown kb s (ρ s.synonym.name) := fun hagree =>
    Outcome.mapM_congr fun s hs => by rw [hagree s hs]
  have hsolution : ∀ {ρ}, Solution kb ρ q →
      ∃ row, selected.mapM (fun s => shown kb s (ρ s.synonym.name)) = .ok row := by
    intro ρ hρ
    obtain ⟨row, hrow, -⟩ := Outcome.mapM_ok (f := fun s => shown kb s (ρ s.synonym.name)) fun s hs =>
      shown_ok hkb (hρ.admits s.synonym (List.mem_append_right _ (by
        rw [hq]
        exact List.mem_map_of_mem hs)))
    exact ⟨row, hrow⟩
  -- every row is that of a solution, and shows what the solution shows
  have hread : ∀ r ∈ (combined kb selected us).rows, ∃ ρ, Solution kb ρ q ∧
      shownRow kb selected r = selected.mapM fun s => shown kb s (ρ s.synonym.name) := by
    intro r hr
    obtain ⟨i, hi, rfl⟩ := List.mem_map.1 hr
    have hi := List.mem_range.1 hi
    obtain ⟨ρ, hρ, hagree⟩ := (hholds _).1 (Table.holds_valuation hi)
    exact ⟨ρ, hρ, by rw [shownRow_row hregular hhas hi, hshown hagree]⟩
  have hrows : ∀ r ∈ (combined kb selected us).rows, ∃ row, shownRow kb selected r = .ok row := by
    intro r hr
    obtain ⟨ρ, hρ, hreads⟩ := hread r hr
    obtain ⟨row, hrow⟩ := hsolution hρ
    exact ⟨row, hreads.trans hrow⟩
  obtain ⟨rows, hok, hmem⟩ := Outcome.mapM_ok hrows
  refine ⟨(Std.ExtTreeSet.ofList rows).toList, ?_, Std.ExtTreeSet.ordered_toList, fun row => ?_⟩
  · rw [selectRows, hok]
    rfl
  · rw [Ordered.mem_toList_ofList, hmem]
    constructor
    · rintro ⟨r, hr, hrow⟩
      obtain ⟨ρ, hρ, hreads⟩ := hread r hr
      exact ⟨ρ, hρ, hreads.symm.trans hrow⟩
    · rintro ⟨ρ, hρ, hrow⟩
      obtain ⟨i, hi, hagrees⟩ := (hholds ρ).2 ⟨ρ, hρ, fun _ _ => rfl⟩
      refine ⟨_, List.mem_map.2 ⟨i, List.mem_range.2 hi, rfl⟩, ?_⟩
      rw [shownRow_row hregular hhas hi, ← hrow]
      exact hshown fun s hs => Table.agreesAt_iff.1 hagrees _ (hhas s hs)

/-- **What is read off the tables is the answer.** -/
theorem select_answers (hkb : kb.Recorded) (h : Settled kb σ q us)
    (hselection : q.selection ≠ .elements []) :
    ∃ a, select kb q.selection us = .ok a ∧ q.Answers kb a := by
  cases hq : q.selection with
  | boolean =>
    have hsolvable := h.solvable (by rw [hq]; rfl)
    refine ⟨.boolean true, rfl, ?_⟩
    rw [Answers, hq]
    exact ⟨true, rfl, iff_of_true rfl hsolvable⟩
  | elements selected =>
    match selected, hq with
    | [], hq => exact absurd hq hselection
    | [s], hq => exact selectOne_answers hkb h hq
    | s :: s' :: rest, hq =>
      obtain ⟨rows, hok, hanswer⟩ := selectRows_tuples hkb h hq (List.cons_ne_nil _ _)
      refine ⟨_, hok, ?_⟩
      rw [Answers, hq]
      exact ⟨rows, rfl, hanswer⟩

end Query

end ProgramFacts
