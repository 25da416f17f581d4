import ProgramFacts.Proofs.Sorting
import ProgramFacts.Strategy
import Mathlib.Data.Finset.Card
import Mathlib.Data.Prod.Lex
/-!
# Strategies — clauses in a normal form

Whatever a strategy is asked to do with clauses, it does by keeping some of their places and putting
these in an order (`map_placed`): all places, or those of first occurrences; as they come, or by the
width of the clauses. What comes out has no repetition and ascends, as far as that was asked for, and
such clauses stay as they are (`arrange_eq_self`); so to arrange them twice is to arrange them once.
-/

namespace ProgramFacts

/-! ## How wide a clause is -/

namespace Clause

/-- **The width of a clause**: how many different synonyms it has, and then the rank of its form. -/
def width (c : Clause) : Nat ×ₗ Nat :=
  toLex (c.synonyms.toFinset.card, c.rank)

theorem nodup_distinctNames (a b : Option String) : (distinctNames a b).Nodup := by
  fun_cases distinctNames a b <;> simp_all

/-- A clause lists each of its synonyms once. -/
theorem nodup_synonyms (c : Clause) : c.synonyms.Nodup := by
  cases c <;> exact nodup_distinctNames _ _

/-- A clause leads another if it is no wider. -/
theorem leads_eq_byKey : leads = Sorting.byKey width := by
  funext c d
  rw [Bool.eq_iff_iff, Sorting.byKey_iff, Prod.Lex.le_iff]
  simp [leads, width, List.toFinset_card_of_nodup (nodup_synonyms _)]

end Clause

namespace Strategy

variable {s : Strategy} {clauses : List Clause} {c : Clause}

/-! ## What is kept -/

/-- The clauses that are kept, each with its place. -/
def kept (s : Strategy) (clauses : List Clause) : List (Clause × Nat) :=
  clauses.zipIdx.filter fun x => !s.dedup || x.1 ∉ clauses.take x.2

/-- What is kept of clauses, with their places: all of them, or the first of each. -/
theorem mem_kept {i : Nat} :
    (c, i) ∈ s.kept clauses ↔ clauses[i]? = some c ∧ (s.dedup → c ∉ clauses.take i) := by
  rw [kept, List.mem_filter, List.mem_zipIdx_iff_getElem?]
  cases s.dedup <;> simp

/-- Places ascend as long as nothing is sorted. -/
theorem pairwise_kept (s : Strategy) (clauses : List Clause) :
    (s.kept clauses).Pairwise fun x y => x.2 < y.2 := by
  have hplaces := @List.pairwise_lt_range' 0 clauses.length 1 (by omega)
  rw [← List.zipIdx_map_snd, List.pairwise_map] at hplaces
  exact hplaces.filter _

/-- Without their places these are the clauses before sorting. -/
theorem map_kept (s : Strategy) (clauses : List Clause) :
    (s.kept clauses).map Prod.fst = if s.dedup then clauses.eraseDups else clauses := by
  cases hdedup : s.dedup with
  | false => simp [kept, hdedup]
  | true => simp [kept, hdedup, Sorting.eraseDups_eq_map]

/-! ## How it is ordered -/

/-- Whether a clause goes before another, each given with its place. Sorting goes by their widths,
and by their places if they are equally wide. -/
def Precedes (s : Strategy) (x y : Clause × Nat) : Prop :=
  if s.sort then x.1.width < y.1.width ∨ x.1.width = y.1.width ∧ x.2 < y.2 else x.2 < y.2

/-- The clauses that are kept, each with its place, in the order of a strategy. -/
def placed (s : Strategy) (clauses : List Clause) : List (Clause × Nat) :=
  if s.sort then (s.kept clauses).mergeSort (Sorting.byKey fun x => x.1.width)
  else s.kept clauses

theorem mem_placed {x : Clause × Nat} : x ∈ s.placed clauses ↔ x ∈ s.kept clauses := by
  unfold placed
  split
  · exact List.mem_mergeSort
  · rfl

/-- **Places decide where the widths do not**, as sorting is stable. -/
theorem pairwise_placed (s : Strategy) (clauses : List Clause) :
    (s.placed clauses).Pairwise s.Precedes := by
  unfold placed Precedes
  split
  · exact Sorting.pairwise_mergeSort_of_pairwise (s.pairwise_kept clauses)
  · exact s.pairwise_kept clauses

/-- Without their places these are the clauses as arranged. -/
theorem map_placed (s : Strategy) (clauses : List Clause) :
    (s.placed clauses).map Prod.fst = s.arrange clauses := by
  unfold placed arrange
  rw [Clause.leads_eq_byKey, ← map_kept]
  split
  · exact List.map_mergeSort fun _ _ _ _ => rfl
  · rfl

/-- A strategy keeps every clause and adds none. -/
theorem mem_arrange : c ∈ s.arrange clauses ↔ c ∈ clauses := by
  unfold arrange
  dsimp only
  split <;> split <;> simp [List.mem_mergeSort]

/-! ## Normal forms -/

/-- Where repetitions are dropped there are none. -/
theorem nodup_arrange (hdedup : s.dedup) (clauses : List Clause) : (s.arrange clauses).Nodup := by
  have hnodup := Sorting.nodup_eraseDups clauses
  rw [arrange, if_pos hdedup]
  split
  · exact (List.mergeSort_perm _ _).nodup_iff.2 hnodup
  · exact hnodup

/-- Where clauses are sorted their widths ascend. -/
theorem pairwise_arrange (hsort : s.sort) (clauses : List Clause) :
    (s.arrange clauses).Pairwise fun c d => c.width ≤ d.width := by
  rw [arrange, if_pos hsort, Clause.leads_eq_byKey]
  exact Sorting.pairwise_mergeSort _ _

/-- Clauses that are as a strategy wants them stay as they are. -/
theorem arrange_eq_self (hdedup : s.dedup → clauses.Nodup)
    (hsort : s.sort → clauses.Pairwise fun c d => c.width ≤ d.width) :
    s.arrange clauses = clauses := by
  have hkept : (if s.dedup then clauses.eraseDups else clauses) = clauses := by
    split
    · next h => exact Sorting.eraseDups_of_nodup (hdedup h)
    · rfl
  rw [arrange, hkept]
  split
  · next h =>
    rw [Clause.leads_eq_byKey]
    exact List.mergeSort_of_pairwise ((hsort h).imp Sorting.byKey_iff.2)
  · rfl

/-- **Arranging clauses puts them into a normal form.** It does nothing to clauses that it has
arranged, and neither adds nor loses one. If repetitions are dropped there are none, and what is kept
of each clause is its first place; if clauses are sorted they ascend by their width, and equally wide
ones are in the order of their places. Repetitions can be dropped before sorting or after. -/
theorem arrange_normalises (s : Strategy) (clauses : List Clause) :
    s.arrange (s.arrange clauses) = s.arrange clauses ∧
    (∀ c, c ∈ s.arrange clauses ↔ c ∈ clauses) ∧
    (s.dedup → (s.arrange clauses).Nodup) ∧
    (s.sort → (s.arrange clauses).Pairwise fun c d => c.width ≤ d.width) ∧
    (∃ items : List (Clause × Nat), items.map Prod.fst = s.arrange clauses ∧
      (∀ c i, (c, i) ∈ items ↔ clauses[i]? = some c ∧ (s.dedup → c ∉ clauses.take i)) ∧
      items.Pairwise s.Precedes) ∧
    { s with dedup := true, sort := false }.arrange
        ({ s with dedup := false, sort := true }.arrange clauses) =
      { s with dedup := false, sort := true }.arrange
        ({ s with dedup := true, sort := false }.arrange clauses) := by
  have hnodup : s.dedup → (s.arrange clauses).Nodup := fun h => nodup_arrange h clauses
  have hsorted : s.sort → (s.arrange clauses).Pairwise fun c d => c.width ≤ d.width :=
    fun h => pairwise_arrange h clauses
  refine ⟨arrange_eq_self hnodup hsorted, fun c => mem_arrange, hnodup, hsorted, ?_, ?_⟩
  · exact ⟨s.placed clauses, map_placed s clauses, fun c i => mem_placed.trans mem_kept,
      pairwise_placed s clauses⟩
  · show (clauses.mergeSort Clause.leads).eraseDups = clauses.eraseDups.mergeSort Clause.leads
    rw [Clause.leads_eq_byKey]
    exact Sorting.eraseDups_mergeSort Clause.width clauses

/-- A clause that comes twice and has more synonyms than the others is kept once, and comes last.
Of the others, with one synonym each, the comparison comes first and the pattern last. -/
theorem arrange_repeatedWide :
    let compared : Clause := .equal ⟨.synonym ⟨.stmt, "s"⟩, some .stmtNumber⟩ ⟨.index 3, none⟩
    let related : Clause := .suchThat .follows (.synonym ⟨.stmt, "s"⟩) .wildcard
    let matched : Clause := .pattern ⟨.assign, "a"⟩ .wildcard .wildcard
    let wide : Clause := .suchThat .follows (.synonym ⟨.stmt, "s"⟩) (.synonym ⟨.stmt, "t"⟩)
    full.dedup ∧ full.sort ∧ full.arrange [wide, matched, related, wide, compared] =
      [compared, related, matched, wide] := by
  intro compared related matched wide
  obtain ⟨-, hmem, hnodup, hsorted, -⟩ :=
    arrange_normalises full [wide, matched, related, wide, compared]
  have hwidths : [compared, related, matched, wide].Pairwise fun c d => c.width < d.width := by
    decide +kernel
  have hperm : (full.arrange [wide, matched, related, wide, compared]).Perm
      [compared, related, matched, wide] := by
    refine (List.perm_ext_iff_of_nodup (hnodup rfl) (by decide)).2 fun c => (hmem c).trans ?_
    simp only [List.mem_cons, List.not_mem_nil, or_false]
    grind only
  have hinj : ∀ c ∈ [compared, related, matched, wide], ∀ d ∈ [compared, related, matched, wide],
      c.width = d.width → c = d := by
    decide +kernel
  refine ⟨rfl, rfl, hperm.eq_of_pairwise (fun c d hc hd hcd hdc => ?_) (hsorted rfl) ?_⟩
  · exact hinj c (hperm.subset hc) d hd (le_antisymm hcd hdc)
  · exact hwidths.imp le_of_lt

end Strategy

end ProgramFacts
