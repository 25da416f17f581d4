import ProgramFacts.Proofs.Query.Satisfaction
import ProgramFacts.Proofs.Table.Join
/-!
# Queries — candidates and verdicts

A clause is judged on candidates that are read off the tables of the clauses before it.
For a valuation that those tables hold of, the candidates leave out nothing that the
clause could take (`mem_candidates`), and the table made of the candidates that are kept
is a right verdict (`candidates_tells`).
-/

namespace ProgramFacts

namespace Query

variable {kb : FactBase} {σ : String → Entity} {ρ : Valuation} {db : List Table}

/-! ## Tables on the way -/

/-- A table as clauses leave it behind, with only elements of the right sorts in its rows. -/
structure Narrowed (kb : FactBase) (σ : String → Entity) (t : Table) : Prop where
  regular : t.Regular
  sorted : ∀ {ρ}, t.Holds ρ → ∀ {s}, t.has s → ρ s ∈ kb.entities (σ s)

/-- Synonyms are used with their sorts. -/
def Sorted (σ : String → Entity) (occurrences : List Synonym) : Prop :=
  ∀ s ∈ occurrences, s.entity = σ s.name

/-- A valuation gives some synonyms elements of their sorts. -/
def Admits (kb : FactBase) (ρ : Valuation) (occurrences : List Synonym) : Prop :=
  ∀ s ∈ occurrences, ρ s.name ∈ kb.entities s.entity

/-- Every synonym has an element that it can stand for. -/
def Inhabited (kb : FactBase) (occurrences : List Synonym) : Prop :=
  ∀ s ∈ occurrences, ∃ a, a ∈ kb.entities s.entity

/-- All tables hold of a valuation. -/
def HoldAll (db : List Table) (ρ : Valuation) : Prop :=
  ∀ t ∈ db, t.Holds ρ

/-! ## Candidates -/

/-- A synonym may stand for whatever a valuation gives it that the tables hold of. -/
theorem mem_synonymValues {s : Synonym} (hdb : ∀ t ∈ db, Narrowed kb σ t) (hρ : HoldAll db ρ)
    (hs : ρ s.name ∈ kb.entities s.entity) : ρ s.name ∈ synonymValues kb db s := by
  unfold synonymValues
  cases hfind : db.find? (·.has s.name) with
  | none => exact hs
  | some t =>
    have ht := List.mem_of_find?_eq_some hfind
    have hhas := List.find?_some hfind
    exact ((hdb t ht).regular.mem_distinct hhas).2 ⟨ρ, hρ t ht, rfl⟩

/-- What a synonym may stand for is of its sort. -/
theorem entities_of_mem_synonymValues {s : Synonym} (hdb : ∀ t ∈ db, Narrowed kb σ t)
    (hs : s.entity = σ s.name) {a : Element} (ha : a ∈ synonymValues kb db s) :
    a ∈ kb.entities s.entity := by
  unfold synonymValues at ha
  cases hfind : db.find? (·.has s.name) with
  | none => rwa [hfind] at ha
  | some t =>
    rw [hfind] at ha
    have ht := hdb t (List.mem_of_find?_eq_some hfind)
    have hhas := List.find?_some hfind
    obtain ⟨ρ, hρ, rfl⟩ := (ht.regular.mem_distinct hhas).1 ha
    rw [hs]
    exact ht.sorted hρ hhas

/-- What an argument can take that a synonym in it takes from its sort. -/
def Argument.Ranges (kb : FactBase) (sort : Option Entity) (arg : Argument) (a : Element) :
    Prop :=
  (∀ s, arg = .synonym s → a ∈ kb.entities s.entity) ∧
    (arg.synonym? = none → ∀ ρ, arg.Takes kb ρ sort a)

/-- An argument may take whatever it takes under a valuation that the tables hold of. -/
theorem mem_values {sort : Option Entity} {arg : Argument} {a : Element}
    (hdb : ∀ t ∈ db, Narrowed kb σ t) (hρ : HoldAll db ρ)
    (hadmits : Admits kb ρ arg.synonym?.toList) (ha : arg.Takes kb ρ sort a) :
    a ∈ values kb db sort arg := by
  cases arg with
  | synonym s =>
    obtain rfl := ha
    exact mem_synonymValues hdb hρ (hadmits s (by simp [Argument.synonym?]))
  | name text => simpa [values, Argument.Takes] using ha
  | index n => simpa [values, Argument.Takes] using ha
  | wildcard =>
    obtain ⟨e, rfl, ha⟩ := ha
    simpa [values] using ha
  | expr p => exact ha.elim

/-- What an argument may take is in its range. -/
theorem ranges_of_mem_values {sort : Option Entity} {arg : Argument} {a : Element}
    (hdb : ∀ t ∈ db, Narrowed kb σ t) (hsorted : Sorted σ arg.synonym?.toList)
    (ha : a ∈ values kb db sort arg) : Argument.Ranges kb sort arg a := by
  cases arg with
  | synonym s =>
    refine ⟨?_, fun h => by simp [Argument.synonym?] at h⟩
    rintro s' ⟨⟩
    exact entities_of_mem_synonymValues hdb (hsorted s (by simp [Argument.synonym?])) ha
  | name text => exact ⟨by simp, fun _ ρ => by simpa [values, Argument.Takes] using ha⟩
  | index n => exact ⟨by simp, fun _ ρ => by simpa [values, Argument.Takes] using ha⟩
  | wildcard =>
    refine ⟨by simp, fun _ ρ => ?_⟩
    cases sort with
    | none => simp [values] at ha
    | some e => exact ⟨e, rfl, by simpa [values] using ha⟩
  | expr p => simp [values] at ha

/-- The pairs that two synonyms stand for in the tables that have both. -/
theorem mem_jointPairs? {l r : String} (hlr : l ≠ r) (hdb : ∀ t ∈ db, Narrowed kb σ t)
    {pairs : List (Element × Element)} (hpairs : jointPairs? db l r = some pairs) :
    ∃ t ∈ db, t.has l ∧ t.has r ∧
      ∀ a b, (a, b) ∈ pairs ↔ ∃ ρ, t.Holds ρ ∧ ρ l = a ∧ ρ r = b := by
  obtain ⟨t, hfind, hrows⟩ := Option.map_eq_some_iff.1 hpairs
  have ht := List.mem_of_find?_eq_some hfind
  have hhas := List.find?_some hfind
  simp only [Bool.and_eq_true] at hhas
  have hregular := (hdb t ht).regular
  have hnodup : [l, r].Nodup := by simpa using hlr
  have hne : [l, r].filter t.has ≠ [] := by simp [hhas.1]
  have hproject := hregular.project hnodup hne
  have hl : (t.project [l, r]).has l := Table.Regular.has_project.2 (by simp [hhas.1])
  have hr : (t.project [l, r]).has r := Table.Regular.has_project.2 (by simp [hhas.2])
  refine ⟨t, ht, hhas.1, hhas.2, fun a b => ?_⟩
  have hmem : (a, b) ∈ pairs ↔ ∃ ρ, (t.project [l, r]).Holds ρ ∧ ρ l = a ∧ ρ r = b := by
    rw [← hrows]
    simp only [Table.rows, List.filterMap_map, List.mem_filterMap, List.mem_range]
    constructor
    · rintro ⟨i, hi, hrow⟩
      simp only [Function.comp_apply, hproject.valueIn?_row hi, hl, hr, if_true,
        Option.some_inj, Prod.mk.injEq] at hrow
      exact ⟨_, Table.holds_valuation hi, hrow⟩
    · rintro ⟨ρ, ⟨i, hi, hρ⟩, rfl, rfl⟩
      refine ⟨i, hi, ?_⟩
      simp only [Function.comp_apply, hproject.valueIn?_row hi, hl, hr, if_true,
        Table.agreesAt_iff.1 hρ l hl, Table.agreesAt_iff.1 hρ r hr]
  rw [hmem]
  simp only [hregular.holds_project hnodup hne, List.mem_cons, List.not_mem_nil, or_false,
    forall_eq_or_imp, forall_eq]
  constructor
  · rintro ⟨ρ, ⟨ρ', hρ', hl', hr'⟩, rfl, rfl⟩
    exact ⟨ρ', hρ', hl' hhas.1, hr' hhas.2⟩
  · rintro ⟨ρ, hρ, rfl, rfl⟩
    exact ⟨ρ, ⟨ρ, hρ, fun _ => rfl, fun _ => rfl⟩, rfl, rfl⟩

theorem mem_allPairs {as bs : List Element} {a b : Element} :
    (a, b) ∈ allPairs as bs ↔ a ∈ as ∧ b ∈ bs := by
  simp only [allPairs, List.mem_flatMap, List.mem_map, Prod.mk.injEq]
  constructor
  · rintro ⟨a', ha, b', hb, rfl, rfl⟩
    exact ⟨ha, hb⟩
  · rintro ⟨ha, hb⟩
    exact ⟨a, ha, b, hb, rfl, rfl⟩

theorem synonym?_eq_some {arg : Argument} {s : Synonym} :
    arg.synonym? = some s ↔ arg = .synonym s := by
  cases arg <;> simp [Argument.synonym?]

section Candidates

variable {left right : Argument} {leftSort rightSort : Option Entity}

/-- Where candidates come from: one synonym on both sides, a table that has two
synonyms, or each side on its own. -/
theorem candidates_cases (kb : FactBase) (db : List Table) (left : Argument)
    (leftSort : Option Entity) (right : Argument) (rightSort : Option Entity) :
    (∃ s s', left = .synonym s ∧ right = .synonym s' ∧ s.name = s'.name ∧
      candidates kb db left leftSort right rightSort =
        (values kb db leftSort left).map fun a => (a, a)) ∨
    (∃ s s' pairs, left = .synonym s ∧ right = .synonym s' ∧ s.name ≠ s'.name ∧
      jointPairs? db s.name s'.name = some pairs ∧
      candidates kb db left leftSort right rightSort = pairs) ∨
    ((∀ s s', left = .synonym s → right = .synonym s' → s.name ≠ s'.name) ∧
      candidates kb db left leftSort right rightSort =
        allPairs (values kb db leftSort left) (values kb db rightSort right)) := by
  cases left with
  | synonym s =>
    cases right with
    | synonym s' =>
      by_cases hname : s.name = s'.name
      · exact .inl ⟨s, s', rfl, rfl, hname,
          by simp [candidates, Argument.synonymName?, Argument.synonym?, hname]⟩
      · cases hjoint : jointPairs? db s.name s'.name with
        | some pairs =>
          exact .inr (.inl ⟨s, s', pairs, rfl, rfl, hname, hjoint,
            by simp [candidates, Argument.synonymName?, Argument.synonym?, hname, hjoint]⟩)
        | none =>
          refine .inr (.inr ⟨?_, by
            simp [candidates, Argument.synonymName?, Argument.synonym?, hname, hjoint]⟩)
          rintro _ _ ⟨⟩ ⟨⟩
          exact hname
    | _ => exact .inr (.inr ⟨by simp, rfl⟩)
  | _ => exact .inr (.inr ⟨by simp, rfl⟩)

/-- **The candidates leave out nothing**: what the arguments take under a valuation that
the tables hold of is among them. -/
theorem mem_candidates {a b : Element} (hdb : ∀ t ∈ db, Narrowed kb σ t) (hρ : HoldAll db ρ)
    (hleft : Admits kb ρ left.synonym?.toList) (hright : Admits kb ρ right.synonym?.toList)
    (ha : left.Takes kb ρ leftSort a) (hb : right.Takes kb ρ rightSort b) :
    (a, b) ∈ candidates kb db left leftSort right rightSort := by
  have hva := mem_values hdb hρ hleft ha
  have hvb := mem_values hdb hρ hright hb
  rcases candidates_cases kb db left leftSort right rightSort with
    ⟨s, s', rfl, rfl, hname, heq⟩ | ⟨s, s', pairs, rfl, rfl, hname, hjoint, heq⟩ | ⟨-, heq⟩
  · rw [heq]
    obtain rfl : a = ρ s.name := ha
    obtain rfl : b = ρ s'.name := hb
    exact List.mem_map.2 ⟨_, hva, by rw [hname]⟩
  · rw [heq]
    obtain rfl : a = ρ s.name := ha
    obtain rfl : b = ρ s'.name := hb
    obtain ⟨t, ht, -, -, hpairs⟩ := mem_jointPairs? hname hdb hjoint
    exact (hpairs _ _).2 ⟨ρ, hρ t ht, rfl, rfl⟩
  · rw [heq]
    exact mem_allPairs.2 ⟨hva, hvb⟩

/-- A candidate is something that the arguments could take, and one synonym on both
sides takes the same. -/
theorem ranges_of_mem_candidates {a b : Element} (hdb : ∀ t ∈ db, Narrowed kb σ t)
    (hleft : Sorted σ left.synonym?.toList) (hright : Sorted σ right.synonym?.toList)
    (hab : (a, b) ∈ candidates kb db left leftSort right rightSort) :
    Argument.Ranges kb leftSort left a ∧ Argument.Ranges kb rightSort right b ∧
      ∀ s s', left = .synonym s → right = .synonym s' → s.name = s'.name → a = b := by
  rcases candidates_cases kb db left leftSort right rightSort with
    ⟨s, s', rfl, rfl, hname, heq⟩ | ⟨s, s', pairs, rfl, rfl, hname, hjoint, heq⟩ | ⟨hne, heq⟩
  · rw [heq] at hab
    obtain ⟨a', ha', hpair⟩ := List.mem_map.1 hab
    obtain ⟨rfl, rfl⟩ := Prod.mk.inj hpair
    have ha := ranges_of_mem_values hdb hleft ha'
    have hentity : s.entity = s'.entity := by
      rw [hleft s (by simp [Argument.synonym?]), hright s' (by simp [Argument.synonym?]), hname]
    refine ⟨ha, ⟨?_, fun h => by simp [Argument.synonym?] at h⟩, fun _ _ _ _ _ => rfl⟩
    rintro _ ⟨⟩
    rw [← hentity]
    exact ha.1 s rfl
  · rw [heq] at hab
    obtain ⟨t, ht, hl, hr, hpairs⟩ := mem_jointPairs? hname hdb hjoint
    obtain ⟨ρ, hρ, rfl, rfl⟩ := (hpairs a b).1 hab
    refine ⟨⟨?_, fun h => by simp [Argument.synonym?] at h⟩,
      ⟨?_, fun h => by simp [Argument.synonym?] at h⟩, ?_⟩
    · rintro _ ⟨⟩
      rw [hleft s (by simp [Argument.synonym?])]
      exact (hdb t ht).sorted hρ hl
    · rintro _ ⟨⟩
      rw [hright s' (by simp [Argument.synonym?])]
      exact (hdb t ht).sorted hρ hr
    · rintro _ _ ⟨⟩ ⟨⟩ h
      exact absurd h hname
  · rw [heq] at hab
    obtain ⟨ha, hb⟩ := mem_allPairs.1 hab
    exact ⟨ranges_of_mem_values hdb hleft ha, ranges_of_mem_values hdb hright hb,
      fun s s' hs hs' h => absurd h (hne s s' hs hs')⟩

end Candidates

/-! ## Verdicts -/

/-- **A verdict is right** about what is asked of the valuations at hand: if it fails,
none of them meets it; otherwise those meet it that its table holds of, and every
synonym that was judged has something to stand for. -/
def Verdict.Tells (kb : FactBase) (σ : String → Entity) (occurrences : List Synonym)
    (AtHand Asked : Valuation → Prop) : Verdict → Prop
  | .fails => ∀ ρ, AtHand ρ → ¬ Asked ρ
  | .holds table =>
    Inhabited kb occurrences ∧ (∀ t ∈ table, Narrowed kb σ t) ∧
      ∀ ρ, AtHand ρ → ((∀ t ∈ table, t.Holds ρ) ↔ Asked ρ)

/-- A verdict stays right for fewer valuations, and for what they cannot tell apart. -/
theorem Verdict.Tells.imp {occurrences : List Synonym}
    {AtHand AtHand' Asked Asked' : Valuation → Prop} {v : Verdict}
    (h : v.Tells kb σ occurrences AtHand Asked) (himp : ∀ ρ, AtHand' ρ → AtHand ρ)
    (hiff : ∀ ρ, AtHand' ρ → (Asked ρ ↔ Asked' ρ)) :
    v.Tells kb σ occurrences AtHand' Asked' := by
  cases v with
  | fails => exact fun ρ hρ => (not_congr (hiff ρ hρ)).1 (h ρ (himp ρ hρ))
  | holds table => exact ⟨h.1, h.2.1, fun ρ hρ => (h.2.2 ρ (himp ρ hρ)).trans (hiff ρ hρ)⟩

theorem mem_distinctValues {values : List Element} {a : Element} :
    a ∈ distinctValues values ↔ a ∈ values :=
  Ordered.mem_toList_ofList

theorem mem_distinctPairs {pairs : List (Element × Element)} {p : Element × Element} :
    p ∈ distinctPairs pairs ↔ p ∈ pairs :=
  Ordered.mem_toList_ofList

/-- The elements of one synonym are a verdict on what holds of a valuation if and only
if it gives the synonym one of them. -/
theorem single_tells {name : String} {values : List Element} {occurrences : List Synonym}
    {Asked : Valuation → Prop} (hvalues : ∀ a ∈ values, a ∈ kb.entities (σ name))
    (hinhabited : Inhabited kb occurrences)
    (hasked : ∀ ρ : Valuation, ρ name ∈ values ↔ Asked ρ) :
    (Verdict.holds (some (.single name (distinctValues values)))).Tells kb σ occurrences
      (fun _ => True) Asked := by
  refine ⟨hinhabited, ?_, fun ρ _ => ?_⟩
  · rintro t ⟨⟩
    refine ⟨(Table.regular_single name _).1, fun hρ s hs => ?_⟩
    rw [Table.has_single.1 hs]
    exact hvalues _ (mem_distinctValues.1 (Table.holds_single.1 hρ))
  · simp only [Option.mem_some_iff, forall_eq', Table.holds_single, mem_distinctValues]
    exact hasked ρ

/-- The pairs of two synonyms are a verdict on what holds of a valuation if and only if it gives
them one of the pairs. -/
theorem pair_tells {l r : String} {pairs : List (Element × Element)}
    {occurrences : List Synonym} {Asked : Valuation → Prop} (hlr : l ≠ r)
    (hpairs : ∀ a b, (a, b) ∈ pairs → a ∈ kb.entities (σ l) ∧ b ∈ kb.entities (σ r))
    (hinhabited : Inhabited kb occurrences)
    (hasked : ∀ ρ : Valuation, (ρ l, ρ r) ∈ pairs ↔ Asked ρ) :
    (Verdict.holds (some (.pair l r (distinctPairs pairs)))).Tells kb σ occurrences
      (fun _ => True) Asked := by
  refine ⟨hinhabited, ?_, fun ρ _ => ?_⟩
  · rintro t ⟨⟩
    refine ⟨(Table.regular_pair hlr _).1, fun hρ s hs => ?_⟩
    have hmem := hpairs _ _ (mem_distinctPairs.1 ((Table.holds_pair hlr).1 hρ))
    rcases (Table.has_pair hlr).1 hs with rfl | rfl
    · exact hmem.1
    · exact hmem.2
  · simp only [Option.mem_some_iff, forall_eq', Table.holds_pair hlr, mem_distinctPairs]
    exact hasked ρ

section Bind

variable {left right : Argument} {leftSort rightSort : Option Entity}
  {pairs : List (Element × Element)}

/-- What pairs have to be like for a verdict on them. -/
def Judged (kb : FactBase) (left right : Argument) (leftSort rightSort : Option Entity)
    (pairs : List (Element × Element)) : Prop :=
  ∀ a b, (a, b) ∈ pairs → Argument.Ranges kb leftSort left a ∧
    Argument.Ranges kb rightSort right b ∧
    ∀ s s', left = .synonym s → right = .synonym s' → s.name = s'.name → a = b

/-- A pair shows that both sides have something to stand for. -/
theorem Judged.inhabited (hpairs : Judged kb left right leftSort rightSort pairs)
    (hne : pairs ≠ []) : Inhabited kb (left.synonym?.toList ++ right.synonym?.toList) := by
  obtain ⟨⟨a, b⟩, hab⟩ := List.exists_mem_of_ne_nil pairs hne
  obtain ⟨ha, hb, -⟩ := hpairs a b hab
  intro s hs
  simp only [List.mem_append, Option.mem_toList, synonym?_eq_some] at hs
  exact hs.elim (fun hs => ⟨a, ha.1 s hs⟩) fun hs => ⟨b, hb.1 s hs⟩

/-- The verdict on pairs is right if one side of them, or what both sides share, says which
pair is taken. -/
theorem side_tells {name : String} {side : Element × Element → Element}
    {occurrences : List Synonym}
    (hentities : ∀ a b, (a, b) ∈ pairs → side (a, b) ∈ kb.entities (σ name))
    (hinhabited : Inhabited kb occurrences)
    (htakes : ∀ (ρ : Valuation) a b, (a, b) ∈ pairs →
      (side (a, b) = ρ name ↔ left.Takes kb ρ leftSort a ∧ right.Takes kb ρ rightSort b)) :
    (Verdict.holds (some (.single name (distinctValues (pairs.map side))))).Tells kb σ occurrences
      (fun _ => True) fun ρ => ∃ a b, (a, b) ∈ pairs ∧ left.Takes kb ρ leftSort a ∧
        right.Takes kb ρ rightSort b := by
  refine single_tells ?_ hinhabited fun ρ => ⟨fun hmem => ?_, ?_⟩
  · intro a ha
    obtain ⟨⟨a, b⟩, hab, rfl⟩ := List.mem_map.1 ha
    exact hentities a b hab
  · obtain ⟨⟨a, b⟩, hab, ha⟩ := List.mem_map.1 hmem
    exact ⟨a, b, hab, (htakes ρ a b hab).1 ha⟩
  · rintro ⟨a, b, hab, htaken⟩
    exact List.mem_map.2 ⟨(a, b), hab, (htakes ρ a b hab).2 htaken⟩

/-- **The verdict on pairs is right** about whether a pair can be taken. -/
theorem bind_tells (hpairs : Judged kb left right leftSort rightSort pairs)
    (hleft : Sorted σ left.synonym?.toList) (hright : Sorted σ right.synonym?.toList) :
    (bind left right pairs).Tells kb σ (left.synonym?.toList ++ right.synonym?.toList)
      (fun _ => True) fun ρ => ∃ a b, (a, b) ∈ pairs ∧ left.Takes kb ρ leftSort a ∧
        right.Takes kb ρ rightSort b := by
  by_cases hne : pairs = []
  · simp [bind, hne, Verdict.Tells]
  have hinhabited := hpairs.inhabited hne
  have hisEmpty : pairs.isEmpty = false := List.isEmpty_eq_false_iff.2 hne
  have hfst : ∀ s, left.synonym? = some s → ∀ a b, (a, b) ∈ pairs → a ∈ kb.entities (σ s.name) := by
    intro s hs a b hab
    rw [← hleft s (by simp [hs])]
    exact (hpairs a b hab).1.1 s (synonym?_eq_some.1 hs)
  have hsnd : ∀ s, right.synonym? = some s → ∀ a b, (a, b) ∈ pairs →
      b ∈ kb.entities (σ s.name) := by
    intro s hs a b hab
    rw [← hright s (by simp [hs])]
    exact (hpairs a b hab).2.1.1 s (synonym?_eq_some.1 hs)
  cases hl : left.synonym? with
  | some s =>
    obtain rfl := synonym?_eq_some.1 hl
    cases hr : right.synonym? with
    | some s' =>
      obtain rfl := synonym?_eq_some.1 hr
      by_cases hname : s.name = s'.name
      · have hbind : bind (.synonym s) (.synonym s') pairs =
            .holds (some (.single s.name (distinctValues (pairs.map Prod.fst)))) := by
          simp [bind, hisEmpty, Argument.synonymName?, Argument.synonym?, hname]
        rw [hbind]
        refine side_tells (hfst s rfl) hinhabited fun ρ a b hab => ⟨fun ha => ⟨ha, ?_⟩, And.left⟩
        -- one synonym on both sides has one element
        rw [← (hpairs a b hab).2.2 s s' rfl rfl hname]
        exact ha.trans (congrArg ρ hname)
      · have hbind : bind (.synonym s) (.synonym s') pairs =
            .holds (some (.pair s.name s'.name (distinctPairs pairs))) := by
          simp [bind, hisEmpty, Argument.synonymName?, Argument.synonym?, hname]
        rw [hbind]
        refine pair_tells hname (fun a b hab => ?_) hinhabited fun ρ => ⟨fun hmem => ?_, ?_⟩
        · exact ⟨hfst s rfl a b hab, hsnd s' rfl a b hab⟩
        · exact ⟨_, _, hmem, rfl, rfl⟩
        · rintro ⟨a, b, hab, rfl, rfl⟩
          exact hab
    | none =>
      have hbind : bind (.synonym s) right pairs =
          .holds (some (.single s.name (distinctValues (pairs.map Prod.fst)))) := by
        simp only [bind, hisEmpty, Argument.synonymName?, hl, hr]
        rfl
      rw [hbind, ← hl, ← hr]
      exact side_tells (hfst s rfl) hinhabited fun ρ a b hab =>
        (and_iff_left ((hpairs a b hab).2.1.2 hr ρ)).symm
  | none =>
    cases hr : right.synonym? with
    | some s' =>
      obtain rfl := synonym?_eq_some.1 hr
      have hbind : bind left (.synonym s') pairs =
          .holds (some (.single s'.name (distinctValues (pairs.map Prod.snd)))) := by
        simp only [bind, hisEmpty, Argument.synonymName?, hl, hr]
        rfl
      rw [hbind, ← hl, ← hr]
      exact side_tells (hsnd s' rfl) hinhabited fun ρ a b hab =>
        (and_iff_right ((hpairs a b hab).1.2 hl ρ)).symm
    | none =>
      have hbind : bind left right pairs = .holds none := by
        simp [bind, hisEmpty, Argument.synonymName?, hl, hr]
      rw [hbind]
      refine ⟨by simp [Inhabited], by simp, fun ρ _ => ?_⟩
      obtain ⟨⟨a, b⟩, hab⟩ := List.exists_mem_of_ne_nil pairs hne
      obtain ⟨ha, hb, -⟩ := hpairs a b hab
      simp only [Option.not_mem_none, false_imp_iff, implies_true, true_iff]
      exact ⟨a, b, hab, ha.2 hl ρ, hb.2 hr ρ⟩

/-- **The verdict on the candidates that are kept is right** about the valuations that the
tables so far hold of. -/
theorem candidates_tells {Keep : Element → Element → Prop} (hdb : ∀ t ∈ db, Narrowed kb σ t)
    (hleft : Sorted σ left.synonym?.toList) (hright : Sorted σ right.synonym?.toList)
    (hpairs : ∀ a b, (a, b) ∈ pairs ↔
      (a, b) ∈ candidates kb db left leftSort right rightSort ∧ Keep a b) :
    (bind left right pairs).Tells kb σ (left.synonym?.toList ++ right.synonym?.toList)
      (fun ρ => HoldAll db ρ ∧ Admits kb ρ (left.synonym?.toList ++ right.synonym?.toList))
      fun ρ => ∃ a b, left.Takes kb ρ leftSort a ∧ right.Takes kb ρ rightSort b ∧ Keep a b := by
  have hjudged : Judged kb left right leftSort rightSort pairs := fun a b hab =>
    ranges_of_mem_candidates hdb hleft hright ((hpairs a b).1 hab).1
  refine (bind_tells hjudged hleft hright).imp (fun _ _ => trivial) ?_
  rintro ρ ⟨hρ, hadmits⟩
  constructor
  · rintro ⟨a, b, hab, ha, hb⟩
    exact ⟨a, b, ha, hb, ((hpairs a b).1 hab).2⟩
  · rintro ⟨a, b, ha, hb, hkeep⟩
    have hcandidate := mem_candidates hdb hρ (fun s hs => hadmits s (List.mem_append_left _ hs))
      (fun s hs => hadmits s (List.mem_append_right _ hs)) ha hb
    exact ⟨a, b, (hpairs a b).2 ⟨hcandidate, hkeep⟩, ha, hb⟩

/-- The same for candidates that are filtered. -/
theorem filter_tells {keep : Element × Element → Bool} (hdb : ∀ t ∈ db, Narrowed kb σ t)
    (hleft : Sorted σ left.synonym?.toList) (hright : Sorted σ right.synonym?.toList) :
    (bind left right ((candidates kb db left leftSort right rightSort).filter keep)).Tells kb σ
      (left.synonym?.toList ++ right.synonym?.toList)
      (fun ρ => HoldAll db ρ ∧ Admits kb ρ (left.synonym?.toList ++ right.synonym?.toList))
      fun ρ => ∃ a b, left.Takes kb ρ leftSort a ∧ right.Takes kb ρ rightSort b ∧ keep (a, b) :=
  candidates_tells hdb hleft hright fun _ _ => List.mem_filter

end Bind

end Query

end ProgramFacts
