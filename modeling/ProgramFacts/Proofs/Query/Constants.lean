import ProgramFacts.Proofs.Query.Exactness
import ProgramFacts.Proofs.Text
/-!
# Queries — comparing constants

A constant is compared by the number that it denotes if that number is a count, and by its
digits otherwise. Leading zeros therefore make no difference below the limit of counts, and
all the difference from there on (`constants_compared_below_limit`).
-/

namespace ProgramFacts

open Text

/-- When two constants pass for equal: they denote the same number, and one that is no count
has to be written in the same way. -/
def SameConstant (c d : String) : Prop :=
  denoted c.toList = denoted d.toList ∧ (denoted c.toList < countLimit ∨ c = d)

instance (c d : String) : Decidable (SameConstant c d) :=
  inferInstanceAs (Decidable (_ ∧ _))

namespace FactBase

variable {kb : FactBase} {c d : String}

/-- A constant below the limit is compared as the number that it denotes. -/
theorem constantValue_of_lt (hc : isNumeral c.toList) (hlt : denoted c.toList < countLimit) :
    constantValue (.name c) = .stmt (denoted c.toList) := by
  simp only [constantValue, count?_of_isNumeral hc hlt, Option.elim_some]

/-- From the limit on it is compared as it is spelled. -/
theorem constantValue_of_le (hc : isNumeral c.toList) (hle : countLimit ≤ denoted c.toList) :
    constantValue (.name c) = .name c := by
  simp only [constantValue, count?_eq_none hc hle, Option.elim_none]

/-- **Two constants are compared by what they denote, or by how they are spelled.** -/
theorem constantValue_eq_iff (hc : isNumeral c.toList) (hd : isNumeral d.toList) :
    constantValue (.name c) = constantValue (.name d) ↔ SameConstant c d := by
  unfold SameConstant
  rcases Nat.lt_or_ge (denoted c.toList) countLimit with hlt | hle
  · rw [constantValue_of_lt hc hlt]
    rcases Nat.lt_or_ge (denoted d.toList) countLimit with hlt' | hle'
    · simp [constantValue_of_lt hd hlt', hlt]
    · rw [constantValue_of_le hd hle']
      exact iff_of_false nofun fun h => by omega
  · rw [constantValue_of_le hc hle]
    rcases Nat.lt_or_ge (denoted d.toList) countLimit with hlt' | hle'
    · rw [constantValue_of_lt hd hlt']
      exact iff_of_false nofun fun h => by omega
    · rw [constantValue_of_le hd hle', Element.name.injEq]
      constructor
      · rintro rfl
        exact ⟨rfl, .inr rfl⟩
      · rintro ⟨-, hlt | rfl⟩
        · omega
        · rfl

/-- A constant is compared with a number below the limit by what it denotes. -/
theorem constantValue_eq_stmt (hc : isNumeral c.toList) {n : Nat} :
    constantValue (.name c) = .stmt n ↔ denoted c.toList = n ∧ n < countLimit := by
  rcases Nat.lt_or_ge (denoted c.toList) countLimit with hlt | hle
  · rw [constantValue_of_lt hc hlt, Element.stmt.injEq]
    exact ⟨fun h => ⟨h, h ▸ hlt⟩, fun h => h.1⟩
  · rw [constantValue_of_le hc hle]
    exact iff_of_false nofun fun h => by omega

/-- The constants of a program are told by their spelling. -/
theorem mem_entities_const {a : Element} :
    a ∈ kb.entities .const ↔ ∃ c ∈ kb.constants, a = .name c := by
  simp only [entities, List.mem_map, Std.ExtTreeSet.mem_toList, eq_comm]

end FactBase

namespace Query

variable {kb : FactBase}

/-- The value of a constant, as one side of a comparison. -/
def constantSide (x : String) : Comparand :=
  ⟨.synonym ⟨.const, x⟩, some .value⟩

/-- Whether a comparison holds of two elements. -/
def Compared (kb : FactBase) (left : Comparand) (a : Element) (right : Comparand) (b : Element) :
    Prop :=
  ∃ value, comparedValue kb left a = .ok value ∧ comparedValue kb right b = .ok value

theorem Compared.comm {left right : Comparand} {a b : Element} :
    Compared kb left a right b ↔ Compared kb right b left a :=
  exists_congr fun _ => and_comm

@[simp]
theorem comparedValue_constantSide (x : String) (a : Element) :
    comparedValue kb (constantSide x) a = .ok (FactBase.constantValue a) :=
  rfl

/-- A constant is compared by its value with whatever the other side gives. -/
theorem compared_constantSide {x : String} {side : Comparand} {a b value : Element}
    (hside : comparedValue kb side b = .ok value) :
    Compared kb (constantSide x) a side b ↔ FactBase.constantValue a = value := by
  simp only [Compared, comparedValue_constantSide, hside, Except.ok.injEq, exists_eq_left',
    @eq_comm _ value]

/-- A side that compares numbers takes the number of a statement as it is. -/
theorem comparedValue_stmt {side : Comparand} (hside : Clause.comparesName side = .ok false)
    (n : Nat) : comparedValue kb side (.stmt n) = .ok (.stmt n) := by
  rcases side with ⟨s | text | m | _ | p, attr⟩
  case synonym =>
    rcases attr with _ | attr
    · rfl
    · have hnumber : attr.isName = false := by
        by_cases happlies : attr.appliesTo s.entity <;> simp_all [Clause.comparesName]
      cases attr with
      | procName | varName => cases hnumber
      | value | stmtNumber =>
        cases h : s.entity <;>
          simp [comparedValue, FactBase.attributeValue, h, FactBase.constantValue]
  all_goals rfl

/-! ## Queries for constants -/

/-- The query for the pairs of constants whose values are equal. -/
def equalConstants (x y : String) : Query where
  declarations := [⟨.const, x⟩, ⟨.const, y⟩]
  selection := .elements [⟨⟨.const, x⟩, none⟩, ⟨⟨.const, y⟩, none⟩]
  clauses := [.equal (constantSide x) (constantSide y)]
  fault := none

/-- The query for the constants whose value is a number. -/
def constantsEqualTo (x : String) (n : Nat) : Query where
  declarations := [⟨.const, x⟩]
  selection := .elements [⟨⟨.const, x⟩, none⟩]
  clauses := [.equal (constantSide x) ⟨.index n, none⟩]
  fault := none

variable {x y : String} {n : Nat} {ρ : Valuation}

theorem mem_occurrences_equalConstants {s : Synonym} :
    s ∈ (equalConstants x y).occurrences ↔ s = ⟨.const, x⟩ ∨ s = ⟨.const, y⟩ := by
  simp only [occurrences, equalConstants, constantSide, List.flatMap_cons, List.flatMap_nil,
    Clause.occurrences, Argument.synonym?, Selection.occurrences, Option.toList_some,
    List.map_cons, List.map_nil, List.mem_append, List.mem_cons, List.not_mem_nil, or_false,
    or_self]

theorem mem_occurrences_constantsEqualTo {s : Synonym} :
    s ∈ (constantsEqualTo x n).occurrences ↔ s = ⟨.const, x⟩ := by
  simp [occurrences, constantsEqualTo, constantSide, Clause.occurrences, Argument.synonym?,
    Selection.occurrences]

/-- **What solves a comparison of two constants.** -/
theorem solution_equalConstants :
    Solution kb ρ (equalConstants x y) ↔ (ρ x ∈ kb.entities .const ∧ ρ y ∈ kb.entities .const) ∧
      Compared kb (constantSide x) (ρ x) (constantSide y) (ρ y) := by
  constructor
  · rintro ⟨hadmits, hsatisfied⟩
    obtain ⟨_, _, value, rfl, rfl, hvalue⟩ := hsatisfied _ List.mem_cons_self
    exact ⟨⟨hadmits ⟨.const, x⟩ (mem_occurrences_equalConstants.2 (.inl rfl)),
      hadmits ⟨.const, y⟩ (mem_occurrences_equalConstants.2 (.inr rfl))⟩, value, hvalue⟩
  · rintro ⟨⟨hx, hy⟩, value, hvalue⟩
    refine ⟨fun s hs => ?_, fun c hc => ?_⟩
    · rcases mem_occurrences_equalConstants.1 hs with rfl | rfl
      · exact hx
      · exact hy
    · obtain rfl := List.mem_singleton.1 hc
      exact ⟨ρ x, ρ y, value, rfl, rfl, hvalue⟩

/-- **What solves a comparison of a constant with a number.** -/
theorem solution_constantsEqualTo :
    Solution kb ρ (constantsEqualTo x n) ↔ ρ x ∈ kb.entities .const ∧
      Compared kb (constantSide x) (ρ x) ⟨.index n, none⟩ (.stmt n) := by
  constructor
  · rintro ⟨hadmits, hsatisfied⟩
    obtain ⟨_, _, value, rfl, rfl, hvalue⟩ := hsatisfied _ List.mem_cons_self
    exact ⟨hadmits ⟨.const, x⟩ (mem_occurrences_constantsEqualTo.2 rfl), value, hvalue⟩
  · rintro ⟨hx, value, hvalue⟩
    refine ⟨fun s hs => ?_, fun c hc => ?_⟩
    · obtain rfl := mem_occurrences_constantsEqualTo.1 hs
      exact hx
    · obtain rfl := List.mem_singleton.1 hc
      exact ⟨ρ x, .stmt n, value, rfl, rfl, hvalue⟩

/-- The answer lists the pairs of constants of which the comparison holds. -/
theorem answer_equalConstants (strategy : Strategy) (hkb : kb.Recorded) (hxy : x ≠ y) :
    ∃ rows, answer kb strategy (equalConstants x y) = .ok (.tuples rows) ∧
      ∀ row, row ∈ rows ↔ ∃ c ∈ kb.constants, ∃ d ∈ kb.constants, row = [c, d] ∧
        Compared kb (constantSide x) (.name c) (constantSide y) (.name d) := by
  have hsorts : (equalConstants x y).OneSort := by
    intro s hs s' hs' _
    rcases mem_occurrences_equalConstants.1 hs with rfl | rfl <;>
      rcases mem_occurrences_equalConstants.1 hs' with rfl | rfl <;> rfl
  have hcheck : ∀ c ∈ (equalConstants x y).clauses, c.check = .ok () := by
    intro c hc
    obtain rfl := List.mem_singleton.1 hc
    rfl
  obtain ⟨_, heval, rows, rfl, -, hrows⟩ := evaluate_answers strategy hkb hsorts rfl hcheck nofun
  refine ⟨rows, by rw [answer, heval], fun row => (hrows row).trans ?_⟩
  have hshown : ∀ {ρ : Valuation} {c d : String}, ρ x = .name c → ρ y = .name d →
      [⟨⟨.const, x⟩, none⟩, ⟨⟨.const, y⟩, none⟩].mapM
        (fun s : Selected => shown kb s (ρ s.synonym.name)) = .ok [c, d] := by
    intro ρ c d hx hy
    simp only [List.mapM_cons, List.mapM_nil, hx, hy]
    rfl
  simp only [solution_equalConstants, FactBase.mem_entities_const]
  constructor
  · rintro ⟨ρ, ⟨⟨⟨c, hc, hx⟩, d, hd, hy⟩, hcompared⟩, hrow⟩
    rw [hx, hy] at hcompared
    exact ⟨c, hc, d, hd, Except.ok.inj (hrow.symm.trans (hshown hx hy)), hcompared⟩
  · rintro ⟨c, hc, d, hd, rfl, hcompared⟩
    obtain ⟨ρ, hx, hy⟩ : ∃ ρ : Valuation, ρ x = .name c ∧ ρ y = .name d :=
      ⟨fun z => if z = x then .name c else .name d, if_pos rfl, if_neg hxy.symm⟩
    refine ⟨ρ, ⟨⟨⟨c, hc, hx⟩, d, hd, hy⟩, ?_⟩, hshown hx hy⟩
    rwa [hx, hy]

/-- The answer lists the constants of which the comparison holds. -/
theorem answer_constantsEqualTo (strategy : Strategy) (hkb : kb.Recorded) :
    ∃ texts, answer kb strategy (constantsEqualTo x n) = .ok (.names texts) ∧
      ∀ c, c ∈ texts ↔ c ∈ kb.constants ∧
        Compared kb (constantSide x) (.name c) ⟨.index n, none⟩ (.stmt n) := by
  have hsorts : (constantsEqualTo x n).OneSort := by
    intro s hs s' hs' _
    rw [mem_occurrences_constantsEqualTo.1 hs, mem_occurrences_constantsEqualTo.1 hs']
  have hcheck : ∀ c ∈ (constantsEqualTo x n).clauses, c.check = .ok () := by
    intro c hc
    obtain rfl := List.mem_singleton.1 hc
    rfl
  obtain ⟨_, heval, texts, rfl, htexts⟩ := evaluate_answers strategy hkb hsorts rfl hcheck nofun
  refine ⟨texts, by rw [answer, heval], fun c => (htexts c).trans ?_⟩
  simp only [solution_constantsEqualTo, FactBase.mem_entities_const]
  constructor
  · rintro ⟨ρ, ⟨⟨c', hc', hx⟩, hcompared⟩, hshown⟩
    obtain rfl : c' = c := by simpa [shown, hx, Element.text] using hshown
    exact ⟨hc', hx ▸ hcompared⟩
  · rintro ⟨hc, hcompared⟩
    exact ⟨fun _ => .name c, ⟨⟨c, hc, rfl⟩, hcompared⟩, rfl⟩

/-! ## The limit -/

/-- The least number that is no count, written without and with a leading zero. -/
def overLimit : FactBase :=
  (FactBase.empty.insertConstant "18446744073709551616").insertConstant "018446744073709551616"

/-- **Two constants that denote the same number need not have equal values**: the answer has each
of these with itself only. -/
theorem same_number_different_value :
    "018446744073709551616" ∈ overLimit.constants ∧ "18446744073709551616" ∈ overLimit.constants ∧
      denoted "018446744073709551616".toList = denoted "18446744073709551616".toList ∧
      answer overLimit .plain (equalConstants "c" "d") =
        .ok (.tuples [["018446744073709551616", "018446744073709551616"],
          ["18446744073709551616", "18446744073709551616"]]) :=
  ⟨by decide +kernel, by decide +kernel, by decide +kernel,
    Outcome.toOption_eq_some.1 (by decide +kernel)⟩

/-- **Constants are compared by the numbers that they denote, below the limit of counts.**
Leading zeros do not matter there; above the limit a constant equals only itself, and no
number of a statement. -/
theorem constants_compared_below_limit (kb : FactBase)
    (hkb : ∀ c ∈ kb.constants, isNumeral c.toList) :
    (∀ x y, ∀ c ∈ kb.constants, ∀ d ∈ kb.constants,
      (Compared kb (constantSide x) (.name c) (constantSide y) (.name d) ↔ SameConstant c d)) ∧
    (∀ x, ∀ c ∈ kb.constants, ∀ side n, Clause.comparesName side = .ok false →
      (Compared kb (constantSide x) (.name c) side (.stmt n) ↔
        denoted c.toList = n ∧ n < countLimit) ∧
      (Compared kb side (.stmt n) (constantSide x) (.name c) ↔
        denoted c.toList = n ∧ n < countLimit)) ∧
    (∀ strategy x y, kb.Recorded → x ≠ y →
      ∃ rows, answer kb strategy (equalConstants x y) = .ok (.tuples rows) ∧
        ∀ row, row ∈ rows ↔
          ∃ c ∈ kb.constants, ∃ d ∈ kb.constants, row = [c, d] ∧ SameConstant c d) ∧
    (∀ strategy x n, kb.Recorded →
      ∃ texts, answer kb strategy (constantsEqualTo x n) = .ok (.names texts) ∧
        ∀ c, c ∈ texts ↔ c ∈ kb.constants ∧ denoted c.toList = n ∧ n < countLimit) := by
  have hpair : ∀ x y, ∀ c ∈ kb.constants, ∀ d ∈ kb.constants,
      (Compared kb (constantSide x) (.name c) (constantSide y) (.name d) ↔ SameConstant c d) :=
    fun x y c hc d hd => (compared_constantSide (comparedValue_constantSide y (.name d))).trans
      (FactBase.constantValue_eq_iff (hkb c hc) (hkb d hd))
  have hnumber : ∀ x, ∀ c ∈ kb.constants, ∀ side n, Clause.comparesName side = .ok false →
      (Compared kb (constantSide x) (.name c) side (.stmt n) ↔
        denoted c.toList = n ∧ n < countLimit) := fun x c hc side n hside =>
    (compared_constantSide (comparedValue_stmt hside n)).trans
      (FactBase.constantValue_eq_stmt (hkb c hc))
  refine ⟨hpair, fun x c hc side n hside => ⟨hnumber x c hc side n hside,
    Compared.comm.trans (hnumber x c hc side n hside)⟩, ?_, ?_⟩
  · intro strategy x y hrecorded hxy
    obtain ⟨rows, hanswer, hrows⟩ := answer_equalConstants strategy hrecorded hxy
    refine ⟨rows, hanswer, fun row => (hrows row).trans ?_⟩
    exact exists_congr fun c => and_congr_right fun hc => exists_congr fun d =>
      and_congr_right fun hd => and_congr_right fun _ => hpair x y c hc d hd
  · intro strategy x n hrecorded
    obtain ⟨texts, hanswer, htexts⟩ := answer_constantsEqualTo strategy hrecorded
    exact ⟨texts, hanswer, fun c => (htexts c).trans
      (and_congr_right fun hc => hnumber x c hc ⟨.index n, none⟩ n rfl)⟩

/-- Two pairs of constants that differ by leading zeros, one below the limit and one above. -/
def zeroPadded : FactBase :=
  (overLimit.insertConstant "7").insertConstant "007"

theorem isNumeral_zeroPadded : ∀ c ∈ zeroPadded.constants, isNumeral c.toList := by
  have hlist : ∀ c ∈ zeroPadded.constants.toList, isNumeral c.toList := by decide +kernel
  exact fun c hc => hlist c (Std.ExtTreeSet.mem_toList.2 hc)

theorem recorded_zeroPadded : zeroPadded.Recorded :=
  ⟨nofun, nofun, nofun⟩

/-- Leading zeros make no difference below the limit, and they do above it. -/
theorem constants_compared_zeroPadded :
    (∀ c ∈ zeroPadded.constants, isNumeral c.toList) ∧ zeroPadded.Recorded ∧
      ∃ rows, answer zeroPadded .full (equalConstants "c" "d") = .ok (.tuples rows) ∧
        ["7", "007"] ∈ rows ∧ ["18446744073709551616", "018446744073709551616"] ∉ rows := by
  obtain ⟨-, -, hanswer, -⟩ := constants_compared_below_limit zeroPadded isNumeral_zeroPadded
  obtain ⟨rows, heval, hrows⟩ := hanswer .full "c" "d" recorded_zeroPadded (by decide)
  refine ⟨isNumeral_zeroPadded, recorded_zeroPadded, rows, heval, (hrows _).2 ?_, fun hrow => ?_⟩
  · exact ⟨"7", by decide +kernel, "007", by decide +kernel, rfl, by decide +kernel⟩
  · obtain ⟨c, -, d, -, hcd, hsame⟩ := (hrows _).1 hrow
    simp only [List.cons.injEq, and_true] at hcd
    obtain ⟨rfl, rfl⟩ := hcd
    exact absurd hsame (by decide +kernel)

end Query

end ProgramFacts
