import ProgramFacts.Proofs.Outcome
import ProgramFacts.Text.Blank
import ProgramFacts.Text.Count
import ProgramFacts.Text.Word
import Mathlib.Data.List.Basic
/-!
# Text — white space, words and counts

White space around a word can be trimmed and squeezed without touching the word
(`trimStart_append`, `squeeze_append`, `trimEnd_append`), and the longest name or numeral
at the front of a text is the one that stands there, if neither a letter nor a digit
follows (`takeName?_append`, `takeNumeral?_append`). A count is read off the digits that
denote it, with or without a plus sign, and off nothing else (`readCount_eq_ok`).
-/

namespace ProgramFacts

namespace Text

variable {c : Char} {gap word cs : List Char}

/-! ## Characters -/

theorem isAlpha_iff : c.isAlpha ↔
    (65 ≤ c.toNat ∧ c.toNat ≤ 90) ∨ (97 ≤ c.toNat ∧ c.toNat ≤ 122) := by
  have hcodes : c.isAlpha = (decide ('A'.val ≤ c.val ∧ c.val ≤ 'Z'.val) ||
      (decide ('a'.val ≤ c.val) && decide (c.val ≤ 'z'.val))) := rfl
  rw [hcodes]
  simp only [Bool.or_eq_true, Bool.and_eq_true, decide_eq_true_eq, UInt32.le_iff_toNat_le]
  rfl

theorem isDigit_iff : c.isDigit ↔ 48 ≤ c.toNat ∧ c.toNat ≤ 57 := by
  simp only [Char.isDigit, Bool.and_eq_true, decide_eq_true_eq, UInt32.le_iff_toNat_le, ge_iff_le]
  rfl

/-- Digits are no letters. -/
theorem isAlpha_of_isDigit (h : c.isDigit) : c.isAlpha = false := by
  rw [isDigit_iff] at h
  rw [Bool.eq_false_iff, ne_eq, isAlpha_iff]
  omega

/-- Letters and digits are not blank. -/
theorem isBlank_of_isAlphanum (h : c.isAlphanum) : isBlank c = false := by
  simp only [Char.isAlphanum, Bool.or_eq_true, isAlpha_iff, isDigit_iff] at h
  simp only [isBlank, Bool.or_eq_false_iff, Bool.and_eq_false_iff, decide_eq_false_iff_not,
    beq_eq_false_iff_ne]
  omega

theorem isAlphanum_of_isBlank (h : isBlank c) : c.isAlphanum = false :=
  Bool.eq_false_iff.2 fun hc => by simp [isBlank_of_isAlphanum hc] at h

theorem isDigit_of_isAlphanum (h : c.isAlphanum = false) : c.isDigit = false := by
  simp only [Char.isAlphanum, Bool.or_eq_false_iff] at h
  exact h.2

/-- Names have letters and digits only. -/
theorem isAlphanum_of_mem_name (hword : isName word) : ∀ c ∈ word, c.isAlphanum := by
  cases word with
  | nil => cases hword
  | cons c cs =>
    simp only [isName, Bool.and_eq_true, List.all_eq_true] at hword
    exact List.forall_mem_cons.2 ⟨by simp [Char.isAlphanum, hword.1], hword.2⟩

/-- Numerals have digits only. -/
theorem isDigit_of_mem_numeral (hword : isNumeral word) : ∀ c ∈ word, c.isDigit := by
  cases word with
  | nil => cases hword
  | cons c cs =>
    simp only [isNumeral, Bool.and_eq_true, List.all_eq_true] at hword
    exact List.forall_mem_cons.2 hword

theorem eq_false_of_all {p : Char → Bool} (h : cs.all (!p ·)) : ∀ c ∈ cs, p c = false := by
  simpa using h

/-! ## White space -/

/-- A text that is empty or starts with something else than white space. -/
def Trimmed (cs : List Char) : Prop := ∀ c ∈ cs.head?, isBlank c = false

/-- What was trimmed at its front is trimmed there. -/
theorem trimmed_trimStart (cs : List Char) : Trimmed (trimStart cs) := by
  intro c hc
  have hnot := List.head?_dropWhile_not isBlank cs
  rw [show cs.dropWhile isBlank = trimStart cs from rfl, Option.mem_def.1 hc] at hnot
  simpa using hnot

/-- Where there is nothing to trim nothing is trimmed. -/
theorem trimStart_of_trimmed (h : Trimmed cs) : trimStart cs = cs := by
  cases cs with
  | nil => rfl
  | cons c cs => simp [trimStart, h c rfl]

/-- A gap in front is trimmed away. -/
theorem trimStart_append (hgap : gap.all isBlank) (cs : List Char) :
    trimStart (gap ++ cs) = trimStart cs :=
  List.dropWhile_append_of_pos (List.all_eq_true.1 hgap)

/-- Trimming stops where something else than white space starts. -/
theorem trimStart_append_of_trimmed (cs : List Char) {rest : List Char} (hrest : Trimmed rest) :
    trimStart (cs ++ rest) = trimStart cs ++ rest := by
  rw [trimStart, List.dropWhile_append]
  split
  · next hempty =>
    rw [show trimStart cs = [] from List.isEmpty_iff.1 hempty]
    exact trimStart_of_trimmed hrest
  · rfl

theorem trimStart_blank (hgap : gap.all isBlank) : trimStart gap = [] := by
  simpa [trimStart] using trimStart_append hgap []

/-- A word in front is kept, if it does not end blank. -/
theorem trimEnd_append (hword : ∀ c ∈ word.getLast?, isBlank c = false) (cs : List Char) :
    trimEnd (word ++ cs) = word ++ trimEnd cs := by
  have hkeep : word.reverse.dropWhile isBlank = word.reverse :=
    trimStart_of_trimmed (by rwa [Trimmed, List.head?_reverse])
  rw [trimEnd, List.reverse_append, List.dropWhile_append, hkeep]
  split
  · next hempty => simp [trimEnd, List.isEmpty_iff.1 hempty]
  · rw [List.reverse_append, List.reverse_reverse, trimEnd]

/-- Trimming at the end leaves no other character in front. -/
theorem head?_trimEnd (cs : List Char) : ∀ c ∈ (trimEnd cs).head?, c ∈ cs.head? := by
  obtain ⟨rest, hrest⟩ := (List.dropWhile_suffix isBlank (l := cs.reverse)).reverse
  intro c hc
  rw [← List.reverse_reverse cs, ← hrest, List.head?_append]
  simp [show (cs.reverse.dropWhile isBlank).reverse.head? = some c from hc]

/-- What was trimmed at both ends is trimmed at its front. -/
theorem trimmed_trim (cs : List Char) : Trimmed (trim cs) :=
  fun c hc => trimmed_trimStart cs c (head?_trimEnd _ c hc)

/-- A text without blanks is left alone. -/
theorem trim_of_not_isBlank (hcs : ∀ c ∈ cs, isBlank c = false) : trim cs = cs := by
  have hstart : Trimmed cs := fun c hc => hcs c (List.mem_of_mem_head? hc)
  have hend := trimEnd_append (fun c hc => hcs c (List.mem_of_getLast? hc)) []
  rw [List.append_nil, show trimEnd [] = [] from rfl, List.append_nil] at hend
  rw [trim, trimStart_of_trimmed hstart, hend]

/-- **Trimming twice is trimming once.** -/
theorem trim_trim (cs : List Char) : trim (trim cs) = trim cs := by
  have hstart : Trimmed (trim cs) := fun c hc =>
    trimmed_trimStart cs c (head?_trimEnd (trimStart cs) c hc)
  have hend := trimStart_of_trimmed (trimmed_trimStart (trimStart cs).reverse)
  rw [trim, trimStart_of_trimmed hstart, trim, trimEnd, trimEnd, List.reverse_reverse]
  exact congrArg List.reverse hend

/-- A gap behind is trimmed away. -/
theorem trimEnd_append_blank (hgap : gap.all isBlank) (cs : List Char) :
    trimEnd (cs ++ gap) = trimEnd cs := by
  have hreverse : gap.reverse.all isBlank := by simpa using hgap
  rw [trimEnd, List.reverse_append]
  exact congrArg List.reverse (trimStart_append hreverse cs.reverse)

/-- White space at the end does not count. -/
theorem trim_append_blank (hgap : gap.all isBlank) (cs : List Char) :
    trim (cs ++ gap) = trim cs := by
  rw [trim, trimStart, List.dropWhile_append]
  split
  · next hempty =>
    rw [trim, show trimStart cs = [] from List.isEmpty_iff.1 hempty]
    exact congrArg trimEnd (trimStart_blank hgap)
  · exact trimEnd_append_blank hgap (trimStart cs)

/-- A word in front is left alone. -/
theorem squeeze_append (hword : ∀ c ∈ word, isBlank c = false) (cs : List Char) :
    squeeze (word ++ cs) = word ++ squeeze cs := by
  induction word with
  | nil => rfl
  | cons c word ih =>
    obtain ⟨hc, hword⟩ := List.forall_mem_cons.1 hword
    rw [List.cons_append, squeeze, if_neg (by simp [hc]), ih hword, List.cons_append]

/-- A gap is squeezed into a gap. -/
theorem exists_squeeze_gap (hgap : gap.all isBlank) (cs : List Char) :
    ∃ gap' : List Char, gap'.all isBlank ∧ squeeze (gap ++ cs) = gap' ++ squeeze cs := by
  induction gap with
  | nil => exact ⟨[], rfl, rfl⟩
  | cons c gap ih =>
    rw [List.all_cons, Bool.and_eq_true] at hgap
    obtain ⟨gap', hgap', hsqueeze⟩ := ih hgap.2
    rw [List.cons_append, squeeze, if_pos hgap.1]
    split
    · next rest hspace => exact ⟨gap', hgap', hspace ▸ hsqueeze⟩
    · exact ⟨' ' :: gap', by simpa using ⟨rfl, by simpa using hgap'⟩, by rw [hsqueeze]; rfl⟩

/-- A squeezed text begins as the text does, or blank. -/
theorem head?_squeeze (cs : List Char) : ∀ c ∈ (squeeze cs).head?, isBlank c ∨ c ∈ cs.head? := by
  cases cs with
  | nil => simp [squeeze]
  | cons c cs =>
    intro d hd
    rw [squeeze] at hd
    split at hd
    · split at hd
      all_goals
        obtain rfl := Option.some.inj hd
        exact .inl rfl
    · exact .inr hd

/-! ## Words -/

/-- A word is cut off before the first character that cannot be in it. -/
theorem takeWhile_append_eq {p : Char → Bool} (hword : ∀ c ∈ word, p c) (rest : List Char)
    (hrest : ∀ c ∈ rest.head?, p c = false) :
    (word ++ rest).takeWhile p = word ∧ (word ++ rest).dropWhile p = rest := by
  rw [List.takeWhile_append_of_pos hword, List.dropWhile_append_of_pos hword]
  cases rest with
  | nil => simp
  | cons c rest => simp [hrest c rfl]

/-- A text is cut at the first of its marks. -/
theorem cut_at_mark {mark : Char} {front : List Char} (hfront : mark ∉ front) (back : List Char) :
    (front ++ mark :: back).takeWhile (· ≠ mark) = front ∧
      (front ++ mark :: back).dropWhile (· ≠ mark) = mark :: back := by
  refine takeWhile_append_eq (fun c hc => ?_) (mark :: back) (by simp)
  rw [decide_eq_true_eq]
  rintro rfl
  exact hfront hc

/-- **A name is taken as a whole**, if nothing follows that could be part of it. -/
theorem takeName?_append (hword : isName word) {rest : List Char}
    (hrest : ∀ c ∈ rest.head?, c.isAlphanum = false) :
    ∃ h, takeName? (word ++ rest) = some ⟨word, rest, h⟩ := by
  cases word with
  | nil => cases hword
  | cons c word =>
    simp only [isName, Bool.and_eq_true, List.all_eq_true] at hword
    obtain ⟨htake, hdrop⟩ := takeWhile_append_eq hword.2 rest hrest
    have hlt : rest.length < (c :: word ++ rest).length := by simp +arith
    exact ⟨hlt, (if_pos hword.1).trans
      (congrArg some (Reading.ext (congrArg (c :: ·) htake) hdrop))⟩

/-- And so is a numeral. -/
theorem takeNumeral?_append (hword : isNumeral word) {rest : List Char}
    (hrest : ∀ c ∈ rest.head?, c.isDigit = false) :
    ∃ h, takeNumeral? (word ++ rest) = some ⟨word, rest, h⟩ := by
  cases word with
  | nil => cases hword
  | cons c word =>
    simp only [isNumeral, Bool.and_eq_true, List.all_eq_true] at hword
    obtain ⟨htake, hdrop⟩ := takeWhile_append_eq hword.2 rest hrest
    have hlt : rest.length < (c :: word ++ rest).length := by simp +arith
    exact ⟨hlt, (if_pos hword.1).trans
      (congrArg some (Reading.ext (congrArg (c :: ·) htake) hdrop))⟩

/-- No numeral starts with a name. -/
theorem takeName?_numeral (hword : isNumeral word) (rest : List Char) :
    takeName? (word ++ rest) = none := by
  cases word with
  | nil => cases hword
  | cons c word =>
    have hc := isDigit_of_mem_numeral hword c List.mem_cons_self
    exact if_neg (by simp [isAlpha_of_isDigit hc])

/-! ## Counts -/

/-- More digits never denote less. -/
theorem le_denotedFrom (value : Nat) (digits : List Char) : value ≤ denotedFrom value digits := by
  induction digits generalizing value with
  | nil => exact Nat.le_refl value
  | cons c cs ih =>
    have hgrown : 10 * value + digitValue c ≤ denotedFrom value (c :: cs) := ih _
    omega

/-- **Digits are read as the number that they denote**, if it is a count. Where a front part denotes
too much, so do all the digits. -/
theorem readDigits_eq_ok {value n : Nat} (hvalue : value < countLimit) :
    readDigits value cs = .ok n ↔
      cs.all Char.isDigit ∧ n = denotedFrom value cs ∧ n < countLimit := by
  induction cs generalizing value with
  | nil =>
    have hnil : readDigits value [] = .ok n ↔ value = n := by simp [readDigits]
    rw [hnil]
    exact ⟨fun h => ⟨rfl, h.symm, h ▸ hvalue⟩, fun h => h.2.1.symm⟩
  | cons c cs ih =>
    have hdenoted : denotedFrom value (c :: cs) = denotedFrom (10 * value + digitValue c) cs := rfl
    have hle := le_denotedFrom (10 * value + digitValue c) cs
    rw [hdenoted, List.all_cons, Bool.and_eq_true, readDigits]
    by_cases hc : c.isDigit
    · by_cases hgrown : countLimit ≤ 10 * value + digitValue c
      · simp only [hc, hgrown, Bool.not_true, Bool.false_eq_true, if_true, if_false]
        refine iff_of_false nofun fun ⟨_, hn, hlt⟩ => ?_
        omega
      · simp only [hc, hgrown, Bool.not_true, Bool.false_eq_true, if_false, true_and]
        exact ih (by omega)
    · simp [hc]

theorem isNumeral_iff : isNumeral cs ↔ cs ≠ [] ∧ cs.all Char.isDigit := by
  cases cs <;> simp [isNumeral]

/-- **Digits are read as what they denote**, as long as that is below the limit. -/
theorem readDigits_zero_eq_ok {n : Nat} (hne : cs ≠ []) :
    readDigits 0 cs = .ok n ↔ isNumeral cs ∧ n = denoted cs ∧ n < countLimit := by
  have hpos : 0 < countLimit := by decide
  rw [readDigits_eq_ok hpos, isNumeral_iff]
  exact ⟨fun h => ⟨⟨hne, h.1⟩, h.2⟩, fun h => ⟨h.1.2, h.2⟩⟩

/-- **How a count is written**: with digits that denote it, after a plus sign or not. -/
def WritesCount (cs : List Char) (n : Nat) : Prop :=
  ∃ digits, (cs = digits ∨ cs = '+' :: digits) ∧ isNumeral digits ∧ n = denoted digits ∧
    n < countLimit

/-- **A count is read off the texts that write it**, and off no others. -/
theorem readCount_eq_ok {n : Nat} : readCount cs = .ok n ↔ WritesCount cs n := by
  unfold readCount
  split
  · refine iff_of_false nofun ?_
    rintro ⟨digits, rfl | hplus, hdigits, -⟩
    · cases hdigits
    · cases hplus
  · refine iff_of_false nofun ?_
    rintro ⟨digits, rfl | hplus, hdigits, -⟩
    · cases hdigits
    · cases hplus
      cases hdigits
  · next cs hne =>
    rw [readDigits_zero_eq_ok (by rintro rfl; exact hne rfl)]
    refine ⟨fun h => ⟨cs, .inr rfl, h⟩, ?_⟩
    rintro ⟨digits, rfl | hplus, hdigits, h⟩
    · cases hdigits
    · cases hplus
      exact ⟨hdigits, h⟩
  · next hnil _ hplus =>
    rw [readDigits_zero_eq_ok hnil]
    refine ⟨fun h => ⟨_, .inl rfl, h⟩, ?_⟩
    rintro ⟨digits, rfl | rfl, h⟩
    · exact h
    · exact absurd rfl (hplus digits)

/-- A count is read off a string in the same way. -/
theorem count?_eq_some {s : String} {n : Nat} : count? s = some n ↔ WritesCount s.toList n :=
  Outcome.toOption_eq_some.trans readCount_eq_ok

theorem lt_countLimit_of_count? {s : String} {n : Nat} (h : count? s = some n) :
    n < countLimit := by
  obtain ⟨digits, -, -, -, hlt⟩ := count?_eq_some.1 h
  exact hlt

/-- A numeral is read as the number that it denotes. -/
theorem count?_of_isNumeral {s : String} (hs : isNumeral s.toList)
    (hlt : denoted s.toList < countLimit) : count? s = some (denoted s.toList) :=
  count?_eq_some.2 ⟨s.toList, .inl rfl, hs, rfl, hlt⟩

/-- A numeral that denotes too large a number is not read. -/
theorem count?_eq_none {s : String} (hs : isNumeral s.toList)
    (hle : countLimit ≤ denoted s.toList) : count? s = none := by
  rw [Option.eq_none_iff_forall_ne_some]
  intro n hn
  obtain ⟨digits, hcs | hcs, -, hdenoted, hlt⟩ := count?_eq_some.1 hn
  · rw [hcs, ← hdenoted] at hle
    omega
  · rw [hcs] at hs
    cases hs

/-- Every number is denoted by some numeral. -/
theorem exists_numeral (n : Nat) : ∃ digits : List Char, isNumeral digits ∧ denoted digits = n := by
  have hdigit : ∀ d < 10, (Nat.digitChar d).isDigit ∧ digitValue (Nat.digitChar d) = d := by decide
  induction n using Nat.strongRecOn with
  | _ n ih =>
    by_cases hn : n < 10
    · obtain ⟨hc, hvalue⟩ := hdigit n hn
      exact ⟨[Nat.digitChar n], by simp [isNumeral, hc], by simp [denoted, denotedFrom, hvalue]⟩
    · obtain ⟨digits, hnumeral, hdenoted⟩ := ih (n / 10) (by omega)
      obtain ⟨hc, hvalue⟩ := hdigit (n % 10) (by omega)
      refine ⟨digits ++ [Nat.digitChar (n % 10)], ?_, ?_⟩
      · cases digits with
        | nil => cases hnumeral
        | cons d ds =>
          simp only [isNumeral, Bool.and_eq_true] at hnumeral
          simpa [isNumeral, hnumeral.1, hc] using hnumeral.2
      · have hlast : denoted (digits ++ [Nat.digitChar (n % 10)]) =
            10 * denoted digits + digitValue (Nat.digitChar (n % 10)) := by
          simp [denoted, denotedFrom]
        rw [hlast, hdenoted, hvalue]
        omega

end Text

end ProgramFacts
