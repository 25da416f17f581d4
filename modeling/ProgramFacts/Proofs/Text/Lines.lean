import ProgramFacts.Batch
import ProgramFacts.Proofs.Text
/-!
# Text — how lines make up a text

`Text.Ruled text lines` says which lines a text has, by writing them one after the other: a line
feed ends a line, and the last line can do without it. Every text has lines in this sense, and in
one way only (`exists_ruled`, `Ruled.unique`). The lines that are read off a text may lack a
carriage return, which is white space, so trimmed they are the lines of the text
(`Ruled.trimmed_lines`).
-/

namespace ProgramFacts

namespace Text

variable {line text : List Char} {lines lines' : List (List Char)}

/-- **The text has these lines**: every line ends with a line feed, except that the last one need
not if it is not empty. -/
inductive Ruled : List Char → List (List Char) → Prop
  | nil : Ruled [] []
  | last {line : List Char} (hne : line ≠ []) (hline : '\n' ∉ line) : Ruled line [line]
  | cons {line text : List Char} {lines : List (List Char)} (hline : '\n' ∉ line)
    (h : Ruled text lines) : Ruled (line ++ '\n' :: text) (line :: lines)

/-- Lines make up a text, each with a line feed after it. -/
theorem ruled_flatMap (hlines : ∀ line ∈ lines, '\n' ∉ line) :
    Ruled (lines.flatMap (· ++ ['\n'])) lines := by
  induction lines with
  | nil => exact .nil
  | cons line lines ih =>
    obtain ⟨hline, hlines⟩ := List.forall_mem_cons.1 hlines
    have hruled := Ruled.cons hline (ih hlines)
    simpa using hruled

/-- Every text has lines. -/
theorem exists_ruled (text : List Char) : ∃ lines, Ruled text lines := by
  induction text with
  | nil => exact ⟨[], .nil⟩
  | cons c text ih =>
    obtain ⟨lines, h⟩ := ih
    by_cases hc : c = '\n'
    · subst hc
      exact ⟨_, .cons List.not_mem_nil h⟩
    · -- the character goes to the front of the first line
      have hkeep : ∀ {line : List Char}, '\n' ∉ line → '\n' ∉ c :: line := by
        intro line hline
        simp [hline, Ne.symm hc]
      cases h with
      | nil => exact ⟨_, .last (List.cons_ne_nil _ _) (hkeep List.not_mem_nil)⟩
      | last _ hline => exact ⟨_, .last (List.cons_ne_nil _ _) (hkeep hline)⟩
      | cons hline h => exact ⟨_, .cons (hkeep hline) h⟩

/-- Two texts that are cut at the same mark have the same parts. -/
theorem append_mark_inj {mark : Char} {front front' back back' : List Char}
    (hfront : mark ∉ front) (hfront' : mark ∉ front')
    (h : front ++ mark :: back = front' ++ mark :: back') : front = front' ∧ back = back' := by
  obtain ⟨htake, hdrop⟩ := cut_at_mark hfront back
  obtain ⟨htake', hdrop'⟩ := cut_at_mark hfront' back'
  rw [h] at htake hdrop
  exact ⟨htake.symm.trans htake', (List.cons.inj (hdrop.symm.trans hdrop')).2⟩

/-- **A text has its lines in one way only.** -/
theorem Ruled.unique (h : Ruled text lines) (h' : Ruled text lines') : lines = lines' := by
  induction h generalizing lines' with
  | nil =>
    generalize htext : ([] : List Char) = text at h'
    cases h' with
    | nil => rfl
    | last hne _ => exact absurd htext.symm hne
    | cons _ _ => simp at htext
  | @last line hne hline =>
    cases h' with
    | nil => exact absurd rfl hne
    | last _ _ => rfl
    | cons _ _ => simp at hline
  | @cons line text lines hline h ih =>
    generalize htext : line ++ '\n' :: text = whole at h'
    cases h' with
    | nil => simp at htext
    | last _ hwhole => simp [← htext] at hwhole
    | cons hline' h' =>
      obtain ⟨rfl, rfl⟩ := append_mark_inj hline hline' htext
      rw [ih h']

/-! ## Reading lines -/

/-- Characters of a line are gathered until it ends. -/
theorem linesFrom_append (hline : '\n' ∉ line) (begun text : List Char) :
    linesFrom begun (line ++ text) = linesFrom (line.reverse ++ begun) text := by
  induction line generalizing begun with
  | nil => rfl
  | cons c line ih =>
    obtain ⟨hc, hline⟩ := not_or.1 (mt List.mem_cons.2 hline)
    rw [List.cons_append, linesFrom, ih hline, List.reverse_cons, List.append_assoc,
      List.singleton_append]
    rintro rfl
    exact hc rfl

/-- A carriage return at the end is white space anyway. -/
theorem trim_dropReturn (line : List Char) : trim (dropReturn line) = trim line := by
  unfold dropReturn
  split
  · next hreturn =>
    have hsplit : line.dropLast ++ ['\r'] = line := List.dropLast_append_getLast? '\r' hreturn
    have htrim : trim (line.dropLast ++ ['\r']) = trim line.dropLast := trim_append_blank rfl _
    rw [← htrim, hsplit]
  · rfl

/-- The lines that are read are those of the text, up to white space around them. -/
theorem Ruled.trim_linesFrom (h : Ruled text lines) :
    (linesFrom [] text).map trim = lines.map trim := by
  induction h with
  | nil => rfl
  | @last line hne hline =>
    have hread := linesFrom_append hline [] []
    rw [List.append_nil, List.append_nil] at hread
    simp [hread, linesFrom, hne]
  | @cons line text lines hline h ih =>
    rw [linesFrom_append hline, linesFrom, List.append_nil, List.reverse_reverse, List.map_cons,
      trim_dropReturn, ih, List.map_cons]

/-- A line without the white space around it. -/
def bare (line : List Char) : String :=
  String.ofList (trim line)

/-- **The lines that are read are the lines of the text**, white space around them aside. -/
theorem Ruled.trimmed_lines {content : String} (h : Ruled content.toList lines) :
    (Text.lines content).map trimString = lines.map bare := by
  calc (Text.lines content).map trimString
      = ((linesFrom [] content.toList).map trim).map String.ofList := by
        simp [Text.lines, trimString]
    _ = (lines.map trim).map String.ofList := by rw [h.trim_linesFrom]
    _ = lines.map bare := List.map_map

end Text

end ProgramFacts
