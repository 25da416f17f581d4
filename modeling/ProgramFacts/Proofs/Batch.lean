import ProgramFacts.Batch
import ProgramFacts.Proofs.Ordered
import ProgramFacts.Proofs.Text.Lines
import Mathlib.Data.List.Forall2
import Mathlib.Data.List.TakeWhile
/-!
# Batches — cutting a file into blocks

A blank line parts blocks if it stands between them and is data if it stands inside one, so where a
block begins depends on all lines before it. `Batch.Cut` says how lines are cut, with the lines of a
block that is not finished left over; every file is cut in one way only (`exists_cut`,
`Cut.unique`). `Block.Reads` says what case a block stands for, and `mem_parseAnswers` what answers
its fourth line expects. A file is read as the cases of its blocks, one for each and in order, and
it fails to be read if lines are left over or a time limit is no count, and for no other reason
(`parse_cuts_blocks`).
-/

namespace ProgramFacts

namespace Batch

open Text (bare trim)

/-! ## Blocks -/

/-- **Five lines of a file that make a case.** The first of them is not blank. -/
@[ext]
structure Block where
  header : List Char
  declarations : List Char
  select : List Char
  answers : List Char
  timeout : List Char
  headed : bare header ≠ ""

namespace Block

def lines (b : Block) : List (List Char) :=
  [b.header, b.declarations, b.select, b.answers, b.timeout]

/-- The id and the comment that a header gives: what stands before and after the first hyphen, or
the header alone if it has none. -/
inductive Titles : List Char → String → String → Prop
  | plain {header : List Char} (hheader : '-' ∉ header) : Titles header (String.ofList header) ""
  | parted {id comment : List Char} (hid : '-' ∉ id) :
    Titles (id ++ '-' :: comment) (bare id) (bare comment)

/-- The last line of a block is a time limit. -/
def Limited (b : Block) : Prop :=
  ∃ n, Text.WritesCount (trim b.timeout) n

/-- **What case a block stands for.** Without declarations the query is the selection alone. -/
structure Reads (b : Block) (c : Case) : Prop where
  title : Titles (trim b.header) c.id c.comment
  query : c.query =
    if bare b.declarations = "" then bare b.select else s!"{bare b.declarations} {bare b.select}"
  expected : c.expected = parseAnswers (bare b.answers)
  timeout : Text.WritesCount (trim b.timeout) c.timeout

end Block

/-- **How lines are cut into blocks**: blank lines are skipped before a block and after it, but
inside a block they count. Lines that begin a block and are too few for it are left over. -/
inductive Cut : List (List Char) → List Block → List (List Char) → Prop
  | nil : Cut [] [] []
  | blank {line : List Char} {lines : List (List Char)} {blocks : List Block}
    {left : List (List Char)} (hline : bare line = "") (h : Cut lines blocks left) :
    Cut (line :: lines) blocks left
  | block (b : Block) {lines : List (List Char)} {blocks : List Block} {left : List (List Char)}
    (h : Cut lines blocks left) : Cut (b.lines ++ lines) (b :: blocks) left
  | unfinished {header : List Char} {lines : List (List Char)} (hheader : bare header ≠ "")
    (hfew : lines.length < 4) : Cut (header :: lines) [] (header :: lines)

variable {lines left left' : List (List Char)} {blocks blocks' : List Block}

/-! ## Cutting -/

/-- All lines can be cut. -/
theorem exists_cut : (lines : List (List Char)) → ∃ blocks left, Cut lines blocks left
  | [] => ⟨[], [], .nil⟩
  | header :: lines => by
    by_cases hheader : bare header = ""
    · obtain ⟨blocks, left, h⟩ := exists_cut lines
      exact ⟨blocks, left, .blank hheader h⟩
    · match lines with
      | declarations :: select :: answers :: timeout :: lines =>
        obtain ⟨blocks, left, h⟩ := exists_cut lines
        exact ⟨_, left, .block ⟨header, declarations, select, answers, timeout, hheader⟩ h⟩
      | [] | [_] | [_, _] | [_, _, _] => exact ⟨[], _, .unfinished hheader (by simp)⟩

/-- Where a block begins no line is skipped, and it has five lines or is the last. -/
theorem Cut.cases_headed {header : List Char} (hheader : bare header ≠ "")
    (h : Cut (header :: lines) blocks left) :
    (∃ b : Block, ∃ lines' blocks', header :: lines = b.lines ++ lines' ∧ blocks = b :: blocks' ∧
        Cut lines' blocks' left) ∨
      lines.length < 4 ∧ blocks = [] ∧ left = header :: lines := by
  generalize hlines : header :: lines = whole at h
  cases h with
  | nil => cases hlines
  | blank hline _ =>
    cases hlines
    exact absurd hline hheader
  | block b h => exact .inl ⟨b, _, _, rfl, rfl, h⟩
  | unfinished _ hfew =>
    cases hlines
    exact .inr ⟨hfew, rfl, rfl⟩

/-- A block is determined by its lines. -/
theorem Block.lines_inj {b b' : Block} {lines lines' : List (List Char)}
    (h : b.lines ++ lines = b'.lines ++ lines') : b = b' ∧ lines = lines' := by
  obtain ⟨hblock, hlines⟩ := List.append_inj h rfl
  simp only [Block.lines, List.cons.injEq] at hblock
  exact ⟨Block.ext hblock.1 hblock.2.1 hblock.2.2.1 hblock.2.2.2.1 hblock.2.2.2.2.1, hlines⟩

/-- **Lines are cut in one way only.** -/
theorem Cut.unique (h : Cut lines blocks left) (h' : Cut lines blocks' left') :
    blocks' = blocks ∧ left' = left := by
  induction h generalizing blocks' left' with
  | nil =>
    cases h'
    exact ⟨rfl, rfl⟩
  | blank hline h ih =>
    cases h' with
    | blank _ h' => exact ih h'
    | block b _ => exact absurd hline b.headed
    | unfinished hheader _ => exact absurd hline hheader
  | @block b lines blocks left h ih =>
    rcases h'.cases_headed b.headed with ⟨b', lines', blocks', hlines, rfl, h'⟩ | ⟨hfew, -⟩
    · obtain ⟨rfl, rfl⟩ := Block.lines_inj (b := b) hlines
      obtain ⟨rfl, rfl⟩ := ih h'
      exact ⟨rfl, rfl⟩
    · simp +arith at hfew
  | @unfinished header lines hheader hfew =>
    rcases h'.cases_headed hheader with ⟨b', lines', blocks', hlines, -⟩ | ⟨-, hblocks, hleft⟩
    · have hlong := congrArg List.length hlines
      simp +arith [Block.lines] at hlong
      omega
    · exact ⟨hblocks, hleft⟩

/-! ## Reading blocks -/

/-- A header is split at its first hyphen. -/
theorem Block.Titles.eq {header : List Char} {id comment : String} (h : Titles header id comment) :
    splitHeader (String.ofList header) = (id, comment) := by
  cases h with
  | plain hheader =>
    have hnone : header.dropWhile (· ≠ '-') = [] := by
      rw [List.dropWhile_eq_nil_iff]
      intro c hc
      rw [decide_eq_true_eq]
      rintro rfl
      exact hheader hc
    simp only [splitHeader, String.toList_ofList, hnone]
  | @parted id comment hid =>
    obtain ⟨htake, hdrop⟩ := Text.cut_at_mark hid comment
    simp only [splitHeader, String.toList_ofList, htake, hdrop, bare]

/-- Every header has an id and a comment, which may be empty. -/
theorem Block.exists_titles (header : List Char) : ∃ id comment, Titles header id comment := by
  by_cases hheader : '-' ∈ header
  · obtain ⟨id, comment, rfl, hid⟩ := List.eq_append_cons_of_mem hheader
    exact ⟨_, _, .parted hid⟩
  · exact ⟨_, _, .plain hheader⟩

/-- **Five lines are read as the case of their block.** -/
theorem parseCase_eq_ok {b : Block} {c : Case} :
    parseCase (bare b.header) (bare b.declarations) (bare b.select) (bare b.answers)
      (bare b.timeout) = .ok c ↔ b.Reads c := by
  obtain ⟨id, comment, htitle⟩ := Block.exists_titles (trim b.header)
  have hsplit : splitHeader (bare b.header) = (id, comment) := htitle.eq
  have hlimit : (bare b.timeout).toList = trim b.timeout := String.toList_ofList
  unfold parseCase
  rw [hsplit, hlimit]
  dsimp only
  split
  · next cause hcount =>
    refine iff_of_false nofun fun h => ?_
    cases hcount.symm.trans (Text.readCount_eq_ok.2 h.timeout)
  · next n hcount =>
    constructor
    · intro h
      obtain rfl := Except.ok.inj h
      constructor
      · exact htitle
      · rfl
      · rfl
      · exact Text.readCount_eq_ok.1 hcount
    · obtain ⟨id', comment', query, expected, timeout⟩ := c
      rintro ⟨htitle', hquery, hexpected, htimeout⟩
      obtain ⟨rfl, rfl⟩ : id = id' ∧ comment = comment' :=
        Prod.mk.inj (htitle.eq.symm.trans htitle'.eq)
      obtain rfl : n = timeout :=
        Except.ok.inj (hcount.symm.trans (Text.readCount_eq_ok.2 htimeout))
      dsimp only at hquery hexpected
      subst hquery hexpected
      rfl

/-- A block stands for a case if it has a time limit. -/
theorem Block.exists_reads {b : Block} : (∃ c, b.Reads c) ↔ b.Limited := by
  constructor
  · rintro ⟨c, h⟩
    exact ⟨c.timeout, h.timeout⟩
  · rintro ⟨n, hn⟩
    obtain ⟨id, comment, htitle⟩ := exists_titles (trim b.header)
    exact ⟨⟨id, comment, _, _, n⟩, htitle, rfl, rfl, hn⟩

/-! ## Expected answers -/

/-- No piece of a text that is split at a mark has the mark. -/
theorem not_mem_of_mem_splitOn {mark : Char} {cs piece : List Char}
    (h : piece ∈ cs.splitOn mark) : mark ∉ piece := by
  by_cases hmark : mark ∈ cs
  · obtain ⟨first, rest, rfl, hfirst⟩ := List.eq_append_cons_of_mem hmark
    rw [List.splitOn_append_cons_self_of_not_mem hfirst] at h
    rcases List.mem_cons.1 h with rfl | h
    · exact hfirst
    · exact not_mem_of_mem_splitOn h
  · rw [List.splitOn_eq_singleton hmark, List.mem_singleton] at h
    rwa [h]
termination_by cs.length

/-- **The answers that a line expects** are what stands between its commas, without the white space
around it. Where nothing is left there is no answer, and a line that says none has no answers. -/
theorem mem_parseAnswers {line answer : String} :
    answer ∈ parseAnswers line ↔ line.toList.map Char.toLower ≠ "none".toList ∧ answer ≠ "" ∧
      ∃ pieces piece, line.toList = [','].intercalate pieces ∧ (∀ p ∈ pieces, ',' ∉ p) ∧
        piece ∈ pieces ∧ answer = bare piece := by
  by_cases hnone : line.toList.map Char.toLower = "none".toList
  · simp [parseAnswers, hnone]
  · have hmem : answer ∈ parseAnswers line ↔
        answer ≠ "" ∧ ∃ piece ∈ line.toList.splitOn ',', answer = bare piece := by
      rw [parseAnswers, if_neg hnone, Ordered.mem_ofList, List.mem_filter, List.mem_map, and_comm,
        decide_eq_true_eq]
      simp only [eq_comm, bare]
    rw [hmem, and_iff_right hnone]
    refine and_congr_right fun _ => ⟨?_, ?_⟩
    · rintro ⟨piece, hpiece, rfl⟩
      exact ⟨line.toList.splitOn ',', piece, (List.intercalate_splitOn ',').symm,
        fun _ => not_mem_of_mem_splitOn, hpiece, rfl⟩
    · rintro ⟨pieces, piece, hline, hpieces, hpiece, rfl⟩
      rw [hline, List.splitOn_intercalate ',' hpieces (List.ne_nil_of_mem hpiece)]
      exact ⟨piece, hpiece, rfl⟩

/-! ## Reading lines -/

section Headed

variable {header : String} (hheader : header ≠ "")
include hheader

theorem parseLines_block (declarations select answers timeout : String) (rest : List String) :
    parseLines (header :: declarations :: select :: answers :: timeout :: rest) = (do
      let c ← parseCase header declarations select answers timeout
      let cases ← parseLines rest
      return c :: cases) := by
  rw [parseLines]
  exact hheader

/-- Too few lines after a header are told with their number. -/
theorem parseLines_unfinished {rest : List String} (hfew : rest.length < 4) :
    parseLines (header :: rest) = .error (.incomplete header (rest.length + 1)) := by
  rw [parseLines]
  · exact hheader
  · rintro declarations select answers timeout more rfl
    simp +arith at hfew

end Headed

/-- **Lines are read as the cases of their blocks**, unless some are left over. -/
theorem Cut.parseLines_eq_ok (h : Cut lines blocks left) {cases : List Case} :
    parseLines (lines.map bare) = .ok cases ↔
      left = [] ∧ List.Forall₂ Block.Reads blocks cases := by
  induction h generalizing cases with
  | nil =>
    rw [List.map_nil, parseLines, List.forall₂_nil_left_iff]
    exact ⟨fun h => ⟨rfl, (Except.ok.inj h).symm⟩, fun h => congrArg _ h.2.symm⟩
  | blank hline h ih =>
    rw [List.map_cons, hline, parseLines]
    exact ih
  | @block b lines blocks left h ih =>
    rw [show (b.lines ++ lines).map bare = bare b.header :: bare b.declarations :: bare b.select ::
      bare b.answers :: bare b.timeout :: lines.map bare from rfl, parseLines_block b.headed,
      List.forall₂_cons_left_iff]
    constructor
    · intro hok
      obtain ⟨c, hc, hok⟩ := Outcome.bind_eq_ok.1 hok
      obtain ⟨more, hmore, hok⟩ := Outcome.bind_eq_ok.1 hok
      obtain ⟨hleft, hcases⟩ := ih.1 hmore
      obtain rfl := Except.ok.inj hok
      exact ⟨hleft, c, more, parseCase_eq_ok.1 hc, hcases, rfl⟩
    · rintro ⟨hleft, c, more, hc, hcases, rfl⟩
      exact Outcome.bind_eq_ok.2 ⟨c, parseCase_eq_ok.2 hc,
        Outcome.bind_eq_ok.2 ⟨more, ih.2 ⟨hleft, hcases⟩, rfl⟩⟩
  | @unfinished header lines hheader hfew =>
    refine iff_of_false ?_ fun h => List.cons_ne_nil _ _ h.1
    rw [List.map_cons, parseLines_unfinished hheader (by simpa using hfew)]
    exact nofun

/-- Blocks have cases, one each, if every one of them has a time limit. -/
theorem exists_forall₂_reads :
    (∃ cases, List.Forall₂ Block.Reads blocks cases) ↔ ∀ b ∈ blocks, b.Limited := by
  induction blocks with
  | nil => exact iff_of_true ⟨[], .nil⟩ (List.forall_mem_nil _)
  | cons b blocks ih =>
    rw [List.forall_mem_cons, ← ih, ← Block.exists_reads]
    constructor
    · rintro ⟨_, _ | ⟨hc, hcases⟩⟩
      exact ⟨⟨_, hc⟩, _, hcases⟩
    · rintro ⟨⟨c, hc⟩, cases, hcases⟩
      exact ⟨c :: cases, .cons hc hcases⟩

/-! ## Files -/

/-- **A file has these blocks**, and lines that are left over. -/
def Holds (content : String) (blocks : List Block) (left : List (List Char)) : Prop :=
  ∃ lines, Text.Ruled content.toList lines ∧ Cut lines blocks left

variable {content : String}

theorem exists_holds (content : String) : ∃ blocks left, Holds content blocks left := by
  obtain ⟨lines, hlines⟩ := Text.exists_ruled content.toList
  obtain ⟨blocks, left, hcut⟩ := exists_cut lines
  exact ⟨blocks, left, lines, hlines, hcut⟩

/-- **A file has its blocks in one way only.** -/
theorem Holds.unique (h : Holds content blocks left) (h' : Holds content blocks' left') :
    blocks' = blocks ∧ left' = left := by
  obtain ⟨lines, hlines, hcut⟩ := h
  obtain ⟨lines', hlines', hcut'⟩ := h'
  obtain rfl := hlines.unique hlines'
  exact hcut.unique hcut'

/-- **A file is read as the cases of its blocks.** -/
theorem Holds.parse_eq_ok (h : Holds content blocks left) {cases : List Case} :
    parse content = .ok cases ↔ left = [] ∧ List.Forall₂ Block.Reads blocks cases := by
  obtain ⟨lines, hlines, hcut⟩ := h
  rw [parse, hlines.trimmed_lines]
  exact hcut.parseLines_eq_ok

/-- It fails to be read for lines that are left over, or for a block without a time limit. -/
theorem Holds.parse_eq_error (h : Holds content blocks left) :
    (∃ fault, parse content = .error fault) ↔ left ≠ [] ∨ ∃ b ∈ blocks, ¬ b.Limited := by
  have hok : (∃ cases, parse content = .ok cases) ↔ left = [] ∧ ∀ b ∈ blocks, b.Limited := by
    simp only [h.parse_eq_ok, exists_and_left, exists_forall₂_reads]
  have hfails : (∃ fault, parse content = .error fault) ↔ ¬ ∃ cases, parse content = .ok cases := by
    cases parse content with
    | error fault => exact iff_of_true ⟨fault, rfl⟩ nofun
    | ok cases => exact iff_of_false nofun fun hnone => hnone ⟨cases, rfl⟩
  rw [hfails, hok, not_and_or, not_forall]
  simp only [not_forall, exists_prop]

/-- **A file is cut into blocks exactly.** A file of blocks with time limits, with blank lines
before, between and after them and white space around its lines, is read as the cases of its blocks,
one for each and in order. Whatever is read comes from such a file. It fails to be read if and only
if its last block is not finished or some block has no time limit. And every file is cut in just one
way. -/
theorem parse_cuts_blocks (content : String) :
    (∀ blocks, Holds content blocks [] → (∀ b ∈ blocks, b.Limited) →
      ∃ cases, parse content = .ok cases ∧ List.Forall₂ Block.Reads blocks cases) ∧
    (∀ cases, parse content = .ok cases →
      ∃ blocks, Holds content blocks [] ∧ List.Forall₂ Block.Reads blocks cases) ∧
    ((∃ fault, parse content = .error fault) ↔
      ∃ blocks left, Holds content blocks left ∧ (left ≠ [] ∨ ∃ b ∈ blocks, ¬ b.Limited)) ∧
    ∃! cut : List Block × List (List Char), Holds content cut.1 cut.2 := by
  obtain ⟨blocks, left, hcontent⟩ := exists_holds content
  refine ⟨fun blocks h hlimited => ?_, fun cases hparse => ?_, ?_, ?_⟩
  · obtain ⟨cases, hcases⟩ := exists_forall₂_reads.2 hlimited
    exact ⟨cases, h.parse_eq_ok.2 ⟨rfl, hcases⟩, hcases⟩
  · obtain ⟨rfl, hcases⟩ := hcontent.parse_eq_ok.1 hparse
    exact ⟨blocks, hcontent, hcases⟩
  · constructor
    · intro hfault
      exact ⟨blocks, left, hcontent, hcontent.parse_eq_error.1 hfault⟩
    · rintro ⟨blocks', left', h, hbad⟩
      exact h.parse_eq_error.2 hbad
  · refine ⟨(blocks, left), hcontent, fun cut h => ?_⟩
    obtain ⟨hblocks, hleft⟩ := hcontent.unique h
    exact Prod.ext hblocks hleft

/-- A block with a blank line of answers, and two hyphens in its header. -/
def answerless : Block where
  header := " 1 - first - last ".toList
  declarations := "stmt s;".toList
  select := "Select s such that Follows(3, s)".toList
  answers := "".toList
  timeout := "5000\r".toList
  headed := by decide

/-- A block with a blank line of declarations, and no comment. -/
def undeclared : Block where
  header := "2".toList
  declarations := "\t".toList
  select := "Select BOOLEAN".toList
  answers := " true, false,".toList
  timeout := "+007".toList
  headed := by decide

/-- The two blocks among blank lines. -/
def twoBlocksLines : List (List Char) :=
  "".toList :: (answerless.lines ++ "  ".toList :: (undeclared.lines ++ ["".toList]))

def twoBlocksText : String :=
  String.ofList (twoBlocksLines.flatMap (· ++ ['\n']))

theorem holds_twoBlocksText : Holds twoBlocksText [answerless, undeclared] [] := by
  have hruled : Text.Ruled twoBlocksText.toList twoBlocksLines := by
    rw [twoBlocksText, String.toList_ofList]
    exact Text.ruled_flatMap (by decide +kernel)
  exact ⟨twoBlocksLines, hruled,
    .blank (by decide) (.block _ (.blank (by decide) (.block _ (.blank (by decide) .nil))))⟩

/-- A blank line inside a block is data, and one between blocks is skipped. -/
theorem parse_cuts_twoBlocksText :
    Holds twoBlocksText [answerless, undeclared] [] ∧ answerless.Limited ∧ undeclared.Limited ∧
      ∃ first second, parse twoBlocksText = .ok [first, second] ∧
        answerless.Reads first ∧ first.expected.toList = [] ∧
        undeclared.Reads second ∧ second.expected.toList = ["false", "true"] := by
  have hfirst : answerless.Limited :=
    ⟨5000, "5000".toList, .inl (by decide), by decide, by decide, by decide⟩
  have hsecond : undeclared.Limited :=
    ⟨7, "007".toList, .inr (by decide), by decide, by decide, by decide⟩
  obtain ⟨cases, hparse, hcases⟩ := (parse_cuts_blocks twoBlocksText).1 _ holds_twoBlocksText
    (List.forall_mem_cons.2 ⟨hfirst, List.forall_mem_singleton.2 hsecond⟩)
  obtain ⟨first, rest, hreads, hrest, rfl⟩ := List.forall₂_cons_left_iff.1 hcases
  obtain ⟨second, rest, hreads', hnil, rfl⟩ := List.forall₂_cons_left_iff.1 hrest
  obtain rfl := List.forall₂_nil_left_iff.1 hnil
  refine ⟨holds_twoBlocksText, hfirst, hsecond, first, second, hparse, hreads, ?_, hreads', ?_⟩
  · rw [hreads.expected]
    decide +kernel
  · rw [hreads'.expected]
    decide +kernel

end Batch

end ProgramFacts
