import ProgramFacts.Proofs.Query.Grammar
import ProgramFacts.Proofs.Query.Layout
/-!
# Queries — there and back

A query is *well formed* if it is well typed and its synonyms are names, be they words of the query
language or not. It is *printed* by a text that has the tokens of one of the ways to write it. A
well formed query can be printed, and it is read back from whatever text prints it
(`parse_inverts_query_printing`).
-/

namespace ProgramFacts

/-- **What a query must be to come back from its texts.** -/
structure Query.WellFormed (bip : Bool) (q : Query) : Prop extends q.WellTyped bip where
  names : ∀ s ∈ q.declarations, Text.isName s.name.toList

/-- The text is a way to write the query. -/
def Query.Printed (q : Query) (text : String) : Prop :=
  ∃ ts, q.Written ts ∧ QueryToken.Laid ts text.toList

/-! ## A way to write it

Every query that is well formed can be written with tokens that can be spelled: each declaration
and each clause under words of its own, what is selected in brackets, and expressions with as few
parentheses as there can be. -/

section WellSpelled

open QueryToken (wellSpelled)

/-- Names are words. -/
theorem QueryToken.wellSpelled_word {name : String} (h : Text.isName name.toList) :
    wellSpelled (.word name) := by
  simp [wellSpelled, h]

theorem Entity.wellSpelled_text (entity : Entity) : wellSpelled (.word entity.text) := by
  cases entity <;> decide

theorem Attribute.wellSpelled_text (a : Attribute) : wellSpelled (.word a.text) := by
  cases a <;> decide

theorem Relation.wellSpelled_text (r : Relation) : wellSpelled (.word r.text) := by
  cases r <;> decide

/-- The words that a clause begins with can be written. -/
theorem Clause.wellSpelled_heading (c : Clause) : ∀ t ∈ c.heading, t.wellSpelled := by
  cases c <;> exact List.all_eq_true.1 rfl

/-- Every expression has a text that can be quoted. -/
theorem Expr.exists_infix {e : Expr} (he : e.Spelled) :
    ∃ text : String, e.Infix text.toList ∧ wellSpelled (.quoted text) := by
  have hspelled : ∀ t ∈ e.written .minimal 1, t.wellSpelled := Expr.wellSpelled_of_mem_written he
  have hlaid := ((Token.laid_phrase (e.written .minimal 1)).trimStart hspelled).trimEnd hspelled
  refine ⟨String.ofList (Text.trim (Token.phrase (e.written .minimal 1)).toList),
    ⟨_, Expr.derives_written .minimal e (by omega), hspelled, ?_⟩, ?_⟩
  · rw [String.toList_ofList]
    exact hlaid
  · have hquote : '"' ∉ Text.trim (Token.phrase (e.written .minimal 1)).toList := by
      intro hmem
      rcases hlaid.mem hmem with hblank | ⟨t, ht, hmem⟩
      · cases hblank
      · exact Token.quote_notMem_text (hspelled t ht) hmem
    simp only [wellSpelled, String.toList_ofList, Text.trim_trim, Bool.and_eq_true,
      decide_eq_true_eq]
    exact ⟨hquote, trivial⟩

/-- A name has no quote and no white space at its ends, so it can stand in quotes. -/
theorem QueryToken.wellSpelled_quoted {name : String} (h : Text.isName name.toList) :
    wellSpelled (.quoted name) := by
  have hletters := Text.isAlphanum_of_mem_name h
  have htrim : Text.trim name.toList = name.toList :=
    Text.trim_of_not_isBlank fun c hc => Text.isBlank_of_isAlphanum (hletters c hc)
  have hquote : '"' ∉ name.toList := fun hmem => absurd (hletters '"' hmem) (by decide)
  simp [wellSpelled, htrim, hquote]

variable {decls : List Synonym} (hnames : ∀ s ∈ decls, Text.isName s.name.toList)
include hnames

/-- **An argument that is typed can be written**, with one token. -/
theorem Argument.exists_written {a : Argument} (ha : a.Typed decls) :
    ∃ t, a.Written t ∧ t.wellSpelled := by
  cases ha with
  | @synonym s hs => exact ⟨_, .synonym s, QueryToken.wellSpelled_word (hnames s hs)⟩
  | @name text htext => exact ⟨_, .name text, QueryToken.wellSpelled_quoted htext⟩
  | @index n hn =>
    obtain ⟨digits, hdigits, rfl⟩ := Text.exists_numeral n
    rw [← String.toList_ofList (l := digits)] at hdigits ⊢
    exact ⟨_, .index _ hdigits, hdigits⟩
  | wildcard => exact ⟨_, .wildcard, by decide⟩

omit hnames in
/-- And so can what a pattern is matched with: a wildcard, or words in quotes. -/
theorem Argument.exists_writtenExpression {entity : Entity} {a : Argument}
    (ha : a.TypedExpression entity) :
    ∃ run, a.WrittenExpression run ∧ ∀ t ∈ run, t.wellSpelled := by
  cases ha with
  | wildcard => exact ⟨_, .wildcard, List.all_eq_true.1 rfl⟩
  | @expr partly e he =>
    obtain ⟨text, htext, hspelled⟩ := Expr.exists_infix he
    cases partly with
    | false => exact ⟨_, .whole htext, List.forall_mem_singleton.2 hspelled⟩
    | true =>
      refine ⟨_, .partly htext, ?_⟩
      simp only [List.forall_mem_cons]
      exact ⟨by decide, hspelled, by decide, List.forall_mem_nil _⟩

/-- What is selected is written with its name and its attribute. -/
theorem Selected.wellSpelled_tokens {s : Selected} (hs : s.Typed decls) :
    ∀ t ∈ s.tokens, t.wellSpelled := by
  have hname := QueryToken.wellSpelled_word (hnames _ hs.declared)
  obtain ⟨synonym, attr⟩ := s
  cases attr with
  | none => exact List.forall_mem_singleton.2 hname
  | some a =>
    refine List.forall_mem_cons.2 ⟨hname, List.forall_mem_cons.2 ⟨by decide, ?_⟩⟩
    exact List.forall_mem_singleton.2 a.wellSpelled_text

/-- A tuple is written with what is selected, between angles. -/
theorem Selected.wellSpelled_tuple {ss : List Selected} (hss : ∀ s ∈ ss, s.Typed decls) :
    ∀ t ∈ Selected.tuple ss, t.wellSpelled := by
  induction ss with
  | nil => exact List.all_eq_true.1 rfl
  | cons s ss ih =>
    obtain ⟨hs, hss⟩ := List.forall_mem_cons.1 hss
    have htokens := Selected.wellSpelled_tokens hnames hs
    cases ss with
    | nil => exact List.forall_mem_append.2 ⟨htokens, List.all_eq_true.1 rfl⟩
    | cons s' ss =>
      exact List.forall_mem_append.2 ⟨htokens, List.forall_mem_cons.2 ⟨by decide, ih hss⟩⟩

/-- Every typed selection can be written. -/
theorem Selection.exists_written {selection : Selection} (h : selection.Typed decls) :
    ∃ run, selection.Written run ∧ ∀ t ∈ run, t.wellSpelled := by
  cases h with
  | boolean => exact ⟨_, .boolean, List.all_eq_true.1 rfl⟩
  | elements _ hselected =>
    refine ⟨_, .tuple _, List.forall_mem_cons.2 ⟨by decide, ?_⟩⟩
    exact Selected.wellSpelled_tuple hnames hselected

/-- Every typed side of a comparison can be written. -/
theorem Comparand.exists_written {c : Comparand} (hc : c.Typed decls) :
    ∃ run, c.Written run ∧ ∀ t ∈ run, t.wellSpelled := by
  cases hc with
  | @attr s a hs ha =>
    have htyped : Selected.Typed decls ⟨s, some a⟩ := ⟨hs, by simpa using ha⟩
    exact ⟨_, .selected ⟨s, some a⟩, Selected.wellSpelled_tokens hnames htyped⟩
  | @line s hs hline =>
    have htyped : Selected.Typed decls ⟨s, none⟩ := ⟨hs, nofun⟩
    exact ⟨_, .selected ⟨s, none⟩, Selected.wellSpelled_tokens hnames htyped⟩
  | name htext =>
    obtain ⟨t, ht, hspelled⟩ := Argument.exists_written hnames (.name htext)
    exact ⟨_, .literal ht rfl, List.forall_mem_singleton.2 hspelled⟩
  | index hn =>
    obtain ⟨t, ht, hspelled⟩ := Argument.exists_written hnames (.index hn)
    exact ⟨_, .literal ht rfl, List.forall_mem_singleton.2 hspelled⟩

/-- **Every typed clause can be written**, whatever its form. -/
theorem Clause.exists_written {bip : Bool} {c : Clause} (hc : c.Typed decls bip) :
    ∃ run, c.Written run ∧ ∀ t ∈ run, t.wellSpelled := by
  cases hc with
  | @suchThat relation left right _ hleft hright =>
    obtain ⟨t, ht, hspelled⟩ := Argument.exists_written hnames hleft
    obtain ⟨u, hu, hspelled'⟩ := Argument.exists_written hnames hright
    refine ⟨_, .suchThat relation ht hu, ?_⟩
    simp only [List.forall_mem_cons]
    exact ⟨relation.wellSpelled_text, by decide, hspelled, by decide, hspelled', by decide,
      List.forall_mem_nil _⟩
  | @pattern s left right hs _ hleft _ hright =>
    obtain ⟨t, ht, hspelled⟩ := Argument.exists_written hnames hleft
    obtain ⟨run, hrun, hspelled'⟩ := Argument.exists_writtenExpression hright
    have hend : ∀ t ∈ Clause.patternEnd s.entity, t.wellSpelled := by
      unfold Clause.patternEnd
      split <;> exact List.all_eq_true.1 rfl
    refine ⟨_, .pattern s ht hrun, ?_⟩
    simp only [List.forall_mem_cons, List.forall_mem_append]
    have hname := QueryToken.wellSpelled_word (hnames s hs)
    exact ⟨hname, by decide, hspelled, by decide, hspelled', hend⟩
  | equal hleft hright =>
    obtain ⟨run, hrun, hspelled⟩ := Comparand.exists_written hnames hleft
    obtain ⟨run', hrun', hspelled'⟩ := Comparand.exists_written hnames hright
    refine ⟨_, .equal hrun hrun', ?_⟩
    exact List.forall_mem_append.2 ⟨hspelled, List.forall_mem_cons.2 ⟨by decide, hspelled'⟩⟩

/-- So can all clauses one after the other, each under a heading of its own. -/
theorem Clause.exists_grouped {bip : Bool} {cs : List Clause} (hcs : ∀ c ∈ cs, c.Typed decls bip) :
    ∃ run, Clause.Grouped cs run ∧ ∀ t ∈ run, t.wellSpelled := by
  induction cs with
  | nil => exact ⟨_, .nil, List.forall_mem_nil _⟩
  | cons c cs ih =>
    obtain ⟨hc, hcs⟩ := List.forall_mem_cons.1 hcs
    obtain ⟨run, hrun, hspelled⟩ := Clause.exists_written hnames hc
    obtain ⟨more, hmore, hspelled'⟩ := ih hcs
    refine ⟨_, .group (.one rfl hrun) hmore, ?_⟩
    simp only [List.forall_mem_append]
    exact ⟨c.wellSpelled_heading, hspelled, hspelled'⟩

/-- Synonyms can be declared one at a time. -/
theorem Synonym.exists_declared : ∃ run, Synonym.Declared decls run ∧ ∀ t ∈ run, t.wellSpelled := by
  induction decls with
  | nil => exact ⟨_, .nil, List.forall_mem_nil _⟩
  | cons s decls ih =>
    obtain ⟨hname, hnames⟩ := List.forall_mem_cons.1 hnames
    obtain ⟨more, hmore, hspelled⟩ := ih hnames
    refine ⟨_, .group s.entity (.one s.name) hmore, ?_⟩
    simp only [List.cons_append, List.nil_append, List.forall_mem_cons]
    exact ⟨s.entity.wellSpelled_text, QueryToken.wellSpelled_word hname, by decide, hspelled⟩

end WellSpelled

namespace Query

variable {bip : Bool} {q : Query}

/-- A well formed query can be printed. -/
theorem WellFormed.exists_printed (hq : q.WellFormed bip) : ∃ text, q.Printed text := by
  obtain ⟨declared, hdeclared, hspelled⟩ := Synonym.exists_declared hq.names
  obtain ⟨selected, hselected, hspelled'⟩ := Selection.exists_written hq.names hq.selection
  obtain ⟨clauses, hclauses, hspelled''⟩ := Clause.exists_grouped hq.names hq.clauses
  refine ⟨_, _, .intro hdeclared hselected hclauses, QueryToken.laid_phrase ?_⟩
  simp only [List.forall_mem_append, List.forall_mem_cons]
  exact ⟨hspelled, by decide, hspelled', hspelled''⟩

/-- **Reading inverts printing.** A well formed query can be printed: its declarations in groups of
one sort, then what is selected, and then its clauses, each under its own words or joined with
others of its form, with any white space that keeps words apart. And from every text that prints it
the query is read back, with no fault noted, also if its synonyms are words such as `Select` or
`and`. -/
theorem parse_inverts_query_printing (hq : q.WellFormed bip) :
    (∃ text, q.Printed text) ∧ ∀ text, q.Printed text → parse bip text = .ok q := by
  refine ⟨hq.exists_printed, ?_⟩
  intro text ⟨ts, hwritten, hlaid⟩
  have hlex : QueryToken.lex text = .ok ts := QueryToken.lexFrom_laid hlaid
  exact Outcome.bind_eq_ok.2 ⟨ts, hlex, parseTokens_written hq.toWellTyped hwritten⟩

/-- A query whose synonyms are words of the query language. -/
def keywordNames : Query where
  declarations := [⟨.assign, "pattern"⟩, ⟨.assign, "with"⟩, ⟨.ifElse, "such"⟩, ⟨.progLine, "prog"⟩,
    ⟨.call, "BOOLEAN"⟩, ⟨.var, "and"⟩, ⟨.stmt, "Select"⟩]
  selection := .elements [⟨⟨.call, "BOOLEAN"⟩, some .stmtNumber⟩, ⟨⟨.stmt, "Select"⟩, none⟩]
  clauses := [.suchThat .nextBipStar (.synonym ⟨.stmt, "Select"⟩) (.index 18446744073709551615),
    .suchThat .uses (.name "main") (.synonym ⟨.var, "and"⟩),
    .pattern ⟨.assign, "pattern"⟩ (.synonym ⟨.var, "and"⟩) (.expr ⟨true, ["x", "y", "*"]⟩),
    .pattern ⟨.ifElse, "such"⟩ .wildcard .wildcard,
    .equal ⟨.synonym ⟨.progLine, "prog"⟩, none⟩ ⟨.index 7, none⟩]

def keywordText : String :=
  "assign pattern , with ; if such ; prog_line prog ; call BOOLEAN ; variable and ; " ++
    "stmt Select ; Select < BOOLEAN . stmt# , Select > " ++
    "such that NextBip* ( Select , 18446744073709551615 ) and Uses ( \"main\" , and ) " ++
    "pattern pattern ( and , _ \"x * y\" _ ) and such ( _ , _ , _ ) with prog = 7"

theorem wellFormed_keywordNames : keywordNames.WellFormed true where
  faultless := rfl
  distinct := by decide
  names := by decide
  selection := by
    refine .elements (List.cons_ne_nil _ _) (List.forall_mem_cons.2 ⟨⟨by decide, by decide⟩, ?_⟩)
    exact List.forall_mem_singleton.2 ⟨by decide, by decide⟩
  clauses := by
    simp only [keywordNames, List.forall_mem_cons]
    refine ⟨?_, ?_, ?_, ?_, ?_, List.forall_mem_nil _⟩
    · exact .suchThat (fun _ => rfl) (.synonym (by decide)) (.index (by decide +kernel))
    · exact .suchThat (by decide) (.name (by decide)) (.synonym (by decide))
    · exact .pattern (by decide) rfl (.synonym (by decide)) (by simp)
        (.expr (.bin .mul (.var "x") (.var "y")) (by decide))
    · exact .pattern (by decide) rfl .wildcard (by simp) .wildcard
    · exact .equal (.line (by decide) rfl) (.index (by decide +kernel))

/-- The tokens of the query are laid out in the text. -/
theorem printed_keywordNames : keywordNames.Printed keywordText := by
  have hdeclared := Synonym.Declared.group .assign (.more "pattern" (.one "with")) <|
    .group .ifElse (.one "such") <| .group .progLine (.one "prog") <|
    .group .call (.one "BOOLEAN") <| .group .var (.one "and") <| .group .stmt (.one "Select") .nil
  have hnext := Clause.Written.suchThat .nextBipStar (.synonym ⟨.stmt, "Select"⟩)
    (.index "18446744073709551615" rfl)
  have huses := Clause.Written.suchThat .uses (.name "main") (.synonym ⟨.var, "and"⟩)
  have hrelations : Clause.Chained [.word "such", .word "that"] _ _ :=
    .join rfl hnext (.one rfl huses)
  have hproduct : Expr.Infix (.bin .mul (.var "x") (.var "y")) "x * y".toList :=
    ⟨_, Expr.derives_written .minimal _ (by omega), by decide,
      Token.laid_phrase [.var "x", .arith .mul, .var "y"]⟩
  have hassign := Clause.Written.pattern ⟨.assign, "pattern"⟩ (.synonym ⟨.var, "and"⟩)
    (.partly hproduct)
  have hbranching := Clause.Written.pattern ⟨.ifElse, "such"⟩ .wildcard .wildcard
  have hpatterns : Clause.Chained [.word "pattern"] _ _ := .join rfl hassign (.one rfl hbranching)
  have hline := Clause.Written.equal (.selected ⟨⟨.progLine, "prog"⟩, none⟩)
    (.literal (.index "7" rfl) rfl)
  have hclauses := Clause.Grouped.group hrelations (.group hpatterns (.group (.one rfl hline) .nil))
  have hwritten : keywordNames.Written _ := .intro hdeclared (.tuple _) hclauses
  refine ⟨_, hwritten, ?_⟩
  exact Eq.subst (motive := fun text => QueryToken.Laid _ (String.toList text)) (by decide +kernel)
    (QueryToken.laid_phrase (by decide +kernel))

/-- Words such as `Select` and `BOOLEAN` can be synonyms, and are read back as such. -/
theorem parse_keywordNames :
    keywordNames.WellFormed true ∧ keywordNames.Printed keywordText ∧
      parse true keywordText = .ok keywordNames := by
  refine ⟨wellFormed_keywordNames, printed_keywordNames, ?_⟩
  exact (parse_inverts_query_printing wellFormed_keywordNames).2 _ printed_keywordNames

end Query

end ProgramFacts
