import ProgramFacts.Proofs.FactBase.Patterns
import ProgramFacts.Proofs.Query.Satisfaction
import ProgramFacts.Query.Check
/-!
# Queries — what is read is well typed

The typing rules of queries, over the synonyms that are declared: `Query.WellTyped`. The reader
does not stop where one of them is broken. It notes a fault, takes a synonym that is not declared
for a statement, and goes on, and of all the faults a query keeps the first. So the rules hold of
what was read if no fault was noted on the way, production by production, and of a query if it has
no fault (`parse_wellTyped`). Two of the rules are never broken, fault or no fault: a name is
declared once, and a relation that is switched off does not occur.
-/

namespace ProgramFacts

/-! ## Typing rules -/

section Rules

variable (decls : List Synonym)

/-- An argument of a relation: a declared synonym, a name, a count or a wildcard. -/
inductive Argument.Typed : Argument → Prop
  | synonym {s : Synonym} (hs : s ∈ decls) : Typed (.synonym s)
  | name {text : String} (htext : Text.isName text.toList) : Typed (.name text)
  | index {n : Nat} (hn : n < Text.countLimit) : Typed (.index n)
  | wildcard : Typed .wildcard

/-- The expression of a pattern: any, or for assignments the words of a tree in postorder. -/
inductive Argument.TypedExpression : Entity → Argument → Prop
  | wildcard {entity : Entity} : TypedExpression entity .wildcard
  | expr {partly : Bool} (e : Expr) (he : e.Spelled) :
    TypedExpression .assign (.expr ⟨partly, e.rpn⟩)

/-- A declared synonym, or an attribute that applies to one. -/
structure Selected.Typed (s : Selected) : Prop where
  declared : s.synonym ∈ decls
  applies : ∀ a ∈ s.attr, a.appliesTo s.synonym.entity

/-- One side of a comparison: an attribute that applies, a program line, a name or a count. -/
inductive Comparand.Typed : Comparand → Prop
  | attr {s : Synonym} {a : Attribute} (hs : s ∈ decls) (ha : a.appliesTo s.entity) :
    Typed ⟨.synonym s, some a⟩
  | line {s : Synonym} (hs : s ∈ decls) (hline : s.entity = .progLine) : Typed ⟨.synonym s, none⟩
  | name {text : String} (htext : Text.isName text.toList) : Typed ⟨.name text, none⟩
  | index {n : Nat} (hn : n < Text.countLimit) : Typed ⟨.index n, none⟩

/-- A clause, where the relations that cross procedures have to be switched on. -/
inductive Clause.Typed (bip : Bool) : Clause → Prop
  | suchThat {relation : Relation} {left right : Argument} (hrelation : relation.isBip → bip)
    (hleft : left.Typed decls) (hright : right.Typed decls) :
    Typed bip (.suchThat relation left right)
  | pattern {s : Synonym} {left right : Argument} (hs : s ∈ decls) (hpattern : hasPattern s.entity)
    (hleft : left.Typed decls) (hindex : ∀ n, left ≠ .index n)
    (hright : right.TypedExpression s.entity) : Typed bip (.pattern s left right)
  | equal {left right : Comparand} (hleft : left.Typed decls) (hright : right.Typed decls) :
    Typed bip (.equal left right)

/-- A selection. The word that asks for a truth value must not be a synonym. -/
inductive Selection.Typed : Selection → Prop
  | boolean (hword : ∀ s ∈ decls, s.name ≠ "BOOLEAN") : Typed .boolean
  | elements {selected : List Selected} (hne : selected ≠ [])
    (hselected : ∀ s ∈ selected, s.Typed decls) : Typed (.elements selected)

end Rules

/-- **A well-typed query**: no fault is noted in it, every name is declared once, and its selection
and its clauses are typed over its declarations. -/
structure Query.WellTyped (bip : Bool) (q : Query) : Prop where
  faultless : q.fault = none
  distinct : (q.declarations.map Synonym.name).Nodup
  selection : q.selection.Typed q.declarations
  clauses : ∀ c ∈ q.clauses, c.Typed q.declarations bip

/-! ### What occurs is declared -/

section Occurrences

variable {decls : List Synonym}

/-- A synonym that is a typed argument is declared. -/
theorem Argument.Typed.mem {a : Argument} (h : a.Typed decls) : ∀ s ∈ a.synonym?, s ∈ decls := by
  intro s hs
  cases h with
  | synonym hmem =>
    obtain rfl := Option.some.inj hs
    exact hmem
  | name | index | wildcard => cases hs

theorem Argument.TypedExpression.synonym? {entity : Entity} {a : Argument}
    (h : a.TypedExpression entity) : a.synonym? = none := by
  cases h <;> rfl

/-- Only assignments are matched with more than a wildcard. -/
theorem Argument.TypedExpression.placed {entity : Entity} {a : Argument}
    (h : a.TypedExpression entity) : entity = .assign ∨ a = .wildcard := by
  cases h with
  | wildcard => exact .inr rfl
  | expr => exact .inl rfl

/-- A synonym that is compared is declared. -/
theorem Comparand.Typed.mem {c : Comparand} (h : c.Typed decls) :
    ∀ s ∈ c.argument.synonym?, s ∈ decls := by
  intro s hs
  cases h with
  | attr hmem | line hmem =>
    obtain rfl := Option.some.inj hs
    exact hmem
  | name | index => cases hs

/-- **All synonyms of a typed clause are declared.** -/
theorem Clause.Typed.mem {bip : Bool} {c : Clause} (h : c.Typed decls bip) :
    ∀ s ∈ c.occurrences, s ∈ decls := by
  intro s hs
  cases h with
  | suchThat _ hleft hright =>
    rw [occurrences, List.mem_append, Option.mem_toList, Option.mem_toList] at hs
    exact hs.elim (hleft.mem s) (hright.mem s)
  | pattern hmem _ hleft _ hright =>
    rw [occurrences, hright.synonym?, Option.toList_none, List.append_nil, List.mem_cons,
      Option.mem_toList] at hs
    exact hs.elim (fun heq => heq ▸ hmem) (hleft.mem s)
  | equal hleft hright =>
    rw [occurrences, List.mem_append, Option.mem_toList, Option.mem_toList] at hs
    exact hs.elim (hleft.mem s) (hright.mem s)

/-- So are those that are selected. -/
theorem Selection.Typed.mem {selection : Selection} (h : selection.Typed decls) :
    ∀ s ∈ selection.occurrences, s ∈ decls := by
  intro s hs
  cases h with
  | boolean => cases hs
  | elements _ hselected =>
    obtain ⟨one, hone, rfl⟩ := List.mem_map.1 hs
    exact (hselected one hone).declared

end Occurrences

/-- Nothing is noted if nothing was before and the check passes. -/
theorem Noted.check_faults {α : Type} {n : Noted α} {passed : Bool} {fault : SemanticFault} :
    (n.check passed fault).faults = [] ↔ n.faults = [] ∧ passed = true := by
  cases passed <;> simp [Noted.check]

namespace Query

variable {bip : Bool} {q : Query} {decls : List Synonym} {ts : List QueryToken}

/-- **All synonyms of a well typed query are declared.** -/
theorem WellTyped.mem (h : q.WellTyped bip) : ∀ s ∈ q.occurrences, s ∈ q.declarations := by
  intro s hs
  rcases List.mem_append.1 hs with hs | hs
  · obtain ⟨c, hc, hs⟩ := List.mem_flatMap.1 hs
    exact (h.clauses c hc).mem s hs
  · exact h.selection.mem s hs

/-- Every synonym of a well-typed query has one sort throughout, that of its declaration. -/
theorem WellTyped.oneSort (h : q.WellTyped bip) : q.OneSort := by
  intro s hs s' hs' hname
  have heq : s = s' := List.inj_on_of_nodup_map h.distinct (h.mem s hs) (h.mem s' hs') hname
  rw [heq]

/-! ## Declarations -/

/-- **What a declaration keeps, reading declarations keeps.** -/
theorem parseSynonyms_keeps {P : List Synonym → Prop}
    (hdeclare : ∀ entity name noted, P noted.value → P (declare entity name noted).value)
    {ts : List QueryToken} {entity : Entity} {noted : Noted (List Synonym)}
    {r : Reading (Noted (List Synonym)) ts} (h : parseSynonyms entity noted ts = .ok r)
    (hnoted : P noted.value) : P r.value.value := by
  rw [parseSynonyms] at h
  obtain ⟨name, -, h⟩ := Outcome.bind_eq_ok.1 h
  have hlt := name.shorter
  have hone := hdeclare entity name.value noted hnoted
  split at h
  · obtain rfl := Except.ok.inj h
    exact hone
  · obtain ⟨comma, -, h⟩ := Outcome.bind_eq_ok.1 h
    obtain ⟨more, hmore, h⟩ := Outcome.bind_eq_ok.1 h
    have hlt' := comma.shorter
    have hall : P more.value.value := parseSynonyms_keeps hdeclare hmore hone
    obtain rfl := Except.ok.inj h
    exact hall
termination_by ts.length
decreasing_by omega

/-- Whatever a single declaration keeps, all declarations keep. -/
theorem parseDeclarations_keeps {P : List Synonym → Prop}
    (hdeclare : ∀ entity name noted, P noted.value → P (declare entity name noted).value)
    {ts : List QueryToken} {noted : Noted (List Synonym)}
    {r : Reading (Noted (List Synonym)) ts} (h : parseDeclarations noted ts = .ok r)
    (hnoted : P noted.value) : P r.value.value := by
  rw [parseDeclarations] at h
  split at h
  · obtain rfl := Except.ok.inj h
    exact hnoted
  · split at h
    · cases h
    · obtain ⟨first, hfirst, h⟩ := Outcome.bind_eq_ok.1 h
      obtain ⟨more, hmore, h⟩ := Outcome.bind_eq_ok.1 h
      have hlt := first.shorter
      have hone : P first.value.value := by
        obtain ⟨word, -, hfirst⟩ := Outcome.bind_eq_ok.1 hfirst
        split at hfirst
        · cases hfirst
        · obtain ⟨listed, hlisted, hfirst⟩ := Outcome.bind_eq_ok.1 hfirst
          have hall : P listed.value.value := parseSynonyms_keeps hdeclare hlisted hnoted
          obtain rfl := Except.ok.inj hfirst
          exact hall
      have hall : P more.value.value := parseDeclarations_keeps hdeclare hmore hone
      obtain rfl := Except.ok.inj h
      exact hall
termination_by ts.length
decreasing_by omega

/-- A declaration never declares a name again. -/
theorem nodup_declare {entity : Entity} {name : String} {noted : Noted (List Synonym)}
    (h : (noted.value.map Synonym.name).Nodup) :
    ((declare entity name noted).value.map Synonym.name).Nodup := by
  unfold declare
  split
  · exact h
  · next hnew =>
    have hname : name ∉ noted.value.map Synonym.name := by simpa using hnew
    rw [List.map_append, List.nodup_append]
    refine ⟨h, List.nodup_singleton _, fun a ha b hb heq => hname ?_⟩
    obtain rfl := List.mem_singleton.1 hb
    exact heq ▸ ha

/-! ## Synonyms, attributes and selections -/

/-- A synonym that is found without a fault is declared. -/
theorem mem_of_resolve {name : String} (h : (resolve decls name).faults = []) :
    (resolve decls name).value ∈ decls := by
  revert h
  unfold resolve
  split
  · next hfind => exact fun _ => List.mem_of_find?_eq_some hfind
  · intro h
    cases h

theorem mem_of_parseSynonym {r : Reading (Noted Synonym) ts} (h : parseSynonym decls ts = .ok r)
    (hclean : r.value.faults = []) : r.value.value ∈ decls := by
  obtain ⟨name, -, h⟩ := Outcome.bind_eq_ok.1 h
  obtain rfl := Except.ok.inj h
  exact mem_of_resolve hclean

/-- An attribute that is read without a fault applies to its synonym. -/
theorem applies_of_parseAttribute {s : Synonym} {r : Reading (Noted Attribute) ts}
    (h : parseAttribute s ts = .ok r) (hclean : r.value.faults = []) :
    r.value.value.appliesTo s.entity := by
  obtain ⟨word, -, h⟩ := Outcome.bind_eq_ok.1 h
  split at h
  · cases h
  · obtain rfl := Except.ok.inj h
    exact (Noted.check_faults.1 hclean).2

/-- What is selected without a fault is typed. -/
theorem parseSelected_typed {r : Reading (Noted Selected) ts} (h : parseSelected decls ts = .ok r)
    (hclean : r.value.faults = []) : r.value.value.Typed decls := by
  obtain ⟨s, hs, h⟩ := Outcome.bind_eq_ok.1 h
  split at h
  · obtain rfl := Except.ok.inj h
    exact ⟨mem_of_parseSynonym hs hclean, nofun⟩
  · obtain ⟨attr, hattr, h⟩ := Outcome.bind_eq_ok.1 h
    obtain rfl := Except.ok.inj h
    obtain ⟨hsynonym, happlies⟩ := List.append_eq_nil_iff.1 hclean
    refine ⟨mem_of_parseSynonym hs hsynonym, fun a ha => ?_⟩
    obtain rfl := Option.some.inj ha
    exact applies_of_parseAttribute hattr happlies

/-- So is a tuple, which is not empty. -/
theorem parseTuple_typed {ts : List QueryToken}
    {r : Reading (Noted (List Selected)) ts} (h : parseTuple decls ts = .ok r)
    (hclean : r.value.faults = []) :
    r.value.value ≠ [] ∧ ∀ s ∈ r.value.value, s.Typed decls := by
  rw [parseTuple] at h
  obtain ⟨first, hfirst, h⟩ := Outcome.bind_eq_ok.1 h
  have hlt := first.shorter
  split at h
  · next comma _ =>
    obtain ⟨more, hmore, h⟩ := Outcome.bind_eq_ok.1 h
    obtain rfl := Except.ok.inj h
    have hlt' := comma.shorter
    obtain ⟨hone, hall⟩ := List.append_eq_nil_iff.1 hclean
    have htyped := parseSelected_typed hfirst hone
    have hrest := (parseTuple_typed hmore hall).2
    exact ⟨List.cons_ne_nil _ _, List.forall_mem_cons.2 ⟨htyped, hrest⟩⟩
  · obtain ⟨closing, -, h⟩ := Outcome.bind_eq_ok.1 h
    obtain rfl := Except.ok.inj h
    have htyped := parseSelected_typed hfirst hclean
    exact ⟨List.cons_ne_nil _ _, List.forall_mem_singleton.2 htyped⟩
termination_by ts.length
decreasing_by omega

/-- One that is selected alone is a tuple of one. -/
theorem parseElements_typed {r : Reading (Noted Selection) ts}
    (h : parseSelection.parseElements decls ts = .ok r) (hclean : r.value.faults = []) :
    r.value.value.Typed decls := by
  unfold parseSelection.parseElements at h
  split at h
  · obtain ⟨tuple, htuple, h⟩ := Outcome.bind_eq_ok.1 h
    obtain rfl := Except.ok.inj h
    obtain ⟨hne, hall⟩ := parseTuple_typed htuple hclean
    exact .elements hne hall
  · obtain ⟨one, hone, h⟩ := Outcome.bind_eq_ok.1 h
    obtain rfl := Except.ok.inj h
    have htyped := parseSelected_typed hone hclean
    exact .elements (List.cons_ne_nil _ _) (List.forall_mem_singleton.2 htyped)

/-- **A selection that is read without a fault is typed.** -/
theorem parseSelection_typed {r : Reading (Noted Selection) ts}
    (h : parseSelection decls ts = .ok r) (hclean : r.value.faults = []) :
    r.value.value.Typed decls := by
  unfold parseSelection at h
  split at h
  · split at h
    · exact parseElements_typed h hclean
    · next hword =>
      obtain rfl := Except.ok.inj h
      exact .boolean (by simpa using hword)
  · exact parseElements_typed h hclean

/-! ## Clauses -/

/-- An argument is what its one token says. -/
theorem parseArgument_cases {r : Reading (Noted Argument) ts} (h : parseArgument decls ts = .ok r) :
    (ts = .mark '_' :: r.rest ∧ r.value = .clean .wildcard) ∨
    (∃ digits, ts = .number digits :: r.rest ∧
      ∃ n < Text.countLimit, r.value = .clean (.index n)) ∨
    (∃ text, ts = .quoted text :: r.rest ∧ Text.isName text.toList ∧
      r.value = .clean (.name text)) ∨
    ∃ name, ts = .word name :: r.rest ∧ r.value = (resolve decls name).map .synonym := by
  unfold parseArgument at h
  split at h
  · obtain rfl := Except.ok.inj h
    exact .inl ⟨rfl, rfl⟩
  · split at h
    · next n hcount =>
      obtain rfl := Except.ok.inj h
      exact .inr (.inl ⟨_, rfl, n, Text.lt_countLimit_of_count? hcount, rfl⟩)
    · cases h
  · split at h
    · next text _ hname =>
      obtain rfl := Except.ok.inj h
      exact .inr (.inr (.inl ⟨text, rfl, hname, rfl⟩))
    · cases h
  · next name _ =>
    obtain rfl := Except.ok.inj h
    exact .inr (.inr (.inr ⟨name, rfl, rfl⟩))
  · cases h

/-- An argument that is read without a fault is typed. -/
theorem parseArgument_typed {r : Reading (Noted Argument) ts} (h : parseArgument decls ts = .ok r)
    (hclean : r.value.faults = []) : r.value.value.Typed decls := by
  rcases parseArgument_cases h with
    ⟨-, hr⟩ | ⟨_, -, n, hn, hr⟩ | ⟨text, -, htext, hr⟩ | ⟨name, -, hr⟩
  · exact hr ▸ .wildcard
  · exact hr ▸ .index hn
  · exact hr ▸ .name htext
  · rw [hr] at hclean ⊢
    exact .synonym (mem_of_resolve hclean)

/-- What is read as a relation is one that is switched on. -/
theorem parseRelation_cases {r : Reading (Noted Clause) ts}
    (h : parseRelation decls bip ts = .ok r) :
    ∃ relation left right, r.value.value = .suchThat relation left right ∧
      (relation.isBip → bip) ∧ (r.value.faults = [] → r.value.value.Typed decls bip) := by
  obtain ⟨word, -, h⟩ := Outcome.bind_eq_ok.1 h
  split at h
  · cases h
  · next relation _ =>
    split at h
    · cases h
    · next hdisabled =>
      obtain ⟨opening, -, h⟩ := Outcome.bind_eq_ok.1 h
      obtain ⟨left, hleft, h⟩ := Outcome.bind_eq_ok.1 h
      obtain ⟨comma, -, h⟩ := Outcome.bind_eq_ok.1 h
      obtain ⟨right, hright, h⟩ := Outcome.bind_eq_ok.1 h
      obtain ⟨closing, -, h⟩ := Outcome.bind_eq_ok.1 h
      obtain rfl := Except.ok.inj h
      have hknown : relation.isBip → bip := by simpa using hdisabled
      refine ⟨relation, _, _, rfl, hknown, fun hclean => ?_⟩
      obtain ⟨hcleanLeft, hcleanRight⟩ := List.append_eq_nil_iff.1 hclean
      exact .suchThat hknown (parseArgument_typed hleft hcleanLeft)
        (parseArgument_typed hright hcleanRight)

/-- What is read as the expression of a pattern is a wildcard, or the words of a tree. -/
theorem parseExpression_spelled {r : Reading Argument ts} (h : parseExpression ts = .ok r) :
    r.value = .wildcard ∨ ∃ partly, ∃ e : Expr, e.Spelled ∧ r.value = .expr ⟨partly, e.rpn⟩ := by
  rcases parseExpression_cases h with ⟨-, hvalue⟩ | ⟨text, parsed, partly, hparsed, hvalue, -⟩
  · exact .inl hvalue
  · obtain ⟨hspelled, hwords⟩ := Expr.spelled_of_parseText hparsed
    rw [hwords] at hvalue
    exact .inr ⟨partly, parsed.tree, hspelled, hvalue⟩

/-- Statements that patterns have places for are those that can be matched. -/
theorem hasPattern_of_hasArity {entity : Entity} {n : Nat} (h : hasArity entity n) :
    Clause.hasPattern entity := by
  unfold hasArity at h
  split at h
  · rfl
  · rfl
  · rfl
  · cases h

/-- **A pattern is read as one**, and without a fault it is typed. -/
theorem parsePattern_cases (bip : Bool) {r : Reading (Noted Clause) ts}
    (h : parsePattern decls ts = .ok r) :
    ∃ s left right, r.value.value = .pattern s left right ∧
      (r.value.faults = [] → r.value.value.Typed decls bip) := by
  obtain ⟨s, hs, h⟩ := Outcome.bind_eq_ok.1 h
  obtain ⟨opening, -, h⟩ := Outcome.bind_eq_ok.1 h
  obtain ⟨left, hleft, h⟩ := Outcome.bind_eq_ok.1 h
  dsimp only at h
  split at h
  · cases h
  · next hindex =>
    obtain ⟨comma, -, h⟩ := Outcome.bind_eq_ok.1 h
    obtain ⟨right, hright, h⟩ := Outcome.bind_eq_ok.1 h
    obtain ⟨arity, -, h⟩ := Outcome.bind_eq_ok.1 h
    obtain rfl := Except.ok.inj h
    refine ⟨_, _, _, rfl, fun hclean => ?_⟩
    obtain ⟨hclean, hplaced⟩ := Noted.check_faults.1 hclean
    obtain ⟨hclean, harity⟩ := Noted.check_faults.1 hclean
    obtain ⟨hcleanSynonym, hcleanLeft⟩ := List.append_eq_nil_iff.1 hclean
    have hexpression : right.value.TypedExpression s.value.value.entity := by
      rcases parseExpression_spelled hright with hwildcard | ⟨partly, e, he, hexpr⟩
      · rw [hwildcard]
        exact .wildcard
      · have hassign : s.value.value.entity = .assign := by simpa [hexpr] using hplaced
        rw [hexpr, hassign]
        exact .expr e he
    exact .pattern (mem_of_parseSynonym hs hcleanSynonym) (hasPattern_of_hasArity harity)
      (parseArgument_typed hleft hcleanLeft) hindex hexpression

/-- What may be selected may be compared, if it has an attribute or is a line of the program. -/
theorem compared_typed {n : Noted Selected} (htyped : n.faults = [] → n.value.Typed decls)
    (hclean : (compared n).faults = []) : (compared n).value.Typed decls := by
  obtain ⟨hclean, hline⟩ := Noted.check_faults.1 hclean
  obtain ⟨hmem, happlies⟩ := htyped hclean
  obtain ⟨⟨s, attr⟩, faults⟩ := n
  cases attr with
  | none => exact .line hmem (by simpa using hline)
  | some a => exact .attr hmem (happlies a rfl)

/-- One side of a comparison that is read without a fault is typed. -/
theorem parseComparand_typed {r : Reading (Noted Comparand) ts}
    (h : parseComparand decls ts = .ok r) (hclean : r.value.faults = []) :
    r.value.value.Typed decls := by
  unfold parseComparand at h
  split at h
  · obtain ⟨s, hs, h⟩ := Outcome.bind_eq_ok.1 h
    obtain rfl := Except.ok.inj h
    exact compared_typed (parseSelected_typed hs) hclean
  · cases h
  · next hword hmark =>
    obtain ⟨a, ha, h⟩ := Outcome.bind_eq_ok.1 h
    obtain rfl := Except.ok.inj h
    -- the first token is neither a word nor a wildcard
    rcases parseArgument_cases ha with
      ⟨hts, -⟩ | ⟨_, -, n, hn, hr⟩ | ⟨text, -, htext, hr⟩ | ⟨name, hts, -⟩
    · exact absurd (congrArg List.head? hts) hmark
    · simpa [hr] using .index hn
    · simpa [hr] using .name htext
    · exact absurd (congrArg List.head? hts) (hword name)

/-- **A comparison is read as one**, and without a fault it is typed. -/
theorem parseEqual_cases (bip : Bool) {r : Reading (Noted Clause) ts}
    (h : parseEqual decls ts = .ok r) :
    ∃ left right, r.value.value = .equal left right ∧
      (r.value.faults = [] → r.value.value.Typed decls bip) := by
  obtain ⟨left, hleft, h⟩ := Outcome.bind_eq_ok.1 h
  obtain ⟨sign, -, h⟩ := Outcome.bind_eq_ok.1 h
  obtain ⟨right, hright, h⟩ := Outcome.bind_eq_ok.1 h
  obtain rfl := Except.ok.inj h
  refine ⟨_, _, rfl, fun hclean => ?_⟩
  obtain ⟨hcleanLeft, hcleanRight⟩ := List.append_eq_nil_iff.1 hclean
  exact .equal (parseComparand_typed hleft hcleanLeft) (parseComparand_typed hright hcleanRight)

/-! ## Chains of clauses -/

/-- A clause by itself, with its faults, as one of the three readers of clauses gives it. -/
inductive ReadClause (decls : List Synonym) (bip : Bool) : Noted Clause → Prop
  | relation {ts : List QueryToken} {r : Reading (Noted Clause) ts}
    (h : parseRelation decls bip ts = .ok r) : ReadClause decls bip r.value
  | pattern {ts : List QueryToken} {r : Reading (Noted Clause) ts}
    (h : parsePattern decls ts = .ok r) : ReadClause decls bip r.value
  | equal {ts : List QueryToken} {r : Reading (Noted Clause) ts}
    (h : parseEqual decls ts = .ok r) : ReadClause decls bip r.value

/-- A clause of any form that is read without a fault is typed. -/
theorem ReadClause.typed {n : Noted Clause} (h : ReadClause decls bip n) (hclean : n.faults = []) :
    n.value.Typed decls bip := by
  cases h with
  | relation h =>
    obtain ⟨_, _, _, -, -, htyped⟩ := parseRelation_cases h
    exact htyped hclean
  | pattern h =>
    obtain ⟨_, _, _, -, htyped⟩ := parsePattern_cases bip h
    exact htyped hclean
  | equal h =>
    obtain ⟨_, _, -, htyped⟩ := parseEqual_cases bip h
    exact htyped hclean

/-- Whatever is noted in a clause, its relation is switched on. -/
theorem ReadClause.known {n : Noted Clause} (h : ReadClause decls bip n) {relation : Relation}
    {left right : Argument} (hn : n.value = .suchThat relation left right) :
    relation.isBip → bip := by
  cases h with
  | relation h =>
    obtain ⟨_, _, _, hvalue, hknown, -⟩ := parseRelation_cases h
    cases hvalue.symm.trans hn
    exact hknown
  | pattern h =>
    obtain ⟨_, _, _, hvalue, -⟩ := parsePattern_cases bip h
    cases hvalue.symm.trans hn
  | equal h =>
    obtain ⟨_, _, hvalue, -⟩ := parseEqual_cases bip h
    cases hvalue.symm.trans hn

/-- Every clause of a list was read by itself, and its faults are among those of the list. -/
def ReadClauses (decls : List Synonym) (bip : Bool) (n : Noted (List Clause)) : Prop :=
  ∀ c ∈ n.value, ∃ faults ⊆ n.faults, ReadClause decls bip ⟨c, faults⟩

theorem readClauses_nil : ReadClauses decls bip (.clean []) := by
  intro c hc
  cases hc

theorem readClauses_singleton {n : Noted Clause} (h : ReadClause decls bip n) :
    ReadClauses decls bip (n.map ([·])) := by
  intro c hc
  obtain rfl := List.mem_singleton.1 hc
  exact ⟨n.faults, List.Subset.refl _, h⟩

/-- Clauses that are read one after the other are read together. -/
theorem ReadClauses.append {n n' : Noted (List Clause)} (h : ReadClauses decls bip n)
    (h' : ReadClauses decls bip n') :
    ReadClauses decls bip ⟨n.value ++ n'.value, n.faults ++ n'.faults⟩ := by
  intro c hc
  rcases List.mem_append.1 hc with hc | hc
  · obtain ⟨faults, hsub, hread⟩ := h c hc
    exact ⟨faults, List.subset_append_of_subset_left _ hsub, hread⟩
  · obtain ⟨faults, hsub, hread⟩ := h' c hc
    exact ⟨faults, List.subset_append_of_subset_right _ hsub, hread⟩

/-- Clauses that are joined with `and` are read if each of them is. -/
theorem readClauses_parseChain {one : (ts : List QueryToken) → Outcome (Noted Clause) ts}
    (hone : ∀ ts r, one ts = .ok r → ReadClause decls bip r.value)
    {ts : List QueryToken} {r : Reading (Noted (List Clause)) ts} (h : parseChain one ts = .ok r) :
    ReadClauses decls bip r.value := by
  rw [parseChain] at h
  obtain ⟨first, hfirst, h⟩ := Outcome.bind_eq_ok.1 h
  have hread := readClauses_singleton (hone ts first hfirst)
  have hlt := first.shorter
  split at h
  · obtain rfl := Except.ok.inj h
    exact hread
  · next joint _ =>
    obtain ⟨more, hmore, h⟩ := Outcome.bind_eq_ok.1 h
    obtain rfl := Except.ok.inj h
    have hlt' := joint.shorter
    exact hread.append (readClauses_parseChain hone hmore)
termination_by ts.length
decreasing_by omega

/-- And so are those under one heading. -/
theorem readClauses_parseGroup {head : QueryToken} {ts : List QueryToken}
    {r : Reading (Noted (List Clause)) (head :: ts)} (h : parseGroup decls bip head ts = .ok r) :
    ReadClauses decls bip r.value := by
  unfold parseGroup at h
  split at h
  · obtain ⟨that, -, h⟩ := Outcome.bind_eq_ok.1 h
    obtain ⟨chain, hchain, h⟩ := Outcome.bind_eq_ok.1 h
    have hread : ReadClauses decls bip chain.value :=
      readClauses_parseChain (fun _ _ => .relation) hchain
    obtain rfl := Except.ok.inj h
    exact hread
  · obtain ⟨chain, hchain, h⟩ := Outcome.bind_eq_ok.1 h
    have hread : ReadClauses decls bip chain.value :=
      readClauses_parseChain (fun _ _ => .pattern) hchain
    obtain rfl := Except.ok.inj h
    exact hread
  · obtain ⟨chain, hchain, h⟩ := Outcome.bind_eq_ok.1 h
    have hread : ReadClauses decls bip chain.value :=
      readClauses_parseChain (fun _ _ => .equal) hchain
    obtain rfl := Except.ok.inj h
    exact hread
  · cases h

/-- **The clauses of a query are read one by one**, and no fault of theirs is lost. -/
theorem readClauses_parseClauses : {ts : List QueryToken} → {n : Noted (List Clause)} →
    parseClauses decls bip ts = .ok n → ReadClauses decls bip n
  | [], n, h => by
    rw [parseClauses] at h
    obtain rfl := Except.ok.inj h
    exact readClauses_nil
  | head :: ts, n, h => by
    rw [parseClauses] at h
    obtain ⟨group, hgroup, h⟩ := Outcome.bind_eq_ok.1 h
    obtain ⟨more, hmore, h⟩ := Outcome.bind_eq_ok.1 h
    obtain rfl := Except.ok.inj h
    have hlt := group.shorter
    exact (readClauses_parseGroup hgroup).append (readClauses_parseClauses hmore)
termination_by ts => ts.length
decreasing_by exact hlt

/-! ## Queries -/

/-- **What is read as a query is well typed unless a fault is noted in it.** Every name is declared
once, and a relation that crosses procedures occurs only if these are switched on, be there a fault
or not. If there is none, the query is well typed. All synonyms in the selection and in the clauses
are then declared ones, so that each has the same sort wherever it occurs. -/
theorem parse_wellTyped {text : String} (h : parse bip text = .ok q) :
    (q.declarations.map Synonym.name).Nodup ∧
      (bip = false → ∀ relation left right, .suchThat relation left right ∈ q.clauses →
        relation.isBip = false) ∧
      (q.fault = none → q.WellTyped bip ∧ (∀ s ∈ q.occurrences, s ∈ q.declarations) ∧
        q.OneSort) := by
  obtain ⟨ts, -, h⟩ := Outcome.bind_eq_ok.1 h
  obtain ⟨declared, hdeclared, h⟩ := Outcome.bind_eq_ok.1 h
  obtain ⟨selection, hselection, h⟩ := Outcome.bind_eq_ok.1 h
  obtain ⟨clauses, hclauses, h⟩ := Outcome.bind_eq_ok.1 h
  obtain rfl := Except.ok.inj h
  have hdistinct : (declared.value.value.map Synonym.name).Nodup :=
    parseDeclarations_keeps (P := fun decls => (decls.map Synonym.name).Nodup)
      (fun _ _ _ => nodup_declare) hdeclared List.nodup_nil
  have hread := readClauses_parseClauses hclauses
  refine ⟨hdistinct, fun hbip relation left right hmem => ?_, fun hfault => ?_⟩
  · obtain ⟨faults, -, hclause⟩ := hread _ hmem
    have hknown := hclause.known rfl
    simpa [hbip] using hknown
  · -- the first fault of all is the one that is kept
    have hnone := List.head?_eq_none_iff.1 hfault
    obtain ⟨hnone, hcleanClauses⟩ := List.append_eq_nil_iff.1 hnone
    obtain ⟨-, hcleanSelection⟩ := List.append_eq_nil_iff.1 hnone
    suffices htyped : WellTyped bip _ from ⟨htyped, htyped.mem, htyped.oneSort⟩
    refine ⟨hfault, hdistinct, parseSelection_typed hselection hcleanSelection, fun c hc => ?_⟩
    obtain ⟨faults, hsub, hclause⟩ := hread c hc
    exact hclause.typed (List.subset_nil.1 (hcleanClauses ▸ hsub))

/-- The loops around a given line, with the assignments in them that add one to `x` somewhere. -/
def incrementsInLoops : Query where
  declarations := [⟨.assign, "a"⟩, ⟨.whileLoop, "w"⟩, ⟨.progLine, "n"⟩]
  selection := .elements [⟨⟨.whileLoop, "w"⟩, none⟩, ⟨⟨.assign, "a"⟩, some .stmtNumber⟩]
  clauses := [.suchThat .parentStar (.synonym ⟨.whileLoop, "w"⟩) (.synonym ⟨.assign, "a"⟩),
    .suchThat .parentStar (.synonym ⟨.whileLoop, "w"⟩) (.synonym ⟨.progLine, "n"⟩),
    .pattern ⟨.assign, "a"⟩ .wildcard (.expr ⟨true, ["x", "1", "+"]⟩),
    .equal ⟨.synonym ⟨.progLine, "n"⟩, none⟩ ⟨.index 12, none⟩]

/-- Clauses of all three forms, with two sorts of statements and a line of the program. -/
theorem parse_incrementsInLoops :
    parse false ("assign a; while w; prog_line n; Select <w, a.stmt#> " ++
      "such that Parent*(w, a) and Parent*(w, n) pattern a(_, _\"x + 1\"_) with n = 12") =
        .ok incrementsInLoops ∧
      incrementsInLoops.WellTyped false ∧ incrementsInLoops.OneSort := by
  have hparse : parse false ("assign a; while w; prog_line n; Select <w, a.stmt#> " ++
      "such that Parent*(w, a) and Parent*(w, n) pattern a(_, _\"x + 1\"_) with n = 12") =
      .ok incrementsInLoops := Outcome.toOption_eq_some.1 (by decide +kernel)
  obtain ⟨-, -, hfaultless⟩ := parse_wellTyped hparse
  obtain ⟨htyped, -, hsorts⟩ := hfaultless rfl
  exact ⟨hparse, htyped, hsorts⟩

end Query

end ProgramFacts
