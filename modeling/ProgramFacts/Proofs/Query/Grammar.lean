import ProgramFacts.Proofs.Program.Printing
import ProgramFacts.Proofs.Query.Typing
/-!
# Queries — the grammar

How a query may be written, token by token: `Query.Written`. Declarations of one sort can share a
word, clauses of one form can be joined by `and` or stand each under a word of its own, a single
selection can do without brackets, and the pattern of an expression can be any text that has it.
A well-typed query that is written so is read back (`parseTokens_written`). Words are never in the
way: which of them is a keyword depends on where it stands, and each reader looks at no more than
the token that tells it how to go on.
-/

namespace ProgramFacts

/-! ## Writing -/

/-- The text has the tokens of an expression. -/
def Expr.Infix (e : Expr) (text : List Char) : Prop :=
  ∃ run, Expr.Derives 1 run e ∧ (∀ t ∈ run, t.wellSpelled) ∧ Token.Laid run text

/-- An argument is written with one token. -/
inductive Argument.Written : Argument → QueryToken → Prop
  | synonym (s : Synonym) : Written (.synonym s) (.word s.name)
  | name (text : String) : Written (.name text) (.quoted text)
  | index (digits : String) (hdigits : Text.isNumeral digits.toList) :
    Written (.index (Text.denoted digits.toList)) (.number digits)
  | wildcard : Written .wildcard (.mark '_')

/-- The expression of a pattern stands between wildcards if it can be a part of another. -/
inductive Argument.WrittenExpression : Argument → List QueryToken → Prop
  | wildcard : WrittenExpression .wildcard [.mark '_']
  | whole {e : Expr} {text : String} (htext : e.Infix text.toList) :
    WrittenExpression (.expr ⟨false, e.rpn⟩) [.quoted text]
  | partly {e : Expr} {text : String} (htext : e.Infix text.toList) :
    WrittenExpression (.expr ⟨true, e.rpn⟩) [.mark '_', .quoted text, .mark '_']

/-- A synonym, and the attribute after a point if there is one. -/
def Selected.tokens (s : Selected) : List QueryToken :=
  .word s.synonym.name :: (s.attr.map fun a => [.mark '.', .word a.text]).getD []

/-- What is selected, to the closing bracket. -/
def Selected.tuple : List Selected → List QueryToken
  | [] => [.mark '>']
  | [s] => s.tokens ++ [.mark '>']
  | s :: ss => s.tokens ++ .mark ',' :: tuple ss

inductive Selection.Written : Selection → List QueryToken → Prop
  | boolean : Written .boolean [.word "BOOLEAN"]
  | one (s : Selected) : Written (.elements [s]) s.tokens
  | tuple (ss : List Selected) : Written (.elements ss) (.mark '<' :: Selected.tuple ss)

inductive Comparand.Written : Comparand → List QueryToken → Prop
  | selected (s : Selected) : Written ⟨.synonym s.synonym, s.attr⟩ s.tokens
  | literal {a : Argument} {t : QueryToken} (ha : a.Written t) (hliteral : a.synonym? = none) :
    Written ⟨a, none⟩ [t]

namespace Clause

/-- The end of a pattern. A branching has a third argument, which is a wildcard. -/
def patternEnd (entity : Entity) : List QueryToken :=
  if entity = .ifElse then [.mark ',', .mark '_', .mark ')'] else [.mark ')']

inductive Written : Clause → List QueryToken → Prop
  | suchThat (relation : Relation) {left right : Argument} {t u : QueryToken}
    (hleft : left.Written t) (hright : right.Written u) :
    Written (.suchThat relation left right)
      [.word relation.text, .mark '(', t, .mark ',', u, .mark ')']
  | pattern (s : Synonym) {left right : Argument} {t : QueryToken} {run : List QueryToken}
    (hleft : left.Written t) (hright : right.WrittenExpression run) :
    Written (.pattern s left right)
      (.word s.name :: .mark '(' :: t :: .mark ',' :: (run ++ patternEnd s.entity))
  | equal {left right : Comparand} {run run' : List QueryToken} (hleft : left.Written run)
    (hright : right.Written run') : Written (.equal left right) (run ++ .mark '=' :: run')

/-- The words that clauses of a form stand under. -/
def heading : Clause → List QueryToken
  | .suchThat .. => [.word "such", .word "that"]
  | .pattern .. => [.word "pattern"]
  | .equal .. => [.word "with"]

/-- Clauses under one heading, joined by `and`. -/
inductive Chained (heading : List QueryToken) : List Clause → List QueryToken → Prop
  | one {c : Clause} {run : List QueryToken} (hheading : c.heading = heading)
    (hc : c.Written run) : Chained heading [c] run
  | join {c : Clause} {cs : List Clause} {run more : List QueryToken}
    (hheading : c.heading = heading) (hc : c.Written run) (hmore : Chained heading cs more) :
    Chained heading (c :: cs) (run ++ .word "and" :: more)

/-- A heading is always that of some clause. -/
theorem Chained.exists_heading {heading : List QueryToken} {cs : List Clause}
    {run : List QueryToken} (h : Chained heading cs run) : ∃ c : Clause, c.heading = heading := by
  cases h with
  | one hheading => exact ⟨_, hheading⟩
  | join hheading => exact ⟨_, hheading⟩

/-- Clauses under their headings. -/
inductive Grouped : List Clause → List QueryToken → Prop
  | nil : Grouped [] []
  | group {heading run more : List QueryToken} {cs cs' : List Clause}
    (hchain : Chained heading cs run) (hmore : Grouped cs' more) :
    Grouped (cs ++ cs') (heading ++ (run ++ more))

end Clause

namespace Synonym

/-- Synonyms of one sort, to the semicolon after them. -/
inductive Listed (entity : Entity) : List Synonym → List QueryToken → Prop
  | one (name : String) : Listed entity [⟨entity, name⟩] [.word name, .mark ';']
  | more (name : String) {ss : List Synonym} {run : List QueryToken} (h : Listed entity ss run) :
    Listed entity (⟨entity, name⟩ :: ss) (.word name :: .mark ',' :: run)

/-- Declarations, each under the word for its sort. -/
inductive Declared : List Synonym → List QueryToken → Prop
  | nil : Declared [] []
  | group (entity : Entity) {ss ss' : List Synonym} {run more : List QueryToken}
    (h : Listed entity ss run) (hmore : Declared ss' more) :
    Declared (ss ++ ss') (.word entity.text :: (run ++ more))

end Synonym

/-- **The tokens of a query**: its declarations, the word `Select`, what is selected and the
clauses. -/
inductive Query.Written (q : Query) : List QueryToken → Prop
  | intro {declared selected clauses : List QueryToken}
    (hdeclared : Synonym.Declared q.declarations declared)
    (hselected : q.selection.Written selected) (hclauses : Clause.Grouped q.clauses clauses) :
    Written q (declared ++ .word "Select" :: (selected ++ clauses))

namespace Query

variable {bip : Bool} {decls : List Synonym}

/-! ## Reading back -/

/-- A reader reads a value off the front of the tokens, and leaves the rest. -/
def Yields {α : Type} (read : (ts : List QueryToken) → Outcome α ts) (ts : List QueryToken)
    (value : α) (rest : List QueryToken) : Prop :=
  ∃ h, read ts = .ok ⟨value, rest, h⟩

theorem takeMark_cons (c : Char) (rest : List QueryToken) :
    takeMark c (.mark c :: rest) = .ok (.one ()) := by
  simp [takeMark, Reading.item?]

/-- An item that is not at the front is not taken. -/
theorem item?_of_head {wanted : QueryToken} {ts : List QueryToken} (h : ts.head? ≠ some wanted) :
    Reading.item? wanted ts = none := by
  cases ts with
  | nil => rfl
  | cons t ts =>
    refine if_neg ?_
    rintro rfl
    exact h rfl

/-! ### Declarations -/

/-- A name that is not declared yet is added at the end. -/
theorem declare_new {entity : Entity} {name : String}
    (hname : name ∉ decls.map Synonym.name) :
    declare entity name (.clean decls) = .clean (decls ++ [⟨entity, name⟩]) := by
  have hnew : decls.any (·.name = name) = false := by simpa using hname
  rw [declare, Noted.clean, hnew]
  rfl

/-- Every name is new where it is declared. -/
theorem name_notMem {s : Synonym} {ss : List Synonym}
    (hdistinct : ((decls ++ s :: ss).map Synonym.name).Nodup) :
    s.name ∉ decls.map Synonym.name := by
  rw [List.map_append, List.nodup_append] at hdistinct
  intro hmem
  exact hdistinct.2.2 s.name hmem s.name List.mem_cons_self rfl

/-- Synonyms of one sort are declared in the order in which they are listed. -/
theorem parseSynonyms_listed {entity : Entity} {ss : List Synonym} {run : List QueryToken}
    (h : Synonym.Listed entity ss run) (rest : List QueryToken)
    (hdistinct : ((decls ++ ss).map Synonym.name).Nodup) :
    Yields (parseSynonyms entity (.clean decls)) (run ++ rest) (.clean (decls ++ ss)) rest := by
  induction h generalizing decls with
  | one name =>
    refine ⟨by simp +arith, ?_⟩
    show parseSynonyms entity (.clean decls) (.word name :: .mark ';' :: rest) = _
    rw [parseSynonyms]
    refine Outcome.bind_eq_ok.2 ⟨_, rfl, ?_⟩
    dsimp only [Reading.one]
    rw [declare_new (name_notMem hdistinct)]
    rfl
  | @more name ss run h ih =>
    have hsplit : decls ++ ⟨entity, name⟩ :: ss = (decls ++ [⟨entity, name⟩]) ++ ss := by simp
    obtain ⟨hlt, hmore⟩ := ih (hsplit ▸ hdistinct)
    refine ⟨by simp only [List.cons_append, List.length_cons]; omega, ?_⟩
    show parseSynonyms entity (.clean decls) (.word name :: .mark ',' :: (run ++ rest)) = _
    rw [parseSynonyms]
    refine Outcome.bind_eq_ok.2 ⟨_, rfl, ?_⟩
    dsimp only [Reading.one]
    rw [declare_new (name_notMem hdistinct)]
    refine Outcome.bind_eq_ok.2 ⟨_, takeMark_cons ',' _, Outcome.bind_eq_ok.2 ⟨_, hmore, ?_⟩⟩
    rw [← hsplit]
    rfl

/-- **All declarations are read as they are written**, up to the word that selects. -/
theorem parseDeclarations_declared {ss : List Synonym} {run : List QueryToken}
    (h : Synonym.Declared ss run) (rest : List QueryToken)
    (hdistinct : ((decls ++ ss).map Synonym.name).Nodup) :
    Yields (parseDeclarations (.clean decls)) (run ++ .word "Select" :: rest)
      (.clean (decls ++ ss)) rest := by
  induction h generalizing decls with
  | nil =>
    rw [List.nil_append, List.append_nil]
    refine ⟨by simp, ?_⟩
    rw [parseDeclarations]
    rfl
  | @group entity ss ss' run more h hmore ih =>
    have hdistinct' : (((decls ++ ss) ++ ss').map Synonym.name).Nodup := by
      rwa [List.append_assoc]
    have hfirst : ((decls ++ ss).map Synonym.name).Nodup := by
      rw [List.map_append] at hdistinct'
      exact hdistinct'.of_append_left
    obtain ⟨hlt, hlisted⟩ := parseSynonyms_listed h (more ++ .word "Select" :: rest) hfirst
    obtain ⟨hlt', hdeclared⟩ := ih hdistinct'
    have hselect : (QueryToken.word entity.text) ≠ .word "Select" := by cases entity <;> decide
    have hused : .word entity.text :: (run ++ more) ++ .word "Select" :: rest =
        .word entity.text :: (run ++ (more ++ .word "Select" :: rest)) := by simp
    rw [hused, ← List.append_assoc decls]
    refine ⟨by simp only [List.length_cons]; omega, ?_⟩
    rw [parseDeclarations, item?_of_head (by simpa using hselect)]
    have hfirst : Yields (parseDeclaration (.clean decls))
        (.word entity.text :: (run ++ (more ++ .word "Select" :: rest))) (.clean (decls ++ ss))
        (more ++ .word "Select" :: rest) := by
      refine ⟨Nat.lt_succ_of_lt hlt, Outcome.bind_eq_ok.2 ⟨_, rfl, ?_⟩⟩
      dsimp only [Reading.one]
      rw [Entity.ofText?_text]
      exact Outcome.bind_eq_ok.2 ⟨_, hlisted, rfl⟩
    obtain ⟨hlt'', hfirst⟩ := hfirst
    exact Outcome.bind_eq_ok.2 ⟨_, hfirst, Outcome.bind_eq_ok.2 ⟨_, hdeclared, rfl⟩⟩

/-! ### Synonyms and selections -/

section Declared

variable (hdecls : (decls.map Synonym.name).Nodup)
include hdecls

/-- A declared synonym is found by its name, as names are not declared twice. -/
theorem resolve_of_mem {s : Synonym} (hs : s ∈ decls) : resolve decls s.name = .clean s := by
  have hfound : (decls.find? (·.name = s.name)).isSome :=
    List.find?_isSome.2 ⟨s, hs, decide_eq_true rfl⟩
  obtain ⟨s', hs'⟩ := Option.isSome_iff_exists.1 hfound
  have hname : s'.name = s.name := by simpa using List.find?_some hs'
  rw [resolve, hs', List.inj_on_of_nodup_map hdecls (List.mem_of_find?_eq_some hs') hs hname]

theorem parseSynonym_word {s : Synonym} (hs : s ∈ decls) (rest : List QueryToken) :
    parseSynonym decls (.word s.name :: rest) = .ok (.one (.clean s)) := by
  rw [← resolve_of_mem hdecls hs]
  rfl

omit hdecls in
theorem parseAttribute_word {s : Synonym} {a : Attribute} (ha : a.appliesTo s.entity)
    (rest : List QueryToken) :
    parseAttribute s (.word a.text :: rest) = .ok (.one (.clean a)) := by
  refine Outcome.bind_eq_ok.2 ⟨_, rfl, ?_⟩
  simp only [Reading.one, Attribute.ofText?_text, ha]
  rfl

/-- What is selected is read back, unless a dot follows that would give it another attribute. -/
theorem parseSelected_tokens {s : Selected} (hs : s.Typed decls) (rest : List QueryToken)
    (hrest : rest.head? ≠ some (.mark '.')) :
    Yields (parseSelected decls) (s.tokens ++ rest) (.clean s) rest := by
  obtain ⟨synonym, attr⟩ := s
  cases attr with
  | none =>
    refine ⟨by simp [Selected.tokens], ?_⟩
    refine Outcome.bind_eq_ok.2 ⟨_, parseSynonym_word hdecls hs.declared rest, ?_⟩
    dsimp only [Reading.one]
    rw [item?_of_head hrest]
    rfl
  | some a =>
    refine ⟨by simp +arith [Selected.tokens], ?_⟩
    refine Outcome.bind_eq_ok.2
      ⟨_, parseSynonym_word hdecls hs.declared (.mark '.' :: .word a.text :: rest), ?_⟩
    exact Outcome.bind_eq_ok.2 ⟨_, parseAttribute_word (hs.applies a rfl) rest, rfl⟩

/-- A tuple is read back up to its closing angle. -/
theorem parseTuple_tuple {ss : List Selected} (hne : ss ≠ []) (hss : ∀ s ∈ ss, s.Typed decls)
    (rest : List QueryToken) :
    Yields (parseTuple decls) (Selected.tuple ss ++ rest) (.clean ss) rest := by
  induction ss with
  | nil => exact absurd rfl hne
  | cons s ss ih =>
    obtain ⟨hs, hss⟩ := List.forall_mem_cons.1 hss
    cases ss with
    | nil =>
      have hused : Selected.tuple [s] ++ rest = s.tokens ++ .mark '>' :: rest := by
        simp [Selected.tuple]
      obtain ⟨hlt, hfirst⟩ := parseSelected_tokens hdecls hs (.mark '>' :: rest) (by simp)
      rw [hused]
      refine ⟨Nat.lt_of_succ_lt hlt, ?_⟩
      rw [parseTuple]
      refine Outcome.bind_eq_ok.2 ⟨_, hfirst, ?_⟩
      exact Outcome.bind_eq_ok.2 ⟨_, takeMark_cons '>' rest, rfl⟩
    | cons s' ss =>
      have hused : Selected.tuple (s :: s' :: ss) ++ rest =
          s.tokens ++ .mark ',' :: (Selected.tuple (s' :: ss) ++ rest) := by
        simp [Selected.tuple]
      obtain ⟨hlt, hfirst⟩ :=
        parseSelected_tokens hdecls hs (.mark ',' :: (Selected.tuple (s' :: ss) ++ rest)) (by simp)
      obtain ⟨hlt', hmore⟩ := ih (List.cons_ne_nil _ _) hss
      rw [hused]
      refine ⟨Nat.lt_trans (Nat.lt_succ_of_lt hlt') hlt, ?_⟩
      rw [parseTuple]
      refine Outcome.bind_eq_ok.2 ⟨_, hfirst, ?_⟩
      exact Outcome.bind_eq_ok.2 ⟨_, hmore, rfl⟩

omit hdecls in
/-- What is selected starts with the word that asks for a truth value only if this is a synonym. -/
theorem parseSelection_elements {ts rest : List QueryToken} {n : Noted Selection}
    (hword : ts.head? = some (.word "BOOLEAN") → decls.any (·.name = "BOOLEAN"))
    (h : Yields (parseSelection.parseElements decls) ts n rest) :
    Yields (parseSelection decls) ts n rest := by
  obtain ⟨hlt, h⟩ := h
  refine ⟨hlt, ?_⟩
  unfold parseSelection
  split
  · next r hr =>
    rw [if_pos (hword (by rw [Reading.eq_of_item? hr]; rfl))]
    exact h
  · exact h

/-- **A selection is read as it is written.** -/
theorem parseSelection_written {selection : Selection} {run : List QueryToken}
    (hselection : selection.Typed decls) (h : selection.Written run)
    (rest : List QueryToken) (hrest : rest.head? ≠ some (.mark '.')) :
    Yields (parseSelection decls) (run ++ rest) (.clean selection) rest := by
  cases h with
  | boolean =>
    cases hselection with
    | boolean hword =>
      have hnone : decls.any (·.name = "BOOLEAN") = false := by simpa using hword
      refine ⟨by simp, ?_⟩
      show parseSelection decls (.word "BOOLEAN" :: rest) = _
      unfold parseSelection
      rw [hnone]
      rfl
  | one s =>
    cases hselection with
    | elements _ hs =>
      have htyped := hs s List.mem_cons_self
      refine parseSelection_elements (fun hhead => ?_) ?_
      · have hname : s.synonym.name = "BOOLEAN" := by simpa [Selected.tokens] using hhead
        exact List.any_eq_true.2 ⟨s.synonym, htyped.declared, decide_eq_true hname⟩
      · obtain ⟨hlt, hone⟩ := parseSelected_tokens hdecls htyped rest hrest
        refine ⟨hlt, ?_⟩
        unfold parseSelection.parseElements
        rw [item?_of_head (by simp [Selected.tokens])]
        exact Outcome.bind_eq_ok.2 ⟨_, hone, rfl⟩
  | tuple ss =>
    cases hselection with
    | elements hne hs =>
      refine parseSelection_elements (by simp) ?_
      obtain ⟨hlt, htuple⟩ := parseTuple_tuple hdecls hne hs rest
      exact ⟨Nat.lt_succ_of_lt hlt, Outcome.bind_eq_ok.2 ⟨_, htuple, rfl⟩⟩

/-! ### Arguments -/

/-- An argument is read as it is written. -/
theorem parseArgument_written {a : Argument} {t : QueryToken} (ha : a.Typed decls) (h : a.Written t)
    (rest : List QueryToken) : parseArgument decls (t :: rest) = .ok (.one (.clean a)) := by
  cases h with
  | synonym s =>
    cases ha with
    | synonym hs =>
      rw [parseArgument, resolve_of_mem hdecls hs]
      rfl
  | name =>
    cases ha with
    | name htext => rw [parseArgument, if_pos htext]
  | index digits hdigits =>
    cases ha with
    | index hn => rw [parseArgument, Text.count?_of_isNumeral hdigits hn]
  | wildcard => rfl

omit hdecls in
/-- The text of an expression is read as the words of its postorder. -/
theorem parseInfix_infix {e : Expr} {text : String} (h : e.Infix text.toList) (partly : Bool) :
    parseInfix partly text = .ok (.expr ⟨partly, e.rpn⟩) := by
  obtain ⟨run, hrun, hspelled, hlaid⟩ := h
  have hparse : Expr.parseText text = .ok ⟨e, e.postorder⟩ := by
    refine Outcome.bind_eq_ok.2 ⟨run, Token.scan_laid (hrun.scannable hspelled) hlaid, ?_⟩
    rw [Expr.parse_of_derives hrun]
    rfl
  exact parseInfix_eq_ok.2 ⟨_, hparse, rfl⟩

omit hdecls in
/-- What a pattern is matched with is read as it is written. -/
theorem parseExpression_written {a : Argument} {run : List QueryToken} (h : a.WrittenExpression run)
    (rest : List QueryToken) (hrest : ∀ text, rest.head? ≠ some (.quoted text)) :
    Yields parseExpression (run ++ rest) a rest := by
  cases h with
  | wildcard =>
    refine ⟨by simp, ?_⟩
    show parseExpression (.mark '_' :: rest) = _
    -- before quoted text a wildcard would start a part
    rw [parseExpression]
    · rfl
    · rintro text ts rfl
      exact hrest text rfl
  | whole htext =>
    exact ⟨by simp, Outcome.bind_eq_ok.2 ⟨_, parseInfix_infix htext false, rfl⟩⟩
  | partly htext =>
    exact ⟨by simp +arith, Outcome.bind_eq_ok.2 ⟨_, takeMark_cons '_' rest,
      Outcome.bind_eq_ok.2 ⟨_, parseInfix_infix htext true, rfl⟩⟩⟩

/-! ### Clauses -/

/-- **A relation is read as it is written**, if it is switched on. -/
theorem parseRelation_written {relation : Relation} {left right : Argument} {t u : QueryToken}
    (hrelation : relation.isBip → bip) (hleft : left.Typed decls) (hright : right.Typed decls)
    (ht : left.Written t) (hu : right.Written u) (rest : List QueryToken) :
    Yields (parseRelation decls bip)
      (.word relation.text :: .mark '(' :: t :: .mark ',' :: u :: .mark ')' :: rest)
      (.clean (.suchThat relation left right)) rest := by
  have hknown : (relation.isBip && !bip) = false := by simpa using hrelation
  refine ⟨by simp +arith, Outcome.bind_eq_ok.2 ⟨_, rfl, ?_⟩⟩
  simp only [Reading.one, Relation.ofText?_text, hknown]
  refine Outcome.bind_eq_ok.2 ⟨_, takeMark_cons '(' _, ?_⟩
  refine Outcome.bind_eq_ok.2 ⟨_, parseArgument_written hdecls hleft ht _, ?_⟩
  refine Outcome.bind_eq_ok.2 ⟨_, takeMark_cons ',' _, ?_⟩
  refine Outcome.bind_eq_ok.2 ⟨_, parseArgument_written hdecls hright hu _, ?_⟩
  exact Outcome.bind_eq_ok.2 ⟨_, takeMark_cons ')' _, rfl⟩

omit hdecls in
/-- A pattern that ends as it should has as many arguments as it should. -/
theorem parseArity_patternEnd {entity : Entity} (hentity : Clause.hasPattern entity)
    (rest : List QueryToken) :
    ∃ n, Yields parseArity (Clause.patternEnd entity ++ rest) n rest ∧ hasArity entity n := by
  cases entity with
  | ifElse => exact ⟨3, ⟨by simp +arith [Clause.patternEnd], rfl⟩, rfl⟩
  | assign => exact ⟨2, ⟨by simp +arith [Clause.patternEnd], rfl⟩, rfl⟩
  | whileLoop => exact ⟨2, ⟨by simp +arith [Clause.patternEnd], rfl⟩, rfl⟩
  | _ => cases hentity

/-- **A pattern is read as it is written**, with as many places as its statement has. -/
theorem parsePattern_written {s : Synonym} {left right : Argument} {t : QueryToken}
    {run : List QueryToken} (hs : s ∈ decls) (hpattern : Clause.hasPattern s.entity)
    (hleft : left.Typed decls) (hindex : ∀ n, left ≠ .index n)
    (hright : right.TypedExpression s.entity) (ht : left.Written t)
    (hrun : right.WrittenExpression run) (rest : List QueryToken) :
    Yields (parsePattern decls)
      (.word s.name :: .mark '(' :: t :: .mark ',' :: (run ++ (Clause.patternEnd s.entity ++ rest)))
      (.clean (.pattern s left right)) rest := by
  obtain ⟨n, ⟨hlt, harity⟩, hn⟩ := parseArity_patternEnd hpattern rest
  have hquoted : ∀ text, (Clause.patternEnd s.entity ++ rest).head? ≠ some (.quoted text) := by
    intro text
    unfold Clause.patternEnd
    split <;> simp
  obtain ⟨hlt', hexpression⟩ := parseExpression_written hrun _ hquoted
  have hplaced : (decide (s.entity = .assign) || decide (right = .wildcard)) = true := by
    simpa using hright.placed
  refine ⟨by simp only [List.length_cons]; omega, ?_⟩
  refine Outcome.bind_eq_ok.2 ⟨_, parseSynonym_word hdecls hs _, ?_⟩
  refine Outcome.bind_eq_ok.2 ⟨_, takeMark_cons '(' _, ?_⟩
  refine Outcome.bind_eq_ok.2 ⟨_, parseArgument_written hdecls hleft ht _, ?_⟩
  dsimp only [Reading.one, Noted.clean]
  -- a number would be refused here
  split
  · next n => exact absurd rfl (hindex n)
  · refine Outcome.bind_eq_ok.2 ⟨_, takeMark_cons ',' _, ?_⟩
    refine Outcome.bind_eq_ok.2 ⟨_, hexpression, ?_⟩
    refine Outcome.bind_eq_ok.2 ⟨_, harity, ?_⟩
    simp only [Noted.check, hn, hplaced]
    rfl

omit hdecls in
/-- What is selected and typed as one side of a comparison is compared without a fault. -/
theorem compared_clean {s : Selected} (hs : Comparand.Typed decls ⟨.synonym s.synonym, s.attr⟩) :
    s.Typed decls ∧ compared (.clean s) = .clean ⟨.synonym s.synonym, s.attr⟩ := by
  obtain ⟨synonym, attr⟩ := s
  cases hs with
  | @attr _ a hmem happlies =>
    refine ⟨⟨hmem, fun a' ha' => ?_⟩, rfl⟩
    obtain rfl := Option.some.inj ha'
    exact happlies
  | line hmem hline =>
    refine ⟨⟨hmem, nofun⟩, congrArg (Noted.mk _) (if_pos ?_)⟩
    exact Bool.or_eq_true_iff.2 (.inr (decide_eq_true hline))

/-- One side of a comparison is read as it is written. -/
theorem parseComparand_written {c : Comparand} {run : List QueryToken} (hc : c.Typed decls)
    (h : c.Written run) (rest : List QueryToken) (hrest : rest.head? ≠ some (.mark '.')) :
    Yields (parseComparand decls) (run ++ rest) (.clean c) rest := by
  cases h with
  | selected s =>
    obtain ⟨htyped, hclean⟩ := compared_clean hc
    obtain ⟨hlt, hselected⟩ := parseSelected_tokens hdecls htyped rest hrest
    refine ⟨hlt, Outcome.bind_eq_ok.2 ⟨_, hselected, ?_⟩⟩
    rw [← hclean]
    rfl
  | @literal a t ha hliteral =>
    refine ⟨by simp, ?_⟩
    cases hc with
    | line => cases hliteral
    | name htext =>
      cases ha
      exact Outcome.bind_eq_ok.2 ⟨_, parseArgument_written hdecls (.name htext) (.name _) rest, rfl⟩
    | index hn =>
      cases ha with
      | index digits hdigits =>
        exact Outcome.bind_eq_ok.2
          ⟨_, parseArgument_written hdecls (.index hn) (.index digits hdigits) rest, rfl⟩

/-- **A comparison is read as it is written.** -/
theorem parseEqual_written {left right : Comparand} {run run' : List QueryToken}
    (hleft : left.Typed decls) (hright : right.Typed decls) (hrun : left.Written run)
    (hrun' : right.Written run') (rest : List QueryToken) (hrest : rest.head? ≠ some (.mark '.')) :
    Yields (parseEqual decls) (run ++ .mark '=' :: (run' ++ rest)) (.clean (.equal left right))
      rest := by
  obtain ⟨hlt, hsecond⟩ := parseComparand_written hdecls hright hrun' rest hrest
  obtain ⟨hlt', hfirst⟩ :=
    parseComparand_written hdecls hleft hrun (.mark '=' :: (run' ++ rest)) (by simp)
  refine ⟨Nat.lt_trans hlt (Nat.lt_of_succ_lt hlt'), ?_⟩
  refine Outcome.bind_eq_ok.2 ⟨_, hfirst, ?_⟩
  refine Outcome.bind_eq_ok.2 ⟨_, takeMark_cons '=' _, ?_⟩
  exact Outcome.bind_eq_ok.2 ⟨_, hsecond, rfl⟩

/-- The reader of the clauses that have the form of a clause. -/
def readerOf (decls : List Synonym) (bip : Bool) :
    Clause → (ts : List QueryToken) → Outcome (Noted Clause) ts
  | .suchThat .. => parseRelation decls bip
  | .pattern .. => parsePattern decls
  | .equal .. => parseEqual decls

omit hdecls in
/-- Clauses under the same heading are read in the same way. -/
theorem readerOf_congr {c c' : Clause} (h : c.heading = c'.heading) :
    readerOf decls bip c = readerOf decls bip c' := by
  cases c <;> cases c' <;> first | rfl | simp [Clause.heading] at h

/-- **A clause that is written so is read back** by the reader for its form. -/
theorem readerOf_written {c : Clause} {run : List QueryToken} (hc : c.Typed decls bip)
    (h : c.Written run) (rest : List QueryToken) (hrest : rest.head? ≠ some (.mark '.')) :
    Yields (readerOf decls bip c) (run ++ rest) (.clean c) rest := by
  cases h with
  | suchThat relation ht hu =>
    cases hc with
    | suchThat hrelation hleft hright =>
      exact parseRelation_written hdecls hrelation hleft hright ht hu rest
  | pattern s ht hrun =>
    cases hc with
    | pattern hs hpattern hleft hindex hright =>
      have hyields := parsePattern_written hdecls hs hpattern hleft hindex hright ht hrun rest
      rw [← List.append_assoc] at hyields
      exact hyields
  | equal hrun hrun' =>
    cases hc with
    | equal hleft hright =>
      have hyields := parseEqual_written hdecls hleft hright hrun hrun' rest hrest
      rw [List.append_assoc, List.cons_append]
      exact hyields

/-- **Clauses that are joined with `and` are read back**, unless another one follows. -/
theorem parseChain_chained {heading : List QueryToken} {cs : List Clause} {run : List QueryToken}
    (h : Clause.Chained heading cs run) {c₀ : Clause} (hc₀ : c₀.heading = heading)
    (hcs : ∀ c ∈ cs, c.Typed decls bip) (rest : List QueryToken)
    (hrest : rest.head? ≠ some (.mark '.')) (hand : rest.head? ≠ some (.word "and")) :
    Yields (parseChain (readerOf decls bip c₀)) (run ++ rest) (.clean cs) rest := by
  induction h with
  | @one c run hheading hc =>
    have htyped := hcs c List.mem_cons_self
    obtain ⟨hlt, hone⟩ := readerOf_written hdecls htyped hc rest hrest
    rw [readerOf_congr (hheading.trans hc₀.symm)] at hone
    refine ⟨hlt, ?_⟩
    rw [parseChain]
    refine Outcome.bind_eq_ok.2 ⟨_, hone, ?_⟩
    dsimp only
    rw [item?_of_head hand]
    rfl
  | @join c cs run more hheading hc hmore ih =>
    obtain ⟨htyped, hcs⟩ := List.forall_mem_cons.1 hcs
    obtain ⟨hlt, hone⟩ :=
      readerOf_written hdecls htyped hc (.word "and" :: (more ++ rest)) (by simp)
    rw [readerOf_congr (hheading.trans hc₀.symm)] at hone
    obtain ⟨hlt', hchain⟩ := ih hcs
    rw [List.append_assoc, List.cons_append]
    refine ⟨Nat.lt_trans hlt' (Nat.lt_of_succ_lt hlt), ?_⟩
    rw [parseChain]
    refine Outcome.bind_eq_ok.2 ⟨_, hone, ?_⟩
    exact Outcome.bind_eq_ok.2 ⟨_, hchain, rfl⟩

/-- Clauses under one heading are read back with it. -/
theorem parseGroup_chained {heading : List QueryToken} {cs : List Clause} {run : List QueryToken}
    (h : Clause.Chained heading cs run) (hcs : ∀ c ∈ cs, c.Typed decls bip)
    (rest : List QueryToken) (hrest : rest.head? ≠ some (.mark '.'))
    (hand : rest.head? ≠ some (.word "and")) :
    ∃ head ts, heading ++ (run ++ rest) = head :: ts ∧
      ∃ hlt, parseGroup decls bip head ts = .ok ⟨.clean cs, rest, hlt⟩ := by
  obtain ⟨c, hc⟩ := h.exists_heading
  obtain ⟨hlt, hchain⟩ := parseChain_chained hdecls h hc hcs rest hrest hand
  subst hc
  cases c with
  | suchThat =>
    refine ⟨.word "such", .word "that" :: (run ++ rest), rfl, ?_, ?_⟩
    · simp only [List.length_cons]
      omega
    · exact Outcome.bind_eq_ok.2 ⟨_, rfl, Outcome.bind_eq_ok.2 ⟨_, hchain, rfl⟩⟩
  | pattern =>
    refine ⟨_, _, rfl, Nat.lt_succ_of_lt hlt, ?_⟩
    exact Outcome.bind_eq_ok.2 ⟨_, hchain, rfl⟩
  | equal =>
    refine ⟨_, _, rfl, Nat.lt_succ_of_lt hlt, ?_⟩
    exact Outcome.bind_eq_ok.2 ⟨_, hchain, rfl⟩

omit hdecls in
/-- Where clauses begin, neither an attribute nor another clause of the same heading goes on. -/
theorem head?_grouped {cs : List Clause} {run : List QueryToken} (h : Clause.Grouped cs run) :
    run.head? ≠ some (.mark '.') ∧ run.head? ≠ some (.word "and") := by
  cases h with
  | nil => simp
  | group hchain hmore =>
    obtain ⟨c, rfl⟩ := hchain.exists_heading
    cases c <;> simp [Clause.heading]

/-- **Clauses that are written so are read back**, however they are grouped. -/
theorem parseClauses_grouped {cs : List Clause} {run : List QueryToken} (h : Clause.Grouped cs run)
    (hcs : ∀ c ∈ cs, c.Typed decls bip) : parseClauses decls bip run = .ok (.clean cs) := by
  induction h with
  | nil =>
    rw [parseClauses]
  | @group heading run more cs cs' hchain hmore ih =>
    obtain ⟨hcs, hcs'⟩ := List.forall_mem_append.1 hcs
    obtain ⟨hpoint, hand⟩ := head?_grouped hmore
    obtain ⟨head, ts, hts, hlt, hgroup⟩ := parseGroup_chained hdecls hchain hcs more hpoint hand
    rw [hts, parseClauses]
    exact Outcome.bind_eq_ok.2 ⟨_, hgroup, Outcome.bind_eq_ok.2 ⟨_, ih hcs', rfl⟩⟩

end Declared

/-! ### Queries -/

/-- **A well-typed query that is written by the grammar is read back.** -/
theorem parseTokens_written {q : Query} {ts : List QueryToken} (hq : q.WellTyped bip)
    (h : q.Written ts) : parseTokens bip ts = .ok q := by
  obtain ⟨hdeclared, hselected, hclauses⟩ := h
  obtain ⟨declarations, selection, clauses, fault⟩ := q
  obtain ⟨hpoint, -⟩ := head?_grouped hclauses
  have hdistinct : (([] ++ declarations).map Synonym.name).Nodup := hq.distinct
  obtain ⟨_, hdecls⟩ := parseDeclarations_declared hdeclared _ hdistinct
  obtain ⟨_, hselection⟩ := parseSelection_written hq.distinct hq.selection hselected _ hpoint
  have hall := parseClauses_grouped hq.distinct hclauses hq.clauses
  refine Outcome.bind_eq_ok.2 ⟨_, hdecls, ?_⟩
  refine Outcome.bind_eq_ok.2 ⟨_, hselection, ?_⟩
  refine Outcome.bind_eq_ok.2 ⟨_, hall, ?_⟩
  obtain rfl : fault = none := hq.faultless
  rfl

end Query

end ProgramFacts
