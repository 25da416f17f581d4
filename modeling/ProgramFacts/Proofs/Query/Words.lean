import ProgramFacts.Proofs.Query.RoundTrip
/-!
# Queries — the words that are names

One class of tokens serves keywords, relations, attributes and synonyms, and no reader asks for
more than a word where a synonym is due. So a synonym can be called by any word of the query
language, with a star at its end or not (`parse_takes_any_word`). What the readers do keep is that
no word is lost: apart from the keywords, every word of a query turns up in what is read, as a
relation, an attribute or a synonym (`accounts_parseTokens`).
-/

namespace ProgramFacts

open QueryToken (lex lexFrom take? takeQuoted? takeFixed? takeStarred? takeNumber? takeMark?)

/-! ## Words -/

namespace QueryToken

/-- **The words of the query language**: a name, a name with a star, and two more. -/
def IsWord (w : String) : Prop :=
  Text.isName w.toList ∨ (∃ name, Text.isName name ∧ w.toList = name ++ ['*']) ∨
    w = "prog_line" ∨ w = "stmt#"

/-- Every word can be written the way it is shown. -/
theorem IsWord.wellSpelled {w : String} (h : IsWord w) : wellSpelled (.word w) := by
  rcases h with hname | ⟨name, hname, hw⟩ | rfl | rfl
  · exact wellSpelled_word hname
  · simp [QueryToken.wellSpelled, hw, hname]
  · decide
  · decide

/-- Which words are names. -/
theorem IsWord.isName_iff {w : String} (h : IsWord w) :
    Text.isName w.toList ↔ '*' ∉ w.toList ∧ '#' ∉ w.toList ∧ w ≠ "prog_line" := by
  constructor
  · intro hname
    have hmem := Text.isAlphanum_of_mem_name hname
    refine ⟨fun hc => ?_, fun hc => ?_, ?_⟩
    · exact absurd (hmem _ hc) (by decide)
    · exact absurd (hmem _ hc) (by decide)
    · rintro rfl
      exact absurd hname (by decide)
  · rintro ⟨hstar, hsharp, hline⟩
    rcases h with hname | ⟨name, -, hw⟩ | rfl | rfl
    · exact hname
    · simp [hw] at hstar
    · exact absurd rfl hline
    · exact absurd (by decide) hsharp

/-- What is taken as a name, with its star or without, is a word. -/
theorem isWord_of_takeStarred? {cs : List Char} {r : Reading QueryToken cs} {w : String}
    (h : takeStarred? cs = some r) (hw : r.value = .word w) : IsWord w := by
  obtain ⟨name, htake, rfl⟩ := Option.map_eq_some_iff.1 h
  have hname := (Text.takeName?_eq_some htake).2
  split at hw
  · obtain rfl := QueryToken.word.inj hw
    exact .inr (.inl ⟨name.value, hname, String.toList_ofList⟩)
  · obtain rfl := QueryToken.word.inj hw
    exact .inl (by simpa using hname)

/-- **A word at the front of a text is a word**, in whichever way it was taken. -/
theorem isWord_of_take? {cs : List Char} {r : Reading QueryToken cs} {w : String}
    (h : take? cs = some r) (hw : r.value = .word w) : IsWord w := by
  have hfixed : ∀ fixed, takeFixed? fixed cs = some r → w = fixed := by
    intro fixed hfixed
    obtain ⟨_, -, rfl⟩ := Option.map_eq_some_iff.1 hfixed
    exact (QueryToken.word.inj hw).symm
  rcases Outcome.of_orElse_eq_some h with h | h
  · unfold takeQuoted? at h
    split at h
    · obtain ⟨_, -, rfl⟩ := Option.map_eq_some_iff.1 h
      cases hw
    · cases h
  rcases Outcome.of_orElse_eq_some h with h | h
  · exact .inr (.inr (.inl (hfixed _ h)))
  rcases Outcome.of_orElse_eq_some h with h | h
  · exact .inr (.inr (.inr (hfixed _ h)))
  rcases Outcome.of_orElse_eq_some h with h | h
  · exact isWord_of_takeStarred? h hw
  rcases Outcome.of_orElse_eq_some h with h | h
  · obtain ⟨_, -, rfl⟩ := Option.map_eq_some_iff.1 h
    cases hw
  · unfold takeMark? at h
    split at h
    · cases h
    · split at h
      · obtain rfl := Option.some.inj h
        cases hw
      · cases h

/-- The lexer makes words of nothing else. -/
theorem isWord_of_lexFrom {cs : List Char} {ts : List QueryToken} (h : lexFrom cs = .ok ts) :
    ∀ w, .word w ∈ ts → IsWord w := by
  fun_induction lexFrom cs generalizing ts with
  | case1 =>
    obtain rfl := Except.ok.inj h
    exact nofun
  | case2 => cases h
  | case3 cs =>
    rename_i t htake ih
    obtain ⟨more, hmore, h⟩ := Outcome.bind_eq_ok.1 h
    obtain rfl := Except.ok.inj h
    intro w hw
    rcases List.mem_cons.1 hw with hw | hw
    · exact isWord_of_take? htake hw.symm
    · exact ih hmore w hw

/-- The words among tokens, in their order. -/
def words (ts : List QueryToken) : List String :=
  ts.filterMap fun
    | .word w => some w
    | _ => none

@[simp]
theorem words_word (w : String) (ts : List QueryToken) : words (.word w :: ts) = w :: words ts :=
  rfl

@[simp]
theorem words_mark (c : Char) (ts : List QueryToken) : words (.mark c :: ts) = words ts :=
  rfl

@[simp]
theorem words_quoted (text : String) (ts : List QueryToken) :
    words (.quoted text :: ts) = words ts :=
  rfl

@[simp]
theorem words_number (digits : String) (ts : List QueryToken) :
    words (.number digits :: ts) = words ts :=
  rfl

/-- The words of a run are its tokens of that form. -/
theorem mem_words {ts : List QueryToken} {w : String} : w ∈ words ts ↔ .word w ∈ ts := by
  induction ts with
  | nil => simp [words]
  | cons t ts ih => cases t <;> simp [ih]

end QueryToken

open QueryToken (words words_word words_mark)

/-! ## What is read of words -/

/-- The words that have their own place in queries. -/
def Query.keywords : List String :=
  ["Select", "BOOLEAN", "such", "that", "pattern", "with", "and"] ++ Entity.all.map Entity.text

/-- The words of a thing that is selected. -/
def Selected.words (s : Selected) : List String :=
  s.synonym.name :: s.attr.toList.map Attribute.text

/-- The words of one side of a comparison. -/
def Comparand.words (c : Comparand) : List String :=
  c.argument.synonym?.toList.map Synonym.name ++ c.attr.toList.map Attribute.text

/-- The attributes in a selection. -/
def Selection.attributes : Selection → List Attribute
  | .boolean => []
  | .elements selected => selected.flatMap (·.attr.toList)

/-- The words of a selection. -/
def Selection.words (selection : Selection) : List String :=
  selection.attributes.map Attribute.text ++ selection.occurrences.map Synonym.name

namespace Clause

/-- The relation that a clause is about, if it is about one. -/
def relation? : Clause → Option Relation
  | .suchThat relation _ _ => some relation
  | _ => none

/-- The attributes in a clause. -/
def attributes : Clause → List Attribute
  | .equal left right => left.attr.toList ++ right.attr.toList
  | _ => []

/-- The words of a clause. -/
def words (c : Clause) : List String :=
  c.relation?.toList.map Relation.text ++ c.attributes.map Attribute.text ++
    c.occurrences.map Synonym.name

end Clause

namespace Query

variable {bip : Bool} {decls : List Synonym} {ts rest mid : List QueryToken} {w : String}

/-- The words from `ts` on to `rest` are those of the vocabulary, and keywords. -/
def Accounts (ts rest : List QueryToken) (vocabulary : List String) : Prop :=
  ∃ used, words ts = used ++ words rest ∧
    (∀ w ∈ used, w ∈ keywords ∨ w ∈ vocabulary) ∧ ∀ w ∈ vocabulary, w ∈ used

/-- Words that are all in the vocabulary are accounted for. -/
theorem accounts_of_words {vocabulary : List String} (h : words ts = vocabulary ++ words rest) :
    Accounts ts rest vocabulary :=
  ⟨vocabulary, h, fun _ => .inr, fun _ => id⟩

/-- A keyword needs no vocabulary. -/
theorem accounts_keyword (hw : w ∈ keywords) (h : words ts = w :: words rest) :
    Accounts ts rest [] :=
  ⟨[w], h, fun _ hw' => .inl (List.mem_singleton.1 hw' ▸ hw), nofun⟩

/-- What two readers account for, one after the other, is accounted for together. -/
theorem Accounts.trans {v v' : List String} (h : Accounts ts mid v) (h' : Accounts mid rest v') :
    Accounts ts rest (v ++ v') := by
  obtain ⟨used, hused, hspoken, hspent⟩ := h
  obtain ⟨used', hused', hspoken', hspent'⟩ := h'
  refine ⟨used ++ used', by rw [hused, hused', List.append_assoc], fun w hw => ?_, fun w hw => ?_⟩
  · rw [List.mem_append]
    rcases List.mem_append.1 hw with hw | hw
    · exact (hspoken w hw).imp_right .inl
    · exact (hspoken' w hw).imp_right .inr
  · rw [List.mem_append]
    exact (List.mem_append.1 hw).imp (hspent w) (hspent' w)

/-- Only the members of a vocabulary matter. -/
theorem Accounts.congr {v v' : List String} (h : Accounts ts rest v) (hv : ∀ w, w ∈ v ↔ w ∈ v') :
    Accounts ts rest v' := by
  obtain ⟨used, hused, hspoken, hspent⟩ := h
  exact ⟨used, hused, fun w hw => (hspoken w hw).imp_right (hv w).1,
    fun w hw => hspent w ((hv w).2 hw)⟩

/-! ### Single tokens -/

theorem words_item?_mark {c : Char} {r : Reading Unit ts}
    (h : Reading.item? (.mark c) ts = some r) : words ts = words r.rest :=
  (congrArg words (Reading.eq_of_item? h)).trans (words_mark c r.rest)

theorem words_item?_word {r : Reading Unit ts} (h : Reading.item? (.word w) ts = some r) :
    words ts = w :: words r.rest :=
  congrArg words (Reading.eq_of_item? h)

/-- Marks take no words. -/
theorem words_takeMark {c : Char} {r : Reading Unit ts} (h : takeMark c ts = .ok r) :
    words ts = words r.rest :=
  (congrArg words (eq_of_takeMark h)).trans (words_mark c r.rest)

/-- A word that was expected is taken. -/
theorem words_takeWord {r : Reading Unit ts} (h : takeWord w ts = .ok r) :
    words ts = w :: words r.rest := by
  unfold takeWord at h
  split at h
  · next hitem =>
    obtain rfl := Except.ok.inj h
    exact words_item?_word hitem
  · cases h

/-- A name is taken, whatever word it is. -/
theorem words_takeName {r : Reading String ts} (h : takeName ts = .ok r) :
    words ts = r.value :: words r.rest := by
  unfold takeName at h
  split at h
  · obtain rfl := Except.ok.inj h
    rfl
  · cases h

/-! ### Selections -/

/-- A synonym keeps the name that it was looked up by. -/
@[simp]
theorem resolve_name (name : String) : (resolve decls name).value.name = name := by
  unfold resolve
  split
  · next s hfind =>
    have hname : s.name = name := by simpa using List.find?_some hfind
    exact hname
  · rfl

/-- A synonym takes its name. -/
theorem words_parseSynonym {r : Reading (Noted Synonym) ts} (h : parseSynonym decls ts = .ok r) :
    words ts = r.value.value.name :: words r.rest := by
  obtain ⟨name, hname, h⟩ := Outcome.bind_eq_ok.1 h
  obtain rfl := Except.ok.inj h
  simpa using words_takeName hname

/-- An attribute takes the word for it, which may be one with a sharp. -/
theorem words_parseAttribute {s : Synonym} {r : Reading (Noted Attribute) ts}
    (h : parseAttribute s ts = .ok r) :
    words ts = r.value.value.text :: words r.rest := by
  obtain ⟨word, hword, h⟩ := Outcome.bind_eq_ok.1 h
  split at h
  · cases h
  · next attr hattr =>
    have htext : attr.text = word.value := by simpa using List.find?_some hattr
    obtain rfl := Except.ok.inj h
    rw [words_takeName hword, ← htext]
    rfl

/-- What is selected takes its name, and the word for its attribute if there is one. -/
theorem words_parseSelected {r : Reading (Noted Selected) ts}
    (h : parseSelected decls ts = .ok r) :
    words ts = r.value.value.words ++ words r.rest := by
  obtain ⟨s, hs, h⟩ := Outcome.bind_eq_ok.1 h
  have hsynonym := words_parseSynonym hs
  split at h
  · obtain rfl := Except.ok.inj h
    exact hsynonym
  · next point hpoint =>
    obtain ⟨attr, hattr, h⟩ := Outcome.bind_eq_ok.1 h
    obtain rfl := Except.ok.inj h
    rw [hsynonym, words_item?_mark hpoint, words_parseAttribute hattr]
    rfl

/-- **A tuple takes the words of all that is in it.** -/
theorem words_parseTuple {ts : List QueryToken} {r : Reading (Noted (List Selected)) ts}
    (h : parseTuple decls ts = .ok r) :
    words ts = r.value.value.flatMap Selected.words ++ words r.rest := by
  rw [parseTuple] at h
  obtain ⟨first, hfirst, h⟩ := Outcome.bind_eq_ok.1 h
  have hlt := first.shorter
  split at h
  · next comma hcomma =>
    obtain ⟨more, hmore, h⟩ := Outcome.bind_eq_ok.1 h
    have hlt' := comma.shorter
    have hall := words_parseTuple hmore
    obtain rfl := Except.ok.inj h
    rw [words_parseSelected hfirst, words_item?_mark hcomma, hall, List.flatMap_cons,
      List.append_assoc]
  · obtain ⟨closing, hclosing, h⟩ := Outcome.bind_eq_ok.1 h
    obtain rfl := Except.ok.inj h
    rw [words_parseSelected hfirst, words_takeMark hclosing]
    simp [Noted.map]
termination_by ts.length
decreasing_by omega

/-- The words of a selection are those of what is selected. -/
theorem mem_selectedWords {ss : List Selected} :
    w ∈ ss.flatMap Selected.words ↔ w ∈ (Selection.elements ss).words := by
  induction ss with
  | nil => rfl
  | cons s ss ih =>
    simp only [Selection.words, Selection.attributes, Selection.occurrences, List.flatMap_cons,
      List.map_append, List.map_cons, List.mem_append, List.mem_cons, Selected.words] at ih ⊢
    rw [ih]
    grind only

/-- What is selected is accounted for, be it one or a tuple. -/
theorem accounts_parseElements {r : Reading (Noted Selection) ts}
    (h : parseSelection.parseElements decls ts = .ok r) :
    Accounts ts r.rest r.value.value.words := by
  unfold parseSelection.parseElements at h
  split at h
  · next opening hopening =>
    obtain ⟨tuple, htuple, h⟩ := Outcome.bind_eq_ok.1 h
    have hwords := (words_item?_mark hopening).trans (words_parseTuple htuple)
    obtain rfl := Except.ok.inj h
    exact (accounts_of_words hwords).congr fun w => mem_selectedWords
  · obtain ⟨one, hone, h⟩ := Outcome.bind_eq_ok.1 h
    have hwords : words ts = [one.value.value].flatMap Selected.words ++ words one.rest := by
      simpa using words_parseSelected hone
    obtain rfl := Except.ok.inj h
    exact (accounts_of_words hwords).congr fun w => mem_selectedWords

/-- **The words of a selection are accounted for**; `BOOLEAN` is a keyword. -/
theorem accounts_parseSelection {r : Reading (Noted Selection) ts}
    (h : parseSelection decls ts = .ok r) : Accounts ts r.rest r.value.value.words := by
  unfold parseSelection at h
  split at h
  · next word hword =>
    split at h
    · exact accounts_parseElements h
    · obtain rfl := Except.ok.inj h
      exact accounts_keyword (by decide) (words_item?_word hword)
  · exact accounts_parseElements h

/-! ### Clauses -/

/-- An argument takes a word if it is a synonym, and none otherwise. -/
theorem words_parseArgument {r : Reading (Noted Argument) ts} (h : parseArgument decls ts = .ok r) :
    words ts =
      r.value.value.synonym?.toList.map Synonym.name ++ words r.rest := by
  rcases parseArgument_cases h with
    ⟨hts, hr⟩ | ⟨digits, hts, n, -, hr⟩ | ⟨text, hts, -, hr⟩ | ⟨name, hts, hr⟩
  all_goals
    rw [hr]
    have hwords := congrArg words hts
  · exact hwords
  · exact hwords
  · exact hwords
  · simpa [Noted.map, Argument.synonym?] using hwords

/-- A relation takes the word for it, and those of its two arguments. -/
theorem accounts_parseRelation {r : Reading (Noted Clause) ts}
    (h : parseRelation decls bip ts = .ok r) : Accounts ts r.rest r.value.value.words := by
  obtain ⟨word, hword, h⟩ := Outcome.bind_eq_ok.1 h
  split at h
  · cases h
  · next relation hrelation =>
    have htext : relation.text = word.value := by simpa using List.find?_some hrelation
    split at h
    · cases h
    · obtain ⟨opening, hopening, h⟩ := Outcome.bind_eq_ok.1 h
      obtain ⟨left, hleft, h⟩ := Outcome.bind_eq_ok.1 h
      obtain ⟨comma, hcomma, h⟩ := Outcome.bind_eq_ok.1 h
      obtain ⟨right, hright, h⟩ := Outcome.bind_eq_ok.1 h
      obtain ⟨closing, hclosing, h⟩ := Outcome.bind_eq_ok.1 h
      obtain rfl := Except.ok.inj h
      apply accounts_of_words
      rw [words_takeName hword, words_takeMark hopening, words_parseArgument hleft,
        words_takeMark hcomma, words_parseArgument hright, words_takeMark hclosing, ← htext]
      simp [Clause.words, Clause.relation?, Clause.attributes, Clause.occurrences]

/-- What a pattern is matched with takes no words: quoted text is none. -/
theorem words_parseExpression {r : Reading Argument ts} (h : parseExpression ts = .ok r) :
    words ts = words r.rest ∧ r.value.synonym? = none := by
  rcases parseExpression_cases h with ⟨hts, hvalue⟩ | ⟨text, parsed, partly, -, hvalue, hts⟩
  all_goals
    rw [hvalue]
    have hwords := congrArg words hts
  · exact ⟨hwords, rfl⟩
  · cases partly
    · exact ⟨hwords, rfl⟩
    · exact ⟨hwords, rfl⟩

/-- Wildcards for further places take no words. -/
theorem words_parseArity {r : Reading Nat ts} (h : parseArity ts = .ok r) :
    words ts = words r.rest := by
  unfold parseArity at h
  split at h
  · next comma hcomma =>
    obtain ⟨third, hthird, h⟩ := Outcome.bind_eq_ok.1 h
    obtain ⟨closing, hclosing, h⟩ := Outcome.bind_eq_ok.1 h
    obtain rfl := Except.ok.inj h
    rw [words_item?_mark hcomma, words_takeMark hthird, words_takeMark hclosing]
  · obtain ⟨closing, hclosing, h⟩ := Outcome.bind_eq_ok.1 h
    obtain rfl := Except.ok.inj h
    exact words_takeMark hclosing

/-- A pattern takes the name of its statement, and the word of its left side. -/
theorem accounts_parsePattern {r : Reading (Noted Clause) ts} (h : parsePattern decls ts = .ok r) :
    Accounts ts r.rest r.value.value.words := by
  obtain ⟨s, hs, h⟩ := Outcome.bind_eq_ok.1 h
  obtain ⟨opening, hopening, h⟩ := Outcome.bind_eq_ok.1 h
  obtain ⟨left, hleft, h⟩ := Outcome.bind_eq_ok.1 h
  dsimp only at h
  split at h
  · cases h
  · obtain ⟨comma, hcomma, h⟩ := Outcome.bind_eq_ok.1 h
    obtain ⟨right, hright, h⟩ := Outcome.bind_eq_ok.1 h
    obtain ⟨arity, harity, h⟩ := Outcome.bind_eq_ok.1 h
    obtain rfl := Except.ok.inj h
    obtain ⟨hexpression, hnone⟩ := words_parseExpression hright
    apply accounts_of_words
    rw [words_parseSynonym hs, words_takeMark hopening, words_parseArgument hleft,
      words_takeMark hcomma, hexpression, words_parseArity harity]
    simp [Clause.words, Clause.relation?, Clause.attributes, Clause.occurrences, Noted.check, hnone]

/-- To compare what is selected does not change its words. -/
theorem words_compared (n : Noted Selected) : (compared n).value.words = n.value.words := by
  obtain ⟨⟨s, _ | attr⟩, faults⟩ := n <;> rfl

/-- One side of a comparison takes the words of what it is. -/
theorem words_parseComparand {r : Reading (Noted Comparand) ts}
    (h : parseComparand decls ts = .ok r) :
    words ts = r.value.value.words ++ words r.rest := by
  unfold parseComparand at h
  split at h
  · obtain ⟨s, hs, h⟩ := Outcome.bind_eq_ok.1 h
    obtain rfl := Except.ok.inj h
    rw [words_parseSelected hs, ← words_compared s.value]
    rfl
  · cases h
  · obtain ⟨a, ha, h⟩ := Outcome.bind_eq_ok.1 h
    obtain rfl := Except.ok.inj h
    rw [words_parseArgument ha]
    simp [Comparand.words, Noted.map]

/-- A comparison takes the words of both sides. -/
theorem accounts_parseEqual {r : Reading (Noted Clause) ts} (h : parseEqual decls ts = .ok r) :
    Accounts ts r.rest r.value.value.words := by
  obtain ⟨left, hleft, h⟩ := Outcome.bind_eq_ok.1 h
  obtain ⟨sign, hsign, h⟩ := Outcome.bind_eq_ok.1 h
  obtain ⟨right, hright, h⟩ := Outcome.bind_eq_ok.1 h
  have hwords := words_parseComparand hleft
  rw [words_takeMark hsign, words_parseComparand hright, ← List.append_assoc] at hwords
  obtain rfl := Except.ok.inj h
  refine (accounts_of_words hwords).congr fun w => ?_
  simp only [Comparand.words, Clause.words, Clause.relation?, Clause.attributes, Clause.occurrences,
    List.mem_append, List.map_append, Option.toList_none, List.map_nil, List.nil_append]
  rw [or_or_or_comm, or_comm]

/-- **Clauses that are joined with `and` are accounted for** if each of them is. -/
theorem accounts_parseChain {one : (ts : List QueryToken) → Outcome (Noted Clause) ts}
    (hone : ∀ ts r, one ts = .ok r → Accounts ts r.rest r.value.value.words)
    {ts : List QueryToken} {r : Reading (Noted (List Clause)) ts} (h : parseChain one ts = .ok r) :
    Accounts ts r.rest (r.value.value.flatMap Clause.words) := by
  rw [parseChain] at h
  obtain ⟨first, hfirst, h⟩ := Outcome.bind_eq_ok.1 h
  have hhead := hone ts first hfirst
  have hlt := first.shorter
  split at h
  · obtain rfl := Except.ok.inj h
    simpa [Noted.map] using hhead
  · next joint hjoint =>
    obtain ⟨more, hmore, h⟩ := Outcome.bind_eq_ok.1 h
    have hlt' := joint.shorter
    have htail := accounts_parseChain hone hmore
    obtain rfl := Except.ok.inj h
    exact hhead.trans ((accounts_keyword (by decide) (words_item?_word hjoint)).trans htail)
termination_by ts.length
decreasing_by omega

/-- Clauses under one heading are accounted for, whatever the heading. -/
theorem accounts_parseGroup {head : QueryToken} {ts : List QueryToken}
    {r : Reading (Noted (List Clause)) (head :: ts)} (h : parseGroup decls bip head ts = .ok r) :
    Accounts (head :: ts) r.rest (r.value.value.flatMap Clause.words) := by
  unfold parseGroup at h
  split at h
  · obtain ⟨that, hthat, h⟩ := Outcome.bind_eq_ok.1 h
    obtain ⟨chain, hchain, h⟩ := Outcome.bind_eq_ok.1 h
    have hclauses := accounts_parseChain (fun _ _ => accounts_parseRelation) hchain
    obtain rfl := Except.ok.inj h
    exact (accounts_keyword (by decide) (words_word "such" ts)).trans
      ((accounts_keyword (by decide) (words_takeWord hthat)).trans hclauses)
  · obtain ⟨chain, hchain, h⟩ := Outcome.bind_eq_ok.1 h
    have hclauses := accounts_parseChain (fun _ _ => accounts_parsePattern) hchain
    obtain rfl := Except.ok.inj h
    exact (accounts_keyword (by decide) (words_word "pattern" ts)).trans hclauses
  · obtain ⟨chain, hchain, h⟩ := Outcome.bind_eq_ok.1 h
    have hclauses := accounts_parseChain (fun _ _ => accounts_parseEqual) hchain
    obtain rfl := Except.ok.inj h
    exact (accounts_keyword (by decide) (words_word "with" ts)).trans hclauses
  · cases h

/-- **The words of all clauses are accounted for**, up to the end of the query. -/
theorem accounts_parseClauses : {ts : List QueryToken} → {n : Noted (List Clause)} →
    parseClauses decls bip ts = .ok n → Accounts ts [] (n.value.flatMap Clause.words)
  | [], n, h => by
    rw [parseClauses] at h
    obtain rfl := Except.ok.inj h
    exact accounts_of_words rfl
  | head :: ts, n, h => by
    rw [parseClauses] at h
    obtain ⟨group, hgroup, h⟩ := Outcome.bind_eq_ok.1 h
    obtain ⟨more, hmore, h⟩ := Outcome.bind_eq_ok.1 h
    obtain rfl := Except.ok.inj h
    have hlt := group.shorter
    rw [List.flatMap_append]
    exact (accounts_parseGroup hgroup).trans (accounts_parseClauses hmore)
termination_by ts => ts.length
decreasing_by exact hlt

/-! ### Declarations -/

/-- To declare a name adds it to the names, if it is not there already. -/
theorem mem_names_declare {entity : Entity} {name : String} {noted : Noted (List Synonym)} :
    w ∈ (declare entity name noted).value.map Synonym.name ↔
      w ∈ noted.value.map Synonym.name ∨ w = name := by
  unfold declare
  split
  · next hdeclared =>
    have hname : name ∈ noted.value.map Synonym.name := by simpa using hdeclared
    refine ⟨.inl, ?_⟩
    rintro (hw | rfl)
    · exact hw
    · exact hname
  · rw [List.map_append, List.mem_append, List.map_singleton, List.mem_singleton]

/-- What is declared between `ts` and `rest`: the words there are keywords and the new names. -/
def Declares (ts rest : List QueryToken) (before after : List Synonym) : Prop :=
  ∃ names, Accounts ts rest names ∧
    ∀ w, w ∈ after.map Synonym.name ↔ w ∈ before.map Synonym.name ∨ w ∈ names

/-- Where only keywords are taken nothing is declared. -/
theorem declares_of_accounts (h : Accounts ts rest []) : Declares ts rest decls decls :=
  ⟨[], h, fun w => by simp⟩

/-- What is declared in two parts is declared together. -/
theorem Declares.trans {before between after : List Synonym} (h : Declares ts mid before between)
    (h' : Declares mid rest between after) : Declares ts rest before after := by
  obtain ⟨names, haccounts, hnames⟩ := h
  obtain ⟨names', haccounts', hnames'⟩ := h'
  refine ⟨names ++ names', haccounts.trans haccounts', fun w => ?_⟩
  rw [hnames', hnames, List.mem_append, or_assoc]

/-- Synonyms of one sort declare their names. -/
theorem declares_parseSynonyms {ts : List QueryToken} {entity : Entity}
    {noted : Noted (List Synonym)} {r : Reading (Noted (List Synonym)) ts}
    (h : parseSynonyms entity noted ts = .ok r) :
    Declares ts r.rest noted.value r.value.value := by
  rw [parseSynonyms] at h
  obtain ⟨name, hname, h⟩ := Outcome.bind_eq_ok.1 h
  have hlt := name.shorter
  have hone : ∀ {rest}, words name.rest = words rest →
      Declares ts rest noted.value (declare entity name.value noted).value := by
    intro rest hrest
    have hword := words_takeName hname
    rw [hrest] at hword
    exact ⟨[name.value], accounts_of_words hword, fun w => by simp [mem_names_declare]⟩
  split at h
  · next stop hstop =>
    obtain rfl := Except.ok.inj h
    exact hone (words_item?_mark hstop)
  · obtain ⟨comma, hcomma, h⟩ := Outcome.bind_eq_ok.1 h
    obtain ⟨more, hmore, h⟩ := Outcome.bind_eq_ok.1 h
    have hlt' := comma.shorter
    have hall := declares_parseSynonyms hmore
    obtain rfl := Except.ok.inj h
    exact (hone (words_takeMark hcomma)).trans hall
termination_by ts.length
decreasing_by omega

/-- A declaration takes the word for its sort, and declares the names after it. -/
theorem declares_parseDeclaration {noted : Noted (List Synonym)}
    {r : Reading (Noted (List Synonym)) ts} (h : parseDeclaration noted ts = .ok r) :
    Declares ts r.rest noted.value r.value.value := by
  obtain ⟨word, hword, h⟩ := Outcome.bind_eq_ok.1 h
  split at h
  · cases h
  · next entity hentity =>
    obtain ⟨listed, hlisted, h⟩ := Outcome.bind_eq_ok.1 h
    have hall := declares_parseSynonyms hlisted
    obtain rfl := Except.ok.inj h
    have htext : entity.text = word.value := by simpa using List.find?_some hentity
    have hkeyword : word.value ∈ keywords :=
      List.mem_append_right _ (List.mem_map.2 ⟨entity, entity.mem_all, htext⟩)
    exact (declares_of_accounts (accounts_keyword hkeyword (words_takeName hword))).trans hall

/-- **All declarations together declare the names in them.** -/
theorem declares_parseDeclarations {ts : List QueryToken} {noted : Noted (List Synonym)}
    {r : Reading (Noted (List Synonym)) ts} (h : parseDeclarations noted ts = .ok r) :
    Declares ts r.rest noted.value r.value.value := by
  rw [parseDeclarations] at h
  split at h
  · next select hselect =>
    obtain rfl := Except.ok.inj h
    exact declares_of_accounts (accounts_keyword (by decide) (words_item?_word hselect))
  · split at h
    · cases h
    · obtain ⟨first, hfirst, h⟩ := Outcome.bind_eq_ok.1 h
      obtain ⟨more, hmore, h⟩ := Outcome.bind_eq_ok.1 h
      have hlt := first.shorter
      have hall := declares_parseDeclarations hmore
      obtain rfl := Except.ok.inj h
      exact (declares_parseDeclaration hfirst).trans hall
termination_by ts.length
decreasing_by omega

/-! ### Queries -/

/-- The relations in a query. -/
def relations (q : Query) : List Relation :=
  q.clauses.filterMap Clause.relation?

/-- The attributes in a query. -/
def attributes (q : Query) : List Attribute :=
  q.clauses.flatMap Clause.attributes ++ q.selection.attributes

/-- The names of synonyms in a query, be they declared or only used. -/
def synonymNames (q : Query) : List String :=
  (q.declarations ++ q.occurrences).map Synonym.name

/-- The words of clauses are those of relations, of attributes and of synonyms. -/
theorem mem_clauseWords {clauses : List Clause} :
    w ∈ clauses.flatMap Clause.words ↔
      w ∈ (clauses.filterMap Clause.relation?).map Relation.text ∨
        w ∈ (clauses.flatMap Clause.attributes).map Attribute.text ∨
          w ∈ (clauses.flatMap Clause.occurrences).map Synonym.name := by
  induction clauses with
  | nil => simp
  | cons c clauses ih =>
    have hrelations : (c :: clauses).filterMap Clause.relation? =
        c.relation?.toList ++ clauses.filterMap Clause.relation? := by
      cases hc : c.relation? <;> simp [hc]
    simp only [hrelations, List.flatMap_cons, List.map_append, List.mem_append, Clause.words, ih]
    grind only

/-- **No word of a query is lost**: it is a keyword, or it is the word for a relation, an attribute
or a synonym of the query. And whatever a synonym is called is a word of the query. -/
theorem accounts_parseTokens {q : Query} (h : parseTokens bip ts = .ok q) :
    Accounts ts [] (q.relations.map Relation.text ++ q.attributes.map Attribute.text ++
      q.synonymNames) := by
  obtain ⟨declared, hdeclared, h⟩ := Outcome.bind_eq_ok.1 h
  obtain ⟨selection, hselection, h⟩ := Outcome.bind_eq_ok.1 h
  obtain ⟨clauses, hclauses, h⟩ := Outcome.bind_eq_ok.1 h
  obtain rfl := Except.ok.inj h
  obtain ⟨names, haccounts, hnames⟩ := declares_parseDeclarations hdeclared
  have hall := haccounts.trans
    ((accounts_parseSelection hselection).trans (accounts_parseClauses hclauses))
  refine hall.congr fun w => ?_
  have hdeclarations : w ∈ names ↔ w ∈ declared.value.value.map Synonym.name := by
    simp [hnames w, Noted.clean]
  simp only [List.mem_append, hdeclarations, mem_clauseWords, Selection.words, relations,
    attributes, synonymNames, occurrences, List.map_append]
  grind only

/-- No keyword has a star or a sharp. -/
theorem not_mem_keywords (hw : '*' ∈ w.toList ∨ '#' ∈ w.toList) : w ∉ keywords := by
  have hplain : ∀ w ∈ keywords, '*' ∉ w.toList ∧ '#' ∉ w.toList := by decide +kernel
  intro hmem
  obtain ⟨hstar, hsharp⟩ := hplain w hmem
  exact hw.elim hstar hsharp

/-- The query that declares a statement and selects it. -/
def selectStatement (name : String) : Query where
  declarations := [⟨.stmt, name⟩]
  selection := .elements [⟨⟨.stmt, name⟩, none⟩]
  clauses := []

/-- To declare a statement and select it is well typed, whatever its name. -/
theorem wellTyped_selectStatement (bip : Bool) (name : String) :
    (selectStatement name).WellTyped bip where
  faultless := rfl
  distinct := List.nodup_singleton name
  selection := .elements (List.cons_ne_nil _ _)
    (List.forall_mem_singleton.2 ⟨List.mem_singleton.2 rfl, nofun⟩)
  clauses := List.forall_mem_nil _

/-- A statement can be called by any word. -/
theorem parse_selectStatement (bip : Bool) (hw : QueryToken.IsWord w) :
    ∃ text, parse bip text = .ok (selectStatement w) := by
  have hwritten := Written.intro (q := selectStatement w) (.group .stmt (.one w) .nil)
    (.one ⟨⟨.stmt, w⟩, none⟩) .nil
  have hspelled : ∀ t ∈ ([.word "stmt", .word w, .mark ';', .word "Select", .word w] :
      List QueryToken), t.wellSpelled := by
    simp only [List.forall_mem_cons]
    exact ⟨by decide, hw.wellSpelled, by decide, by decide, hw.wellSpelled, List.forall_mem_nil _⟩
  have hlex := QueryToken.lexFrom_laid (QueryToken.laid_phrase hspelled)
  have hparse := parseTokens_written (wellTyped_selectStatement bip w) hwritten
  exact ⟨_, Outcome.bind_eq_ok.2 ⟨_, hlex, hparse⟩⟩

/-- A starred name is no name, and yet it is taken for a synonym. -/
theorem starred_synonym_accepted :
    parse false "stmt s*; Select s*" = .ok (selectStatement "s*") ∧
      "s*" ∈ (selectStatement "s*").synonymNames ∧ ¬ Text.isName "s*".toList :=
  ⟨Outcome.toOption_eq_some.1 (by decide +kernel), by decide, by decide⟩

/-- **A synonym can be called by any word, and by nothing else.** A word is a name if it has neither
a star nor a sharp and is not `prog_line`. One with a star or a sharp is never lost: it is taken for
a relation, for an attribute or for a synonym. -/
theorem parse_takes_any_word (bip : Bool) :
    (∀ text q, parse bip text = .ok q →
      (∀ name ∈ q.synonymNames, QueryToken.IsWord name ∧
        (Text.isName name.toList ↔ '*' ∉ name.toList ∧ '#' ∉ name.toList ∧ name ≠ "prog_line")) ∧
      ∃ ts, lex text = .ok ts ∧ ∀ w, .word w ∈ ts → '*' ∈ w.toList ∨ '#' ∈ w.toList →
        w ∈ q.relations.map Relation.text ∨ w ∈ q.attributes.map Attribute.text ∨
          w ∈ q.synonymNames) ∧
    ∀ w, QueryToken.IsWord w → ∃ text q, parse bip text = .ok q ∧ q.fault = none ∧
      (∃ s ∈ q.declarations, s.name = w) ∧ ∃ s ∈ q.occurrences, s.name = w := by
  refine ⟨fun text q h => ?_, fun w hw => ?_⟩
  · obtain ⟨ts, hlex, hparse⟩ := Outcome.bind_eq_ok.1 h
    obtain ⟨used, hused, hspoken, hspent⟩ := accounts_parseTokens hparse
    obtain rfl : words ts = used := hused.trans (List.append_nil used)
    refine ⟨fun name hname => ?_, ts, hlex, fun w hw hmarked => ?_⟩
    · have hmem := QueryToken.mem_words.1 (hspent name (List.mem_append_right _ hname))
      have hword := QueryToken.isWord_of_lexFrom hlex name hmem
      exact ⟨hword, hword.isName_iff⟩
    · have hmem := (hspoken w (QueryToken.mem_words.2 hw)).resolve_left (not_mem_keywords hmarked)
      rwa [List.mem_append, List.mem_append, or_assoc] at hmem
  · obtain ⟨text, htext⟩ := parse_selectStatement bip hw
    have hname : ∃ s ∈ [(⟨.stmt, w⟩ : Synonym)], s.name = w := ⟨_, List.mem_singleton.2 rfl, rfl⟩
    exact ⟨text, selectStatement w, htext, rfl, hname, hname⟩

/-- A query whose words with a star and a sharp are a relation, an attribute and two synonyms. -/
def starredNames : Query where
  declarations := [⟨.stmt, "s*"⟩, ⟨.stmt, "stmt#"⟩]
  selection := .elements [⟨⟨.stmt, "s*"⟩, some .stmtNumber⟩]
  clauses := [.suchThat .followsStar (.synonym ⟨.stmt, "s*"⟩) (.synonym ⟨.stmt, "stmt#"⟩)]

/-- The synonyms `s*` and `stmt#`, beside a relation and an attribute that are spelled so too. -/
theorem parse_takes_starredNames :
    parse false "stmt s*, stmt#; Select s*.stmt# such that Follows*(s*, stmt#)" =
        .ok starredNames ∧
      (∀ name ∈ starredNames.synonymNames, QueryToken.IsWord name) ∧
      ¬ Text.isName "stmt#".toList := by
  have hparse : parse false "stmt s*, stmt#; Select s*.stmt# such that Follows*(s*, stmt#)" =
      .ok starredNames := Outcome.toOption_eq_some.1 (by decide +kernel)
  obtain ⟨hwords, -⟩ := (parse_takes_any_word false).1 _ _ hparse
  have hsharp := (hwords "stmt#" (by decide)).2
  exact ⟨hparse, fun name hname => (hwords name hname).1, fun h => (hsharp.1 h).2.1 (by decide)⟩

end Query

end ProgramFacts
