import FeatureTree.Proofs.Grammar.Beginnings
import FeatureTree.Proofs.Snippet.Alternatives

/-!
# Members that exclude each other

A production tries its rules in a fixed order, so it matters which of them can match at
one place. All members of Java but initializer blocks begin with modifiers, and these are
matched alike by all of them; what stands behind the modifiers tells the members apart:
a word that is no name, or a name or type and the sign behind it. A name that is also
the word of a record is no exception, since what follows the word of a record is a name.
-/

namespace FeatureTree

namespace Java

open Grammar

variable {r r' : Rule} {l : Layout} {s t u v x y : List Char} {c : Char} {f f' : Forest Rule}
  {words : List String} {word : String} {e : Expr Rule}

theorem body_of_match (h : grammar.matchRule r l s = some (t, f)) :
    ∃ inner, grammar.matchExpr r.body (l.inside r.layout) s = some (t, inner) := by
  obtain ⟨inner, hbody, -⟩ := (matchRule_eq_some_iff ranked).1 h
  exact ⟨inner, hbody⟩

/-! ## Words and names -/

/-- A character of a word. -/
def isWordChar (c : Char) : Bool := c.isAlphanum || (c == '_' || c == '$')

theorem takesChar_identChar : grammar.TakesChar Rule.identChar isWordChar :=
  (takesChar_char _).either ((takesChar_text '_').either (takesChar_text '$'))

/-- A name begins with it. -/
def beginsName (c : Char) : Bool := c.isAlpha || (c == '_' || c == '$')

theorem takesChar_beginsName :
    grammar.TakesChar (Expr.choice [Lexical.letter, "_", "$"]) beginsName :=
  (takesChar_char _).either ((takesChar_text '_').either (takesChar_text '$'))

theorem isWordChar_of_beginsName (hc : beginsName c = true) : isWordChar c = true := by
  rw [beginsName, Bool.or_eq_true] at hc
  rw [isWordChar, Char.isAlphanum, Bool.or_eq_true, Bool.or_eq_true]
  exact hc.imp_left .inl

theorem keywords_chars : ∀ w ∈ Rule.keywords, ∀ c ∈ w.toList, isWordChar c = true := by
  decide

theorem keywords_longestFirst : LongestFirst Rule.keywords := by decide

/-- A name is a run of word characters that is no keyword. -/
theorem run_of_identifier (h : grammar.matchRule .identifier l s = some (t, f)) :
    grammar.matchRule .keyword .token s = none ∧
      ∃ w, s = w ++ t ∧ (∀ c ∈ w, isWordChar c = true) ∧ ∀ c ∈ t.head?, isWordChar c = false := by
  obtain ⟨inner, hbody⟩ := body_of_match h
  obtain ⟨hkeyword, c, w, -, hrun⟩ := run_of_name ranked takesChar_identChar rfl
    takesChar_beginsName (fun _ => isWordChar_of_beginsName) hbody
  exact ⟨hkeyword, c :: w, hrun⟩

/-- The rule is a word of a list. -/
abbrev IsWord (r : Rule) (words : List String) : Prop :=
  grammar.IsWord Rule.identChar r words

theorem word_of_rule (hr : IsWord r words) (h : grammar.matchRule r l s = some (t, f)) :
    ∃ word ∈ words, s = word.toList ++ t ∧ ∀ c ∈ t.head?, isWordChar c = false :=
  hr.exists_word ranked takesChar_identChar h

/-- A keyword is no name. -/
theorem not_identifier (hr : IsWord r words) (hwords : ∀ w ∈ words, w ∈ Rule.keywords)
    (h : grammar.Passes (.rule r) s u) : ¬ grammar.Passes (.rule .identifier) s v := by
  rintro ⟨t', f', hname, -⟩
  obtain ⟨t, f, hword, -⟩ := h
  have hkeyword : (grammar.matchRule .keyword .token s).isSome = true :=
    hr.isSome_of_subset ⟨rfl, rfl⟩ ranked takesChar_identChar hwords keywords_chars
      keywords_longestFirst hword
  rw [(run_of_identifier hname).1] at hkeyword
  cases hkeyword

/-- A word and a name at one place are the same run of characters. -/
theorem word_eq_name (hr : IsWord r words)
    (hwords : ∀ w ∈ words, ∀ c ∈ w.toList, isWordChar c = true)
    (h : grammar.Passes (.rule r) s u) (hname : grammar.Passes (.rule .identifier) s v) :
    u = v := by
  obtain ⟨t, f, hword, rfl⟩ := h
  obtain ⟨t', f', hidentifier, rfl⟩ := hname
  obtain ⟨-, w, rfl, hw, ht'⟩ := run_of_identifier hidentifier
  rw [hr.eq_run ranked takesChar_identChar hwords hword hw ht']

theorem identifier_of_declName (h : grammar.Passes (.rule .declName) s u) :
    grammar.Passes (.rule .identifier) s u := passes_body ranked rfl h

/-- A word and the word of a primitive type at one place are the same. -/
theorem primitive_of_word (hr : IsWord r words)
    (hwords : ∀ w ∈ words, ∀ c ∈ w.toList, isWordChar c = true)
    (h : grammar.Passes (.rule r) s u) (htype : grammar.Passes (.rule .primitiveType) s v) :
    ∃ word ∈ words, word ∈ Rule.primitiveTypes := by
  obtain ⟨t, f, hword, -⟩ := h
  obtain ⟨t', f', hprimitive, -⟩ := htype
  have hprimitives : IsWord .primitiveType Rule.primitiveTypes := ⟨rfl, rfl⟩
  exact (hr.unique hprimitives ranked takesChar_identChar hwords (by decide) hword
    hprimitive).2

/-! ## Names and types -/

/-- What may follow the first name of a class type. -/
def classTail : Expr Rule :=
  Expr.seq [.opt Rule.typeArguments, .star (.seq [".", Rule.identifier, .opt Rule.typeArguments])]

theorem type_passes (h : grammar.Passes (.rule .typeRef) s u) :
    ∃ v, (grammar.Passes (.rule .primitiveType) s v ∨
        ∃ x, grammar.Passes (.rule .identifier) s x ∧ grammar.Passes classTail x v) ∧
      grammar.Passes (.opt (.rule .dims)) v u := by
  obtain ⟨v, hfirst, hdims⟩ := passes_both (passes_body ranked rfl h)
  refine ⟨v, ?_, hdims⟩
  rcases passes_either hfirst with hprimitive | hclass
  · exact .inl hprimitive
  · exact .inr (passes_both (passes_body ranked rfl hclass))

/-- No type begins with the word. -/
theorem not_typeRef (hr : IsWord r words) (hwords : ∀ w ∈ words, w ∈ Rule.keywords)
    (hprimitive : ∀ w ∈ words, w ∉ Rule.primitiveTypes)
    (h : grammar.Passes (.rule r) s u) : ¬ grammar.Passes (.rule .typeRef) s v := by
  intro htype
  obtain ⟨_, hprimitiveType | ⟨x, hname, -⟩, -⟩ := type_passes htype
  · obtain ⟨word, hword, hword'⟩ :=
      primitive_of_word hr (fun w hw => keywords_chars w (hwords w hw)) h hprimitiveType
    exact hprimitive word hword hword'
  · exact not_identifier hr hwords h hname

theorem classTail_stays (hc : c ≠ '<' ∧ c ≠ '.') :
    classTail.stays (grammar.firsts 1) c = true := by
  simp [classTail, Expr.seq, Expr.stays, Expr.begins, firsts, grammar, Rule.body, hc.1.symm,
    hc.2.symm]

theorem dims_stays (hc : c ≠ '[') :
    (Expr.opt (.rule .dims)).stays (grammar.firsts 1) c = true := by
  simp [Expr.seq, Expr.plus, Expr.stays, Expr.begins, firsts, grammar, Rule.body, hc.symm]

/-- A type that begins with a name ends behind it, unless a sign follows that goes on. -/
theorem typeRef_eq_name (hc : c ≠ '<' ∧ c ≠ '.' ∧ c ≠ '[')
    (hname : grammar.Passes (.rule .identifier) s (c :: y))
    (h : grammar.Passes (.rule .typeRef) s u) : u = c :: y := by
  have hsame := hname.between ranked
  obtain ⟨v, hfirst, hdims⟩ := type_passes h
  have hv : v = c :: y := by
    rcases hfirst with hprimitive | ⟨x, hname', htail⟩
    · exact absurd hname (not_identifier (r := .primitiveType) ⟨rfl, rfl⟩ (by decide) hprimitive)
    · cases hname.unique hname'
      exact passes_stays ranked hsame (classTail_stays ⟨hc.1, hc.2.1⟩) htail
  subst hv
  exact passes_stays ranked hsame (dims_stays hc.2.2) hdims

/-! ## What stands behind the modifiers -/

/-- Where something else than type parameters begins, there are none. -/
theorem no_typeParameters (hv : grammar.between .spaced v = v)
    (he : e.begins (grammar.firsts 6) '<' = false) (h : grammar.Passes e v u) :
    grammar.Passes (.opt (.rule .typeParameters)) v x ↔ x = v := by
  have hnone : ∀ y, ¬ grammar.Passes (.rule .typeParameters) v y := by
    intro y hparameters
    obtain ⟨y, rfl⟩ := passes_sign ranked hparameters rfl
    exact not_passes_of_begins ranked he hv h
  constructor
  · intro hopt
    exact (passes_opt hv hopt).resolve_left (hnone x)
  · rintro rfl
    refine ⟨x, .nil, matchExpr_opt_none ?_, hv⟩
    cases hmatch : grammar.matchExpr (.rule .typeParameters) .spaced x with
    | none => rfl
    | some found => exact absurd ⟨_, _, hmatch, rfl⟩ (hnone _)

/-- There is no name behind a type where behind a name there is only a sign. -/
theorem not_typed_name (hc : c = '(' ∨ c = '\x7b')
    (hname : grammar.Passes (.rule .declName) s (c :: y))
    (htype : grammar.Passes (.rule .typeRef) s u) : ¬ grammar.Passes (.rule .declName) u v := by
  have hsigns : c ≠ '<' ∧ c ≠ '.' ∧ c ≠ '[' := by rcases hc with rfl | rfl <;> decide
  rw [typeRef_eq_name hsigns (identifier_of_declName hname) htype]
  refine not_passes_of_begins (n := 6) ranked ?_ (hname.between ranked)
  rcases hc with rfl | rfl <;> decide

/-- The rules of constructors, with and without parameters. -/
def constructors : List Rule := [.constructorDeclaration, .compactConstructor]

/-- The rules of types that a keyword introduces. -/
def keywordTypes : List Rule := [.classDeclaration, .interfaceDeclaration, .enumDeclaration]

theorem mem_constructors :
    r ∈ constructors ↔ r = .constructorDeclaration ∨ r = .compactConstructor := by
  simp [constructors]

theorem mem_keywordTypes : r ∈ keywordTypes ↔
    r = .classDeclaration ∨ r = .interfaceDeclaration ∨ r = .enumDeclaration := by
  simp [keywordTypes]

theorem constructors_begin (hr : r ∈ constructors) : grammar.BeginsWith r .modifiers := by
  rcases mem_constructors.1 hr with rfl | rfl <;> exact ⟨rfl, rfl⟩

theorem keywordTypes_begin (hr : r ∈ keywordTypes) : grammar.BeginsWith r .modifiers := by
  rcases mem_keywordTypes.1 hr with rfl | rfl | rfl <;> exact ⟨rfl, rfl⟩

/-- Behind the name of a constructor there is a sign. -/
theorem constructor_passes (hr : r ∈ constructors) (hv : grammar.between .spaced v = v)
    (h : grammar.Passes (grammar.tail r) v u) :
    ∃ x c y, grammar.Passes (.opt (.rule .typeParameters)) v x ∧
      grammar.Passes (.rule .declName) x (c :: y) ∧ (c = '(' ∨ c = '\x7b') := by
  rcases mem_constructors.1 hr with rfl | rfl
  · obtain ⟨x, htypes, hrest⟩ := passes_both h
    obtain ⟨z, hname, hmore⟩ := passes_both hrest
    obtain ⟨_, hparameters, -⟩ := passes_both hmore
    obtain ⟨y, rfl⟩ := passes_sign ranked hparameters rfl
    exact ⟨x, '(', y, htypes, hname, .inl rfl⟩
  · obtain ⟨z, hname, hblock⟩ := passes_both h
    obtain ⟨y, rfl⟩ := passes_sign ranked hblock rfl
    exact ⟨v, '\x7b', y, (no_typeParameters hv (by decide) hname).2 rfl, hname, .inr rfl⟩

theorem method_passes (h : grammar.Passes (grammar.tail .methodDeclaration) v u) :
    ∃ x z y, grammar.Passes (.opt (.rule .typeParameters)) v x ∧
      grammar.Passes (.rule .resultType) x z ∧
      grammar.Passes (.rule .declName) z ('(' :: y) := by
  obtain ⟨x, htypes, hrest⟩ := passes_both h
  obtain ⟨z, hresult, hmore⟩ := passes_both hrest
  obtain ⟨z', hname, hlast⟩ := passes_both hmore
  obtain ⟨_, hparameters, -⟩ := passes_both hlast
  obtain ⟨y, rfl⟩ := passes_sign ranked hparameters rfl
  exact ⟨x, z, y, htypes, hresult, hname⟩

theorem record_passes (h : grammar.Passes (grammar.tail .recordDeclaration) v u) :
    ∃ x c y, grammar.Passes (.rule .kwRecord) v x ∧
      grammar.Passes (.rule .declName) x (c :: y) ∧ (c = '<' ∨ c = '(') := by
  obtain ⟨x, hword, hrest⟩ := passes_both h
  obtain ⟨z, hname, hmore⟩ := passes_both hrest
  obtain ⟨z', htypes, hlast⟩ := passes_both hmore
  rcases passes_opt (hname.between ranked) htypes with htypes | rfl
  · obtain ⟨y, rfl⟩ := passes_sign ranked htypes rfl
    exact ⟨x, '<', y, hword, hname, .inl rfl⟩
  · obtain ⟨_, hparameters, -⟩ := passes_both hlast
    obtain ⟨y, rfl⟩ := passes_sign ranked hparameters rfl
    exact ⟨x, '(', y, hword, hname, .inr rfl⟩

/-- Behind the name of a field there are brackets, a value, or a sign that ends the
variable. -/
theorem field_passes (h : grammar.Passes (grammar.tail .fieldDeclaration) v u) :
    ∃ x z, grammar.Passes (.rule .typeRef) v x ∧ grammar.Passes (.rule .declName) x z ∧
      ∀ c ∈ ['(', '\x7b', '<'], ∀ y, z ≠ c :: y := by
  obtain ⟨x, htype, hrest⟩ := passes_both h
  obtain ⟨p, hvariable, hend⟩ := passes_both hrest
  obtain ⟨z, hname, hmore⟩ := passes_both (passes_body ranked rfl hvariable)
  refine ⟨x, z, htype, hname, ?_⟩
  rintro c hc y rfl
  have hsigns : c = '(' ∨ c = '\x7b' ∨ c = '<' := by simpa using hc
  have hz := hname.between ranked
  have hp : p = c :: y := by
    refine passes_stays (n := 6) ranked hz ?_ hmore
    rcases hsigns with rfl | rfl | rfl <;> decide
  subst hp
  refine not_passes_of_begins (n := 6) ranked ?_ hz hend
  rcases hsigns with rfl | rfl | rfl <;> decide

theorem keyword_passes (hr : r ∈ keywordTypes) (h : grammar.Passes (grammar.tail r) v u) :
    ∃ kw word x, IsWord kw [word] ∧ word ∈ Rule.keywords ∧ word ∉ Rule.primitiveTypes ∧
      grammar.firsts 6 kw '<' = false ∧ grammar.Passes (.rule kw) v x := by
  rcases mem_keywordTypes.1 hr with rfl | rfl | rfl
  · obtain ⟨x, hword, -⟩ := passes_both h
    exact ⟨.kwClass, "class", x, ⟨rfl, rfl⟩, by decide, by decide, by decide, hword⟩
  · obtain ⟨x, hword, -⟩ := passes_both h
    exact ⟨.kwInterface, "interface", x, ⟨rfl, rfl⟩, by decide, by decide, by decide,
      hword⟩
  · obtain ⟨x, hword, -⟩ := passes_both h
    exact ⟨.kwEnum, "enum", x, ⟨rfl, rfl⟩, by decide, by decide, by decide, hword⟩

/-! ## Members that exclude each other -/

theorem isWord_record : IsWord .kwRecord ["record"] := ⟨rfl, rfl⟩

theorem isWord_static : IsWord .kwStatic ["static"] := ⟨rfl, rfl⟩

theorem isWord_void : IsWord .kwVoid ["void"] := ⟨rfl, rfl⟩

theorem constructor_excludes_keyword (hr : r ∈ constructors) (hr' : r' ∈ keywordTypes) :
    grammar.Excludes r r' := by
  refine SnippetGrammar.excludes_of_tails ranked (constructors_begin hr) (keywordTypes_begin hr') ?_
  intro v u x hv htail htail'
  obtain ⟨w, c, y, htypes, hname, -⟩ := constructor_passes hr hv htail
  obtain ⟨kw, word, _, hkw, hword, -, hbegins, hkeyword⟩ := keyword_passes hr' htail'
  rw [(no_typeParameters (e := .rule kw) hv hbegins hkeyword).1 htypes] at hname
  exact not_identifier hkw (by simpa using hword) hkeyword (identifier_of_declName hname)

theorem field_excludes_keyword (hr : r ∈ keywordTypes) :
    grammar.Excludes .fieldDeclaration r := by
  refine SnippetGrammar.excludes_of_tails ranked ⟨rfl, rfl⟩ (keywordTypes_begin hr) ?_
  intro v u x hv htail htail'
  obtain ⟨_, _, htype, -⟩ := field_passes htail
  obtain ⟨kw, word, _, hkw, hword, hprimitive, -, hkeyword⟩ := keyword_passes hr htail'
  exact not_typeRef hkw (by simpa using hword) (by simpa using hprimitive) hkeyword htype

/-- The word of a record is no keyword, but a name comes after it, and no sign. -/
theorem constructor_excludes_record (hr : r ∈ constructors) :
    grammar.Excludes r .recordDeclaration := by
  refine SnippetGrammar.excludes_of_tails ranked (constructors_begin hr) ⟨rfl, rfl⟩ ?_
  intro v u x hv htail htail'
  obtain ⟨w, c, y, htypes, hname, hc⟩ := constructor_passes hr hv htail
  obtain ⟨z, c', y', hword, hname', -⟩ := record_passes htail'
  rw [(no_typeParameters hv (by decide) hword).1 htypes] at hname
  cases word_eq_name isWord_record (by decide) hword (identifier_of_declName hname)
  refine not_passes_of_begins (n := 6) ranked ?_ (hname.between ranked) hname'
  rcases hc with rfl | rfl <;> decide

/-- As the type of a field the word of a record ends where the name of the record begins,
and behind that name no field goes on as a record does. -/
theorem field_excludes_record : grammar.Excludes .fieldDeclaration .recordDeclaration := by
  refine SnippetGrammar.excludes_of_tails ranked ⟨rfl, rfl⟩ ⟨rfl, rfl⟩ ?_
  intro v u x hv htail htail'
  obtain ⟨w, z, htype, hname, hsign⟩ := field_passes htail
  obtain ⟨w', c, y, hword, hname', hc⟩ := record_passes htail'
  have hidentifier : grammar.Passes (.rule .identifier) v w' := by
    obtain ⟨_, hprimitive | ⟨w'', hidentifier, -⟩, -⟩ := type_passes htype
    · obtain ⟨word, hrecord, htypes⟩ :=
        primitive_of_word isWord_record (by decide) hword hprimitive
      have hnone : ∀ word ∈ ["record"], word ∉ Rule.primitiveTypes := by decide
      exact absurd htypes (hnone word hrecord)
    · rw [word_eq_name isWord_record (by decide) hword hidentifier]
      exact hidentifier
  have hw : w = w' := by
    obtain ⟨d, w', rfl⟩ : ∃ d t, w' = d :: t := hname'.eq_cons ranked (by decide)
    refine typeRef_eq_name ⟨?_, ?_, ?_⟩ hidentifier htype
    all_goals
      rintro rfl
      exact not_passes_of_begins (n := 6) ranked (by decide) (hword.between ranked) hname'
  subst hw
  cases hname.unique hname'
  rcases hc with rfl | rfl <;> exact hsign _ (by decide) _ rfl

theorem excludes_annotationType (hr : grammar.BeginsWith r .modifiers)
    (he : (grammar.tail r).begins (grammar.firsts 6) '@' = false) :
    grammar.Excludes r .annotationTypeDeclaration := by
  refine SnippetGrammar.excludes_of_tails ranked hr ⟨rfl, rfl⟩ ?_
  intro v u x hv htail htail'
  obtain ⟨_, hat, -⟩ := passes_both htail'
  obtain ⟨y, rfl⟩ := passes_text hat
  exact not_passes_of_begins ranked he hv htail

theorem field_excludes_constructor (hr : r ∈ constructors) :
    grammar.Excludes .fieldDeclaration r := by
  refine SnippetGrammar.excludes_of_tails ranked ⟨rfl, rfl⟩ (constructors_begin hr) ?_
  intro v u x hv htail htail'
  obtain ⟨w, z, htype, hname, -⟩ := field_passes htail
  obtain ⟨w', c, y, htypes, hname', hc⟩ := constructor_passes hr hv htail'
  rw [(no_typeParameters hv (by decide) htype).1 htypes] at hname'
  exact not_typed_name hc hname' htype hname

theorem method_excludes_constructor (hr : r ∈ constructors) :
    grammar.Excludes .methodDeclaration r := by
  refine SnippetGrammar.excludes_of_tails ranked ⟨rfl, rfl⟩ (constructors_begin hr) ?_
  intro v u x hv htail htail'
  obtain ⟨w, z, y, htypes, hresult, hname⟩ := method_passes htail
  obtain ⟨w', c, y', htypes', hname', hc⟩ := constructor_passes hr hv htail'
  cases htypes.unique htypes'
  rcases passes_either (passes_body ranked rfl hresult) with hvoid | htype
  · exact not_identifier isWord_void (by decide) hvoid (identifier_of_declName hname')
  · exact not_typed_name hc hname' htype hname

theorem field_excludes_method : grammar.Excludes .fieldDeclaration .methodDeclaration := by
  refine SnippetGrammar.excludes_of_tails ranked ⟨rfl, rfl⟩ ⟨rfl, rfl⟩ ?_
  intro v u x hv htail htail'
  obtain ⟨w, z, htype, hname, hsign⟩ := field_passes htail
  obtain ⟨w', z', y, htypes, hresult, hname'⟩ := method_passes htail'
  rw [(no_typeParameters hv (by decide) htype).1 htypes] at hresult
  rcases passes_either (passes_body ranked rfl hresult) with hvoid | htype'
  · exact not_typeRef isWord_void (by decide) (by decide) hvoid htype
  · cases htype.unique htype'
    cases hname.unique hname'
    exact hsign _ (by decide) _ rfl

/-- Modifiers leave the brace of an initializer block, also behind the word for static
blocks, which is a modifier. -/
theorem brace_of_initializer (hs : grammar.between .spaced s = s)
    (h : grammar.Passes (.rule .initializerBlock) s u)
    (hv : grammar.Passes (.rule .modifiers) s v) : ∃ y, v = '\x7b' :: y := by
  have hmodifiers := passes_body ranked rfl hv
  obtain ⟨x, hopt, hblock⟩ := passes_both (passes_body ranked rfl h)
  obtain ⟨y, rfl⟩ := passes_sign ranked hblock rfl
  refine ⟨y, ?_⟩
  rcases passes_opt hs hopt with hstatic | rfl
  · have hy := hstatic.between ranked
    obtain ⟨t, f, hmatch, ht⟩ := hstatic
    obtain ⟨word, hword, rfl, hend⟩ := word_of_rule isWord_static hmatch
    cases List.mem_singleton.1 hword
    have hannotation :
        grammar.matchExpr (.rule .annotationUse) .spaced ("static".toList ++ t) = none :=
      matchExpr_none_of_begins (n := 2) ranked (by decide) hs
    have hmodifier := match_of_word takesChar_identChar
      (by decide : "static" ∈ Rule.modifierWords) (by decide) (by decide) hend
    have hround : grammar.Passes (.either (.rule .annotationUse) (.rule .modifier))
        ("static".toList ++ t) ('\x7b' :: y) :=
      ⟨t, _, (matchExpr_right hannotation).trans
        (matchRule_of_body (r := Rule.modifier) ranked hmodifier rfl), ht⟩
    refine hmodifiers.unique (passes_star ranked (by decide) hs hround ?_)
    exact matchExpr_none_of_begins (n := 3) ranked (by decide) hy
  · exact passes_stays (n := 3) ranked hs (by decide) hmodifiers

theorem excludes_initializer (hr : grammar.BeginsWith r .modifiers)
    (he : (grammar.tail r).begins (grammar.firsts 6) '\x7b' = false) :
    grammar.Excludes r .initializerBlock := by
  intro s hs hmatch
  rw [← Option.not_isSome_iff_eq_none]
  intro hmatch'
  obtain ⟨u, hpasses⟩ := passes_of_matchRule hmatch
  obtain ⟨u', hpasses'⟩ := passes_of_matchRule hmatch'
  obtain ⟨v, hv, htail⟩ := hr.passes ranked hpasses
  obtain ⟨y, rfl⟩ := brace_of_initializer hs hpasses' hv
  exact not_passes_of_begins ranked he (hv.between ranked) htail

/-- The rules are told apart by what stands behind the modifiers. -/
def Apart (r r' : Rule) : Prop :=
  (r ∈ constructors ∨ r = .fieldDeclaration) ∧
      (r' ∈ keywordTypes ∨ r' = .recordDeclaration ∨ r' = .annotationTypeDeclaration) ∨
    (r ∈ constructors ∨ r = .fieldDeclaration ∨ r = .methodDeclaration) ∧
      r' = .initializerBlock ∨
    (r = .fieldDeclaration ∨ r = .methodDeclaration) ∧ r' ∈ constructors ∨
    r = .fieldDeclaration ∧ r' = .methodDeclaration

instance : DecidableRel Apart := fun _ _ => inferInstanceAs (Decidable (_ ∨ _))

theorem excludes_of_apart (h : Apart r r') : grammar.Excludes r r' := by
  rcases h with ⟨hr, hr'⟩ | ⟨hr, rfl⟩ | ⟨rfl | rfl, hr'⟩ | ⟨rfl, rfl⟩
  · rcases hr with hr | rfl <;> rcases hr' with hr' | rfl | rfl
    · exact constructor_excludes_keyword hr hr'
    · exact constructor_excludes_record hr
    · refine excludes_annotationType (constructors_begin hr) ?_
      rcases mem_constructors.1 hr with rfl | rfl <;> decide
    · exact field_excludes_keyword hr'
    · exact field_excludes_record
    · exact excludes_annotationType ⟨rfl, rfl⟩ (by decide)
  · rcases hr with hr | rfl | rfl
    · refine excludes_initializer (constructors_begin hr) ?_
      rcases mem_constructors.1 hr with rfl | rfl <;> decide
    · exact excludes_initializer ⟨rfl, rfl⟩ (by decide)
    · exact excludes_initializer ⟨rfl, rfl⟩ (by decide)
  · exact field_excludes_constructor hr'
  · exact method_excludes_constructor hr'
  · exact field_excludes_method

end Java

namespace CSharp

open Grammar

/-- The rules are told apart by the sign of a destructor. -/
def Apart (r r' : Rule) : Prop :=
  r = .destructorDeclaration ∧ (r' = .operatorDeclaration ∨ r' = .conversionDeclaration)

instance : DecidableRel Apart := fun _ _ => inferInstanceAs (Decidable (_ ∧ _))

theorem excludes_of_apart {r r' : Rule} (h : Apart r r') : grammar.Excludes r r' := by
  obtain ⟨rfl, hr'⟩ := h
  have hbegins : grammar.BeginsWith r' .modifiers ∧
      (grammar.tail r').begins (grammar.firsts 6) '~' = false := by
    rcases hr' with rfl | rfl <;> exact ⟨⟨rfl, rfl⟩, by decide⟩
  refine SnippetGrammar.excludes_of_tails ranked ⟨rfl, rfl⟩ hbegins.1 ?_
  intro v u x hv htail
  obtain ⟨_, hname, -⟩ := passes_both htail
  obtain ⟨y, rfl⟩ := passes_sign ranked hname rfl
  exact not_passes_of_begins ranked hbegins.2 hv

end CSharp

end FeatureTree
