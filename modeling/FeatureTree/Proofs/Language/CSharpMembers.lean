import FeatureTree.Proofs.Grammar.Beginnings
import FeatureTree.Proofs.Snippet.Alternatives

/-!
# Members of C# that exclude each other

All members of C# begin with modifiers. Behind these stands a word that is no name, the
sign of a destructor, the name of a constructor with its parenthesis, or a type; and
behind the type the name of an operator, a member or a variable, or the word of indexers.
What comes behind that name tells these members apart, except that a value may begin with
the second character of an arrow: where a property has an arrow behind its name, a field
can read an equals sign and a value (`arrow_of_field_property`).

The word of records is a name as well, so a type may be told from other members only where
this word does not stand behind the modifiers.
-/

namespace FeatureTree.CSharp

open Grammar

variable {r r' : Rule} {l : Layout} {s t u v w x y z : List Char} {c : Char}
  {f : Forest Rule} {words : List String}

/-! ## Words and names -/

/-- A character of a word. -/
def isWordChar (c : Char) : Bool := c.isAlphanum || c == '_'

theorem takesChar_identChar : grammar.TakesChar Rule.identChar isWordChar :=
  (takesChar_char _).either (takesChar_text '_')

/-- A name begins with it, if it does not begin with an at sign. -/
def beginsName (c : Char) : Bool := c.isAlpha || c == '_'

theorem takesChar_beginsName :
    grammar.TakesChar (Expr.choice [Lexical.letter, "_"]) beginsName :=
  (takesChar_char _).either (takesChar_text '_')

theorem isWordChar_of_beginsName (hc : beginsName c = true) : isWordChar c = true := by
  rw [beginsName, Bool.or_eq_true] at hc
  rw [isWordChar, Char.isAlphanum, Bool.or_eq_true, Bool.or_eq_true]
  exact hc.imp_left .inl

theorem keywords_chars : ∀ w ∈ Rule.keywords, ∀ c ∈ w.toList, isWordChar c = true := by
  decide +kernel

theorem keywords_longestFirst : LongestFirst Rule.keywords := by decide +kernel

/-- The rule is a word of a list. -/
abbrev IsWord (r : Rule) (words : List String) : Prop :=
  grammar.IsWord Rule.identChar r words

/-- A name is a run of word characters that is no keyword, perhaps behind an at sign. -/
theorem run_of_identifier (h : grammar.matchRule .identifier l s = some (t, f)) :
    ∃ v, (s = v ∨ s = '@' :: v) ∧ grammar.matchRule .keyword .token v = none ∧
      ∃ w, v = w ++ t ∧ (∀ c ∈ w, isWordChar c = true) ∧ ∀ c ∈ t.head?, isWordChar c = false := by
  obtain ⟨inner, hbody, -⟩ := (matchRule_eq_some_iff ranked).1 h
  obtain ⟨v, f₁, f₂, hat, hname, -⟩ := matchExpr_both_iff.1 hbody
  obtain ⟨hkeyword, c, w, -, hrun⟩ := run_of_name ranked takesChar_identChar rfl
    takesChar_beginsName (fun _ => isWordChar_of_beginsName) hname
  refine ⟨v, ?_, hkeyword, c :: w, hrun⟩
  obtain hat | ⟨-, rfl, -⟩ := matchExpr_opt_iff.1 hat
  · exact .inr (matchExpr_text_iff.1 hat).1
  · exact .inl rfl

/-- No word begins with another character than those of words. -/
theorem isWordChar_of_word (hr : IsWord r words) (hwords : ∀ w ∈ words, w ∈ Rule.keywords)
    (h : grammar.Passes (.rule r) (c :: s) u) : isWordChar c = true := by
  obtain ⟨t, f, hword, -⟩ := h
  obtain ⟨word, hmem, heq, -⟩ := hr.exists_word ranked takesChar_identChar hword
  have hne : ∀ w ∈ Rule.keywords, w.toList ≠ [] := by decide
  cases hchars : word.toList with
  | nil => exact absurd hchars (hne word (hwords word hmem))
  | cons d cs =>
      rw [hchars] at heq
      cases heq
      exact keywords_chars word (hwords word hmem) c (by rw [hchars]; exact List.mem_cons_self)

/-- A keyword is no name. -/
theorem not_identifier (hr : IsWord r words) (hwords : ∀ w ∈ words, w ∈ Rule.keywords)
    (h : grammar.Passes (.rule r) s u) : ¬ grammar.Passes (.rule .identifier) s v := by
  rintro ⟨t', f', hname, -⟩
  obtain ⟨v, rfl | rfl, hnone, -⟩ := run_of_identifier hname
  · obtain ⟨t, f, hword, -⟩ := h
    have hkeyword : (grammar.matchRule .keyword .token s).isSome = true :=
      hr.isSome_of_subset ⟨rfl, rfl⟩ ranked takesChar_identChar hwords keywords_chars
        keywords_longestFirst hword
    rw [hnone] at hkeyword
    cases hkeyword
  · cases isWordChar_of_word hr hwords h

theorem identifier_of_declName (h : grammar.Passes (.rule .declName) s u) :
    grammar.Passes (.rule .identifier) s u := passes_body ranked rfl h

/-- Two words at one place are the same. -/
theorem exists_common_word {words' : List String} (hr : IsWord r words) (hr' : IsWord r' words')
    (hwords : ∀ w ∈ words, w ∈ Rule.keywords)
    (hwords' : ∀ w ∈ words', ∀ c ∈ w.toList, isWordChar c = true)
    (h : grammar.Passes (.rule r) s u) (h' : grammar.Passes (.rule r') s v) :
    ∃ word ∈ words, word ∈ words' := by
  obtain ⟨t, f, hword, -⟩ := h
  obtain ⟨t', f', hword', -⟩ := h'
  exact (hr.unique hr' ranked takesChar_identChar (fun w hw => keywords_chars w (hwords w hw))
    hwords' hword hword').2

theorem isWord_primitive : IsWord .primitiveType Rule.primitiveTypes := ⟨rfl, rfl⟩

theorem isWord_void : IsWord .kwVoid ["void"] := ⟨rfl, rfl⟩

theorem isWord_indexer : IsWord .indexerName ["this"] := ⟨rfl, rfl⟩

theorem isWord_conversion : IsWord .conversionKind ["implicit", "explicit"] := ⟨rfl, rfl⟩

theorem isWord_class : IsWord .kwClass ["class"] := ⟨rfl, rfl⟩

theorem isWord_struct : IsWord .kwStruct ["struct"] := ⟨rfl, rfl⟩

theorem isWord_interface : IsWord .kwInterface ["interface"] := ⟨rfl, rfl⟩

theorem isWord_enum : IsWord .kwEnum ["enum"] := ⟨rfl, rfl⟩

theorem isWord_record : IsWord .kwRecord ["record"] := ⟨rfl, rfl⟩

/-- One predefined type has a name that is no keyword; it ends where the name ends. -/
theorem primitive_eq_name (h : grammar.Passes (.rule .primitiveType) s u)
    (hname : grammar.Passes (.rule .identifier) s v) : u = v := by
  obtain ⟨t', f', hidentifier, rfl⟩ := hname
  obtain ⟨w, rfl | rfl, -, run, rfl, hrun, hend⟩ := run_of_identifier hidentifier
  · obtain ⟨t, f, hword, rfl⟩ := h
    rw [isWord_primitive.eq_run ranked takesChar_identChar (by decide) hword hrun hend]
  · exact absurd h (not_passes_of_begins (n := 2) ranked (by decide) rfl)

/-! ## Types -/

/-- What may follow the first name of a class type. -/
def classTail : Expr Rule :=
  Expr.seq [.opt Rule.typeArguments,
    .star (.seq [.choice [".", "::"], Rule.identifier, .opt Rule.typeArguments])]

/-- What may follow a type without its question mark and ranks. -/
def typeTail : Expr Rule := Expr.seq [.opt "?", .star (.seq [Rule.rank, .opt "?"])]

theorem type_passes (h : grammar.Passes (.rule .typeRef) s u) :
    ∃ v, (grammar.Passes (.rule .tupleType) s v ∨ grammar.Passes (.rule .primitiveType) s v ∨
        ∃ x, grammar.Passes (.rule .identifier) s x ∧ grammar.Passes classTail x v) ∧
      grammar.Passes typeTail v u := by
  obtain ⟨v, hfirst, htail⟩ := passes_both (passes_body ranked rfl h)
  refine ⟨v, ?_, htail⟩
  rcases passes_either hfirst with htuple | hrest
  · exact .inl htuple
  rcases passes_either hrest with hprimitive | hclass
  · exact .inr (.inl hprimitive)
  · exact .inr (.inr (passes_both (passes_body ranked rfl hclass)))

/-- No type begins with a word that is neither a name nor a predefined type. -/
theorem not_typeRef (hr : IsWord r words) (hwords : ∀ w ∈ words, w ∈ Rule.keywords)
    (hprimitive : ∀ w ∈ words, w ∉ Rule.primitiveTypes)
    (h : grammar.Passes (.rule r) s u) : ¬ grammar.Passes (.rule .typeRef) s v := by
  intro htype
  obtain ⟨_, htuple | hword | ⟨x, hname, -⟩, -⟩ := type_passes htype
  · obtain ⟨y, rfl⟩ := passes_sign ranked htuple rfl
    cases isWordChar_of_word hr hwords h
  · obtain ⟨word, hmem, hmem'⟩ :=
      exists_common_word hr isWord_primitive hwords (by decide) h hword
    exact hprimitive word hmem hmem'
  · exact not_identifier hr hwords h hname

/-- A type that begins with a name ends behind it if a parenthesis follows. -/
theorem typeRef_eq_name (hname : grammar.Passes (.rule .identifier) s ('(' :: y))
    (h : grammar.Passes (.rule .typeRef) s u) : u = '(' :: y := by
  have hsame := hname.between ranked
  obtain ⟨v, hfirst, htail⟩ := type_passes h
  have hv : v = '(' :: y := by
    rcases hfirst with htuple | hprimitive | ⟨x, hname', hclass⟩
    · obtain ⟨y', rfl⟩ := passes_sign ranked htuple rfl
      exact absurd hname (not_passes_of_begins (n := 2) ranked (by decide) rfl)
    · exact primitive_eq_name hprimitive hname
    · cases hname.unique hname'
      exact passes_stays (n := 2) ranked hsame (by decide) hclass
  subst hv
  exact passes_stays (n := 2) ranked hsame (by decide) htail

/-- What stands in front of the name of a member: a type, or the word for none. -/
def Typed (s u : List Char) : Prop :=
  grammar.Passes (.rule .returnType) s u ∨ grammar.Passes (.rule .typeRef) s u

theorem Typed.void_or_typeRef (h : Typed s u) :
    grammar.Passes (.rule .kwVoid) s u ∨ grammar.Passes (.rule .typeRef) s u := by
  rcases h with hreturn | htype
  · exact passes_either (passes_body ranked rfl hreturn)
  · exact .inr htype

theorem Typed.unique (h : Typed s u) (h' : Typed s v) : u = v := by
  have hvoid : ∀ {u v}, grammar.Passes (.rule .kwVoid) s u →
      ¬ grammar.Passes (.rule .typeRef) s v := not_typeRef isWord_void (by decide) (by decide)
  rcases h.void_or_typeRef with h | h <;> rcases h'.void_or_typeRef with h' | h'
  · exact h.unique h'
  · exact absurd h' (hvoid h)
  · exact absurd h (hvoid h')
  · exact h.unique h'

theorem Typed.not_word (hr : IsWord r words) (hwords : ∀ w ∈ words, w ∈ Rule.keywords)
    (hprimitive : ∀ w ∈ words, w ∉ Rule.primitiveTypes ∧ w ≠ "void") (h : Typed s u) :
    ¬ grammar.Passes (.rule r) s v := by
  intro hword
  rcases h.void_or_typeRef with hvoid | htype
  · obtain ⟨word, hmem, hmem'⟩ :=
      exists_common_word hr isWord_void hwords (by decide) hword hvoid
    exact (hprimitive word hmem).2 (List.mem_singleton.1 hmem')
  · exact not_typeRef hr hwords (fun w hw => (hprimitive w hw).1) hword htype

theorem Typed.eq_name (hname : grammar.Passes (.rule .identifier) s ('(' :: y))
    (h : Typed s u) : u = '(' :: y := by
  rcases h.void_or_typeRef with hvoid | htype
  · exact absurd hname (not_identifier isWord_void (by decide) hvoid)
  · exact typeRef_eq_name hname htype

/-! ## Names of members -/

/-- Behind a name there is no qualifier unless a sign goes on with one. -/
theorem not_qualifier (hname : grammar.Passes (.rule .identifier) s x)
    (hx : ∀ c ∈ ['<', '.'], ∀ y, x ≠ c :: y) :
    ¬ grammar.Passes (.rule .interfaceQualifier) s u := by
  intro hqualifier
  obtain ⟨_, hfirst, -⟩ := passes_both (passes_body ranked rfl hqualifier)
  obtain ⟨x', hname', hmore⟩ := passes_both hfirst
  cases hname.unique hname'
  obtain ⟨z, harguments, hdot⟩ := passes_both hmore
  obtain ⟨y, hz⟩ := passes_text hdot
  rcases passes_opt (hname.between ranked) harguments with harguments | rfl
  · obtain ⟨y', rfl⟩ := passes_sign ranked harguments rfl
    exact hx '<' (by decide) y' rfl
  · exact hx '.' (by decide) y hz

theorem memberName_eq_name (hs : grammar.between .spaced s = s)
    (hname : grammar.Passes (.rule .identifier) s x) (hx : ∀ c ∈ ['<', '.'], ∀ y, x ≠ c :: y)
    (h : grammar.Passes (.rule .memberName) s u) : u = x := by
  obtain ⟨v, hqualifier, hdeclared⟩ := passes_both (passes_body ranked rfl h)
  rcases passes_opt hs hqualifier with hqualifier | rfl
  · exact absurd hqualifier (not_qualifier hname hx)
  · exact (identifier_of_declName hdeclared).unique hname

theorem takesChar_ws : grammar.TakesChar Lexical.ws
    fun c => c == ' ' || (c == '\t' || (c == '\r' || c == '\n')) :=
  (takesChar_text ' ').either ((takesChar_text '\t').either
    ((takesChar_text '\r').either (takesChar_text '\n')))

theorem not_isWordChar_of_ws :
    ∀ c, (c == ' ' || (c == '\t' || (c == '\r' || c == '\n'))) = true →
      isWordChar c = false := by
  intro c hc
  simp only [Bool.or_eq_true, beq_iff_eq] at hc
  rcases hc with rfl | rfl | rfl | rfl <;> rfl

/-- The symbol of an operator that begins like a word is a word. -/
theorem word_of_overloadableOp (h : grammar.matchRule .overloadableOp .token (c :: s) = some (t, f))
    (hc : isWordChar c = true) :
    ∃ word ∈ ["true", "false"], c :: s = word.toList ++ t ∧ ∀ c ∈ t.head?, isWordChar c = false := by
  obtain ⟨inner, hbody, -⟩ := (matchRule_eq_some_iff ranked).1 h
  obtain hword | ⟨-, hsymbol⟩ := matchExpr_either_iff.1 hbody
  · exact word_of_match takesChar_identChar hword
  · have hsymbols : ∀ symbol ∈ Rule.operatorSymbols,
        symbol.toList.head?.any isWordChar = false ∧ symbol.toList ≠ [] := by decide
    rw [Expr.oneOf, matchExpr_choice] at hsymbol
    obtain ⟨e, he, htext⟩ := List.exists_of_findSome?_eq_some hsymbol
    obtain ⟨symbol, hmem, rfl⟩ := List.mem_map.1 he
    obtain ⟨hhead, hne⟩ := hsymbols symbol hmem
    obtain ⟨hs, -⟩ := matchExpr_text_iff.1 htext
    cases hsigns : symbol.toList with
    | nil => exact absurd hsigns hne
    | cons d ds =>
        rw [hsigns] at hs hhead
        cases hs
        exact absurd hc (by simpa using hhead)

/-- The word of operators is a keyword where it stands alone. -/
theorem keyword_of_operator (hs : ∀ c ∈ s.head?, isWordChar c = false) :
    grammar.matchRule .keyword .token ("operator".toList ++ s) ≠ none := by
  have hmatch := match_of_word takesChar_identChar (by decide : "operator" ∈ Rule.keywords)
    (fun w hw _ _ => keywords_chars w hw) keywords_longestFirst hs
  rw [matchRule_eq ranked, Ne, Option.map_eq_none_iff]
  exact fun hnone => nomatch hnone.symm.trans hmatch

/-- In the name of an operator the word of operators stands alone, or a word follows it without
a blank. -/
theorem operatorName_cases (h : grammar.matchRule .operatorName l s = some (t, f)) :
    ∃ a, s = "operator".toList ++ a ∧ ((∀ c ∈ a.head?, isWordChar c = false) ∨
      ∃ word ∈ ["true", "false"], a = word.toList ++ t ∧ ∀ c ∈ t.head?, isWordChar c = false) := by
  obtain ⟨_, hbody, -⟩ := (matchRule_eq_some_iff ranked).1 h
  obtain ⟨a, _, _, hword, hrest, -⟩ := matchExpr_both_iff.1 hbody
  obtain ⟨b, _, _, hblanks, hsymbol, -⟩ := matchExpr_both_iff.1 hrest
  refine ⟨a, (matchExpr_text_iff.1 hword).1, ?_⟩
  cases a with
  | nil => exact .inl nofun
  | cons c a =>
      by_cases hc : isWordChar c = true
      · obtain ⟨blanks, hblank, hws, -⟩ := chars_of_star ranked takesChar_ws rfl hblanks
        have hb : b = c :: a := by
          cases blanks with
          | nil => exact hblank.symm
          | cons d blanks =>
              cases hblank
              cases (not_isWordChar_of_ws c (hws c List.mem_cons_self)).symm.trans hc
        subst hb
        exact .inr (word_of_overloadableOp hsymbol hc)
      · refine .inl ?_
        rintro _ ⟨⟩
        exact Bool.eq_false_iff.2 hc

/-- The word of operators is no name, but it is the front of one if the operator is a word
that follows without a blank. Then the name ends where the operator does. -/
theorem operatorName_eq_name (h : grammar.Passes (.rule .operatorName) s u)
    (hname : grammar.Passes (.rule .identifier) s v) : v = u := by
  obtain ⟨t, f, hoperator, rfl⟩ := h
  obtain ⟨t', f', hidentifier, rfl⟩ := hname
  obtain ⟨a, rfl, hcases⟩ := operatorName_cases hoperator
  obtain ⟨w, hw, hkeyword, run, rfl, hall, hend⟩ := run_of_identifier hidentifier
  have hrun : "operator".toList ++ a = run ++ t' := hw.resolve_right nofun
  rw [← hrun] at hkeyword
  rcases hcases with halone | ⟨word, hmem, rfl, ht⟩
  · exact absurd hkeyword (keyword_of_operator halone)
  · have hchars : ∀ word ∈ ["true", "false"], ∀ c ∈ "operator".toList ++ word.toList,
        isWordChar c = true := by decide
    rw [← List.append_assoc] at hrun
    rw [(run_unique hrun (hchars word hmem) hall ht hend).2]

/-! ## What stands behind the modifiers -/

/-- Behind the name of a constructor there is a parenthesis. -/
theorem constructor_passes (h : grammar.Passes (grammar.tail .constructorDeclaration) v u) :
    ∃ y, grammar.Passes (.rule .identifier) v ('(' :: y) := by
  obtain ⟨x, hname, hrest⟩ := passes_both h
  obtain ⟨_, hparameters, -⟩ := passes_both hrest
  obtain ⟨y, rfl⟩ := passes_sign ranked hparameters rfl
  exact ⟨y, identifier_of_declName hname⟩

theorem operator_passes (h : grammar.Passes (grammar.tail .operatorDeclaration) v u) :
    ∃ z y, Typed v z ∧ grammar.Passes (.rule .operatorName) z ('(' :: y) := by
  obtain ⟨z, htype, hrest⟩ := passes_both h
  obtain ⟨x, hname, hmore⟩ := passes_both hrest
  obtain ⟨_, hparameters, -⟩ := passes_both hmore
  obtain ⟨y, rfl⟩ := passes_sign ranked hparameters rfl
  exact ⟨z, y, .inl htype, hname⟩

/-- Behind the name of a method there are type parameters or a parenthesis. -/
theorem method_passes (h : grammar.Passes (grammar.tail .methodDeclaration) v u) :
    ∃ z c y, Typed v z ∧ grammar.Passes (.rule .memberName) z (c :: y) ∧ (c = '<' ∨ c = '(') := by
  obtain ⟨z, htype, hrest⟩ := passes_both h
  obtain ⟨x, hname, hmore⟩ := passes_both hrest
  obtain ⟨p, htypes, hlast⟩ := passes_both hmore
  rcases passes_opt (hname.between ranked) htypes with htypes | rfl
  · obtain ⟨y, rfl⟩ := passes_sign ranked htypes rfl
    exact ⟨z, '<', y, .inl htype, hname, .inl rfl⟩
  · obtain ⟨_, hparameters, -⟩ := passes_both hlast
    obtain ⟨y, rfl⟩ := passes_sign ranked hparameters rfl
    exact ⟨z, '(', y, .inl htype, hname, .inr rfl⟩

theorem indexer_passes (h : grammar.Passes (grammar.tail .indexerDeclaration) v u) :
    ∃ z x y, Typed v z ∧ grammar.Passes (.opt (.rule .interfaceQualifier)) z x ∧
      grammar.Passes (.rule .indexerName) x y := by
  obtain ⟨z, htype, hrest⟩ := passes_both h
  obtain ⟨x, hqualifier, hmore⟩ := passes_both hrest
  obtain ⟨y, hword, -⟩ := passes_both hmore
  exact ⟨z, x, y, .inr htype, hqualifier, hword⟩

/-- Behind the name of a property there is a brace or an arrow. -/
theorem property_passes (h : grammar.Passes (grammar.tail .propertyDeclaration) v u) :
    ∃ z x y, Typed v z ∧ grammar.Passes (.rule .memberName) z x ∧
      (x = '\x7b' :: y ∨ x = '=' :: '>' :: y) := by
  obtain ⟨z, htype, hrest⟩ := passes_both h
  obtain ⟨x, hname, hmore⟩ := passes_both hrest
  rcases passes_either hmore with hblock | harrow
  · obtain ⟨_, hbrace, -⟩ := passes_both hblock
    obtain ⟨y, rfl⟩ := passes_sign ranked hbrace rfl
    exact ⟨z, _, y, .inr htype, hname, .inl rfl⟩
  · obtain ⟨_, hsign, -⟩ := passes_both harrow
    obtain ⟨y, rfl⟩ := passes_text hsign
    exact ⟨z, _, y, .inr htype, hname, .inr rfl⟩

/-- Behind the name of a field there is a value, or a sign that ends the variable. -/
theorem field_passes (h : grammar.Passes (grammar.tail .fieldDeclaration) v u) :
    ∃ z x, grammar.Passes (.rule .typeRef) v z ∧ grammar.Passes (.rule .declName) z x ∧
      ∀ c ∈ ['(', '\x7b', '<', '.'], ∀ y, x ≠ c :: y := by
  obtain ⟨z, htype, hrest⟩ := passes_both h
  obtain ⟨p, hvariable, hend⟩ := passes_both hrest
  obtain ⟨x, hname, hmore⟩ := passes_both (passes_body ranked rfl hvariable)
  refine ⟨z, x, htype, hname, ?_⟩
  rintro c hc y rfl
  have hsigns : ∀ c ∈ ['(', '\x7b', '<', '.'],
      (Expr.opt (.seq ["=", Rule.initializer])).stays (grammar.firsts 2) c = true ∧
        (Expr.seq [.star (.seq [",", Rule.variableDeclarator]), ";"]).begins
          (grammar.firsts 2) c = false := by decide
  obtain ⟨hstays, hbegins⟩ := hsigns c hc
  cases passes_stays ranked (hname.between ranked) hstays hmore
  exact not_passes_of_begins ranked hbegins (hname.between ranked) hend

/-- A name of a member that is followed as the name of a field is, has no qualifier. -/
theorem memberName_eq_field (hz : grammar.between .spaced z = z)
    (hfield : grammar.Passes (.rule .declName) z x)
    (hsign : ∀ c ∈ ['(', '\x7b', '<', '.'], ∀ y, x ≠ c :: y)
    (h : grammar.Passes (.rule .memberName) z u) : u = x := by
  refine memberName_eq_name hz (identifier_of_declName hfield) (fun c hc => hsign c ?_) h
  have hsubset : ∀ c ∈ ['<', '.'], c ∈ ['(', '\x7b', '<', '.'] := by decide
  exact hsubset c hc

theorem Typed.between (h : Typed s u) : grammar.between .spaced u = u := by
  rcases h with h | h <;> exact Passes.between ranked h

/-! ## Words, signs and names that tell members apart -/

/-- The rules of members that begin with a type. -/
def typed : List Rule :=
  [.operatorDeclaration, .methodDeclaration, .indexerDeclaration, .propertyDeclaration,
    .fieldDeclaration]

/-- The rules of members that begin with a name or a type. -/
def named : List Rule := .constructorDeclaration :: typed

/-- The rules of members other than types. -/
def members : List Rule := .destructorDeclaration :: .conversionDeclaration :: named

/-- The rules of types that a keyword introduces. -/
def keywordTypes : List Rule := [.structDeclaration, .interfaceDeclaration, .enumDeclaration]

theorem members_begin : ∀ r ∈ members, grammar.BeginsWith r .modifiers := by
  have hspaced : ∀ r ∈ members, r.layout = .spaced := by decide
  intro r hr
  refine ⟨hspaced r hr, ?_⟩
  simp only [members, named, typed, List.mem_cons, List.not_mem_nil, or_false] at hr
  rcases hr with rfl | rfl | rfl | rfl | rfl | rfl | rfl | rfl <;> rfl

theorem typed_subset : ∀ r ∈ typed, r ∈ members := by decide

theorem named_subset : ∀ r ∈ named, r ∈ members := by decide

/-- Behind the type of a member there is no parenthesis. -/
theorem typed_passes (hr : r ∈ typed) (h : grammar.Passes (grammar.tail r) v u) :
    ∃ z, Typed v z ∧ ∀ y, z ≠ '(' :: y := by
  have hrest : ∀ {e : Expr Rule} {z}, Typed v z → grammar.Passes e z u →
      e.begins (grammar.firsts 6) '(' = false → ∃ z, Typed v z ∧ ∀ y, z ≠ '(' :: y := by
    rintro e z htype hmore hbegins
    refine ⟨z, htype, ?_⟩
    rintro y rfl
    exact not_passes_of_begins ranked hbegins htype.between hmore
  simp only [typed, List.mem_cons, List.not_mem_nil, or_false] at hr
  rcases hr with rfl | rfl | rfl | rfl | rfl
  all_goals obtain ⟨z, htype, hmore⟩ := passes_both h
  · exact hrest (.inl htype) hmore (by decide)
  · exact hrest (.inl htype) hmore (by decide)
  · exact hrest (.inr htype) hmore (by decide)
  · exact hrest (.inr htype) hmore (by decide)
  · exact hrest (.inr htype) hmore (by decide)

theorem named_not_word {kw : Rule} (hr : r ∈ named) (hkw : IsWord kw words)
    (hwords : ∀ w ∈ words, w ∈ Rule.keywords)
    (hprimitive : ∀ w ∈ words, w ∉ Rule.primitiveTypes ∧ w ≠ "void")
    (h : grammar.Passes (grammar.tail r) v u) : ¬ grammar.Passes (.rule kw) v x := by
  intro hword
  rcases List.mem_cons.1 hr with rfl | hr
  · obtain ⟨y, hname⟩ := constructor_passes h
    exact not_identifier hkw hwords hword hname
  · obtain ⟨z, htype, -⟩ := typed_passes hr h
    exact htype.not_word hkw hwords hprimitive hword

/-- The words that introduce types, records apart. -/
def typeWords : List String := ["class", "struct", "interface", "enum"]

theorem member_not_typeWord {kw : Rule} {word : String} (hr : r ∈ members) (hkw : IsWord kw [word])
    (hword : word ∈ typeWords) (h : grammar.Passes (grammar.tail r) v u) :
    ¬ grammar.Passes (.rule kw) v x := by
  intro htypeWord
  have hwords : ∀ word ∈ typeWords, word ∈ Rule.keywords ∧
      (word ∉ Rule.primitiveTypes ∧ word ≠ "void") ∧ word ∉ ["implicit", "explicit"] := by decide
  obtain ⟨hkeyword, hprimitive, hconversion⟩ := hwords word hword
  rcases List.mem_cons.1 hr with rfl | hr
  · obtain ⟨_, hname, -⟩ := passes_both h
    obtain ⟨y, rfl⟩ := passes_sign ranked hname rfl
    cases isWordChar_of_word hkw (by simpa using hkeyword) htypeWord
  rcases List.mem_cons.1 hr with rfl | hr
  · obtain ⟨_, hkind, -⟩ := passes_both h
    obtain ⟨_, hmem, hmem'⟩ :=
      exists_common_word hkw isWord_conversion (by simpa using hkeyword) (by decide) htypeWord hkind
    cases List.mem_singleton.1 hmem
    exact hconversion hmem'
  · exact named_not_word hr hkw (by simpa using hkeyword) (by simpa using hprimitive) h htypeWord

/-- A name in front of a parenthesis that is also the name of an operator has no qualifier. -/
theorem operator_not_qualifier (h : grammar.Passes (.rule .operatorName) z ('(' :: y)) :
    ¬ grammar.Passes (.rule .interfaceQualifier) z u := by
  intro hqualifier
  obtain ⟨_, hfirst, -⟩ := passes_both (passes_body ranked rfl hqualifier)
  obtain ⟨x, hname, -⟩ := passes_both hfirst
  cases operatorName_eq_name h hname
  have hsigns : ∀ c ∈ ['<', '.'], '(' ≠ c := by decide
  exact not_qualifier hname (fun c hc _ heq => hsigns c hc (List.cons.inj heq).1) hqualifier

/-! ## Members that exclude each other -/

theorem member_excludes_keywordType (hr : r ∈ members) (hr' : r' ∈ keywordTypes) :
    grammar.Excludes r r' := by
  simp only [keywordTypes, List.mem_cons, List.not_mem_nil, or_false] at hr'
  rcases hr' with rfl | rfl | rfl
  all_goals
    refine SnippetGrammar.excludes_of_tails ranked (members_begin r hr) ⟨rfl, rfl⟩ ?_
    intro v u x hv htail htail'
    obtain ⟨_, hword, -⟩ := passes_both htail'
  · exact member_not_typeWord hr isWord_struct (by decide) htail hword
  · exact member_not_typeWord hr isWord_interface (by decide) htail hword
  · exact member_not_typeWord hr isWord_enum (by decide) htail hword

/-- Where the word of records does not stand behind the modifiers, no class is read from
what another member is read from. -/
theorem member_excludes_class (hr : r ∈ members)
    (hmatch : (grammar.matchRule r .spaced s).isSome = true)
    (hrecord : ∀ {v x}, grammar.Passes (.rule .modifiers) s v →
      ¬ grammar.Passes (.rule .kwRecord) v x) :
    grammar.matchRule .classDeclaration .spaced s = none := by
  refine SnippetGrammar.match_none_of_tails ranked (members_begin r hr) ⟨rfl, rfl⟩ hmatch ?_
  intro v u x hv htail htail'
  obtain ⟨_, hword, -⟩ := passes_both htail'
  rcases passes_either hword with hclass | hword
  · exact member_not_typeWord hr isWord_class (by decide) htail hclass
  · exact hrecord hv hword

theorem member_excludes_destructor (hr : r ∈ members) (hne : r ≠ .destructorDeclaration) :
    grammar.Excludes r .destructorDeclaration := by
  have hbegins : ∀ r ∈ members, r ≠ .destructorDeclaration →
      (grammar.tail r).begins (grammar.firsts 6) '~' = false := by decide
  refine SnippetGrammar.excludes_of_tails ranked (members_begin r hr) ⟨rfl, rfl⟩ ?_
  intro v u x hv htail htail'
  obtain ⟨_, hname, -⟩ := passes_both htail'
  obtain ⟨y, rfl⟩ := passes_sign ranked hname rfl
  exact not_passes_of_begins ranked (hbegins r hr hne) hv htail

theorem named_excludes_conversion (hr : r ∈ named) :
    grammar.Excludes r .conversionDeclaration := by
  refine SnippetGrammar.excludes_of_tails ranked (members_begin r (named_subset r hr)) ⟨rfl, rfl⟩ ?_
  intro v u x hv htail htail'
  obtain ⟨_, hkind, -⟩ := passes_both htail'
  exact named_not_word hr isWord_conversion (by decide) (by decide) htail hkind

theorem typed_excludes_constructor (hr : r ∈ typed) :
    grammar.Excludes r .constructorDeclaration := by
  refine SnippetGrammar.excludes_of_tails ranked (members_begin r (typed_subset r hr)) ⟨rfl, rfl⟩ ?_
  intro v u x hv htail htail'
  obtain ⟨z, htype, hz⟩ := typed_passes hr htail
  obtain ⟨y, hname⟩ := constructor_passes htail'
  exact hz y (htype.eq_name hname)

theorem indexer_excludes_operator :
    grammar.Excludes .indexerDeclaration .operatorDeclaration := by
  refine SnippetGrammar.excludes_of_tails ranked ⟨rfl, rfl⟩ ⟨rfl, rfl⟩ ?_
  intro v u x hv htail htail'
  obtain ⟨z, w, _, htype, hqualifier, hword⟩ := indexer_passes htail
  obtain ⟨z', y, htype', hoperator⟩ := operator_passes htail'
  cases htype.unique htype'
  rcases passes_opt htype.between hqualifier with hqualifier | rfl
  · exact operator_not_qualifier hoperator hqualifier
  · obtain ⟨t, f, hmatch, -⟩ := hword
    obtain ⟨word, hmem, rfl, -⟩ := isWord_indexer.exists_word ranked takesChar_identChar hmatch
    cases List.mem_singleton.1 hmem
    exact not_passes_of_begins (n := 6) ranked (by decide) htype.between hoperator

theorem property_excludes_operator :
    grammar.Excludes .propertyDeclaration .operatorDeclaration := by
  refine SnippetGrammar.excludes_of_tails ranked ⟨rfl, rfl⟩ ⟨rfl, rfl⟩ ?_
  intro v u x hv htail htail'
  obtain ⟨z, w, _, htype, hname, hsign⟩ := property_passes htail
  obtain ⟨z', y, htype', hoperator⟩ := operator_passes htail'
  cases htype.unique htype'
  obtain ⟨p, hqualifier, hdeclared⟩ := passes_both (passes_body ranked rfl hname)
  rcases passes_opt htype.between hqualifier with hqualifier | rfl
  · exact operator_not_qualifier hoperator hqualifier
  · cases operatorName_eq_name hoperator (identifier_of_declName hdeclared)
    rcases hsign with hsign | hsign <;> cases hsign

theorem field_excludes_operator : grammar.Excludes .fieldDeclaration .operatorDeclaration := by
  refine SnippetGrammar.excludes_of_tails ranked ⟨rfl, rfl⟩ ⟨rfl, rfl⟩ ?_
  intro v u x hv htail htail'
  obtain ⟨z, w, htype, hname, hsign⟩ := field_passes htail
  obtain ⟨z', y, htype', hoperator⟩ := operator_passes htail'
  cases Typed.unique (.inr htype) htype'
  exact hsign '(' (by decide) y (operatorName_eq_name hoperator (identifier_of_declName hname))

theorem indexer_excludes_method : grammar.Excludes .indexerDeclaration .methodDeclaration := by
  refine SnippetGrammar.excludes_of_tails ranked ⟨rfl, rfl⟩ ⟨rfl, rfl⟩ ?_
  intro v u x hv htail htail'
  obtain ⟨z, w, _, htype, hqualifier, hword⟩ := indexer_passes htail
  obtain ⟨z', c, y, htype', hname, -⟩ := method_passes htail'
  cases htype.unique htype'
  obtain ⟨p, hqualifier', hdeclared⟩ := passes_both (passes_body ranked rfl hname)
  cases hqualifier.unique hqualifier'
  exact not_identifier isWord_indexer (by decide) hword (identifier_of_declName hdeclared)

theorem property_excludes_method : grammar.Excludes .propertyDeclaration .methodDeclaration := by
  refine SnippetGrammar.excludes_of_tails ranked ⟨rfl, rfl⟩ ⟨rfl, rfl⟩ ?_
  intro v u x hv htail htail'
  obtain ⟨z, w, _, htype, hname, hsign⟩ := property_passes htail
  obtain ⟨z', c, y, htype', hname', hc⟩ := method_passes htail'
  cases htype.unique htype'
  cases hname.unique hname'
  rcases hsign with hsign | hsign <;> cases hsign <;> rcases hc with hc | hc <;> cases hc

theorem field_excludes_method : grammar.Excludes .fieldDeclaration .methodDeclaration := by
  refine SnippetGrammar.excludes_of_tails ranked ⟨rfl, rfl⟩ ⟨rfl, rfl⟩ ?_
  intro v u x hv htail htail'
  obtain ⟨z, w, htype, hname, hsign⟩ := field_passes htail
  obtain ⟨z', c, y, htype', hname', hc⟩ := method_passes htail'
  cases Typed.unique (.inr htype) htype'
  have hw := memberName_eq_field htype'.between hname hsign hname'
  rcases hc with rfl | rfl <;> exact hsign _ (by decide) y hw.symm

theorem field_excludes_indexer : grammar.Excludes .fieldDeclaration .indexerDeclaration := by
  refine SnippetGrammar.excludes_of_tails ranked ⟨rfl, rfl⟩ ⟨rfl, rfl⟩ ?_
  intro v u x hv htail htail'
  obtain ⟨z, w, htype, hname, hsign⟩ := field_passes htail
  obtain ⟨z', p, _, htype', hqualifier, hword⟩ := indexer_passes htail'
  cases Typed.unique (.inr htype) htype'
  have hidentifier := identifier_of_declName hname
  rcases passes_opt htype'.between hqualifier with hqualifier | rfl
  · have hsubset : ∀ c ∈ ['<', '.'], c ∈ ['(', '\x7b', '<', '.'] := by decide
    exact not_qualifier hidentifier (fun c hc => hsign c (hsubset c hc)) hqualifier
  · exact not_identifier isWord_indexer (by decide) hword hidentifier

/-- A field and a property are read from one place only where an arrow stands behind the
name: the field reads an equals sign and a value that begins with the rest of the arrow. -/
theorem arrow_of_field_property
    (hfield : (grammar.matchRule .fieldDeclaration .spaced s).isSome = true)
    (hproperty : (grammar.matchRule .propertyDeclaration .spaced s).isSome = true) :
    ∃ v z y, grammar.Passes (.rule .modifiers) s v ∧ grammar.Passes (.rule .typeRef) v z ∧
      grammar.Passes (.rule .declName) z ('=' :: '>' :: y) := by
  obtain ⟨u, hpasses⟩ := passes_of_matchRule hfield
  obtain ⟨u', hpasses'⟩ := passes_of_matchRule hproperty
  obtain ⟨v, hv, htail⟩ := (members_begin _ (by decide)).passes ranked hpasses
  obtain ⟨v', hv', htail'⟩ := (members_begin _ (by decide)).passes ranked hpasses'
  cases hv.unique hv'
  obtain ⟨z, w, htype, hname, hsign⟩ := field_passes htail
  obtain ⟨z', w', y, htype', hname', hw'⟩ := property_passes htail'
  cases Typed.unique (.inr htype) htype'
  cases memberName_eq_field htype'.between hname hsign hname'
  rcases hw' with rfl | rfl
  · exact absurd rfl (hsign '\x7b' (by decide) y)
  · exact ⟨v, z, y, hv, htype, hname⟩

/-- The rules are told apart by what stands behind the modifiers. -/
def ToldApart (r r' : Rule) : Prop :=
  r ∈ members ∧ r' ∈ keywordTypes ∨
    (r ∈ members ∧ r ≠ .destructorDeclaration) ∧ r' = .destructorDeclaration ∨
    r ∈ named ∧ r' = .conversionDeclaration ∨
    r ∈ typed ∧ r' = .constructorDeclaration ∨
    r = .constructorDeclaration ∧ r' = .operatorDeclaration ∨
    (r = .indexerDeclaration ∨ r = .propertyDeclaration ∨ r = .fieldDeclaration) ∧
      (r' = .operatorDeclaration ∨ r' = .methodDeclaration) ∨
    r = .fieldDeclaration ∧ r' = .indexerDeclaration

instance : DecidableRel ToldApart := fun _ _ => inferInstanceAs (Decidable (_ ∨ _))

theorem excludes_of_toldApart (h : ToldApart r r') : grammar.Excludes r r' := by
  rcases h with ⟨hr, hr'⟩ | ⟨⟨hr, hne⟩, rfl⟩ | ⟨hr, rfl⟩ | ⟨hr, rfl⟩ | ⟨rfl, rfl⟩ | ⟨hr, hr'⟩ |
    ⟨rfl, rfl⟩
  · exact member_excludes_keywordType hr hr'
  · exact member_excludes_destructor hr hne
  · exact named_excludes_conversion hr
  · exact typed_excludes_constructor hr
  · exact (typed_excludes_constructor (by decide)).symm
  · rcases hr with rfl | rfl | rfl <;> rcases hr' with rfl | rfl
    · exact indexer_excludes_operator
    · exact indexer_excludes_method
    · exact property_excludes_operator
    · exact property_excludes_method
    · exact field_excludes_operator
    · exact field_excludes_method
  · exact field_excludes_indexer

end FeatureTree.CSharp
