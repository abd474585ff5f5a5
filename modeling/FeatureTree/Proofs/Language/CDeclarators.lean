import FeatureTree.Proofs.Language.Declarators

/-!
# Declarators of C
-/

namespace FeatureTree

open scoped Tokens

namespace C

open Grammar SnippetGrammar

variable {v w s t : List Char} {c : Char}

theorem spaced : grammar.Spaced where
  ranked := ranked
  layout := regular.layout
  blank s h := by
    show (Text.blank? _).or _ = _
    rw [Text.blank?, if_pos h]
    rfl
  solid := by
    intro c s hblank hc
    have hsigns : c ≠ '/' ∧ c ≠ '#' ∧ c ≠ '\\' := by simpa using hc
    have hjoined : Text.joinedLine? (c :: s) = none := by
      rw [Text.joinedLine?]
      rintro _ heq
      exact hsigns.2.2 (List.cons.inj heq).1
    have hdirective : Text.joinedDirective? (c :: s) = none := by
      rw [Text.joinedDirective?]
      rintro _ heq
      exact hsigns.2.1 (List.cons.inj heq).1
    have hnone : trivia.blank (c :: s) = none := by
      show (Text.blank? _).or _ = _
      rw [Text.blank?, if_neg (by rw [hblank]; decide), hjoined]
      rfl
    show trivia.piece? (c :: s) = none
    rw [Trivia.piece?, hnone]
    show (Lexical.comment _).or _ = none
    rw [Lexical.comment_eq_none hsigns.1, Option.none_or, hdirective]

theorem readsValues : grammar.ReadsValues group .groupPiece literals .declaratorBoundary .initPiece where
  toBalances := balances
  literal := by
    intro w s hne hw hs
    refine List.findSome?_eq_none_iff.2 fun r hr => (leaves_rule ranked ?_ _).trans ?_
    · revert r
      decide
    · obtain ⟨c, u, rfl⟩ := List.exists_cons_of_ne_nil hne
      have hc := hw c List.mem_cons_self
      simp only [List.mem_cons, List.not_mem_nil, or_false, not_or] at hc
      simp only [literals, List.mem_cons, List.not_mem_nil, or_false] at hr
      rcases hr with rfl | rfl | rfl
      · exact leaves_prefixed_none (leaves_opt (leaves_oneOf ["L", "u8", "u", "U"])) (by decide)
          (by decide) hne hw hs
      · exact leaves_prefixed_none (leaves_opt (leaves_oneOf ["L", "u", "U"])) (by decide)
          (by decide) hne hw hs
      · exact leaves_commentText_none hc.2.2 _
  signs_begin := by decide
  boundary_begins s hc := (leaves_rule ranked rfl _).trans (leaves_sign_none hc _ s _)
  layout_initPiece := rfl
  body_initPiece := rfl
  consumes_initPiece := rfl

/-- What a declarator declares. -/
def declared : Expr Rule := .both (.rule .declarator) (.star (.rule .attributeSpec))

theorem readsDeclarators : grammar.ReadsDeclarators group .groupPiece literals .declaratorBoundary
    .initPiece .initializer .initDeclarator declared where
  toReadsValues := readsValues
  spaced := spaced
  layout_init := rfl
  role_init := rfl
  body_init := rfl
  layout_declarator := rfl
  role_declarator := rfl
  body_declarator _ := matchExpr_assoc.symm

/-- The text is a name, and none of the words that some compilers know besides the keywords. -/
def isName (w : List Char) : Bool :=
  Grammar.isName beginsName isWordChar ("__inline" :: "__restrict" :: Rule.keywords) w

theorem isName_plain (hw : isName w = true) :
    Grammar.isName beginsName isWordChar Rule.keywords w = true := by
  obtain ⟨hhead, hchars, hwords⟩ := isName_iff.1 hw
  exact isName_iff.2 ⟨hhead, hchars, fun word hword => hwords word (by simp [hword])⟩

theorem isWord_keyword : grammar.IsWord Rule.identChar .keyword Rule.keywords := ⟨rfl, rfl⟩

theorem keywords_chars : ∀ w ∈ Rule.keywords, ∀ c ∈ w.toList, isWordChar c = true := by decide

theorem keywords_longestFirst : LongestFirst Rule.keywords := by decide

/-- What is no keyword is read as a name. -/
theorem reads_plain (hw : Grammar.isName beginsName isWordChar Rule.keywords w = true) :
    grammar.ReadsName isWordChar .identifier w := by
  obtain ⟨⟨c, v, rfl, hc⟩, hchars, -⟩ := isName_iff.1 hw
  refine ⟨⟨c, v, rfl, isSolid_of_class beginsName (by decide) hc⟩, fun t ht => ?_⟩
  rw [leaves_rule ranked rfl]
  refine leaves_eq_some_iff.2 ⟨.nil, match_of_name ranked takesChar_identChar rfl
    takesChar_beginsName isWord_keyword keywords_chars hw ?_⟩
  exact Spelled.head_of_apart hchars (List.cons_ne_nil c v) ht

theorem readsName (hw : isName w = true) : grammar.ReadsName isWordChar .identifier w :=
  reads_plain (isName_plain hw)

/-- A keyword is not read as a name. -/
theorem leaves_keyword_none {word : String} (hword : word ∈ Rule.keywords)
    (ht : ∀ c ∈ t.head?, isWordChar c = false) :
    grammar.leaves (.rule .identifier) (word.toList ++ t) = none := by
  have hmatch : grammar.leaves (.rule .keyword) (word.toList ++ t) = some t := by
    rw [leaves_rule ranked isWord_keyword.1, isWord_keyword.2]
    exact leaves_eq_some_iff.2 ⟨.nil, match_of_word takesChar_identChar hword
      (fun w hw _ _ => keywords_chars w hw) keywords_longestFirst ht⟩
  rw [leaves_rule ranked rfl]
  show grammar.leaves (.both (.notAhead (.rule .keyword)) _) _ = none
  rw [leaves_both, leaves_notAhead, hmatch]
  rfl

/-! ## Forms -/

/-- The words that attributes begin with. -/
def attributeWords : List String := ["__attribute__", "__declspec"]

/-- A group with brackets of the kind. -/
abbrev GroupText (b : Bracket) := { w : List Char // grammar.IsGroup group b w }

/-- An attribute: its word, and a group in parentheses. -/
structure Attribute where
  word : { word : String // word ∈ attributeWords }
  arguments : GroupText .paren

/-- What may stand behind the star of a pointer. -/
inductive Mark
  | qualifier (word : { word : String // word ∈ Rule.typeQualifiers })
  | specifier (a : Attribute)

/-- What may stand behind what is declared. -/
inductive Suffix
  | array (w : GroupText .square)
  | parameters (w : GroupText .paren)

/-- What may be declared: a name, or a declarator in parentheses. -/
inductive Form
  | named (pointers : List (List Mark)) (name : { w : List Char // isName w = true })
      (suffixes : List Suffix)
  | nested (pointers : List (List Mark)) (attributes : List Attribute) (inner : Form)
      (suffixes : List Suffix)

/-- What is declared, with the attributes behind it. -/
structure Declared where
  form : Form
  attributes : List Attribute

def Attribute.tokens (a : Attribute) : List (List Char) := [a.word.1.toList, a.arguments.1]

def Mark.tokens : Mark → List (List Char)
  | qualifier word => [word.1.toList]
  | specifier a => a.tokens

/-- A pointer is a star with its marks. -/
def pointerTokens (marks : List Mark) : List (List Char) := ['*'] :: marks.flatMap Mark.tokens

def Suffix.tokens : Suffix → List (List Char)
  | array w => [w.1]
  | parameters w => [w.1]

def Suffix.isArray : Suffix → Bool
  | array _ => true
  | parameters _ => false

namespace Form

def tokens : Form → List (List Char)
  | named pointers name suffixes =>
    pointers.flatMap pointerTokens ++ ([name.1] ++ suffixes.flatMap Suffix.tokens)
  | nested pointers attributes inner suffixes =>
    pointers.flatMap pointerTokens ++
      (['('] :: (attributes.flatMap Attribute.tokens ++ (inner.tokens ++ [[')']])) ++
        suffixes.flatMap Suffix.tokens)

/-- The name that is declared. -/
def name : Form → List Char
  | named _ name _ => name.1
  | nested _ _ inner _ => inner.name

end Form

namespace Declared

def tokens (d : Declared) : List (List Char) :=
  d.form.tokens ++ d.attributes.flatMap Attribute.tokens

def name (d : Declared) : List Char := d.form.name

/-- The boundary knows names with stars in front of them and arrays behind. -/
def isSeen : Declared → Bool
  | ⟨.named pointers _ suffixes, attributes⟩ =>
    pointers.all List.isEmpty && suffixes.all Suffix.isArray && attributes.isEmpty
  | ⟨.nested .., _⟩ => false

end Declared

/-! ## What declarators are read as -/

/-- A declarator begins with the token. -/
def Opens (token : List Char) : Prop := token = ['*'] ∨ token = ['('] ∨ isName token = true

variable {rest : List (List Char)} {token : List Char} {r : Rule} {words : List String}

theorem isToken_of_chars (hne : w ≠ []) (hw : ∀ c ∈ w, isWordChar c = true) : IsToken w := by
  obtain ⟨c, v, rfl⟩ := List.exists_cons_of_ne_nil hne
  exact ⟨c, v, rfl, isSolid_of_class isWordChar (by decide) (hw c List.mem_cons_self)⟩

theorem attributeWord_chars :
    ∀ word ∈ attributeWords, word.toList ≠ [] ∧ ∀ c ∈ word.toList, isWordChar c = true := by decide

theorem qualifier_chars :
    ∀ word ∈ Rule.typeQualifiers, word.toList ≠ [] ∧ ∀ c ∈ word.toList, isWordChar c = true := by
  decide

theorem Opens.isToken (h : Opens token) : IsToken token := by
  rcases h with rfl | rfl | hw
  · exact ⟨'*', [], rfl, by decide⟩
  · exact ⟨'(', [], rfl, by decide⟩
  · exact (readsName hw).1

theorem head_ne_of_name {d : Char} (hw : isName w = true) (hd : beginsName d = false) :
    ∀ c ∈ w.head?, c ≠ d := by
  obtain ⟨⟨c, u, rfl, hc⟩, -, -⟩ := isName_iff.1 hw
  rintro _ ⟨⟩ rfl
  rw [hd] at hc
  cases hc

/-- No word of the grammar begins a declarator. -/
theorem Opens.refuses_word (h : Opens token) (hr : grammar.IsWord Rule.identChar r words)
    (hwords : ∀ word ∈ words, word ∈ "__inline" :: "__restrict" :: Rule.keywords)
    (hsigns : ∀ c ∈ ['*', '('], grammar.firsts 1 r c = false) :
    grammar.Refuses isWordChar (.rule r) (token :: rest) := by
  rcases h with rfl | rfl | hw
  · exact refuses_of_begins (n := 1) spaced (Opens.isToken (.inl rfl)) (by
      rintro _ ⟨⟩
      exact hsigns '*' (by simp))
  · exact refuses_of_begins (n := 1) spaced (Opens.isToken (.inr (.inl rfl))) (by
      rintro _ ⟨⟩
      exact hsigns '(' (by simp))
  · obtain ⟨-, hchars, hnot⟩ := isName_iff.1 hw
    have hkeywords : ∀ word ∈ "__inline" :: "__restrict" :: Rule.keywords, ∀ c ∈ word.toList,
        isWordChar c = true := by decide
    exact SnippetGrammar.refuses_word spaced hr takesChar_identChar
      (fun v hv => hkeywords v (hwords v hv)) (readsName hw).1 hchars
      fun word hword => hnot word (hwords word hword)

/-- Behind the word of an attribute there are parentheses, so a name is none that begins so. -/
theorem refuses_attributeSpec (hw : isName w = true) :
    grammar.Refuses isWordChar (.rule .attributeSpec) (w :: rest) := by
  intro s hs
  obtain ⟨htoken, -⟩ := readsName hw
  obtain ⟨⟨c, u, rfl, -⟩, hchars, hnot⟩ := isName_iff.1 hw
  obtain ⟨t, ht, -, hapart⟩ := hs.between spaced htoken
  have hend := Spelled.head_of_apart hchars (List.cons_ne_nil c u) hapart
  rw [ht]
  refine match_none_of_leaves ranked rfl .spaced ?_
  rw [leaves_rule ranked rfl]
  show grammar.leaves (.both (.oneOf attributeWords) (.both (.star Lexical.ws) _)) _ = none
  rw [leaves_both]
  cases hword : grammar.leaves (.oneOf attributeWords) (c :: u ++ t) with
  | none => rfl
  | some v =>
      obtain ⟨_, hmap, heq⟩ := leaves_oneOf _ _ _ hword
      obtain ⟨word, hmem, rfl⟩ := List.mem_map.1 hmap
      have hne : word.toList ≠ c :: u := by
        have hkeyword : ∀ word ∈ attributeWords, word ∈ Rule.keywords := by decide
        exact hnot word (by simp [hkeyword word hmem])
      obtain ⟨d, z, rfl, hd⟩ : ∃ d z, v = d :: z ∧ isWordChar d = true := by
        obtain ⟨a, ha, hv⟩ | ⟨a, ha, hv⟩ := List.append_eq_append_iff.1 heq
        · cases a with
          | nil => exact absurd (by simpa using ha) hne
          | cons d a =>
              have hd := (attributeWord_chars word hmem).2 d (by rw [ha]; simp)
              rw [hend d (by rw [hv]; rfl)] at hd
              cases hd
        · cases a with
          | nil => exact absurd (by simpa using ha.symm) hne
          | cons d a => exact ⟨d, a ++ t, hv, hchars d (by rw [ha]; simp)⟩
      have hsolid : IsSolid d := isSolid_of_class isWordChar (by decide) hd
      have hspaces : grammar.leaves (.star Lexical.ws) ([] ++ d :: z) = some (d :: z) :=
        leaves_spaces ranked (by simp) (by rintro _ ⟨⟩; exact hsolid)
      rw [List.nil_append] at hspaces
      rw [Option.bind_some, leaves_both, hspaces, Option.bind_some]
      exact balances.leaves_group_of_ne (b := .paren) (by rintro rfl; cases hd)

theorem Opens.refuses_attributeSpec (h : Opens token) :
    grammar.Refuses isWordChar (.rule .attributeSpec) (token :: rest) := by
  rcases h with rfl | rfl | hw
  · exact refuses_of_begins (n := 1) spaced (Opens.isToken (.inl rfl)) (by decide)
  · exact refuses_of_begins (n := 1) spaced (Opens.isToken (.inr (.inl rfl))) (by decide)
  · exact C.refuses_attributeSpec hw

theorem takes_group {b : Bracket} (hb : b ≠ .brace) (w : GroupText b) :
    grammar.Takes isWordChar (.rule (group b)) [w.1] [] rest := by
  obtain ⟨w, ⟨v, rfl⟩, hleaves⟩ := w
  refine takes_token spaced (balances.layout_group b) ?_ ?_ ⟨b.opener, v, rfl, ?_⟩
    fun t _ => hleaves t
  all_goals cases b <;> first | exact absurd rfl hb | decide

theorem takes_attribute (a : Attribute) :
    grammar.Takes isWordChar (.rule .attributeSpec) a.tokens [] rest := by
  obtain ⟨⟨word, hword⟩, ⟨w, ⟨v, rfl⟩, hgroup⟩⟩ := a
  intro s hs
  have htoken : IsToken word.toList :=
    isToken_of_chars (attributeWord_chars word hword).1 (attributeWord_chars word hword).2
  have hfirst : ∀ x, grammar.leaves (.oneOf attributeWords) (word.toList ++ x) = some x := by
    simp only [attributeWords, List.mem_cons, List.not_mem_nil, or_false] at hword
    rcases hword with rfl | rfl <;> exact fun _ => rfl
  cases hs with
  | @cons gap _ s _ hgap hapart hs =>
      cases hs with
      | @cons gap' _ t _ hgap' _ ht =>
          have hleaves : grammar.leaves (.rule .attributeSpec)
              (word.toList ++ (gap' ++ (Bracket.paren.opener :: v ++ t))) = some t := by
            rw [leaves_rule ranked rfl]
            show grammar.leaves (.both (.oneOf attributeWords) (.both (.star Lexical.ws) _)) _ = _
            rw [leaves_both, hfirst, Option.bind_some, leaves_both,
              leaves_spaces ranked hgap' (by rintro _ ⟨⟩; decide), Option.bind_some]
            exact hgroup t
          obtain ⟨f, hmatch⟩ := match_of_leaves ranked rfl .spaced hleaves
          refine ⟨t, t, f, ht, ?_, rfl, names_token spaced.layout rfl (by decide) hmatch,
            bodies_token spaced.layout rfl (by decide) hmatch⟩
          exact (congrArg _ (between_gap spaced hgap htoken.head)).trans hmatch

theorem takes_attributes (attributes : List Attribute)
    (hstop : grammar.Refuses isWordChar (.rule .attributeSpec) rest) :
    grammar.Takes isWordChar (.star (.rule .attributeSpec))
      (attributes.flatMap Attribute.tokens) [] rest :=
  (TakesRounds.flatMap fun a _ _ => takes_attribute a).star spaced rfl hstop

theorem isWord_qualifier : grammar.IsWord Rule.identChar .typeQualifier Rule.typeQualifiers :=
  ⟨rfl, rfl⟩

/-- What may stand behind the star of a pointer. -/
def mark : Expr Rule := .choice [.rule .typeQualifier, .rule .attributeSpec]

/-- The word of an attribute is no word of another rule. -/
theorem refuses_attributeWord (hr : grammar.IsWord Rule.identChar r words)
    (hwords : ∀ word ∈ words, (∀ c ∈ word.toList, isWordChar c = true) ∧ word ∉ attributeWords)
    (a : Attribute) : grammar.Refuses isWordChar (.rule r) (a.tokens ++ rest) := by
  obtain ⟨⟨word, hword⟩, w⟩ := a
  obtain ⟨hne, hchars⟩ := attributeWord_chars word hword
  refine SnippetGrammar.refuses_word spaced hr takesChar_identChar (fun v hv => (hwords v hv).1)
    (isToken_of_chars hne hchars) hchars fun v hv heq => (hwords v hv).2 ?_
  rwa [String.toList_inj.1 heq]

theorem takes_mark (m : Mark) : grammar.Takes isWordChar mark m.tokens [] rest := by
  cases m with
  | qualifier word =>
      obtain ⟨word, hword⟩ := word
      obtain ⟨hne, hchars⟩ := qualifier_chars word hword
      exact (takes_word spaced isWord_qualifier takesChar_identChar
        (fun v hv _ => (qualifier_chars v hv).2) (by decide) (by decide) (by decide) hword
        (isToken_of_chars hne hchars)).left
  | specifier a =>
      exact (takes_attribute a).right (refuses_attributeWord isWord_qualifier (by decide) a)

/-- The tokens begin with one that begins a declarator. -/
def OpensList (tokens : List (List Char)) : Prop := ∃ token rest, tokens = token :: rest ∧ Opens token

theorem OpensList.refuses_attributeSpec (h : OpensList rest) :
    grammar.Refuses isWordChar (.rule .attributeSpec) rest := by
  obtain ⟨token, rest, rfl, hopens⟩ := h
  exact hopens.refuses_attributeSpec

theorem refuses_mark (h : OpensList rest) : grammar.Refuses isWordChar mark rest := by
  obtain ⟨token, rest, rfl, hopens⟩ := h
  refine Refuses.choice fun e he => ?_
  simp only [List.mem_cons, List.not_mem_nil, or_false] at he
  rcases he with rfl | rfl
  · exact hopens.refuses_word isWord_qualifier (by decide) (by decide)
  · exact hopens.refuses_attributeSpec

theorem takes_pointer (marks : List Mark) (h : OpensList rest) :
    grammar.Takes isWordChar (.rule .pointer) (pointerTokens marks) [] rest := by
  have htoken : IsToken ['*'] := ⟨'*', [], rfl, by decide⟩
  have hmarks : grammar.TakesRounds isWordChar mark rest (marks.flatMap Mark.tokens) :=
    .flatMap fun m _ _ => takes_mark m
  exact Takes.hidden spaced rfl rfl
    ((takes_text spaced htoken).both (hmarks.star spaced rfl (refuses_mark h)))

theorem opensList_pointers (pointers : List (List Mark)) (h : OpensList rest) :
    OpensList (pointers.flatMap pointerTokens ++ rest) := by
  cases pointers with
  | nil => exact h
  | cons marks pointers => exact ⟨['*'], _, rfl, .inl rfl⟩

theorem takesRounds_pointers (pointers : List (List Mark)) (h : OpensList rest) :
    grammar.TakesRounds isWordChar (.rule .pointer) rest (pointers.flatMap pointerTokens) := by
  induction pointers with
  | nil => exact .stop
  | cons marks pointers ih =>
      exact .round (takes_pointer marks (opensList_pointers pointers h)) ih

theorem takes_suffix (x : Suffix) :
    grammar.Takes isWordChar (.rule .declaratorSuffix) x.tokens [] rest := by
  cases x with
  | array w =>
      exact Takes.hidden (r := .declaratorSuffix) spaced rfl rfl (takes_group (by decide) w).left
  | parameters w =>
      have hsquare : grammar.Refuses isWordChar (.rule .brackGroup) (w.1 :: rest) := by
        obtain ⟨w, ⟨v, rfl⟩, -⟩ := w
        exact refuses_of_begins (n := 1) spaced ⟨'(', v, rfl, by decide⟩ (by rintro _ ⟨⟩; decide)
      exact Takes.hidden (r := .declaratorSuffix) spaced rfl rfl
        ((takes_group (by decide) w).right hsquare)

theorem opensList_form (f : Form) : OpensList (f.tokens ++ rest) := by
  cases f with
  | named pointers name suffixes =>
      rw [Form.tokens, List.append_assoc]
      exact opensList_pointers pointers ⟨name.1, _, rfl, .inr (.inr name.2)⟩
  | nested pointers attributes inner suffixes =>
      rw [Form.tokens, List.append_assoc]
      exact opensList_pointers pointers ⟨['('], _, rfl, .inr (.inl rfl)⟩

/-- A declarator is read with its name, up to where no suffix goes on. -/
theorem takes_form (f : Form) (hrest : grammar.Refuses isWordChar (.rule .declaratorSuffix) rest) :
    grammar.Takes isWordChar (.rule .declarator) f.tokens [f.name] rest := by
  have hparen : IsToken ['('] := ⟨'(', [], rfl, by decide⟩
  have hpointer : ∀ {token tail}, IsToken token → token.head? ≠ some '*' →
      grammar.Refuses isWordChar (.rule .pointer) (token :: tail) := fun htoken hne =>
    .rule spaced rfl (refuses_text spaced htoken (by rintro c hc rfl; exact hne hc) []).both
  induction f generalizing rest with
  | named pointers name suffixes =>
      obtain ⟨w, hw⟩ := name
      obtain ⟨htoken, hleaves⟩ := readsName hw
      have hopens : OpensList ([w] ++ suffixes.flatMap Suffix.tokens ++ rest) :=
        ⟨w, _, rfl, .inr (.inr hw)⟩
      have hname : grammar.Takes isWordChar (.rule .declName) [w] [w]
          (suffixes.flatMap Suffix.tokens ++ rest) := takes_name spaced rfl rfl rfl rfl htoken hleaves
      have hsuffixes : grammar.TakesRounds isWordChar (.rule .declaratorSuffix) rest
          (suffixes.flatMap Suffix.tokens) := .flatMap fun x _ _ => takes_suffix x
      have hstar := (takesRounds_pointers pointers hopens).star spaced rfl
        (hpointer htoken fun h => head_ne_of_name hw (by decide) _ h rfl)
      exact Takes.rule (r := .declarator) spaced rfl rfl (hstar.both
        ((Takes.rule (r := .directDeclarator) spaced rfl rfl hname.left).both
          (hsuffixes.star spaced rfl hrest)))
  | nested pointers attributes inner suffixes ih =>
      have hopens : OpensList ((['('] :: (attributes.flatMap Attribute.tokens ++
          (inner.tokens ++ [[')']])) ++ suffixes.flatMap Suffix.tokens) ++ rest) :=
        ⟨['('], _, rfl, .inr (.inl rfl)⟩
      have hclose : IsToken [')'] := ⟨')', [], rfl, by decide⟩
      have hsuffixes : grammar.TakesRounds isWordChar (.rule .declaratorSuffix) rest
          (suffixes.flatMap Suffix.tokens) := .flatMap fun x _ _ => takes_suffix x
      have hattributes : grammar.Takes isWordChar (.star (.rule .attributeSpec))
          (attributes.flatMap Attribute.tokens) []
          (inner.tokens ++ [[')']] ++ (suffixes.flatMap Suffix.tokens ++ rest)) := by
        refine takes_attributes attributes ?_
        rw [List.append_assoc]
        exact (opensList_form inner).refuses_attributeSpec
      have hinner : grammar.Takes isWordChar (.rule .declarator) inner.tokens [inner.name]
          ([[')']] ++ (suffixes.flatMap Suffix.tokens ++ rest)) :=
        ih (refuses_of_begins (n := 2) spaced hclose (by decide))
      have hparens := (takes_text spaced hparen).both
        (hattributes.both (hinner.both (takes_text spaced hclose)))
      have hdirect := Takes.rule (r := .directDeclarator) spaced rfl rfl
        (hparens.right (refuses_of_begins (n := 2) spaced hparen (by decide)))
      have hstar := (takesRounds_pointers pointers hopens).star spaced rfl
        (hpointer hparen (by decide))
      exact Takes.rule (r := .declarator) spaced rfl rfl
        (hstar.both (hdirect.both (hsuffixes.star spaced rfl hrest)))

/-- Neither an attribute nor a sign goes on a declarator. -/
theorem refuses_suffix (attributes : List Attribute) (hc : c ∈ ['=', ',', ';']) :
    grammar.Refuses isWordChar (.rule .declaratorSuffix)
      (attributes.flatMap Attribute.tokens ++ [c] :: rest) := by
  cases attributes with
  | nil =>
      have hsigns : ∀ c ∈ ['=', ',', ';'], grammar.firsts 2 .declaratorSuffix c = false := by decide
      refine refuses_of_begins (n := 2) spaced (isToken_sign hc) ?_
      rintro _ ⟨⟩
      exact hsigns c hc
  | cons a attributes =>
      obtain ⟨⟨word, hword⟩, w⟩ := a
      obtain ⟨hne, hchars⟩ := attributeWord_chars word hword
      have hheads : ∀ word ∈ attributeWords, ∀ c ∈ word.toList.head?,
          grammar.firsts 2 .declaratorSuffix c = false := by decide
      exact refuses_of_begins (n := 2) spaced (isToken_of_chars hne hchars) (hheads word hword)

theorem heads (d : Declared) : grammar.Heads isWordChar declared d.tokens d.name := by
  intro c hc rest
  have hsigns : ∀ c ∈ ['=', ',', ';'], grammar.firsts 1 .attributeSpec c = false := by decide
  have hstop : grammar.Refuses isWordChar (.rule .attributeSpec) ([c] :: rest) := by
    refine refuses_of_begins (n := 1) spaced (isToken_sign hc) ?_
    rintro _ ⟨⟩
    exact hsigns c hc
  exact (takes_form d.form (refuses_suffix d.attributes hc)).both
    (takes_attributes d.attributes hstop)

theorem refuses_extra (hwords : ∀ r ∈ [Rule.storageClass, .typeQualifier, .functionSpecifier],
      grammar.Refuses isWordChar (.rule r) rest)
    (hattribute : grammar.Refuses isWordChar (.rule .attributeSpec) rest) :
    grammar.Refuses isWordChar (.rule .specifierExtra) rest := by
  refine .rule spaced rfl (.choice fun e he => ?_)
  simp only [List.mem_cons, List.not_mem_nil, or_false] at he
  rcases he with rfl | rfl | rfl | rfl
  · exact hwords _ (by simp)
  · exact hwords _ (by simp)
  · exact hwords _ (by simp)
  · exact hattribute

/-- The type of integers in front of a declarator. -/
theorem takes_int (h : OpensList rest) :
    grammar.Takes isWordChar (.rule .declarationSpecifiers) ["int".toList] [] rest := by
  have htoken : IsToken "int".toList := isToken_of_chars (by decide) (by decide)
  have hstorage : grammar.IsWord Rule.identChar .storageClass Rule.storageClasses := ⟨rfl, rfl⟩
  have hfunction : grammar.IsWord Rule.identChar .functionSpecifier Rule.functionSpecifiers :=
    ⟨rfl, rfl⟩
  have hbuiltin : grammar.IsWord Rule.identChar .builtinType Rule.builtinTypes := ⟨rfl, rfl⟩
  have hfirst : grammar.Refuses isWordChar (.rule .specifierExtra) (["int".toList] ++ rest) := by
    refine refuses_extra (fun r hr => ?_) (refuses_of_begins (n := 1) spaced htoken (by decide))
    simp only [List.mem_cons, List.not_mem_nil, or_false] at hr
    rcases hr with rfl | rfl | rfl
    · exact refuses_word spaced hstorage takesChar_identChar (by decide) htoken (by decide)
        (by decide)
    · exact refuses_word spaced isWord_qualifier takesChar_identChar (by decide) htoken (by decide)
        (by decide)
    · exact refuses_word spaced hfunction takesChar_identChar (by decide) htoken (by decide)
        (by decide)
  have hint : grammar.Takes isWordChar (.rule .builtinType) ["int".toList] [] ([] ++ rest) :=
    takes_word spaced hbuiltin takesChar_identChar (by decide) (by decide) (by decide) (by decide)
      (by decide) htoken
  obtain ⟨token, rest, rfl, hopens⟩ := h
  have hextra : grammar.Refuses isWordChar (.rule .specifierExtra) (token :: rest) := by
    refine refuses_extra (fun r hr => ?_) hopens.refuses_attributeSpec
    simp only [List.mem_cons, List.not_mem_nil, or_false] at hr
    rcases hr with rfl | rfl | rfl
    · exact hopens.refuses_word hstorage (by decide) (by decide)
    · exact hopens.refuses_word isWord_qualifier (by decide) (by decide)
    · exact hopens.refuses_word hfunction (by decide) (by decide)
  have hmore : grammar.Refuses isWordChar (.rule .builtinType) (token :: rest) :=
    hopens.refuses_word hbuiltin (by decide) (by decide)
  have hcore := Takes.rule (r := .typeCore) spaced rfl rfl
    (hint.both (hmore.star spaced rfl)).left
  refine Takes.rule (r := .declarationSpecifiers) spaced rfl rfl
    ((hfirst.star spaced rfl).both (hcore.both (Refuses.star spaced rfl (.choice fun e he => ?_))))
  simp only [List.mem_cons, List.not_mem_nil, or_false] at he
  rcases he with rfl | rfl
  · exact hextra
  · exact hmore

/-! ## What the boundary sees -/

/-- What the boundary looks for behind a name. -/
def behindName : Expr Rule :=
  .both (.star (.seq [Rule.brackGroup, .star Lexical.ws])) (.choice ["=", ",", ";"])

/-- What the boundary looks for behind stars. -/
def behindStars : Expr Rule := .both (.rule .identifier) (.both (.star Lexical.ws) behindName)

/-- What the boundary looks for behind the comma and the blanks. -/
def behindComma : Expr Rule := .both (.star (.seq ["*", .star Lexical.ws])) behindStars

theorem leaves_behindName (hc : c ≠ '[') (s : List Char) :
    grammar.leaves behindName (c :: s) = grammar.leaves (.choice ["=", ",", ";"]) (c :: s) := by
  have hgroup : grammar.leaves (.rule .brackGroup) (c :: s) = none :=
    balances.leaves_group_of_ne (b := .square) hc
  have hround : grammar.leaves (.seq [Rule.brackGroup, .star Lexical.ws]) (c :: s) = none := by
    show grammar.leaves (.both (.rule .brackGroup) _) _ = none
    rw [leaves_both, hgroup, Option.bind_none]
  rw [behindName, leaves_both, leaves_star_of_none ranked rfl hround, Option.bind_some]

theorem leaves_behindName_none (hc : c ∉ ['[', '=', ',', ';']) (s : List Char) :
    grammar.leaves behindName (c :: s) = none := by
  simp only [List.mem_cons, List.not_mem_nil, or_false, not_or] at hc
  rw [leaves_behindName hc.1, leaves_choice]
  refine List.findSome?_eq_none_iff.2 fun e he => ?_
  simp only [List.mem_cons, List.not_mem_nil, or_false] at he
  rcases he with rfl | rfl | rfl
  · exact (leaves_text _ _).trans (if_neg (Ne.symm hc.2.1))
  · exact (leaves_text _ _).trans (if_neg (Ne.symm hc.2.2.1))
  · exact (leaves_text _ _).trans (if_neg (Ne.symm hc.2.2.2))

/-- An array is skipped with the blanks behind it. -/
theorem leaves_behindName_group (w : GroupText .square) (htoken : IsToken token)
    (ht : Spelled isWordChar (token :: rest) t) :
    grammar.leaves behindName (w.1 ++ t) = grammar.leaves behindName (grammar.between .spaced t) := by
  have hround : grammar.leaves (.seq [Rule.brackGroup, .star Lexical.ws]) (w.1 ++ t) =
      some (grammar.between .spaced t) := by
    show grammar.leaves (.both (.rule .brackGroup) _) _ = _
    rw [leaves_both, show grammar.leaves (.rule .brackGroup) (w.1 ++ t) = some t from w.2.2 t,
      Option.bind_some]
    exact ht.leaves_ws spaced htoken
  rw [behindName, leaves_both, leaves_star_of_some ranked rfl hround, ← leaves_both]

theorem isToken_group {b : Bracket} (w : GroupText b) : IsToken w.1 := by
  obtain ⟨w, ⟨v, rfl⟩, -⟩ := w
  exact ⟨b.opener, v, rfl, by cases b <;> decide⟩

/-- The next token, if it is a suffix, an attribute or a sign. -/
theorem exists_token (suffixes : List Suffix) (attributes : List Attribute)
    (hc : c ∈ ['=', ',', ';']) :
    ∃ token tail, suffixes.flatMap Suffix.tokens ++
      (attributes.flatMap Attribute.tokens ++ [c] :: rest) = token :: tail ∧ IsToken token := by
  cases suffixes with
  | nil =>
      cases attributes with
      | nil => exact ⟨[c], rest, rfl, isToken_sign hc⟩
      | cons a attributes =>
          exact ⟨_, _, rfl, isToken_of_chars (attributeWord_chars _ a.word.2).1
            (attributeWord_chars _ a.word.2).2⟩
  | cons x suffixes =>
      cases x with
      | array w => exact ⟨w.1, _, rfl, isToken_group w⟩
      | parameters w => exact ⟨w.1, _, rfl, isToken_group w⟩

theorem not_sign_of_word (hc : isWordChar c = true) : c ∉ ['[', '=', ',', ';'] :=
  not_mem_of_class isWordChar (by decide) hc

/-- Behind a name the boundary sees arrays and the sign, and nothing else. -/
theorem isSome_behindName (suffixes : List Suffix) (attributes : List Attribute)
    (hc : c ∈ ['=', ',', ';'])
    (hs : Spelled isWordChar (suffixes.flatMap Suffix.tokens ++
      (attributes.flatMap Attribute.tokens ++ [c] :: rest)) s) :
    (grammar.leaves behindName (grammar.between .spaced s)).isSome =
      (suffixes.all Suffix.isArray && attributes.isEmpty) := by
  induction suffixes generalizing s with
  | nil =>
      cases attributes with
      | nil =>
          obtain ⟨z, hz, -⟩ := readsDeclarators.between_sign hc hs
          have hne : c ≠ '[' := by rintro rfl; simp at hc
          rw [hz, leaves_behindName hne]
          simp only [List.mem_cons, List.not_mem_nil, or_false] at hc
          rcases hc with rfl | rfl | rfl <;> rfl
      | cons a attributes =>
          obtain ⟨hne, hchars⟩ := attributeWord_chars _ a.word.2
          obtain ⟨t, ht, -⟩ := hs.between spaced (isToken_of_chars hne hchars)
          obtain ⟨d, v, hv⟩ := List.exists_cons_of_ne_nil hne
          rw [ht, hv, List.cons_append, leaves_behindName_none
            (not_sign_of_word (hchars d (by rw [hv]; simp)))]
          rfl
  | cons x suffixes ih =>
      cases x with
      | array w =>
          obtain ⟨t, ht, hrest, -⟩ := hs.between spaced (isToken_group w)
          have hmore := ih hrest
          obtain ⟨token, tail, heq, htoken⟩ := exists_token suffixes attributes hc
          have hnext : Spelled isWordChar (token :: tail) t := heq ▸ hrest
          rw [ht, leaves_behindName_group w htoken hnext, hmore]
          rfl
      | parameters w =>
          obtain ⟨t, ht, -⟩ := hs.between spaced (isToken_group w)
          obtain ⟨_, ⟨v, rfl⟩, _⟩ := w
          rw [ht, List.cons_append, leaves_behindName_none (by decide)]
          rfl

theorem leaves_behindComma (hc : c ≠ '*') (s : List Char) :
    grammar.leaves behindComma (c :: s) = grammar.leaves behindStars (c :: s) := by
  have hround : grammar.leaves (.seq ["*", .star Lexical.ws]) (c :: s) = none :=
    leaves_sign_none hc [] s _
  rw [behindComma, leaves_both, leaves_star_of_none ranked rfl hround, Option.bind_some]

/-- A star is skipped with the blanks behind it. -/
theorem leaves_behindComma_star (htoken : IsToken token) (ht : Spelled isWordChar (token :: rest) t) :
    grammar.leaves behindComma ('*' :: t) =
      grammar.leaves behindComma (grammar.between .spaced t) := by
  have hround : grammar.leaves (.seq ["*", .star Lexical.ws]) ('*' :: t) =
      some (grammar.between .spaced t) := by
    show grammar.leaves (.both "*" _) _ = _
    rw [leaves_both, leaves_text]
    exact ht.leaves_ws spaced htoken
  rw [behindComma, leaves_both, leaves_star_of_some ranked rfl hround, ← leaves_both]

/-- A name is skipped with the blanks behind it. -/
theorem leaves_behindStars (hw : Grammar.isName beginsName isWordChar Rule.keywords w = true)
    (htoken : IsToken token) (hs : Spelled isWordChar (w :: token :: rest) s) :
    ∃ t, Spelled isWordChar (token :: rest) t ∧
      grammar.leaves behindStars (grammar.between .spaced s) =
        grammar.leaves behindName (grammar.between .spaced t) := by
  obtain ⟨hname, hleaves⟩ := reads_plain hw
  obtain ⟨t, ht, hrest, hapart⟩ := hs.between spaced hname
  refine ⟨t, hrest, ?_⟩
  rw [ht, behindStars, leaves_both, hleaves t hapart, Option.bind_some, leaves_both,
    hrest.leaves_ws spaced htoken, Option.bind_some]

/-- The boundary does not look past a qualifier or an attribute of a pointer. -/
theorem leaves_behindStars_mark (m : Mark) (htoken : IsToken token)
    (hsign : ∀ c ∈ token.head?, c ∉ ['[', '=', ',', ';'])
    (hs : Spelled isWordChar (m.tokens ++ token :: rest) s) :
    grammar.leaves behindStars (grammar.between .spaced s) = none := by
  have hkeyword : ∀ {word : String} {tail}, word ∈ Rule.keywords → word.toList ≠ [] →
      (∀ c ∈ word.toList, isWordChar c = true) → Spelled isWordChar (word.toList :: tail) s →
      grammar.leaves behindStars (grammar.between .spaced s) = none := by
    intro word tail hword hne hchars hs
    obtain ⟨t, ht, -, hapart⟩ := hs.between spaced (isToken_of_chars hne hchars)
    rw [ht, behindStars, leaves_both,
      leaves_keyword_none hword (Spelled.head_of_apart hchars hne hapart), Option.bind_none]
  cases m with
  | qualifier word =>
      obtain ⟨word, hword⟩ := word
      obtain ⟨hne, hchars⟩ := qualifier_chars word hword
      have hwords : ∀ word ∈ Rule.typeQualifiers, word ∈ Rule.keywords ∨
          Grammar.isName beginsName isWordChar Rule.keywords word.toList = true := by decide
      rcases hwords word hword with hmem | hname
      · exact hkeyword hmem hne hchars hs
      · obtain ⟨t, ht, hleaves⟩ := leaves_behindStars hname htoken hs
        obtain ⟨u, hu, -⟩ := ht.between spaced htoken
        obtain ⟨c, v, rfl, -⟩ := htoken
        rw [hleaves, hu, List.cons_append, leaves_behindName_none (hsign c rfl)]
  | specifier a =>
      obtain ⟨hne, hchars⟩ := attributeWord_chars _ a.word.2
      have hwords : ∀ word ∈ attributeWords, word ∈ Rule.keywords := by decide
      exact hkeyword (hwords _ a.word.2) hne hchars hs

theorem Opens.not_sign (h : Opens token) : ∀ c ∈ token.head?, c ∉ ['[', '=', ',', ';'] := by
  rcases h with rfl | rfl | hw
  · decide
  · decide
  · exact fun c hc => not_sign_of_word ((isName_iff.1 hw).2.1 c (List.mem_of_mem_head? hc))

theorem exists_word (m : Mark) :
    ∃ w tail, m.tokens = w :: tail ∧ w ≠ [] ∧ ∀ c ∈ w, isWordChar c = true := by
  cases m with
  | qualifier word => exact ⟨_, _, rfl, qualifier_chars _ word.2⟩
  | specifier a => exact ⟨_, _, rfl, attributeWord_chars _ a.word.2⟩

/-- The next token, if it is a mark or begins a declarator. -/
theorem exists_next (marks : List Mark) (h : OpensList rest) :
    ∃ token tail, marks.flatMap Mark.tokens ++ rest = token :: tail ∧ IsToken token ∧
      ∀ c ∈ token.head?, c ∉ ['[', '=', ',', ';'] := by
  cases marks with
  | nil =>
      obtain ⟨token, rest, rfl, hopens⟩ := h
      exact ⟨token, rest, rfl, hopens.isToken, hopens.not_sign⟩
  | cons m marks =>
      obtain ⟨w, tail, hw, hne, hchars⟩ := exists_word m
      refine ⟨w, tail ++ (marks.flatMap Mark.tokens ++ rest), ?_, isToken_of_chars hne hchars,
        fun c hc => not_sign_of_word (hchars c (List.mem_of_mem_head? hc))⟩
      rw [List.flatMap_cons, hw, List.append_assoc, List.cons_append]

/-- The boundary skips pointers without marks. -/
theorem leaves_behindComma_bare {pointers : List (List Mark)} (hopens : Opens token)
    (hne : ∀ c ∈ token.head?, c ≠ '*') (hbare : pointers.all List.isEmpty = true)
    (hs : Spelled isWordChar (pointers.flatMap pointerTokens ++ token :: rest) s) :
    ∃ t, Spelled isWordChar (token :: rest) t ∧
      grammar.leaves behindComma (grammar.between .spaced s) =
        grammar.leaves behindStars (grammar.between .spaced t) := by
  induction pointers generalizing s with
  | nil =>
      obtain ⟨u, hu, -⟩ := hs.between spaced hopens.isToken
      obtain ⟨c, v, rfl, -⟩ := hopens.isToken
      exact ⟨s, hs, by rw [hu]; exact leaves_behindComma (hne c rfl) (v ++ u)⟩
  | cons marks pointers ih =>
      rw [List.all_cons, Bool.and_eq_true, List.isEmpty_iff] at hbare
      obtain ⟨rfl, hbare⟩ := hbare
      obtain ⟨t, ht, hrest, -⟩ := hs.between spaced (Opens.isToken (.inl rfl))
      obtain ⟨u, hu, hleaves⟩ := ih hbare hrest
      obtain ⟨next, tail, heq, hnext⟩ := opensList_pointers pointers ⟨token, rest, rfl, hopens⟩
      have hspelled : Spelled isWordChar (next :: tail) t := heq ▸ hrest
      exact ⟨u, hu, by rw [ht, ← hleaves]; exact leaves_behindComma_star hnext.isToken hspelled⟩

/-- The boundary does not look past pointers with marks. -/
theorem leaves_behindComma_marked {pointers : List (List Mark)} (hopens : Opens token)
    (hmarked : pointers.all List.isEmpty = false)
    (hs : Spelled isWordChar (pointers.flatMap pointerTokens ++ token :: rest) s) :
    grammar.leaves behindComma (grammar.between .spaced s) = none := by
  induction pointers generalizing s with
  | nil => cases hmarked
  | cons marks pointers ih =>
      obtain ⟨t, ht, hrest, -⟩ := hs.between spaced (Opens.isToken (.inl rfl))
      have hopensList := opensList_pointers pointers ⟨token, rest, rfl, hopens⟩
      cases marks with
      | nil =>
          obtain ⟨next, tail, heq, hnext⟩ := hopensList
          have hspelled : Spelled isWordChar (next :: tail) t := heq ▸ hrest
          rw [ht]
          exact (leaves_behindComma_star hnext.isToken hspelled).trans (ih hmarked hrest)
      | cons m marks =>
          obtain ⟨next, tail, heq, hnext, hsign⟩ := exists_next marks hopensList
          have hspelled : Spelled isWordChar (m.tokens ++ next :: tail) t := by
            rw [← heq, ← List.append_assoc, ← List.append_assoc]
            exact hrest
          have hmark := leaves_behindStars_mark m hnext hsign hspelled
          obtain ⟨w, _, hw, hne, hchars⟩ := exists_word m
          rw [hw, List.cons_append] at hspelled
          have hstar := leaves_behindComma_star (isToken_of_chars hne hchars) hspelled
          obtain ⟨u, hu, -⟩ := hspelled.between spaced (isToken_of_chars hne hchars)
          obtain ⟨c, v, rfl⟩ := List.exists_cons_of_ne_nil hne
          have hc : c ≠ '*' := by
            rintro rfl
            cases hchars '*' List.mem_cons_self
          rw [ht]
          refine hstar.trans (Eq.trans ?_ hmark)
          rw [hu]
          exact leaves_behindComma hc (v ++ u)

/-- What the boundary sees of a declarator is told from its form. -/
theorem isSome_boundary (d : Declared) (hc : c ∈ ['=', ',', ';'])
    (hs : Spelled isWordChar (d.tokens ++ [c] :: rest) s) :
    (grammar.leaves (.rule .declaratorBoundary) (',' :: s)).isSome = d.isSeen := by
  obtain ⟨form, attributes⟩ := d
  rw [Declared.tokens, List.append_assoc] at hs
  have hboundary : grammar.leaves (.rule .declaratorBoundary) (',' :: s) =
      grammar.leaves behindComma (grammar.between .spaced s) := by
    obtain ⟨token, tail, heq, hopens⟩ := opensList_form form
    have hspelled : Spelled isWordChar (token :: tail) s := heq ▸ hs
    rw [leaves_rule ranked rfl]
    show grammar.leaves (.both "," (.both (.star Lexical.ws) behindComma)) _ = _
    rw [leaves_both, leaves_text]
    show grammar.leaves (.both (.star Lexical.ws) behindComma) s = _
    rw [leaves_both, hspelled.leaves_ws spaced hopens.isToken, Option.bind_some]
  rw [hboundary]
  cases form with
  | named pointers name suffixes =>
      obtain ⟨w, hw⟩ := name
      have hopens : Opens w := .inr (.inr hw)
      rw [Form.tokens, List.append_assoc, List.append_assoc] at hs
      show _ = (pointers.all List.isEmpty && suffixes.all Suffix.isArray && attributes.isEmpty)
      cases hbare : pointers.all List.isEmpty with
      | false => rw [leaves_behindComma_marked hopens hbare hs]; rfl
      | true =>
          obtain ⟨t, ht, hleaves⟩ := leaves_behindComma_bare hopens
            (head_ne_of_name hw (by decide)) hbare hs
          obtain ⟨token, tail, heq, htoken⟩ := exists_token suffixes attributes hc
          have hspelled : Spelled isWordChar (w :: token :: tail) t := heq ▸ ht
          obtain ⟨u, hu, hname⟩ := leaves_behindStars (isName_plain hw) htoken hspelled
          rw [hleaves, hname, Bool.true_and]
          exact isSome_behindName suffixes attributes hc (heq ▸ hu)
  | nested pointers attributes' inner suffixes =>
      have hopens : Opens ['('] := .inr (.inl rfl)
      rw [Form.tokens, List.append_assoc] at hs
      show _ = false
      cases hbare : pointers.all List.isEmpty with
      | false => rw [leaves_behindComma_marked hopens hbare hs]; rfl
      | true =>
          obtain ⟨t, ht, hleaves⟩ := leaves_behindComma_bare hopens (by decide) hbare hs
          obtain ⟨u, hu, -⟩ := ht.between spaced hopens.isToken
          rw [hleaves, hu]
          exact congrArg _ (leaves_none_of_begins (n := 2) ranked rfl)

/-! ## Declarators inside an initializer -/

theorem skims_word (hne : w ≠ []) (hbegins : ∀ c ∈ w.head?, beginsName c = true)
    (hw : ∀ c ∈ w, isWordChar c = true) : grammar.Skims isWordChar .groupPiece [w] := by
  have hbalanced : Balanced false w := .of_plain fun c hc =>
    ⟨isPlain_of_class isWordChar (by decide) (hw c hc),
      .inr (not_mem_of_class isWordChar (by decide) (hw c hc))⟩
  refine readsValues.skims_clear hne (fun c hc => ?_) hbalanced fun c hc => ?_
  · exact not_mem_of_class beginsName (by decide) (hbegins c hc)
  · exact not_mem_of_class isWordChar (by decide) (hw c hc)

theorem skims_attribute (a : Attribute) : grammar.Skims isWordChar .groupPiece a.tokens := by
  obtain ⟨⟨word, hword⟩, w⟩ := a
  have hbegins : ∀ word ∈ attributeWords, ∀ c ∈ word.toList.head?, beginsName c = true := by decide
  obtain ⟨hne, hchars⟩ := attributeWord_chars word hword
  exact (skims_word hne (hbegins word hword) hchars).append (readsValues.skims_group w.2)

theorem skims_mark (m : Mark) : grammar.Skims isWordChar .groupPiece m.tokens := by
  cases m with
  | qualifier word =>
      obtain ⟨word, hword⟩ := word
      have hbegins : ∀ word ∈ Rule.typeQualifiers, ∀ c ∈ word.toList.head?, beginsName c = true := by
        decide
      obtain ⟨hne, hchars⟩ := qualifier_chars word hword
      exact skims_word hne (hbegins word hword) hchars
  | specifier a => exact skims_attribute a

theorem skims_suffix (x : Suffix) : grammar.Skims isWordChar .groupPiece x.tokens := by
  cases x with
  | array w => exact readsValues.skims_group w.2
  | parameters w => exact readsValues.skims_group w.2

theorem skims_pointers (pointers : List (List Mark)) :
    grammar.Skims isWordChar .groupPiece (pointers.flatMap pointerTokens) := by
  have hstar : grammar.Skims isWordChar .groupPiece [['*']] := fun rest _ =>
    ⟨readsValues.passes_sign (by decide), calmTokens_cons (List.cons_ne_nil '*' []) (by
      rintro _ ⟨⟩
      decide)⟩
  exact .flatMap fun marks _ => hstar.append (.flatMap fun m _ => skims_mark m)

theorem skims_form (f : Form) : grammar.Skims isWordChar .groupPiece f.tokens := by
  induction f with
  | named pointers name suffixes =>
      obtain ⟨w, hw⟩ := name
      obtain ⟨⟨c, v, rfl, hc⟩, hchars, -⟩ := isName_iff.1 hw
      have hname : grammar.Skims isWordChar .groupPiece [c :: v] :=
        skims_word (List.cons_ne_nil c v) (by rintro _ ⟨⟩; exact hc) hchars
      exact (skims_pointers pointers).append (hname.append (.flatMap fun x _ => skims_suffix x))
  | nested pointers attributes inner suffixes ih =>
      have hattributes : grammar.Skims isWordChar .groupPiece
          (attributes.flatMap Attribute.tokens) := .flatMap fun a _ => skims_attribute a
      have hparens := readsValues.skims_parens spaced (hattributes.append ih)
      rw [List.append_assoc] at hparens
      exact (skims_pointers pointers).append (hparens.append (.flatMap fun x _ => skims_suffix x))

theorem hides (d : Declared) (hd : d.isSeen = false) :
    grammar.Hides isWordChar .groupPiece .declaratorBoundary d.tokens where
  boundary c rest s hc hs := by
    rw [← Option.isNone_iff_eq_none, ← Option.not_isSome, isSome_boundary d hc hs, hd]
    rfl
  passes c hc rest := by
    have hattributes : grammar.Skims isWordChar .groupPiece
        (d.attributes.flatMap Attribute.tokens) := .flatMap fun a _ => skims_attribute a
    exact ((skims_form d.form).append hattributes
      (calmTokens_cons (List.cons_ne_nil c []) (isCalm_sign hc))).1

/-- The declarators of C, and which of them the boundary sees. -/
theorem spelling : grammar.Spelling isWordChar .groupPiece .declaratorBoundary declared
    Declared.tokens Declared.name Declared.isSeen where
  heads := heads
  sees d hd c rest s hc hs := by rw [isSome_boundary d hc hs, hd]
  hides := hides

/-- Names without more are written as they are, and the boundary sees them. -/
theorem spelling_name : grammar.Spelling isWordChar .groupPiece .declaratorBoundary declared
    (fun w : { w : List Char // isName w = true } => [w.1]) (·.1) fun _ => true where
  heads w := heads ⟨.named [] w [], []⟩
  sees w _ := spelling.sees ⟨.named [] w [], []⟩ rfl
  hides _ h := nomatch h

/-- A declaration of integers is matched to its end, and shows its declarators. -/
theorem match_declaration {α : Type} {spell : α → List (List Char)} {name : α → List Char}
    {seen : α → Bool} {d : Declarator α} {ds : List (Declarator α)}
    (hspelling : grammar.Spelling isWordChar .groupPiece .declaratorBoundary declared spell name seen)
    (hopens : OpensList (d.tokens spell ++ Declarator.moreTokens spell ds))
    (hs : Spelled isWordChar
      (["int".toList] ++ (d.tokens spell ++ Declarator.moreTokens spell ds)) s) :
    ∃ f, grammar.matchExpr (grammar.body .declaration) .spaced (grammar.between .spaced s) =
        some ([], f) ∧ Shows seen name false (d :: ds) (grammar.views f) := by
  have hsummarized := summarized_of_fits fits_summary
  obtain ⟨f, hmatch, hshows⟩ := readsDeclarators.match_declaration hspelling (takes_int hopens)
    (fun _ _ _ => declared_of_namesOnly hsummarized rfl) hs
  refine ⟨f, ?_, hshows⟩
  obtain ⟨t, f₁, f₂, hfront, hlist, rfl⟩ := matchExpr_both_iff.1 hmatch
  obtain ⟨u, f₃, f₄, hdeclarators, hend, rfl⟩ :=
    matchExpr_both_iff.1 (matchExpr_assoc.trans hlist)
  have hfirst := matchExpr_left (b := Rule.tagDeclaration) (matchExpr_both hfront hdeclarators)
  rw [← Forest.append_assoc]
  exact matchExpr_both hfirst hend

end C

end FeatureTree
