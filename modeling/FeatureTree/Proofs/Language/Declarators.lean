import FeatureTree.Proofs.Declarators.Lists
import FeatureTree.Proofs.Language.Exchange

/-!
# Declarators of Java and C#
-/

namespace FeatureTree

open scoped Tokens

namespace Grammar

variable {R : Type} {g : Grammar R} {p e : Expr R} {words : List (List Char)} {c d q : Char}
  {word w s : List Char}

theorem leaves_sign_none (h : c ≠ d) (word s : List Char) (e : Expr R) :
    g.leaves (.both (.text (d :: word)) e) (c :: s) = none := by
  rw [leaves_both, leaves_text, Text.after?, if_neg (Ne.symm h), Option.bind_none]

theorem leaves_commentText_none (h : c ≠ '/') (s : List Char) :
    g.leaves Lexical.commentText (c :: s) = none := by
  rw [Lexical.commentText, leaves_choice]
  refine List.findSome?_eq_none_iff.2 fun e he => ?_
  simp only [List.mem_cons, List.not_mem_nil, or_false] at he
  rcases he with rfl | rfl
  · exact leaves_sign_none h _ s _
  · exact leaves_sign_none h _ s _

/-- A literal with a prefix does not begin in a text without quotes, in front of what is no part
of a prefix. -/
theorem leaves_prefixed_none (hp : ∀ s t, g.leaves p s = some t → ∃ word ∈ words, s = word ++ t)
    (hwords : ∀ word ∈ words, ∀ c ∈ word.tail, c ∈ ['8', '$', '@'])
    (hq : q ∈ ['"', '\'']) (hne : w ≠ []) (hw : IsClear w) (hs : IsCalm s) :
    g.leaves (.both p (.both (.text [q]) e)) (w ++ s) = none := by
  rw [leaves_both]
  cases hprefix : g.leaves p (w ++ s) with
  | none => rfl
  | some t =>
      have hhead : ∀ c ∈ t.head?, c ≠ q := by
        obtain ⟨word, hword, heq⟩ := hp _ _ hprefix
        rintro c hc rfl
        have hquote : c ∈ ['"', '\'', '/'] := List.mem_append_left ['/'] hq
        obtain ⟨t, rfl⟩ := List.head?_eq_some_iff.1 hc
        obtain ⟨v, rfl, hv⟩ | ⟨v, rfl, hv⟩ := List.append_eq_append_iff.1 heq
        · -- The prefix reaches over the end of the text.
          cases v with
          | nil => exact hs c (by rw [hv]; rfl) (List.mem_append_left ['8', '$', '@'] hq)
          | cons d v =>
              obtain ⟨a, w, rfl⟩ := List.exists_cons_of_ne_nil hne
              refine hs d (by rw [hv]; rfl) (List.mem_append_right ['"', '\''] ?_)
              exact hwords _ hword d (by simp)
        · cases v with
          | nil =>
              have hcons : s = c :: t := hv.symm
              exact hs c (by rw [hcons]; rfl) (List.mem_append_left ['8', '$', '@'] hq)
          | cons d v =>
              obtain ⟨rfl, -⟩ := List.cons.inj hv
              exact hw c (by simp) hquote
      rw [Option.bind_some]
      cases t with
      | nil => rw [leaves_both, leaves_text]; rfl
      | cons c t => exact leaves_sign_none (hhead c rfl) [] t e

theorem leaves_oneOf (words : List String) (s t : List Char) (h : g.leaves (.oneOf words) s = some t) :
    ∃ word ∈ words.map String.toList, s = word ++ t := by
  rw [Expr.oneOf, leaves_choice] at h
  obtain ⟨e, he, hleaves⟩ := List.exists_of_findSome?_eq_some h
  obtain ⟨word, hword, rfl⟩ := List.mem_map.1 he
  rw [leaves_text] at hleaves
  exact ⟨_, List.mem_map_of_mem hword, Text.after?_eq_some_iff.1 hleaves⟩

theorem leaves_opt {words : List (List Char)}
    (hp : ∀ s t, g.leaves p s = some t → ∃ word ∈ words, s = word ++ t) (s t : List Char)
    (h : g.leaves (.opt p) s = some t) : ∃ word ∈ [] :: words, s = word ++ t := by
  obtain ⟨f, hmatch⟩ := leaves_eq_some_iff.1 h
  obtain hsome | ⟨-, rfl, -⟩ := matchExpr_opt_iff.1 hmatch
  · obtain ⟨word, hword, heq⟩ := hp s t (leaves_eq_some_iff.2 ⟨f, hsome⟩)
    exact ⟨word, List.mem_cons_of_mem _ hword, heq⟩
  · exact ⟨[], List.mem_cons_self, rfl⟩

end Grammar

/-- No modifier and no type goes on with the token. -/
def EndsType (token : List Char) : Prop :=
  Grammar.IsToken token ∧ ∀ c ∈ token.head?, c ∉ ['<', '.', '[', '?', ':', '-']

theorem EndsType.refuses {R : Type} {g : SnippetGrammar R} {isWordChar : Char → Bool}
    {token : List Char} {rest : List (List Char)} {d : Char} (h : EndsType token)
    (hg : g.Spaced) (hd : d ∈ ['<', '.', '[', '?', ':', '-']) (word : List Char) :
    g.Refuses isWordChar (.text (d :: word)) (token :: rest) :=
  SnippetGrammar.refuses_text hg h.1 (fun c hc heq => h.2 c hc (heq ▸ hd)) word

/-- The word of a type does not go on with the token; brackets may follow. -/
def EndsWord (token : List Char) : Prop :=
  Grammar.IsToken token ∧ ∀ c ∈ token.head?, c ∉ ['<', '.', '?', ':']

theorem EndsType.endsWord {token : List Char} (h : EndsType token) : EndsWord token := by
  refine ⟨h.1, fun c hc hmem => h.2 c hc ?_⟩
  have hsub : ['<', '.', '?', ':'] ⊆ ['<', '.', '[', '?', ':', '-'] := by decide
  exact hsub hmem

theorem EndsWord.refuses {R : Type} {g : SnippetGrammar R} {isWordChar : Char → Bool}
    {token : List Char} {rest : List (List Char)} {d : Char} (h : EndsWord token)
    (hg : g.Spaced) (hd : d ∈ ['<', '.', '?', ':']) (word : List Char) :
    g.Refuses isWordChar (.text (d :: word)) (token :: rest) :=
  SnippetGrammar.refuses_text hg h.1 (fun c hc heq => h.2 c hc (heq ▸ hd)) word

theorem endsType_sign {c : Char} (hc : c ∈ ['=', ',', ';']) : EndsType [c] := by
  refine ⟨SnippetGrammar.isToken_sign hc, ?_⟩
  rintro _ ⟨⟩
  revert c
  decide

theorem Lexical.comment_eq_none {c : Char} (h : c ≠ '/') (s : List Char) :
    comment (c :: s) = none := by
  cases hcomment : comment (c :: s) with
  | none => rfl
  | some u =>
      obtain ⟨_, hslash⟩ := comment_head hcomment
      exact absurd (List.cons.inj hslash).1 h

namespace Java

open Grammar SnippetGrammar

variable {v w s : List Char} {rest : List (List Char)}

theorem spaced : grammar.Spaced where
  ranked := ranked
  layout := regular.layout
  blank s h := if_pos h
  solid := by
    intro c s hblank hc
    have hnone : trivia.blank (c :: s) = none := if_neg (by rw [hblank]; decide)
    show trivia.piece? (c :: s) = none
    rw [Trivia.piece?, hnone]
    exact Lexical.comment_eq_none (fun h => hc (by simp [h])) s

theorem readsValues : grammar.ReadsValues group .groupPiece literals .declaratorBoundary .initPiece where
  toBalances := balances
  literal := by
    intro w s hne hw _
    obtain ⟨c, w, rfl⟩ := List.exists_cons_of_ne_nil hne
    have hc := hw c List.mem_cons_self
    simp only [List.mem_cons, List.not_mem_nil, or_false, not_or] at hc
    refine List.findSome?_eq_none_iff.2 fun r hr => ?_
    simp only [literals, List.mem_cons, List.not_mem_nil, or_false] at hr
    rcases hr with rfl | rfl | rfl | rfl
    · exact (leaves_rule ranked rfl _).trans (leaves_sign_none hc.1 _ _ _)
    · exact (leaves_rule ranked rfl _).trans (leaves_sign_none hc.1 _ _ _)
    · exact (leaves_rule ranked rfl _).trans (leaves_sign_none hc.2.1 _ _ _)
    · exact (leaves_rule ranked rfl _).trans (leaves_commentText_none hc.2.2 _)
  signs_begin := by decide
  boundary_begins s hc := (leaves_rule ranked rfl _).trans (leaves_sign_none hc _ s _)
  layout_initPiece := rfl
  body_initPiece := rfl
  consumes_initPiece := rfl

/-- What a declarator declares. -/
def declared : Expr Rule := .both (.rule .declName) (.opt (.rule .dims))

theorem readsDeclarators : grammar.ReadsDeclarators group .groupPiece literals .declaratorBoundary
    .initPiece .initializer .variableDeclarator declared where
  toReadsValues := readsValues
  spaced := spaced
  layout_init := rfl
  role_init := rfl
  body_init := rfl
  layout_declarator := rfl
  role_declarator := rfl
  body_declarator _ := matchExpr_assoc.symm

/-- The text is a name. -/
def isName : List Char → Bool := Grammar.isName beginsName isWordChar Rule.keywords

theorem readsName (hw : isName w = true) : grammar.ReadsName isWordChar .identifier w := by
  obtain ⟨⟨c, v, rfl, hc⟩, hchars, -⟩ := isName_iff.1 hw
  have hkeyword : IsWord .keyword Rule.keywords := ⟨rfl, rfl⟩
  refine ⟨⟨c, v, rfl, isSolid_of_class beginsName (by decide) hc⟩, fun t ht => ?_⟩
  rw [leaves_rule ranked rfl]
  refine leaves_eq_some_iff.2 ⟨.nil, match_of_name ranked takesChar_identChar rfl
    takesChar_beginsName hkeyword keywords_chars hw ?_⟩
  exact Spelled.head_of_apart hchars (List.cons_ne_nil c v) ht

theorem takes_declared (hw : isName w = true) (hv : EndsType v) :
    grammar.Takes isWordChar declared [w] [w] (v :: rest) := by
  obtain ⟨htoken, hleaves⟩ := readsName hw
  have hname : grammar.Takes isWordChar (.rule .declName) [w] [w] ([] ++ v :: rest) :=
    takes_name spaced rfl rfl rfl rfl htoken hleaves
  have hdims : grammar.Refuses isWordChar (.rule .dims) (v :: rest) :=
    .rule spaced rfl (hv.refuses spaced (by decide) []).both.both
  exact hname.both (hdims.opt spaced)

theorem sees_name (hw : isName w = true) : grammar.Sees isWordChar .declaratorBoundary [w] := by
  refine SnippetGrammar.sees_name spaced rfl rfl (readsName hw) fun c hc z => ?_
  have hdims : (Expr.seq ["[", .star Lexical.ws, "]", .star Lexical.ws] : Expr Rule).begins
      (grammar.firsts 0) c = false := by
    simp only [List.mem_cons, List.not_mem_nil, or_false] at hc
    rcases hc with rfl | rfl | rfl <;> rfl
  rw [Expr.seq, leaves_both, leaves_star_of_none ranked rfl (leaves_none_of_begins ranked hdims),
    Option.bind_some]
  simp only [List.mem_cons, List.not_mem_nil, or_false] at hc
  rcases hc with rfl | rfl | rfl <;> rfl

/-! ## The type of a field -/

theorem endsType_of_name (hv : isName v = true) : EndsType v := by
  refine ⟨(readsName hv).1, ?_⟩
  obtain ⟨⟨c, u, rfl, hc⟩, -, -⟩ := isName_iff.1 hv
  rintro _ ⟨⟩
  exact not_mem_of_class beginsName (by decide) hc

/-- There is one modifier with a sign in it, and no type ends with that sign. -/
theorem refuses_modifier (htoken : IsToken w) (hw : ∀ c ∈ w, isWordChar c = true)
    (hnot : ∀ word ∈ Rule.modifierWords, word.toList ≠ w) (hv : EndsType v) :
    grammar.Refuses isWordChar (.rule .modifier) (w :: v :: rest) := by
  intro s hs
  obtain ⟨t, ht, hrest, hapart⟩ := hs.between spaced htoken
  have hsign : ∀ d ∈ t.head?, d ≠ '-' := by
    obtain ⟨⟨c, u, rfl, -⟩, hends⟩ := hv
    refine hrest.head_ne (List.cons_ne_nil c u) (by decide) ?_
    rintro _ ⟨⟩ rfl
    exact hends '-' rfl (by decide)
  have hend : ∀ d ∈ t.head?, isWordChar d = false := by
    obtain ⟨d, x, rfl, -⟩ := htoken
    exact Spelled.head_of_apart hw (List.cons_ne_nil d x) hapart
  rw [ht]
  cases hmatch : grammar.matchExpr (.rule .modifier) .spaced (w ++ t) with
  | none => rfl
  | some found =>
      have hmodifier : IsWord .modifier Rule.modifierWords := ⟨rfl, rfl⟩
      obtain ⟨word, hmem, heq, hstop⟩ := word_of_rule hmodifier hmatch
      have hchars : ∀ word ∈ Rule.modifierWords,
          (∀ c ∈ word.toList, isWordChar c = true) ∨ word = "non-sealed" := by decide
      rcases hchars word hmem with hchars | rfl
      · exact absurd (run_unique heq hw hchars hend hstop).1.symm (hnot word hmem)
      · obtain ⟨-, rfl⟩ := run_unique (w := w) (v := "non".toList) heq hw (by decide) hend (by
          rintro _ ⟨⟩
          rfl)
        exact absurd rfl (hsign '-' rfl)

/-- A word that is no modifier begins none, and no annotation either. -/
theorem refuses_modifiers (htoken : IsToken w) (hw : ∀ c ∈ w, isWordChar c = true)
    (hnot : ∀ word ∈ Rule.modifierWords, word.toList ≠ w) (hv : EndsType v) :
    grammar.Refuses isWordChar (.choice [.rule .annotationUse, .rule .modifier]) (w :: v :: rest) := by
  refine Refuses.choice fun e he => ?_
  simp only [List.mem_cons, List.not_mem_nil, or_false] at he
  rcases he with rfl | rfl
  · refine Refuses.rule spaced rfl (refuses_text spaced htoken ?_ []).both
    rintro c hc rfl
    cases hw '@' (List.mem_of_mem_head? hc)
  · exact refuses_modifier htoken hw hnot hv

/-- Nothing stands in front of the type if its first word is no modifier. -/
theorem takes_modifiers
    (h : grammar.Refuses isWordChar (.choice [.rule .annotationUse, .rule .modifier]) rest) :
    grammar.Takes isWordChar (.rule .modifiers) [] [] rest :=
  Takes.hidden spaced rfl rfl (Refuses.star spaced rfl h)

/-- A type ends with its word. -/
theorem takes_typeRef (hv : EndsType v)
    (h : grammar.Takes isWordChar (.choice [.rule .primitiveType, .rule .classType]) [w] []
      (v :: rest)) : grammar.Takes isWordChar (.rule .typeRef) [w] [] (v :: rest) := by
  have hdims : grammar.Refuses isWordChar (.rule .dims) (v :: rest) :=
    .rule spaced rfl (hv.refuses spaced (by decide) []).both.both
  exact Takes.hidden (r := .typeRef) spaced rfl rfl (h.both (hdims.opt spaced))

/-- The word of a type is read in front of anything that is no part of it. -/
theorem takes_typeWord (hw : w = "int".toList ∨ isName w = true) (hv : EndsWord v) :
    grammar.Takes isWordChar (.choice [.rule .primitiveType, .rule .classType]) [w] []
      (v :: rest) := by
  have hprimitive : IsWord .primitiveType Rule.primitiveTypes := ⟨rfl, rfl⟩
  rcases hw with rfl | hw
  · have htype : grammar.Takes isWordChar (.rule .primitiveType) ["int".toList] [] (v :: rest) :=
      takes_word spaced hprimitive takesChar_identChar (by decide) (by decide) nofun nofun
        (by decide) ⟨'i', _, rfl, by decide⟩
    exact htype.left
  · obtain ⟨htoken, hleaves⟩ := readsName hw
    obtain ⟨-, hchars, hkeyword⟩ := isName_iff.1 hw
    have hwords : ∀ word ∈ Rule.primitiveTypes, word ∈ Rule.keywords := by decide
    have hfirst : grammar.Refuses isWordChar (.rule .primitiveType) ([w] ++ v :: rest) :=
      refuses_word spaced hprimitive takesChar_identChar (by decide) htoken hchars
        fun word hword => hkeyword word (hwords word hword)
    have hname : grammar.Takes isWordChar (.rule .identifier) [w] [] (v :: rest) :=
      takes_token spaced rfl nofun nofun htoken hleaves
    have harguments : grammar.Refuses isWordChar (.rule .typeArguments) (v :: rest) :=
      .rule spaced rfl (hv.refuses spaced (by decide) []).both
    have hclass : grammar.Takes isWordChar (.rule .classType) [w] [] (v :: rest) :=
      Takes.hidden (r := .classType) spaced rfl rfl
        (hname.both ((harguments.opt spaced).both (Refuses.star spaced rfl
          (hv.refuses spaced (by decide) []).both)))
    exact hclass.right hfirst

/-- The type of integers. -/
theorem takes_int (hv : EndsType v) :
    grammar.Takes isWordChar (.both (.rule .modifiers) (.rule .typeRef)) ["int".toList] []
      (v :: rest) := by
  have hmodifier : grammar.Refuses isWordChar (.choice [.rule .annotationUse, .rule .modifier])
      ("int".toList :: v :: rest) :=
    refuses_modifiers ⟨'i', _, rfl, by decide⟩ (by decide) (by decide) hv
  exact (takes_modifiers hmodifier).both (takes_typeRef hv (takes_typeWord (.inl rfl) hv.endsWord))

/-- A name is a type. -/
theorem takes_typeName (hw : isName w = true) (hv : EndsType v) :
    grammar.Takes isWordChar (.rule .typeRef) [w] [] (v :: rest) :=
  takes_typeRef hv (takes_typeWord (.inr hw) hv.endsWord)

/-- Names are written as they are, and the boundary sees them. -/
theorem spelling : grammar.Spelling isWordChar .groupPiece .declaratorBoundary declared
    (fun w : { w : List Char // isName w = true } => [w.1]) (·.1) fun _ => true where
  heads w _ hc _ := takes_declared w.2 (endsType_sign hc)
  sees w _ := sees_name w.2
  hides _ h := nomatch h

/-- A field is matched to its end and declares what is written. -/
theorem match_field {fronts : List (List Char)} {d : Declarator { w : List Char // isName w = true }}
    {ds : List (Declarator { w : List Char // isName w = true })}
    (hfront : grammar.Takes isWordChar (.both (.rule .modifiers) (.rule .typeRef)) fronts []
      (d.tokens (fun w => [w.1]) ++ Declarator.moreTokens (fun w => [w.1]) ds))
    (hs : Spelled isWordChar
      (fronts ++ (d.tokens (fun w => [w.1]) ++ Declarator.moreTokens (fun w => [w.1]) ds)) s) :
    ∃ f, grammar.matchExpr (grammar.body .fieldDeclaration) .spaced (grammar.between .spaced s) =
        some ([], f) ∧ Shows (fun _ => true) (·.1) false (d :: ds) (grammar.views f) := by
  have hsummarized := summarized_of_fits fits_summary
  obtain ⟨f, hmatch, hshows⟩ := readsDeclarators.match_declaration spelling hfront
    (fun _ _ _ => declared_of_namesOnly hsummarized rfl) hs
  exact ⟨f, matchExpr_assoc.symm.trans hmatch, hshows⟩

end Java

namespace CSharp

open Grammar SnippetGrammar

variable {v w s : List Char} {rest : List (List Char)}

theorem spaced : grammar.Spaced where
  ranked := ranked
  layout := regular.layout
  blank s h := if_pos h
  solid := by
    intro c s hblank hc
    have hnone : trivia.blank (c :: s) = none := if_neg (by rw [hblank]; decide)
    have hdirective : Text.directive? (c :: s) = none := by
      cases hdirective : Text.directive? (c :: s) with
      | none => rfl
      | some t =>
          obtain ⟨u, heq, -⟩ := Text.directive?_eq_some hdirective
          exact absurd (List.mem_cons_of_mem '/' List.mem_cons_self) ((List.cons.inj heq).1 ▸ hc)
    show trivia.piece? (c :: s) = none
    rw [Trivia.piece?, hnone]
    show (Lexical.comment _).or _ = none
    rw [Lexical.comment_eq_none (fun h => hc (by simp [h])), Option.none_or, hdirective]

theorem readsValues : grammar.ReadsValues group .groupPiece literals .declaratorBoundary .initPiece where
  toBalances := balances
  literal := by
    intro w s hne hw hs
    refine List.findSome?_eq_none_iff.2 fun r hr => (leaves_rule ranked ?_ _).trans ?_
    · revert r
      decide
    · obtain ⟨c, u, rfl⟩ := List.exists_cons_of_ne_nil hne
      have hc := hw c List.mem_cons_self
      simp only [List.mem_cons, List.not_mem_nil, or_false, not_or] at hc
      simp only [literals, List.mem_cons, List.not_mem_nil, or_false] at hr
      rcases hr with rfl | rfl | rfl | rfl
      · exact leaves_prefixed_none (leaves_oneOf ["@$", "$@", "@"]) (by decide) (by decide) hne hw hs
      · have hdollar : ∀ s t, grammar.leaves (.opt "$") s = some t →
            ∃ word ∈ [[], ['$']], s = word ++ t := leaves_opt fun s t h => by
          rw [leaves_text] at h
          exact ⟨_, List.mem_singleton_self _, Text.after?_eq_some_iff.1 h⟩
        exact leaves_prefixed_none hdollar (by decide) (by decide) hne hw hs
      · exact leaves_sign_none hc.2.1 _ _ _
      · exact leaves_commentText_none hc.2.2 _
  signs_begin := by decide
  boundary_begins s hc := (leaves_rule ranked rfl _).trans (leaves_sign_none hc _ s _)
  layout_initPiece := rfl
  body_initPiece := rfl
  consumes_initPiece := rfl

theorem readsDeclarators : grammar.ReadsDeclarators group .groupPiece literals .declaratorBoundary
    .initPiece .initializer .variableDeclarator (.rule .declName) where
  toReadsValues := readsValues
  spaced := spaced
  layout_init := rfl
  role_init := rfl
  body_init := rfl
  layout_declarator := rfl
  role_declarator := rfl
  body_declarator _ := rfl

/-- The text is a name, perhaps behind an at sign. -/
def isName : List Char → Bool
  | '@' :: w => Grammar.isName beginsName isWordChar Rule.keywords w
  | w => Grammar.isName beginsName isWordChar Rule.keywords w

/-- A name is a plain one, or that behind an at sign. -/
theorem isName_iff : isName w = true ↔
    ∃ v, (w = v ∨ w = '@' :: v) ∧ Grammar.isName beginsName isWordChar Rule.keywords v = true := by
  constructor
  · intro h
    unfold isName at h
    split at h
    · exact ⟨_, .inr rfl, h⟩
    · exact ⟨_, .inl rfl, h⟩
  · rintro ⟨v, rfl | rfl, h⟩
    · obtain ⟨⟨c, u, rfl, hc⟩, -⟩ := Grammar.isName_iff.1 h
      rw [isName]
      · exact h
      · rintro w heq
        rw [(List.cons.inj heq).1] at hc
        cases hc
    · exact h

theorem readsName (hw : isName w = true) : grammar.ReadsName isWordChar .identifier w := by
  obtain ⟨v, hv, hname⟩ := isName_iff.1 hw
  obtain ⟨⟨c, u, rfl, hc⟩, hchars, -⟩ := Grammar.isName_iff.1 hname
  have hkeyword : IsWord .keyword Rule.keywords := ⟨rfl, rfl⟩
  have hplain : ∀ t, (∀ d ∈ t.head?, isWordChar d = false) → grammar.leaves (.seq [.notAhead
      (.rule .keyword), .choice [Lexical.letter, "_"], .star Rule.identChar]) (c :: u ++ t) =
      some t := fun t ht =>
    leaves_eq_some_iff.2 ⟨.nil, match_of_name ranked takesChar_identChar rfl takesChar_beginsName
      hkeyword keywords_chars hname ht⟩
  have hlast : w.getLast? = (c :: u).getLast? := by
    rcases hv with rfl | rfl
    · rfl
    · rw [List.getLast?_cons_cons]
  refine ⟨?_, fun t ht => ?_⟩
  · rcases hv with rfl | rfl
    · exact ⟨c, u, rfl, isSolid_of_class beginsName (by decide) hc⟩
    · exact ⟨'@', c :: u, rfl, by decide⟩
  · rw [hlast] at ht
    have hend := Spelled.head_of_apart hchars (List.cons_ne_nil c u) ht
    rw [leaves_rule ranked rfl]
    show grammar.leaves (.both (.opt "@") _) _ = _
    rw [leaves_both]
    rcases hv with rfl | rfl
    · have hnone : grammar.matchExpr "@" .token (c :: u ++ t) = none :=
        matchExpr_text_ne (by rintro rfl; cases hc) [] (u ++ t)
      rw [leaves, matchExpr_opt_none hnone]
      exact hplain t hend
    · exact hplain t hend

theorem takes_declared (hw : isName w = true) :
    grammar.Takes isWordChar (.rule .declName) [w] [w] rest := by
  obtain ⟨htoken, hleaves⟩ := readsName hw
  exact takes_name spaced rfl rfl rfl rfl htoken hleaves

theorem sees_name (hw : isName w = true) : grammar.Sees isWordChar .declaratorBoundary [w] := by
  refine SnippetGrammar.sees_name spaced rfl rfl (readsName hw) fun c hc z => ?_
  simp only [List.mem_cons, List.not_mem_nil, or_false] at hc
  rcases hc with rfl | rfl | rfl <;> rfl

/-! ## The type of a field -/

/-- A name begins with an at sign or as a plain name does. -/
theorem head_of_name (hv : isName v = true) : ∀ c ∈ v.head?, c = '@' ∨ beginsName c = true := by
  obtain ⟨v, rfl | rfl, hname⟩ := isName_iff.1 hv
  · obtain ⟨⟨c, u, rfl, hc⟩, -⟩ := Grammar.isName_iff.1 hname
    rintro _ ⟨⟩
    exact .inr hc
  · rintro _ ⟨⟩
    exact .inl rfl

theorem endsType_of_name (hv : isName v = true) : EndsType v := by
  refine ⟨(readsName hv).1, fun c hc => ?_⟩
  rcases head_of_name hv c hc with rfl | hbegins
  · decide
  · exact not_mem_of_class beginsName (by decide) hbegins

/-- Modifiers are words, and what is around them is a group. -/
theorem refuses_modifiers (htoken : IsToken w) (hw : ∀ c ∈ w.head?, c ≠ '[')
    (hnot : grammar.Refuses isWordChar (.rule .modifier) (w :: rest)) :
    grammar.Refuses isWordChar (.choice [.rule .attributeSection, .rule .modifier]) (w :: rest) := by
  refine Refuses.choice fun e he => ?_
  simp only [List.mem_cons, List.not_mem_nil, or_false] at he
  rcases he with rfl | rfl
  · refine refuses_of_begins (n := 2) spaced htoken fun c hc => Bool.eq_false_iff.2 fun hbegins => ?_
    exact hw c hc (Expr.eq_of_begins hbegins)
  · exact hnot

/-- Nothing stands in front of the type if its first word is no modifier. -/
theorem takes_modifiers
    (h : grammar.Refuses isWordChar (.choice [.rule .attributeSection, .rule .modifier]) rest) :
    grammar.Takes isWordChar (.rule .modifiers) [] [] rest :=
  Takes.hidden spaced rfl rfl (Refuses.star spaced rfl h)

/-- A type ends with its word. -/
theorem takes_typeRef (hv : EndsType v)
    (h : grammar.Takes isWordChar (.choice [.rule .tupleType, .rule .primitiveType,
      .rule .classType]) [w] [] (v :: rest)) :
    grammar.Takes isWordChar (.rule .typeRef) [w] [] (v :: rest) := by
  have hnullable : grammar.Refuses isWordChar "?" (v :: rest) := hv.refuses spaced (by decide) []
  have hrank : grammar.Refuses isWordChar (.rule .rank) (v :: rest) :=
    .rule spaced rfl (hv.refuses spaced (by decide) []).both
  exact Takes.hidden (r := .typeRef) spaced rfl rfl
    (h.both ((hnullable.opt spaced).both (Refuses.star spaced rfl hrank.both)))

theorem isWord_modifier : IsWord .modifier Rule.modifierWords := ⟨rfl, rfl⟩

/-- A name behind an at sign is no word. -/
theorem refuses_names {r : Rule} {words : List String} (hr : IsWord r words)
    (hwords : ∀ word ∈ words, ∀ c ∈ word.toList, isWordChar c = true)
    (hat : grammar.firsts 1 r '@' = false) (hw : isName w = true)
    (hnot : ∀ word ∈ words, word.toList ≠ w) : grammar.Refuses isWordChar (.rule r) (w :: rest) := by
  obtain ⟨htoken, -⟩ := readsName hw
  obtain ⟨v, rfl | rfl, hname⟩ := isName_iff.1 hw
  · exact refuses_word spaced hr takesChar_identChar hwords htoken (Grammar.isName_iff.1 hname).2.1 hnot
  · refine refuses_of_begins (n := 1) spaced htoken ?_
    rintro _ ⟨⟩
    exact hat

theorem head_ne_of_name {d : Char} (hv : isName v = true) (hd : d ∈ ['[', '(']) :
    ∀ c ∈ v.head?, c ≠ d := by
  rintro c hc rfl
  rcases head_of_name hv c hc with rfl | hbegins
  · simp at hd
  · exact not_mem_of_class beginsName (by decide) hbegins hd

/-- The word of a type is read in front of anything that is no part of it. -/
theorem takes_typeWord (hw : w = "int".toList ∨ isName w = true) (hv : EndsWord v) :
    grammar.Takes isWordChar (.choice [.rule .tupleType, .rule .primitiveType, .rule .classType]) [w]
      [] (v :: rest) := by
  rcases hw with rfl | hw
  · have htoken : IsToken "int".toList := ⟨'i', _, rfl, by decide⟩
    have htuple : grammar.Refuses isWordChar (.rule .tupleType) (["int".toList] ++ v :: rest) :=
      .rule spaced rfl (refuses_text spaced htoken (by decide) []).both
    have htype : grammar.Takes isWordChar (.rule .primitiveType) ["int".toList] [] (v :: rest) :=
      takes_word spaced isWord_primitive takesChar_identChar (by decide) (by decide) nofun nofun
        (by decide) htoken
    exact htype.left.right htuple
  · obtain ⟨htoken, hleaves⟩ := readsName hw
    have htuple : grammar.Refuses isWordChar (.rule .tupleType) ([w] ++ v :: rest) :=
      .rule spaced rfl (refuses_text spaced htoken (head_ne_of_name hw (by decide)) []).both
    have hname : grammar.Takes isWordChar (.rule .identifier) [w] [] (v :: rest) :=
      takes_token spaced rfl nofun nofun htoken hleaves
    have harguments : grammar.Refuses isWordChar (.rule .typeArguments) (v :: rest) :=
      .rule spaced rfl (hv.refuses spaced (by decide) []).both
    have hqualified : grammar.Refuses isWordChar (.seq [.choice [".", "::"], .rule .identifier,
        .opt (.rule .typeArguments)]) (v :: rest) := by
      refine Refuses.both (Refuses.choice fun e he => ?_)
      simp only [List.mem_cons, List.not_mem_nil, or_false] at he
      rcases he with rfl | rfl
      · exact hv.refuses spaced (by decide) []
      · exact hv.refuses spaced (by decide) [':']
    have hclass : grammar.Takes isWordChar (.rule .classType) [w] [] (v :: rest) :=
      Takes.rule (r := .classType) spaced rfl rfl
        (hname.both ((harguments.opt spaced).both (Refuses.star spaced rfl hqualified)))
    -- One name of a predefined type is no keyword.
    have htype : grammar.Takes isWordChar (.choice [.rule .primitiveType, .rule .classType]) [w] []
        (v :: rest) := by
      by_cases hprimitive : ∃ word ∈ Rule.primitiveTypes, word.toList = w
      · obtain ⟨word, hword, rfl⟩ := hprimitive
        have hwords : ∀ word ∈ Rule.primitiveTypes, ∀ c ∈ word.toList, isWordChar c = true := by
          decide
        exact (takes_word spaced isWord_primitive takesChar_identChar (fun v hv _ => hwords v hv)
          (by decide) nofun nofun hword htoken).left
      · exact hclass.right (refuses_names isWord_primitive (by decide) (by decide) hw
          fun word hword heq => hprimitive ⟨word, hword, heq⟩)
    exact htype.right htuple

/-- The type of integers. -/
theorem takes_int (hv : EndsType v) :
    grammar.Takes isWordChar (.both (.rule .modifiers) (.rule .typeRef)) ["int".toList] []
      (v :: rest) := by
  have htoken : IsToken "int".toList := ⟨'i', _, rfl, by decide⟩
  have hmodifier : grammar.Refuses isWordChar (.rule .modifier) ("int".toList :: v :: rest) :=
    refuses_word spaced isWord_modifier takesChar_identChar (by decide) htoken (by decide) (by decide)
  exact (takes_modifiers (refuses_modifiers htoken (by decide) hmodifier)).both
    (takes_typeRef hv (takes_typeWord (.inl rfl) hv.endsWord))

/-- A name is a type. -/
theorem takes_typeName (hw : isName w = true) (hv : EndsType v) :
    grammar.Takes isWordChar (.rule .typeRef) [w] [] (v :: rest) :=
  takes_typeRef hv (takes_typeWord (.inr hw) hv.endsWord)

/-- Names are written as they are, and the boundary sees them. -/
theorem spelling : grammar.Spelling isWordChar .groupPiece .declaratorBoundary (.rule .declName)
    (fun w : { w : List Char // isName w = true } => [w.1]) (·.1) fun _ => true where
  heads w _ _ _ := takes_declared w.2
  sees w _ := sees_name w.2
  hides _ h := nomatch h

/-- A field is matched to its end and declares what is written. -/
theorem match_field {fronts : List (List Char)} {d : Declarator { w : List Char // isName w = true }}
    {ds : List (Declarator { w : List Char // isName w = true })}
    (hfront : grammar.Takes isWordChar (.both (.rule .modifiers) (.rule .typeRef)) fronts []
      (d.tokens (fun w => [w.1]) ++ Declarator.moreTokens (fun w => [w.1]) ds))
    (hs : Spelled isWordChar
      (fronts ++ (d.tokens (fun w => [w.1]) ++ Declarator.moreTokens (fun w => [w.1]) ds)) s) :
    ∃ f, grammar.matchExpr (grammar.body .fieldDeclaration) .spaced (grammar.between .spaced s) =
        some ([], f) ∧ Shows (fun _ => true) (·.1) false (d :: ds) (grammar.views f) := by
  have hsummarized := summarized_of_fits fits_summary
  obtain ⟨f, hmatch, hshows⟩ := readsDeclarators.match_declaration spelling hfront
    (fun _ _ _ => declared_of_namesOnly hsummarized rfl) hs
  exact ⟨f, matchExpr_assoc.symm.trans hmatch, hshows⟩

end CSharp

end FeatureTree
