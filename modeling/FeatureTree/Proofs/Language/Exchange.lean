import FeatureTree.Proofs.Exchange.Declarators
import FeatureTree.Proofs.Exchange.Front
import FeatureTree.Proofs.Language.Brackets
import FeatureTree.Proofs.Language.CSharpMembers
import FeatureTree.Proofs.Language.Members

/-!
# Comments for blanks in Java, C# and C

What is in front of the first initializer is read alike by the general theorem on steady
expressions, once the rules are listed there that need a reason of their own (`front`):
names, groups, and in C attributes. A boundary in front of another declarator is different.
It skips blanks only, and then its end has to be seen, so what is known is that a boundary in
front of the comment is one in front of the blank as well (`follows_boundary`). The attributes
of C skip blanks in the same way, and there the converse is asked for (`C.KeepsAttributes`).
-/

namespace FeatureTree

namespace Java

open Grammar

variable {x : Exchange} {r : Rule} {l : Layout} {s s' t : List Char} {c : Char}

/-- The signs of a field. -/
def signs : List Char := "@.<>,?[](){}=;-".toList

theorem commented : grammar.Commented isWordChar signs group .groupPiece literals where
  toBalances := balances
  blank s h := if_pos h
  blank_slash s := rfl
  comment h := h
  not_single := by decide
  signs_begin := by decide
  blanks_plain := by decide
  brackets := by decide
  slash := ⟨[.textBlock, .stringLit, .charLit], .commentText, rfl, by decide, rfl, rfl⟩

/-- In a text without quotes and slashes something may be read everywhere. -/
theorem closed_of_plain {text : List Char} (hx : x.Place = (· <:+ text))
    (hplain : ∀ c ∈ text, c ≠ '/' ∧ ∀ r ∈ literals, grammar.firsts 1 r c = false) :
    x.Closed (grammar.firstLiteral? literals) grammar.trivia isWordChar := by
  have hsuffix : ∀ {c y}, x.Place (c :: y) → x.Place y ∧ c ∈ text := by
    intro c y hy
    rw [hx] at hy ⊢
    exact ⟨(List.suffix_cons c y).trans hy, hy.subset List.mem_cons_self⟩
  refine ⟨?_, ?_, ?_, fun hy _ => (hsuffix hy).1⟩
  · rintro (_ | ⟨c, y⟩) hy hne
    · exact absurd rfl hne
    · have hnone : ∀ s, grammar.firstLiteral? literals (c :: s) = none := fun _ =>
        firstLiteral_none ranked (hplain c (hsuffix hy).2).2
      show x.Alike (grammar.firstLiteral? literals (c :: x.source y))
        (grammar.firstLiteral? literals (c :: x.target y))
      rw [hnone, hnone]
      exact .none
  · rintro (_ | ⟨c, y⟩) hy hne
    · exact absurd rfl hne
    · show x.Alike (if Text.isBlank c = true then _ else _) (if Text.isBlank c = true then _ else _)
      split
      · exact .some (.front (hsuffix hy).1)
      · exact .none
  · rintro (_ | ⟨c, y⟩) hy hne
    · exact absurd rfl hne
    · have hnone : ∀ s, Lexical.comment (c :: s) = none := by
        intro s
        cases hcomment : Lexical.comment (c :: s) with
        | none => rfl
        | some u =>
            obtain ⟨_, hslash⟩ := Lexical.comment_head hcomment
            exact absurd (List.cons.inj hslash).1 (hplain c (hsuffix hy).2).1
      show x.Alike (Lexical.comment (c :: x.source y)) (Lexical.comment (c :: x.target y))
      rw [hnone, hnone]
      exact .none

section Exchange

variable (hx : x.IsComment)
  (hclosed : x.Closed (grammar.firstLiteral? literals) grammar.trivia isWordChar)

include hx hclosed

theorem front : grammar.Front x (isSingle isWordChar signs) Rule.identChar
    [.modifiers, .annotationUse, .qualifiedName, .typeRef, .classType, .typeArguments,
      .typeArgument, .dims, .declName]
    [.modifier, .primitiveType, .kwExtends, .kwSuper, .kwInterface, .keyword]
    [.identifier, .parenGroup] where
  made := by decide
  spelled := by
    intro r hr
    simp only [List.mem_cons, List.not_mem_nil, or_false] at hr
    rcases hr with rfl | rfl | rfl | rfl | rfl | rfl <;> exact ⟨_, rfl, by decide⟩
  char := ⟨fun d hd => by simp [isSingle, isWordChar, show d.isAlphanum = true from hd], rfl, rfl⟩
  named r hr hrole := by
    obtain rfl : r = .declName := by cases r <;> first | rfl | cases hrole
    refine commented.nameIsClear hx (fun l s t f hmatch => ?_) hrole
    obtain ⟨inner, hbody⟩ := body_of_match hmatch
    obtain ⟨-, w, hw, hchars, -⟩ := run_of_identifier hbody
    exact ⟨w, hw, fun c hc => .inl (hchars c hc)⟩
  other := by
    intro r hr
    simp only [List.mem_cons, List.not_mem_nil, or_false] at hr
    rcases hr with rfl | rfl
    · refine .inr ⟨rfl, ⟨?_, rfl, rfl⟩, rfl, ?_, rfl, rfl⟩
      · intro d hd
        simp [isSingle, isWordChar, Char.isAlphanum, show d.isAlpha = true from hd]
      · intro d hd
        simp [isSingle, isWordChar, show d.isAlphanum = true from hd]
    · left
      intro l s s' h
      exact .token ranked regular.layout rfl (by decide)
        ((commented.exchangesGroups hx hclosed).leaves_group .paren h)

theorem follows_boundary : grammar.Follows x (.rule .declaratorBoundary) := by
  have hgroups := commented.exchangesGroups hx hclosed
  have hsigns : ∀ {e : Expr Rule}, e.isSteady (isSingle isWordChar signs) grammar.consuming
      (fun _ => false) = true → e.begins (grammar.firsts 0) '/' = false → grammar.Follows x e :=
    fun he hbegins => hgroups.follows_signs hx he hbegins
  have hws := commented.kept_ws hx hclosed
  have hname : grammar.Follows x (.rule .identifier) :=
    .of_alike (n := 2) ranked hx (by decide) fun s s' hrest =>
      (front hx hclosed).alike hgroups.toExchanges (by decide) hrest
  have hdims : grammar.Kept x (.seq ["[", .star Lexical.ws, "]", .star Lexical.ws]) :=
    (hsigns (e := "[") rfl rfl).kept.both (hws.both ((hsigns (e := "]") rfl rfl).kept.both hws))
  have hend : grammar.Follows x (.choice ["=", ",", ";"]) := hsigns rfl rfl
  refine .rule ranked rfl (.both (hsigns (e := ",") rfl rfl).kept (.both hws (.both hname.kept
    (.both hws (.star (n := 0) ranked hdims rfl hend fun c hc => ?_)))))
  obtain rfl := Expr.eq_of_begins hc
  rfl

theorem exchangesDeclarators : grammar.ExchangesDeclarators x (isSingle isWordChar signs)
    .declaratorBoundary .initPiece .initializer .variableDeclarator where
  toExchanges := (commented.exchangesGroups hx hclosed).toExchanges
  initializers := (commented.exchangesGroups hx hclosed).initializers hx rfl rfl rfl
    (follows_boundary hx hclosed)
  layout_init := rfl
  role_init := rfl
  body_init := rfl
  layout_declarator := rfl
  role_declarator := rfl
  consumes := by decide
  signs := by decide

theorem carries_variableDeclarator :
    grammar.Carries x .declaratorBoundary (grammar.body .variableDeclarator) := by
  have hdeclarators := exchangesDeclarators hx hclosed
  have hsummarized := SnippetGrammar.summarized_of_fits fits_summary
  have halike : ∀ {e : Expr Rule}, e = .rule .declName ∨ e = .opt (.rule .dims) →
      ∀ s s', x.Rest s s' →
        grammar.Alike x (grammar.matchExpr e .spaced s) (grammar.matchExpr e .spaced s') := by
    rintro e (rfl | rfl) s s' hrest
    all_goals exact (front hx hclosed).alike_expr hdeclarators.toExchanges (by decide) hrest
  exact hdeclarators.carries_both (halike (.inl rfl))
    (fun _ _ _ => SnippetGrammar.bodies_of_namesOnly hsummarized rfl)
    (hdeclarators.carries_both (halike (.inr rfl))
      (fun _ _ _ => SnippetGrammar.bodies_of_namesOnly hsummarized rfl)
      hdeclarators.carries_value)

theorem carriesViews_fieldDeclaration :
    grammar.CarriesViews x .declaratorBoundary (grammar.body .fieldDeclaration) := by
  have hdeclarators := exchangesDeclarators hx hclosed
  have hsummarized := SnippetGrammar.summarized_of_fits fits_summary
  refine .behind hdeclarators.toExchanges (a := .rule Rule.modifiers) (fun s s' hrest => ?_)
    (fun _ _ _ => SnippetGrammar.declared_of_namesOnly hsummarized rfl)
    (.behind hdeclarators.toExchanges (a := .rule Rule.typeRef) (fun s s' hrest => ?_)
      (fun _ _ _ => SnippetGrammar.declared_of_namesOnly hsummarized rfl)
      (hdeclarators.carriesViews_list (carries_variableDeclarator hx hclosed)))
  · exact (front hx hclosed).alike_expr hdeclarators.toExchanges (by decide) hrest
  · exact (front hx hclosed).alike_expr hdeclarators.toExchanges (by decide) hrest

end Exchange

end Java

namespace CSharp

open Grammar

variable {x : Exchange} {r : Rule} {l : Layout} {s s' t z : List Char} {c : Char}

/-- The signs of a field. -/
def signs : List Char := "?,.:<>[](){}=;".toList

theorem commented : grammar.Commented isWordChar signs group .groupPiece literals where
  toBalances := balances
  blank s h := if_pos h
  blank_slash s := rfl
  comment h := by
    show (Lexical.comment _).or _ = _
    rw [h]
    rfl
  not_single := by decide
  signs_begin := by decide
  blanks_plain := by decide
  brackets := by decide
  slash := ⟨[.verbatimString, .stringLit, .charLit], .commentText, rfl, by decide, rfl, rfl⟩

theorem steady_identChar (ok : Rule → Bool) :
    Rule.identChar.Steady (isSingle isWordChar signs) grammar.consuming ok :=
  ⟨fun d hd => by simp [isSingle, isWordChar, show d.isAlphanum = true from hd], rfl⟩

/-- Behind an at sign that begins a literal stands a quote or the sign of interpolated strings. -/
theorem eq_cons_of_literal (h : grammar.firstLiteral? literals ('@' :: s) = some t) :
    ∃ c z, s = c :: z ∧ c ∈ ['"', '$'] := by
  obtain ⟨r, hr, hleaves⟩ := List.exists_of_findSome?_eq_some h
  obtain ⟨f, hmatch⟩ := leaves_eq_some_iff.1 hleaves
  have hfirst : r = .verbatimString := by
    have hothers : ∀ r ∈ literals, r ≠ .verbatimString → grammar.firsts 1 r '@' = false := by decide
    refine Decidable.byContradiction fun hne => ?_
    rw [leaves_none_of_begins (n := 1) (e := .rule r) ranked (hothers r hr hne)] at hleaves
    cases hleaves
  subst hfirst
  obtain ⟨inner, hbody, -⟩ := (matchRule_eq_some_iff ranked).1 hmatch
  obtain ⟨u, f₁, f₂, hprefix, hmore, -⟩ := matchExpr_both_iff.1 hbody
  obtain ⟨v, f₃, f₄, hquote, -⟩ := matchExpr_both_iff.1 hmore
  obtain ⟨hu, -⟩ := matchExpr_text_iff.1 hquote
  rw [Expr.oneOf, matchExpr_choice] at hprefix
  obtain ⟨e, he, htext⟩ := List.exists_of_findSome?_eq_some hprefix
  obtain ⟨word, hword, rfl⟩ := List.mem_map.1 he
  obtain ⟨heq, -⟩ := matchExpr_text_iff.1 htext
  simp only [List.mem_cons, List.not_mem_nil, or_false] at hword
  rcases hword with rfl | rfl | rfl
  · exact ⟨'$', u, (List.cons.inj heq).2, by decide⟩
  · cases (List.cons.inj heq).1
  · exact ⟨'"', v, (List.cons.inj heq).2.trans hu, by decide⟩

/-- A name without the at sign that it may begin with. -/
def plainName : Expr Rule :=
  .seq [.notAhead Rule.keyword, .choice [Lexical.letter, "_"], .star Rule.identChar]

section Exchange

variable (hx : x.IsComment)
  (hclosed : x.Closed (grammar.firstLiteral? literals) grammar.trivia isWordChar)

include hx hclosed

theorem plainName_alike (h : x.Rest s s') :
    x.Alike (grammar.leaves plainName s) (grammar.leaves plainName s') := by
  have hfront : grammar.Front x (isSingle isWordChar signs) Rule.identChar [] [.keyword] [] := by
    refine ⟨nofun, fun r hr => ?_, steady_identChar _, fun r hr hrole => ?_, nofun⟩
    · obtain rfl := List.mem_singleton.1 hr
      exact ⟨_, rfl, by decide⟩
    · obtain rfl := List.mem_singleton.1 hr
      cases hrole
  refine (hfront.alike_of_steady (commented.exchangesGroups hx hclosed).toExchanges ?_ h).leaves
  refine ⟨rfl, ⟨fun d hd => ?_, rfl⟩, rfl, steady_identChar _⟩
  simp [isSingle, isWordChar, Char.isAlphanum, show d.isAlpha = true from hd]

theorem plainName_alike_behind_at {y : List Char} (hy : x.Place ('@' :: y)) :
    x.Alike (grammar.leaves plainName (x.source y)) (grammar.leaves plainName (x.target y)) := by
  cases hliteral : grammar.firstLiteral? literals ('@' :: x.source y) with
  | none => exact plainName_alike hx hclosed (.front (hclosed.char hy (.inl hliteral)))
  | some u =>
      -- A literal stands there, so what is behind the at sign is no name.
      obtain ⟨c, z, hc, hsign⟩ := eq_cons_of_literal hliteral
      simp only [List.mem_cons, List.not_mem_nil, or_false] at hsign
      have hnone : ∀ z, grammar.leaves plainName (c :: z) = none := fun z =>
        leaves_none_of_begins (n := 0) ranked
          (by rcases hsign with rfl | rfl <;> rfl)
      cases y with
      | nil =>
          obtain ⟨d, hd, hsource⟩ := hx.source_nil
          obtain rfl : d = c := (List.cons.inj (hsource.symm.trans hc)).1
          rcases hsign with rfl | rfl <;> cases hd
      | cons d y =>
          obtain ⟨rfl, -⟩ := List.cons.inj hc
          rw [show x.source (d :: y) = d :: x.source y from rfl, hnone,
            show x.target (d :: y) = d :: x.target y from rfl, hnone]
          exact .none

theorem identifier_alike (h : x.Rest s s') :
    x.Alike (grammar.leaves (.rule .identifier) s) (grammar.leaves (.rule .identifier) s') := by
  have hbody : ∀ s, grammar.leaves (.rule .identifier) s =
      (grammar.leaves (.opt "@") s).bind (grammar.leaves plainName) := fun s => by
    rw [leaves_rule ranked rfl, ← leaves_both]
    rfl
  rw [hbody, hbody]
  cases h with
  | behind hu =>
      rw [← leaves_both]
      exact SnippetGrammar.leaves_behind ranked hu
  | @front y hy =>
      have hstays : ∀ z, z.head? ≠ some '@' → grammar.leaves (.opt "@") z = some z := by
        intro z hz
        rw [leaves, matchExpr_opt_none (matchExpr_text_none fun u hu => hz (by rw [hu]; rfl))]
        rfl
      cases y with
      | nil =>
          obtain ⟨c, hc, hsource⟩ := hx.source_nil
          obtain ⟨u, htarget, -⟩ := hx.target_nil
          have hne : c ≠ '@' := by rintro rfl; exact absurd hc (by decide)
          rw [hstays _ (by rw [hsource]; simpa using hne), hstays _ (by rw [htarget]; simp)]
          exact plainName_alike hx hclosed (.front hy)
      | cons c y =>
          by_cases hc : c = '@'
          · subst hc
            have htakes : ∀ z, grammar.leaves (.opt "@") ('@' :: z) = some z := fun _ => rfl
            rw [show x.source ('@' :: y) = '@' :: x.source y from rfl, htakes, Option.bind_some,
              show x.target ('@' :: y) = '@' :: x.target y from rfl, htakes, Option.bind_some]
            exact plainName_alike_behind_at hx hclosed hy
          · have hhead : (c :: x.source y).head? ≠ some '@' ∧
                (c :: x.target y).head? ≠ some '@' := by
              simpa using hc
            rw [show x.source (c :: y) = c :: x.source y from rfl, hstays _ hhead.1,
              show x.target (c :: y) = c :: x.target y from rfl, hstays _ hhead.2]
            exact plainName_alike hx hclosed (.front hy)

theorem front : grammar.Front x (isSingle isWordChar signs) Rule.identChar
    [.modifiers, .attributeSection, .typeRef, .tupleType, .tupleElement, .classType,
      .typeArguments, .rank, .declName]
    [.modifier, .primitiveType, .keyword]
    [.identifier, .brackGroup] where
  made := by decide
  spelled := by
    intro r hr
    simp only [List.mem_cons, List.not_mem_nil, or_false] at hr
    rcases hr with rfl | rfl | rfl <;> exact ⟨_, rfl, by decide⟩
  char := steady_identChar _
  named r hr hrole := by
    obtain rfl : r = .declName := by
      cases r <;> first | rfl | exact absurd hr (by decide) | cases hrole
    refine commented.nameIsClear hx (fun l s t f hmatch => ?_) hrole
    obtain ⟨inner, hbody, -⟩ := (matchRule_eq_some_iff ranked).1 hmatch
    obtain ⟨v, hv, -, w, rfl, hchars, -⟩ := run_of_identifier hbody
    rcases hv with rfl | rfl
    · exact ⟨w, rfl, fun c hc => .inl (hchars c hc)⟩
    · refine ⟨'@' :: w, rfl, fun c hc => ?_⟩
      exact (List.mem_cons.1 hc).symm.imp_left (hchars c)
  other := by
    intro r hr
    simp only [List.mem_cons, List.not_mem_nil, or_false] at hr
    rcases hr with rfl | rfl
    · exact .inl fun l s s' h => .token ranked regular.layout rfl (by decide)
        (identifier_alike hx hclosed h)
    · exact .inl fun l s s' h => .token ranked regular.layout rfl (by decide)
        ((commented.exchangesGroups hx hclosed).leaves_group .square h)

theorem follows_boundary : grammar.Follows x (.rule .declaratorBoundary) := by
  have hgroups := commented.exchangesGroups hx hclosed
  have hws := commented.kept_ws hx hclosed
  have hcomma : grammar.Follows x "," := hgroups.follows_signs hx rfl rfl
  have hname : grammar.Follows x (.rule .identifier) :=
    .of_alike (n := 2) ranked hx (by decide) fun s s' hrest =>
      (front hx hclosed).alike hgroups.toExchanges (by decide) hrest
  have hend : grammar.Follows x (.choice ["=", ",", ";"]) := hgroups.follows_signs hx rfl rfl
  exact .rule ranked rfl (.both hcomma.kept (.both hws (.both hname.kept (.both hws hend))))

theorem exchangesDeclarators : grammar.ExchangesDeclarators x (isSingle isWordChar signs)
    .declaratorBoundary .initPiece .initializer .variableDeclarator where
  toExchanges := (commented.exchangesGroups hx hclosed).toExchanges
  initializers := (commented.exchangesGroups hx hclosed).initializers hx rfl rfl rfl
    (follows_boundary hx hclosed)
  layout_init := rfl
  role_init := rfl
  body_init := rfl
  layout_declarator := rfl
  role_declarator := rfl
  consumes := by decide
  signs := by decide

theorem carriesViews_fieldDeclaration :
    grammar.CarriesViews x .declaratorBoundary (grammar.body .fieldDeclaration) := by
  have hdeclarators := exchangesDeclarators hx hclosed
  have hsummarized := SnippetGrammar.summarized_of_fits fits_summary
  have halike : ∀ r ∈ [Rule.declName, .modifiers, .typeRef], ∀ ⦃s s'⦄, x.Rest s s' →
      grammar.Alike x (grammar.matchExpr (.rule r) .spaced s)
        (grammar.matchExpr (.rule r) .spaced s') := by
    intro r hr s s' hrest
    refine (front hx hclosed).alike hdeclarators.toExchanges ?_ hrest
    revert r
    decide
  have hdeclarator : grammar.Carries x .declaratorBoundary (grammar.body .variableDeclarator) :=
    hdeclarators.carries_both (a := .rule Rule.declName) (halike .declName (by decide))
      (fun _ _ _ => SnippetGrammar.bodies_of_namesOnly hsummarized rfl) hdeclarators.carries_value
  exact .behind hdeclarators.toExchanges (a := .rule Rule.modifiers) (halike .modifiers (by decide))
    (fun _ _ _ => SnippetGrammar.declared_of_namesOnly hsummarized rfl)
    (.behind hdeclarators.toExchanges (a := .rule Rule.typeRef) (halike .typeRef (by decide))
      (fun _ _ _ => SnippetGrammar.declared_of_namesOnly hsummarized rfl)
      (hdeclarators.carriesViews_list hdeclarator))

end Exchange

end CSharp

namespace C

open Grammar

variable {x : Exchange} {r : Rule} {l : Layout} {s s' t : List Char} {c : Char} {f : Forest Rule}

/-- A character of a word. -/
def isWordChar (c : Char) : Bool := c.isAlphanum || c == '_'

theorem takesChar_identChar : grammar.TakesChar Rule.identChar isWordChar :=
  (takesChar_char _).either (takesChar_text '_')

/-- A name begins with it. -/
def beginsName (c : Char) : Bool := c.isAlpha || c == '_'

theorem takesChar_beginsName :
    grammar.TakesChar (Expr.choice [Lexical.letter, "_"]) beginsName :=
  (takesChar_char _).either (takesChar_text '_')

theorem isWordChar_of_beginsName (hc : beginsName c = true) : isWordChar c = true := by
  rw [beginsName, Bool.or_eq_true] at hc
  rw [isWordChar, Char.isAlphanum, Bool.or_eq_true, Bool.or_eq_true]
  exact hc.imp_left .inl

/-- A name is a run of word characters that is no keyword. -/
theorem run_of_identifier (h : grammar.matchRule .identifier l s = some (t, f)) :
    grammar.matchRule .keyword .token s = none ∧
      ∃ w, s = w ++ t ∧ (∀ c ∈ w, isWordChar c = true) ∧ ∀ c ∈ t.head?, isWordChar c = false := by
  obtain ⟨inner, hbody, -⟩ := (matchRule_eq_some_iff ranked).1 h
  obtain ⟨hkeyword, c, w, -, hrun⟩ := run_of_name ranked takesChar_identChar rfl
    takesChar_beginsName (fun _ => isWordChar_of_beginsName) hbody
  exact ⟨hkeyword, c :: w, hrun⟩

/-- The signs of a declaration. -/
def signs : List Char := "*,[](){}=;".toList

theorem commented : grammar.Commented isWordChar signs group .groupPiece literals where
  toBalances := balances
  blank s h := by
    show (Text.blank? _).or _ = _
    rw [Text.blank?, if_pos h]
    rfl
  blank_slash s := rfl
  comment h := by
    show (Lexical.comment _).or _ = _
    rw [h]
    rfl
  not_single := by decide
  signs_begin := by decide
  blanks_plain := by decide
  brackets := by decide
  slash := ⟨[.stringLit, .charLit], .commentText, rfl, by decide, rfl, rfl⟩

theorem steady_identChar (ok : Rule → Bool) :
    Rule.identChar.Steady (isSingle isWordChar signs) grammar.consuming ok :=
  ⟨fun d hd => by simp [isSingle, isWordChar, show d.isAlphanum = true from hd], rfl⟩

/-- An attribute that is read in front of the blank is read in front of the comment as well: the
blanks in an attribute cannot be comments. -/
def KeepsAttributes (x : Exchange) : Prop :=
  ∀ y, x.Place y → (grammar.leaves (.rule .attributeSpec) (x.source y)).isSome = true →
    (grammar.leaves (.rule .attributeSpec) (x.target y)).isSome = true

section Exchange

variable (hx : x.IsComment)
  (hclosed : x.Closed (grammar.firstLiteral? literals) grammar.trivia isWordChar)

include hx hclosed

theorem follows_attributeSpec : grammar.Follows x (.rule .attributeSpec) := by
  have hgroups := commented.exchangesGroups hx hclosed
  have hws := commented.kept_ws hx hclosed
  have hword : grammar.Follows x (.oneOf ["__attribute__", "__declspec"]) :=
    hgroups.follows_signs hx (by decide) (by decide)
  have hgroup : grammar.Follows x (.rule .parenGroup) :=
    .of_alike (n := 1) ranked hx (by decide) fun s s' hrest =>
      .token ranked regular.layout rfl (by decide) (hgroups.leaves_group .paren hrest)
  exact .rule ranked rfl (.both hword.kept (.both hws hgroup))

theorem attributeSpec_alike (hattributes : KeepsAttributes x) (h : x.Rest s s') :
    x.Alike (grammar.leaves (.rule .attributeSpec) s)
      (grammar.leaves (.rule .attributeSpec) s') := by
  have hfollows := follows_attributeSpec hx hclosed
  cases h with
  | behind hu => exact SnippetGrammar.leaves_behind ranked hu
  | @front y hy =>
      have hkeeps := hattributes y hy
      cases hs' : grammar.leaves (.rule .attributeSpec) (x.target y) with
      | none =>
          rw [hs'] at hkeeps
          cases hs : grammar.leaves (.rule .attributeSpec) (x.source y) with
          | none => exact .none
          | some t => rw [hs] at hkeeps; cases hkeeps rfl
      | some t' =>
          obtain ⟨t, hs, hrest⟩ := hfollows.follows (.front hy) hs'
          rw [hs]
          exact .some hrest

theorem front (hattributes : KeepsAttributes x) :
    grammar.Front x (isSingle isWordChar signs) Rule.identChar
      [.declarationSpecifiers, .specifierExtra, .typeCore, .structSpecifier, .enumSpecifier,
        .typedefName, .tagName, .structBody, .declarator, .directDeclarator, .declaratorSuffix,
        .pointer, .declName]
      [.storageClass, .typeQualifier, .functionSpecifier, .builtinType, .kwStruct, .kwUnion,
        .kwEnum, .keyword]
      [.identifier, .attributeSpec, .block, .parenGroup, .brackGroup] where
  made := by decide
  spelled := by
    intro r hr
    simp only [List.mem_cons, List.not_mem_nil, or_false] at hr
    rcases hr with rfl | rfl | rfl | rfl | rfl | rfl | rfl | rfl <;> exact ⟨_, rfl, by decide⟩
  char := steady_identChar _
  named r hr hrole := by
    obtain rfl : r = .declName := by cases r <;> first | rfl | cases hrole
    refine commented.nameIsClear hx (fun l s t f hmatch => ?_) hrole
    obtain ⟨inner, hbody, -⟩ := (matchRule_eq_some_iff ranked).1 hmatch
    obtain ⟨-, w, hw, hchars, -⟩ := run_of_identifier hbody
    exact ⟨w, hw, fun c hc => .inl (hchars c hc)⟩
  other := by
    have hgroups := commented.exchangesGroups hx hclosed
    intro r hr
    simp only [List.mem_cons, List.not_mem_nil, or_false] at hr
    rcases hr with rfl | rfl | rfl | rfl | rfl
    · refine .inr ⟨rfl, ⟨fun d hd => ?_, rfl⟩, rfl, steady_identChar _⟩
      simp [isSingle, isWordChar, Char.isAlphanum, show d.isAlpha = true from hd]
    · exact .inl fun l s s' h => .token ranked regular.layout rfl (by decide)
        (attributeSpec_alike hx hclosed hattributes h)
    · exact .inl fun l s s' h => .token ranked regular.layout rfl (by decide)
        (hgroups.leaves_group .brace h)
    · exact .inl fun l s s' h => .token ranked regular.layout rfl (by decide)
        (hgroups.leaves_group .paren h)
    · exact .inl fun l s s' h => .token ranked regular.layout rfl (by decide)
        (hgroups.leaves_group .square h)

theorem follows_boundary (hattributes : KeepsAttributes x) :
    grammar.Follows x (.rule .declaratorBoundary) := by
  have hgroups := commented.exchangesGroups hx hclosed
  have hws := commented.kept_ws hx hclosed
  have hcomma : grammar.Follows x "," := hgroups.follows_signs hx rfl rfl
  have hend : grammar.Follows x (.choice ["=", ",", ";"]) := hgroups.follows_signs hx rfl rfl
  have hstar : grammar.Follows x "*" := hgroups.follows_signs hx rfl rfl
  have hgroup : grammar.Follows x (.rule .brackGroup) :=
    .of_alike (n := 1) ranked hx (by decide) fun s s' hrest =>
      .token ranked regular.layout rfl (by decide) (hgroups.leaves_group .square hrest)
  have hname : grammar.Follows x (.rule .identifier) :=
    .of_alike (n := 2) ranked hx (by decide) fun s s' hrest =>
      (front hx hclosed hattributes).alike hgroups.toExchanges (by decide) hrest
  have hdims : grammar.Follows x (.both (.star (.seq [Rule.brackGroup, .star Lexical.ws]))
      (.choice ["=", ",", ";"])) := by
    refine .star (n := 1) ranked (hgroup.kept.both hws) rfl hend fun c hc => ?_
    obtain rfl := Expr.eq_of_begins (Bool.and_eq_true_iff.1 hc).1
    rfl
  have hpointers : grammar.Follows x (.both (.star (.seq ["*", .star Lexical.ws]))
      (.both (.rule .identifier) (.both (.star Lexical.ws) (.both
        (.star (.seq [Rule.brackGroup, .star Lexical.ws])) (.choice ["=", ",", ";"]))))) := by
    refine .star (n := 2) ranked (hstar.kept.both hws) rfl (.both hname.kept (.both hws hdims))
      fun c hc => ?_
    obtain rfl := Expr.eq_of_begins hc
    decide
  exact .rule ranked rfl (.both hcomma.kept (.both hws hpointers))

theorem exchangesDeclarators (hattributes : KeepsAttributes x) :
    grammar.ExchangesDeclarators x (isSingle isWordChar signs)
      .declaratorBoundary .initPiece .initializer .initDeclarator where
  toExchanges := (commented.exchangesGroups hx hclosed).toExchanges
  initializers := (commented.exchangesGroups hx hclosed).initializers hx rfl rfl rfl
    (follows_boundary hx hclosed hattributes)
  layout_init := rfl
  role_init := rfl
  body_init := rfl
  layout_declarator := rfl
  role_declarator := rfl
  consumes := by decide
  signs := by decide

theorem carriesViews_declaration (hattributes : KeepsAttributes x) :
    grammar.CarriesViews x .declaratorBoundary (grammar.body .declaration) := by
  have hdeclarators := exchangesDeclarators hx hclosed hattributes
  have hsummarized := SnippetGrammar.summarized_of_fits fits_summary
  have halike : ∀ e ∈ [.rule Rule.declarationSpecifiers, .rule .declarator,
      .star (.rule .attributeSpec)], ∀ ⦃s s'⦄, x.Rest s s' →
      grammar.Alike x (grammar.matchExpr e .spaced s) (grammar.matchExpr e .spaced s') := by
    intro e he s s' hrest
    refine (front hx hclosed hattributes).alike_expr hdeclarators.toExchanges ?_ hrest
    simp only [List.mem_cons, List.not_mem_nil, or_false] at he
    rcases he with rfl | rfl | rfl <;> decide
  have hdeclarator : grammar.Carries x .declaratorBoundary (grammar.body .initDeclarator) :=
    hdeclarators.carries_both (halike _ (by simp))
      (fun _ _ _ => SnippetGrammar.bodies_of_namesOnly hsummarized rfl)
      (hdeclarators.carries_both (halike _ (by simp))
        (fun _ _ _ => SnippetGrammar.bodies_of_namesOnly hsummarized rfl)
        hdeclarators.carries_value)
  have hlist := hdeclarators.carriesViews_list hdeclarator
  have hfirst := (hlist.assoc.behind hdeclarators.toExchanges
    (halike (.rule Rule.declarationSpecifiers) (by simp))
    (fun _ _ _ => SnippetGrammar.declared_of_namesOnly hsummarized rfl)).assoc
  exact hfirst.left fun _ _ _ => SnippetGrammar.declared_of_namesOnly hsummarized rfl

end Exchange

end C

end FeatureTree
