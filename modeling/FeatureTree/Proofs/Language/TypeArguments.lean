import FeatureTree.Proofs.Declarators.TypeArguments
import FeatureTree.Proofs.Language.Declarators

/-!
# Fields of a generic type in Java and C#

What names are to an initializer is told from the characters that they may have. A type whose name
is a word for a modifier is read as the modifier. The name behind it is the type then, or another
modifier, and there is nothing left that the field could declare (`match_none_of_modifier`).
-/

namespace FeatureTree

open scoped Tokens

/-- A type ends in front of an angle bracket that closes. -/
theorem endsType_angle (z : List Char) : EndsType ('>' :: z) := by
  refine ⟨⟨'>', z, rfl, by decide⟩, ?_⟩
  rintro _ ⟨⟩
  decide

namespace SnippetGrammar

open Grammar

variable {R : Type} {g : SnippetGrammar R} {isWordChar : Char → Bool} {modifiers typeRef declarator : R}
  {round e : Expr R} {w x s : List Char} {rest : List (List Char)}

/-- Behind a type that is read as a modifier no field is matched: what would be its name is the
type or another modifier. -/
theorem match_none_of_modifier (hg : g.Spaced) (hlayout : g.layout modifiers = .spaced)
    (hrole : g.role modifiers = .hidden) (hbody : g.body modifiers = .star round)
    (hconsumes : round.consumes g.consuming = true)
    (hw : g.Takes isWordChar round [w] [] (x :: ['='] :: rest))
    (hx : g.Takes isWordChar round [x] [] (['='] :: rest) ∨
      g.Refuses isWordChar round (x :: ['='] :: rest) ∧
        g.Takes isWordChar (.rule typeRef) [x] [] (['='] :: rest))
    (hstop : ∀ e ∈ [round, .rule typeRef, .rule declarator], g.Refuses isWordChar e (['='] :: rest))
    (hs : Spelled isWordChar (w :: x :: ['='] :: rest) s) :
    g.matchExpr (.seq [.rule modifiers, .rule typeRef, .rule declarator, e]) .spaced
      (g.between .spaced s) = none := by
  simp only [List.forall_mem_cons, List.not_mem_nil, false_implies, implies_true, and_true] at hstop
  obtain ⟨hround, htype, hdeclarator⟩ := hstop
  have htakes : ∀ {tokens rest}, g.TakesRounds isWordChar round rest tokens →
      g.Refuses isWordChar round rest → g.Takes isWordChar (.rule modifiers) tokens [] rest :=
    fun hrounds hend => Takes.hidden hg hlayout hrole
      (by rw [hbody]; exact hrounds.star hg hconsumes hend)
  obtain hx | ⟨hend, hx⟩ := hx
  · have hmodifiers : g.Takes isWordChar (.rule modifiers) ([w] ++ ([x] ++ [])) [] (['='] :: rest) :=
      htakes (.round hw (.round hx .stop)) hround
    exact hmodifiers.refuses htype.both hs
  · have hmodifiers : g.Takes isWordChar (.rule modifiers) ([w] ++ []) [] (x :: ['='] :: rest) :=
      htakes (.round hw .stop) hend
    exact hmodifiers.refuses (hx.refuses hdeclarator.both) hs

end SnippetGrammar

namespace Java

open Grammar SnippetGrammar

variable {v w x s : List Char} {rest : List (List Char)}

theorem boundary_angle (hw : isName w = true) (s : List Char) :
    grammar.leaves (.rule .declaratorBoundary) (',' :: ' ' :: (w ++ '>' :: s)) = none := by
  have hdims : (Expr.seq ["[", .star Lexical.ws, "]", .star Lexical.ws] : Expr Rule).begins
      (grammar.firsts 0) '>' = false := rfl
  have htail : grammar.leaves (.seq [.star (.seq ["[", .star Lexical.ws, "]", .star Lexical.ws]),
      .choice ["=", ",", ";"]]) ('>' :: s) = none := by
    rw [Expr.seq, leaves_both, leaves_star_of_none ranked rfl (leaves_none_of_begins ranked hdims),
      Option.bind_some]
    rfl
  have hnone : grammar.leaves (.rule .declaratorBoundary) (',' :: ([' '] ++ (w ++ '>' :: s))) = none :=
    boundary_none spaced rfl rfl (readsName hw) (by decide) (by decide) rfl htail
  exact hnone

theorem readsNames : grammar.ReadsNames isWordChar .groupPiece .declaratorBoundary declared isName where
  spelling := spelling
  isToken hw := (readsName hw).1
  solid hw c hc := (isSolid_of_class isWordChar (by decide) ((isName_iff.1 hw).2.1 c hc)).1
  unmarked hw := .of_class isWordChar (by decide) (isName_iff.1 hw).2.1
  takes_angle hw z _ := takes_declared hw (endsType_angle z)
  boundary_angle hw s := boundary_angle hw s

theorem refuses_named (hw : isName w = true) (hnot : ∀ word ∈ Rule.modifierWords, word.toList ≠ w)
    (hv : EndsType v) :
    grammar.Refuses isWordChar (.choice [.rule .annotationUse, .rule .modifier]) (w :: v :: rest) :=
  refuses_modifiers (readsName hw).1 (isName_iff.1 hw).2.1 hnot hv

/-- A name that is no modifier is read as the type. -/
theorem takes_named (hw : isName w = true) (hnot : ∀ word ∈ Rule.modifierWords, word.toList ≠ w)
    (hv : EndsType v) : grammar.Takes isWordChar (.both (.rule .modifiers) (.rule .typeRef)) [w] []
      (v :: rest) :=
  (takes_modifiers (refuses_named hw hnot hv)).both (takes_typeName hw hv)

/-- A name that is a modifier is read as one. -/
theorem takes_modifier (hw : isName w = true)
    (hmodifier : ∃ word ∈ Rule.modifierWords, word.toList = w) :
    grammar.Takes isWordChar (.choice [.rule .annotationUse, .rule .modifier]) [w] [] rest := by
  obtain ⟨word, hword, rfl⟩ := hmodifier
  have hsign : grammar.Refuses isWordChar (.rule .annotationUse) ([word.toList] ++ rest) := by
    refine Refuses.rule spaced rfl (refuses_text spaced (readsName hw).1 ?_ []).both
    rintro c hc rfl
    cases (isName_iff.1 hw).2.1 '@' (List.mem_of_mem_head? hc)
  have hwords : ∀ word ∈ Rule.modifierWords, (∀ c ∈ word.toList, isWordChar c = true) →
      ∀ v ∈ Rule.modifierWords, word.toList <+: v.toList → ∀ c ∈ v.toList, isWordChar c = true := by
    decide
  exact Takes.right hsign (takes_word spaced ⟨rfl, rfl⟩ takesChar_identChar
    (hwords word hword (isName_iff.1 hw).2.1) (by decide) nofun nofun hword (readsName hw).1)

/-- A field is not matched if its type is a modifier. -/
theorem match_field_none (hw : isName w = true) (hx : isName x = true)
    (hmodifier : ∃ word ∈ Rule.modifierWords, word.toList = w)
    (hs : Spelled isWordChar (w :: x :: ['='] :: rest) s) :
    grammar.matchExpr (grammar.body .fieldDeclaration) .spaced (grammar.between .spaced s) = none := by
  have hsign : EndsType ['='] := endsType_sign (by decide)
  refine match_none_of_modifier spaced rfl rfl rfl rfl (takes_modifier hw hmodifier) ?_ ?_ hs
  · by_cases hword : ∃ word ∈ Rule.modifierWords, word.toList = x
    · exact .inl (takes_modifier hx hword)
    · have hnot : ∀ word ∈ Rule.modifierWords, word.toList ≠ x :=
        fun word hmem heq => hword ⟨word, hmem, heq⟩
      exact .inr ⟨refuses_named hx hnot hsign, takes_typeName hx hsign⟩
  · intro e he
    refine refuses_of_begins (n := 4) spaced hsign.1 ?_
    rintro _ ⟨⟩
    simp only [List.mem_cons, List.not_mem_nil, or_false] at he
    rcases he with rfl | rfl | rfl <;> rfl

end Java

namespace CSharp

open Grammar SnippetGrammar

variable {v w x s : List Char} {rest : List (List Char)}

theorem boundary_angle (hw : isName w = true) (s : List Char) :
    grammar.leaves (.rule .declaratorBoundary) (',' :: ' ' :: (w ++ '>' :: s)) = none := by
  have hnone : grammar.leaves (.rule .declaratorBoundary) (',' :: ([' '] ++ (w ++ '>' :: s))) = none :=
    boundary_none spaced rfl rfl (readsName hw) (by decide) (by decide) rfl rfl
  exact hnone

/-- What a name may have in it. -/
theorem forall_mem_of_name {p : Char → Prop} (hw : isName w = true) (hat : p '@')
    (hchar : ∀ c, isWordChar c = true → p c) : ∀ c ∈ w, p c := by
  obtain ⟨v, rfl | rfl, hname⟩ := isName_iff.1 hw
  · exact fun c hc => hchar c ((Grammar.isName_iff.1 hname).2.1 c hc)
  · exact List.forall_mem_cons.2 ⟨hat, fun c hc => hchar c ((Grammar.isName_iff.1 hname).2.1 c hc)⟩

theorem readsNames : grammar.ReadsNames isWordChar .groupPiece .declaratorBoundary
    (.rule .declName) isName where
  spelling := spelling
  isToken hw := (readsName hw).1
  solid hw := forall_mem_of_name hw rfl fun c hc => (isSolid_of_class isWordChar (by decide) hc).1
  unmarked hw := .of_class (fun c => c == '@' || isWordChar c) (by decide)
    (forall_mem_of_name hw rfl fun c hc => by simp [hc])
  takes_angle hw z _ := takes_declared hw
  boundary_angle hw s := boundary_angle hw s

theorem refuses_named (hw : isName w = true) (hnot : ∀ word ∈ Rule.modifierWords, word.toList ≠ w) :
    grammar.Refuses isWordChar (.choice [.rule .attributeSection, .rule .modifier]) (w :: rest) :=
  refuses_modifiers (readsName hw).1 (head_ne_of_name hw (by decide))
    (refuses_names isWord_modifier (by decide) (by decide) hw hnot)

/-- A name that is no modifier is read as the type. -/
theorem takes_named (hw : isName w = true) (hnot : ∀ word ∈ Rule.modifierWords, word.toList ≠ w)
    (hv : EndsType v) : grammar.Takes isWordChar (.both (.rule .modifiers) (.rule .typeRef)) [w] []
      (v :: rest) :=
  (takes_modifiers (refuses_named hw hnot)).both (takes_typeName hw hv)

/-- A name that is a modifier is read as one. -/
theorem takes_modifier (hw : isName w = true)
    (hmodifier : ∃ word ∈ Rule.modifierWords, word.toList = w) :
    grammar.Takes isWordChar (.choice [.rule .attributeSection, .rule .modifier]) [w] [] rest := by
  obtain ⟨word, hword, rfl⟩ := hmodifier
  have htoken := (readsName hw).1
  have hsection : grammar.Refuses isWordChar (.rule .attributeSection) ([word.toList] ++ rest) := by
    refine refuses_of_begins (n := 2) spaced htoken fun c hc => Bool.eq_false_iff.2 fun hbegins => ?_
    exact head_ne_of_name (d := '[') hw (by decide) c hc (Expr.eq_of_begins hbegins)
  have hwords : ∀ word ∈ Rule.modifierWords, ∀ c ∈ word.toList, isWordChar c = true := by decide
  exact Takes.right hsection (takes_word spaced isWord_modifier takesChar_identChar
    (fun v hv _ => hwords v hv) (by decide) nofun nofun hword htoken)

/-- A field is not matched if its type is a modifier. -/
theorem match_field_none (hw : isName w = true) (hx : isName x = true)
    (hmodifier : ∃ word ∈ Rule.modifierWords, word.toList = w)
    (hs : Spelled isWordChar (w :: x :: ['='] :: rest) s) :
    grammar.matchExpr (grammar.body .fieldDeclaration) .spaced (grammar.between .spaced s) = none := by
  have hsign : EndsType ['='] := endsType_sign (by decide)
  refine match_none_of_modifier spaced rfl rfl rfl rfl (takes_modifier hw hmodifier) ?_ ?_ hs
  · by_cases hword : ∃ word ∈ Rule.modifierWords, word.toList = x
    · exact .inl (takes_modifier hx hword)
    · have hnot : ∀ word ∈ Rule.modifierWords, word.toList ≠ x :=
        fun word hmem heq => hword ⟨word, hmem, heq⟩
      exact .inr ⟨refuses_named hx hnot, takes_typeName hx hsign⟩
  · intro e he
    refine refuses_of_begins (n := 4) spaced hsign.1 ?_
    rintro _ ⟨⟩
    simp only [List.mem_cons, List.not_mem_nil, or_false] at he
    rcases he with rfl | rfl | rfl <;> rfl

end CSharp

end FeatureTree
