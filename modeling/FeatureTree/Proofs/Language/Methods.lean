import FeatureTree.Proofs.Declarators.Parameters
import FeatureTree.Proofs.Language.Declarators
import FeatureTree.Proofs.Language.SpecialNames

/-!
# Methods of Java and C#

A method is read part by part. The words of a language are told apart from names, and from the
words that only begin like them, where a name is read or refused; what remains is which optional
parts are left out in front of which sign.

In C# the word of an operator may run into its symbol, if that is a word too. Then the name of the
method is read as the name of an operator.
-/

namespace FeatureTree

open scoped Tokens

theorem endsWord_bracket : EndsWord ['['] := ⟨⟨'[', [], rfl, by decide⟩, by decide⟩

/-- Behind the name of a method or a parameter no type goes on. -/
theorem endsType_punctuation {c : Char} (hc : c ∈ ['(', ',', ')']) : EndsType [c] := by
  simp only [List.mem_cons, List.not_mem_nil, or_false] at hc
  rcases hc with rfl | rfl | rfl
  · exact ⟨⟨'(', [], rfl, by decide⟩, by decide⟩
  · exact ⟨⟨',', [], rfl, by decide⟩, by decide⟩
  · exact ⟨⟨')', [], rfl, by decide⟩, by decide⟩

/-- In front of the name of a parameter stands a bracket or nothing. -/
theorem rankTokens_follows {v : List Char} (hv : EndsWord v) (n : Nat) (rest : List (List Char)) :
    ∃ u more, rankTokens n ++ v :: rest = u :: more ∧ EndsWord u := by
  cases n with
  | zero => exact ⟨v, rest, rfl, hv⟩
  | succ n => exact ⟨['['], _, rfl, endsWord_bracket⟩

namespace SnippetGrammar

open Grammar

variable {R : Type} {g : SnippetGrammar R} {isWordChar : Char → Bool} {e : Expr R} {v : List Char}
  {rest : List (List Char)}

/-- Rounds that take a pair of brackets each. -/
theorem takesRounds_ranks (n : Nat) (hv : EndsWord v)
    (h : ∀ u more, EndsWord u → g.Takes isWordChar e [['['], [']']] [] (u :: more)) :
    g.TakesRounds isWordChar e (v :: rest) (rankTokens n) := by
  induction n with
  | zero => exact .stop
  | succ n ih =>
      obtain ⟨u, more, heq, hu⟩ := rankTokens_follows hv n rest
      have hround : g.Takes isWordChar e [['['], [']']] [] (rankTokens n ++ v :: rest) := by
        rw [heq]
        exact h u more hu
      exact .round hround ih

/-- An empty block is read up to its brace. -/
theorem ReadsValues.readsTo_emptyBlock {group : Bracket → R} {piece boundary initPiece : R}
    {literals : List R} (hr : g.ReadsValues group piece literals boundary initPiece) (hg : g.Spaced)
    (hlayout : g.layout (group .brace) = .token) (hrole : g.role (group .brace) = .body)
    (trail : List Char) :
    g.ReadsTo isWordChar (.rule (group .brace)) [emptyBlock ++ trail] ⟨[], [], [emptyBlock]⟩
      trail := by
  have hgroup : g.IsGroup group .brace emptyBlock :=
    hr.isGroup_of_balanced .brace (v := [' ']) (.of_plain (by decide)) (by
      intro c hc
      revert c
      decide)
  have htrim : g.trivia.trim (emptyBlock ++ []) = emptyBlock :=
    trim_gap hg (by decide) (by decide) nofun
  have hblock : g.ReadsTo isWordChar (.rule (group .brace)) [emptyBlock ++ trail]
      ⟨[], [], [g.trivia.trim emptyBlock]⟩ trail :=
    readsTo_text hg hlayout hrole ⟨'\x7b', _, rfl, by decide⟩ (hgroup.2 trail)
  rw [List.append_nil] at htrim
  rwa [htrim] at hblock

end SnippetGrammar

namespace Java

open Grammar SnippetGrammar

variable {v w : List Char} {rest : List (List Char)} {trail : List Char} {n : Nat}

theorem solid_of_name (hw : isName w = true) : ∀ c ∈ w, IsSolid c :=
  fun c hc => isSolid_of_class isWordChar (by decide) ((isName_iff.1 hw).2.1 c hc)

/-- The type of a parameter. -/
theorem takes_type (hw : w = "int".toList ∨ isName w = true) (n : Nat) (hv : EndsType v) :
    grammar.Takes isWordChar (.rule .typeRef) (w :: rankTokens n) [] (v :: rest) := by
  have hbracket : grammar.Refuses isWordChar (.seq ["[", "]"]) (v :: rest) :=
    (hv.refuses spaced (by decide) []).both
  have hround : ∀ u more, grammar.Takes isWordChar (.seq ["[", "]"]) [['['], [']']] [] (u :: more) :=
    fun u more => (takes_text spaced ⟨'[', [], rfl, by decide⟩).both
      (takes_text spaced ⟨']', [], rfl, by decide⟩)
  have hdims : grammar.Takes isWordChar (.opt (.rule .dims)) (rankTokens n) [] (v :: rest) := by
    cases n with
    | zero =>
        have hnone : grammar.Refuses isWordChar (.rule .dims) (v :: rest) :=
          .rule spaced rfl hbracket.both
        exact hnone.opt spaced
    | succ n =>
        obtain ⟨u, more, heq, -⟩ := rankTokens_follows hv.endsWord n rest
        have hfirst : grammar.Takes isWordChar (.seq ["[", "]"]) [['['], [']']] []
            (rankTokens n ++ v :: rest) := by
          rw [heq]
          exact hround u more
        have hmore : grammar.TakesRounds isWordChar (.seq ["[", "]"]) (v :: rest) (rankTokens n) :=
          takesRounds_ranks n hv.endsWord fun u more _ => hround u more
        have hall := hfirst.both (hmore.star spaced rfl hbracket)
        exact (Takes.rule (r := .dims) spaced rfl rfl hall).opt
  obtain ⟨u, more, heq, hu⟩ := rankTokens_follows hv.endsWord n rest
  have hword : grammar.Takes isWordChar (.choice [.rule .primitiveType, .rule .classType]) [w] []
      (rankTokens n ++ v :: rest) := by
    rw [heq]
    exact takes_typeWord hw hu
  exact Takes.hidden (r := .typeRef) spaced rfl rfl (hword.both hdims)

/-- No type begins with the word for final parameters, nor with an annotation. -/
theorem refuses_final (hw : w = "int".toList ∨ isName w = true) :
    grammar.Refuses isWordChar (.choice [.rule .annotationUse, .rule .kwFinal]) (w :: rest) := by
  have hword : IsToken w ∧ (∀ c ∈ w, isWordChar c = true) ∧ "final".toList ≠ w := by
    rcases hw with rfl | hw
    · exact ⟨⟨'i', _, rfl, by decide⟩, by decide, by decide⟩
    · obtain ⟨-, hchars, hkeyword⟩ := isName_iff.1 hw
      exact ⟨(readsName hw).1, hchars, hkeyword "final" (by decide)⟩
  obtain ⟨htoken, hchars, hne⟩ := hword
  refine Refuses.choice fun e he => ?_
  simp only [List.mem_cons, List.not_mem_nil, or_false] at he
  rcases he with rfl | rfl
  · refine Refuses.rule spaced rfl (refuses_text spaced htoken ?_ []).both
    rintro c hc rfl
    cases hchars '@' (List.mem_of_mem_head? hc)
  · have hfinal : IsWord .kwFinal ["final"] := ⟨rfl, rfl⟩
    exact refuses_word spaced hfinal takesChar_identChar (by decide) htoken hchars
      (List.forall_mem_singleton.2 hne)

theorem reads_parameter : grammar.ReadsParameters isWordChar .formalParameter
    (fun p : Parameter isName => p.tokens) (·.name.1) := by
  intro p c hc rest
  have hend : EndsType [c] := endsType_punctuation (List.mem_cons_of_mem '(' hc)
  have hname : EndsType p.name.1 := endsType_of_name p.name.2
  have hfront : grammar.Takes isWordChar (.star (.choice [.rule .annotationUse, .rule .kwFinal])) []
      [] (p.tokens ++ [c] :: rest) :=
    Refuses.star spaced rfl (refuses_final p.isType)
  have hvarargs : grammar.Refuses isWordChar (.rule .varargs) (p.name.1 :: [c] :: rest) :=
    .rule spaced rfl (hname.refuses spaced (by decide) ['.', '.'])
  have htail : grammar.Takes isWordChar (.both (.opt (.rule .varargs)) declared) [p.name.1]
      [p.name.1] ([c] :: rest) := (hvarargs.opt spaced).both (takes_declared p.name.2 hend)
  have htype : grammar.Takes isWordChar (.both (.rule .typeRef) (.both (.opt (.rule .varargs))
      declared)) p.tokens [p.name.1] ([c] :: rest) :=
    (takes_type p.isType p.ranks hname).both htail
  have hbody : grammar.Takes isWordChar (grammar.body .formalParameter) p.tokens [p.name.1]
      ([c] :: rest) := hfront.both htype
  exact hbody.parameter spaced rfl rfl

/-- The words in front of the name. -/
theorem takes_public_void (hw : isName w = true) :
    grammar.Takes isWordChar (.rule .modifiers) ["public".toList] [] ("void".toList :: w :: rest) := by
  have hmodifier : IsWord .modifier Rule.modifierWords := ⟨rfl, rfl⟩
  have hpublic : IsToken "public".toList := ⟨'p', _, rfl, by decide⟩
  have hsign : grammar.Refuses isWordChar (.rule .annotationUse)
      (["public".toList] ++ "void".toList :: w :: rest) :=
    Refuses.rule spaced rfl (refuses_text spaced hpublic (by decide) []).both
  have hword : grammar.Takes isWordChar (.rule .modifier) ["public".toList] []
      ([] ++ "void".toList :: w :: rest) :=
    takes_word spaced hmodifier takesChar_identChar (by decide) (by decide) nofun nofun (by decide)
      hpublic
  have hround : grammar.TakesRounds isWordChar (.choice [.rule .annotationUse, .rule .modifier])
      ("void".toList :: w :: rest) ["public".toList] := .round (hword.right hsign) .stop
  have hstop : grammar.Refuses isWordChar (.choice [.rule .annotationUse, .rule .modifier])
      ("void".toList :: w :: rest) :=
    refuses_modifiers ⟨'v', _, rfl, by decide⟩ (by decide) (by decide) (endsType_of_name hw)
  exact Takes.hidden spaced rfl rfl (hround.star spaced rfl hstop)

theorem takes_void :
    grammar.Takes isWordChar (.rule .resultType) ["void".toList] [] rest := by
  have hvoid : IsWord .kwVoid ["void"] := ⟨rfl, rfl⟩
  have hword : grammar.Takes isWordChar (.rule .kwVoid) ["void".toList] [] rest :=
    takes_word spaced hvoid takesChar_identChar (by decide) (by decide) nofun nofun (by decide)
      ⟨'v', _, rfl, by decide⟩
  exact Takes.hidden (r := .resultType) spaced rfl rfl hword.left

theorem readsTo_block (trail : List Char) :
    grammar.ReadsTo isWordChar (.rule .block) [emptyBlock ++ trail] ⟨[], [], [emptyBlock]⟩
      trail :=
  readsValues.readsTo_emptyBlock spaced rfl rfl trail

/-- What stands behind the parameters. -/
theorem readsTo_back (trail : List Char) :
    grammar.ReadsTo isWordChar (.seq [.opt (.rule .dims), .opt (.rule .throwsClause),
      .opt (.seq [.rule .kwDefault, .rule .elementValue]), .choice [.rule .block, ";"]])
      [emptyBlock ++ trail] ⟨[], [], [emptyBlock]⟩ trail := by
  have htoken : IsToken (emptyBlock ++ trail) := ⟨'\x7b', _, rfl, by decide⟩
  have hrefuses : ∀ e : Expr Rule, e.begins (grammar.firsts 3) '\x7b' = false →
      grammar.Refuses isWordChar e [emptyBlock ++ trail] := by
    intro e he
    refine refuses_of_begins (n := 3) spaced htoken ?_
    rintro _ ⟨⟩
    exact he
  have hdims := (hrefuses (.rule .dims) rfl).reads_opt spaced
  have hthrows := (hrefuses (.rule .throwsClause) rfl).reads_opt spaced
  have hdefault := (hrefuses (.seq [.rule .kwDefault, .rule .elementValue]) rfl).reads_opt spaced
  exact hdims.readsTo (hthrows.readsTo (hdefault.readsTo (readsTo_block trail).left))

/-- A method is matched to the end of its block. -/
theorem readsTo_method (hw : isName w = true) (ps : List (Parameter isName)) (trail : List Char) :
    grammar.ReadsTo isWordChar (grammar.body .methodDeclaration)
      (memberTokens "public".toList "void".toList w ps (emptyBlock ++ trail))
      (.ofMember w (ps.map (·.name.1)) emptyBlock) trail := by
  obtain ⟨htoken, hleaves⟩ := readsName hw
  have hclose : ∀ rest, grammar.Refuses isWordChar (.rule .formalParameter) ([')'] :: rest) :=
    fun rest => refuses_of_begins (n := 4) spaced isToken_close (by rintro _ ⟨⟩; rfl)
  have hlist : grammar.Reads isWordChar (.rule .formalParameters) (listTokens Parameter.tokens ps)
      (.ofParameters (ps.map (·.name.1))) [emptyBlock ++ trail] :=
    Reads.rule spaced rfl rfl (ReadsParameters.list spaced reads_parameter hclose ps)
  have hname : grammar.Takes isWordChar (.rule .declName) [w] [w]
      (listTokens Parameter.tokens ps ++ [emptyBlock ++ trail]) :=
    takes_name spaced rfl rfl rfl rfl htoken hleaves
  have hvoid : grammar.Takes isWordChar (.rule .resultType) ["void".toList] []
      ([w] ++ (listTokens Parameter.tokens ps ++ [emptyBlock ++ trail])) := takes_void
  have htypes : grammar.Refuses isWordChar (.rule .typeParameters) ("void".toList :: w ::
      (listTokens Parameter.tokens ps ++ [emptyBlock ++ trail])) :=
    refuses_of_begins (n := 1) spaced ⟨'v', _, rfl, by decide⟩ (by rintro _ ⟨⟩; rfl)
  have hmodifiers : grammar.Takes isWordChar (.rule .modifiers) ["public".toList] []
      ("void".toList :: w :: (listTokens Parameter.tokens ps ++ [emptyBlock ++ trail])) :=
    takes_public_void hw
  rw [Outline.ofMember_eq]
  exact (hmodifiers.reads spaced (by decide)).readsTo ((htypes.reads_opt spaced).readsTo
    ((hvoid.reads spaced (by decide)).readsTo ((hname.reads spaced (by decide)).readsTo
      (hlist.readsTo (readsTo_back trail)))))

end Java

namespace CSharp

open Grammar SnippetGrammar

variable {v w s t u : List Char} {rest : List (List Char)} {trail : List Char} {f : Forest Rule}
  {l : Layout}

theorem solid_of_name (hw : isName w = true) : ∀ c ∈ w, IsSolid c := by
  obtain ⟨v, hv, hname⟩ := isName_iff.1 hw
  have hsolid : ∀ c ∈ v, IsSolid c := fun c hc =>
    isSolid_of_class isWordChar (by decide) ((Grammar.isName_iff.1 hname).2.1 c hc)
  rcases hv with rfl | rfl
  · exact hsolid
  · exact List.forall_mem_cons.2 ⟨by decide, hsolid⟩

/-- The type of a parameter. -/
theorem takes_type (hw : w = "int".toList ∨ isName w = true) (n : Nat) (hv : EndsType v) :
    grammar.Takes isWordChar (.rule .typeRef) (w :: rankTokens n) [] (v :: rest) := by
  have hrank : ∀ rest, grammar.Takes isWordChar (.rule .rank) [['['], [']']] [] rest := by
    intro rest
    have hclose : IsToken [']'] := ⟨']', [], rfl, by decide⟩
    have hcommas : grammar.Takes isWordChar (.star ",") [] [] ([[']']] ++ rest) :=
      Refuses.star spaced rfl (refuses_text spaced hclose (by decide) [])
    exact Takes.rule (r := .rank) spaced rfl rfl
      ((takes_text spaced ⟨'[', [], rfl, by decide⟩).both (hcommas.both (takes_text spaced hclose)))
  have hround : ∀ u more, EndsWord u → grammar.Takes isWordChar (.seq [.rule .rank, .opt "?"])
      [['['], [']']] [] (u :: more) := by
    intro u more hu
    have hnullable : grammar.Refuses isWordChar "?" (u :: more) := hu.refuses spaced (by decide) []
    exact (hrank (u :: more)).both (hnullable.opt spaced)
  have hstop : grammar.Refuses isWordChar (.seq [.rule .rank, .opt "?"]) (v :: rest) :=
    Refuses.both (.rule spaced rfl (hv.refuses spaced (by decide) []).both)
  have hranks : grammar.Takes isWordChar (.star (.seq [.rule .rank, .opt "?"])) (rankTokens n) []
      (v :: rest) := (takesRounds_ranks n hv.endsWord hround).star spaced rfl hstop
  obtain ⟨u, more, heq, hu⟩ := rankTokens_follows hv.endsWord n rest
  have hword : grammar.Takes isWordChar (.choice [.rule .tupleType, .rule .primitiveType,
      .rule .classType]) [w] [] (rankTokens n ++ v :: rest) := by
    rw [heq]
    exact takes_typeWord hw hu
  have hnullable : grammar.Refuses isWordChar "?" (rankTokens n ++ v :: rest) := by
    rw [heq]
    exact hu.refuses spaced (by decide) []
  exact Takes.hidden (r := .typeRef) spaced rfl rfl
    (hword.both ((hnullable.opt spaced).both hranks))

theorem keyword_ne_name (hw : isName w = true) : ∀ word ∈ Rule.keywords, word.toList ≠ w := by
  obtain ⟨v, rfl | rfl, hname⟩ := isName_iff.1 hw
  · exact (Grammar.isName_iff.1 hname).2.2
  · intro word hword heq
    cases keywords_chars word hword '@' (by rw [heq]; exact List.mem_cons_self)

/-- No type begins with a word that may stand in front of a parameter, nor with an attribute. -/
theorem refuses_parameterModifier (hw : w = "int".toList ∨ isName w = true) :
    grammar.Refuses isWordChar (.choice [.rule .attributeSection, .rule .parameterModifier])
      (w :: rest) := by
  have hmodifier : IsWord .parameterModifier Rule.parameterModifierWords := ⟨rfl, rfl⟩
  have hchars : ∀ word ∈ Rule.parameterModifierWords, ∀ c ∈ word.toList, isWordChar c = true := by
    decide
  have hkeywords : ∀ word ∈ Rule.parameterModifierWords, word ∈ Rule.keywords := by decide
  have hword : IsToken w ∧ (∀ c ∈ w.head?, c ≠ '[') ∧
      grammar.Refuses isWordChar (.rule .parameterModifier) (w :: rest) := by
    rcases hw with rfl | hw
    · have htoken : IsToken "int".toList := ⟨'i', _, rfl, by decide⟩
      exact ⟨htoken, by decide, refuses_word spaced hmodifier takesChar_identChar hchars htoken
        (by decide) (by decide)⟩
    · refine ⟨(readsName hw).1, head_ne_of_name hw (by decide),
        refuses_names hmodifier hchars (by decide) hw fun word hword => ?_⟩
      exact keyword_ne_name hw word (hkeywords word hword)
  obtain ⟨htoken, hsign, hnot⟩ := hword
  refine Refuses.choice fun e he => ?_
  simp only [List.mem_cons, List.not_mem_nil, or_false] at he
  rcases he with rfl | rfl
  · refine refuses_of_begins (n := 2) spaced htoken fun c hc => Bool.eq_false_iff.2 fun hbegins => ?_
    exact hsign c hc (Expr.eq_of_begins hbegins)
  · exact hnot

theorem reads_parameter : grammar.ReadsParameters isWordChar .formalParameter
    (fun p : Parameter isName => p.tokens) (·.name.1) := by
  intro p c hc rest
  have hname : EndsType p.name.1 := endsType_of_name p.name.2
  have hfront : grammar.Takes isWordChar (.star (.choice [.rule .attributeSection,
      .rule .parameterModifier])) [] [] (p.tokens ++ [c] :: rest) :=
    Refuses.star spaced rfl (refuses_parameterModifier p.isType)
  have htoken : IsToken [c] := (endsType_punctuation (List.mem_cons_of_mem '(' hc)).1
  have hdefault : grammar.Refuses isWordChar (.seq ["=", .rule .defaultValue]) ([c] :: rest) := by
    refine (refuses_text spaced htoken ?_ []).both
    rintro _ ⟨⟩ rfl
    revert hc
    decide
  have htail : grammar.Takes isWordChar (.both (.rule .declName) (.opt (.seq ["=",
      .rule .defaultValue]))) [p.name.1] [p.name.1] ([c] :: rest) :=
    (takes_declared p.name.2).both (hdefault.opt spaced)
  have htype : grammar.Takes isWordChar (.both (.rule .typeRef) (.both (.rule .declName)
      (.opt (.seq ["=", .rule .defaultValue])))) p.tokens [p.name.1] ([c] :: rest) :=
    (takes_type p.isType p.ranks hname).both htail
  have hbody : grammar.Takes isWordChar (grammar.body .formalParameter) p.tokens [p.name.1]
      ([c] :: rest) := hfront.both htype
  exact hbody.parameter spaced rfl rfl

/-- The word in front of the result. -/
theorem takes_public :
    grammar.Takes isWordChar (.rule .modifiers) ["public".toList] [] ("void".toList :: rest) := by
  have hpublic : IsToken "public".toList := ⟨'p', _, rfl, by decide⟩
  have hvoid : IsToken "void".toList := ⟨'v', _, rfl, by decide⟩
  have hsection : grammar.Refuses isWordChar (.rule .attributeSection)
      (["public".toList] ++ "void".toList :: rest) :=
    refuses_of_begins (n := 2) spaced hpublic (by rintro _ ⟨⟩; rfl)
  have hword : grammar.Takes isWordChar (.rule .modifier) ["public".toList] []
      ([] ++ "void".toList :: rest) :=
    takes_word spaced isWord_modifier takesChar_identChar (by decide) (by decide) nofun nofun
      (by decide) hpublic
  have hround : grammar.TakesRounds isWordChar (.choice [.rule .attributeSection, .rule .modifier])
      ("void".toList :: rest) ["public".toList] := .round (hword.right hsection) .stop
  have hstop : grammar.Refuses isWordChar (.choice [.rule .attributeSection, .rule .modifier])
      ("void".toList :: rest) :=
    refuses_modifiers hvoid (by decide) (refuses_word spaced isWord_modifier takesChar_identChar
      (by decide) hvoid (by decide) (by decide))
  exact Takes.hidden spaced rfl rfl (hround.star spaced rfl hstop)

theorem takes_void : grammar.Takes isWordChar (.rule .returnType) ["void".toList] [] rest := by
  have hword : grammar.Takes isWordChar (.rule .kwVoid) ["void".toList] [] rest :=
    takes_word spaced isWord_void takesChar_identChar (by decide) (by decide) nofun nofun
      (by decide) ⟨'v', _, rfl, by decide⟩
  exact Takes.hidden (r := .returnType) spaced rfl rfl hword.left

/-- No name in front of a parenthesis is a qualifier. -/
theorem reads_memberName (hw : isName w = true) :
    grammar.Reads isWordChar (.rule .memberName) [w] ⟨[w], [], []⟩ (['('] :: rest) := by
  obtain ⟨htoken, hleaves⟩ := readsName hw
  have hopen : EndsType ['('] := endsType_punctuation (by decide)
  have hidentifier : grammar.Takes isWordChar (.rule .identifier) [w] [] (['('] :: rest) :=
    takes_token spaced rfl nofun nofun htoken hleaves
  have harguments : grammar.Refuses isWordChar (.rule .typeArguments) (['('] :: rest) :=
    .rule spaced rfl (hopen.refuses spaced (by decide) []).both
  have hdot : grammar.Refuses isWordChar (.both (.opt (.rule .typeArguments)) ".")
      ([] ++ ['('] :: rest) :=
    (harguments.opt spaced).refuses (hopen.refuses spaced (by decide) [])
  have hqualifier : grammar.Refuses isWordChar (.rule .interfaceQualifier) ([w] ++ ['('] :: rest) :=
    .rule spaced rfl (hidentifier.refuses hdot).both
  have hname : grammar.Takes isWordChar (.rule .declName) [w] [w] (['('] :: rest) :=
    takes_declared hw
  exact Reads.rule spaced rfl rfl
    ((hqualifier.reads_opt spaced).both (hname.reads spaced (by decide)))

theorem readsTo_body (trail : List Char) :
    grammar.ReadsTo isWordChar Rule.memberBody [emptyBlock ++ trail] ⟨[], [], [emptyBlock]⟩ trail :=
  (readsValues.readsTo_emptyBlock spaced rfl rfl trail).left

theorem reads_parameters (ps : List (Parameter isName)) :
    grammar.Reads isWordChar (.rule .formalParameters) (listTokens Parameter.tokens ps)
      (.ofParameters (ps.map (·.name.1))) rest := by
  have hclose : ∀ rest, grammar.Refuses isWordChar (.rule .formalParameter) ([')'] :: rest) :=
    fun rest => refuses_of_begins (n := 5) spaced isToken_close (by rintro _ ⟨⟩; rfl)
  exact Reads.rule spaced rfl rfl (ReadsParameters.list spaced reads_parameter hclose ps)

/-- A method is matched to the end of its block. -/
theorem readsTo_method (hw : isName w = true) (ps : List (Parameter isName)) (trail : List Char) :
    grammar.ReadsTo isWordChar (grammar.body .methodDeclaration)
      (memberTokens "public".toList "void".toList w ps (emptyBlock ++ trail))
      (.ofMember w (ps.map (·.name.1)) emptyBlock) trail := by
  have htypes : grammar.Refuses isWordChar (.rule .typeParameters)
      (listTokens Parameter.tokens ps ++ [emptyBlock ++ trail]) :=
    refuses_of_begins (n := 1) spaced ⟨'(', _, rfl, by decide⟩ (by rintro _ ⟨⟩; rfl)
  have hconstraints : grammar.Refuses isWordChar (.rule .typeConstraints) [emptyBlock ++ trail] :=
    refuses_of_begins (n := 1) spaced ⟨'\x7b', _, rfl, by decide⟩ (by rintro _ ⟨⟩; rfl)
  have hvoid : grammar.Takes isWordChar (.rule .returnType) ["void".toList] []
      ([w] ++ (listTokens Parameter.tokens ps ++ [emptyBlock ++ trail])) := takes_void
  have hmodifiers : grammar.Takes isWordChar (.rule .modifiers) ["public".toList] []
      ("void".toList :: w :: (listTokens Parameter.tokens ps ++ [emptyBlock ++ trail])) :=
    takes_public
  rw [Outline.ofMember_eq]
  exact (hmodifiers.reads spaced (by decide)).readsTo ((hvoid.reads spaced (by decide)).readsTo
    ((reads_memberName hw).readsTo ((htypes.reads_opt spaced).readsTo
      ((reads_parameters ps).readsTo ((hconstraints.reads_opt spaced).readsTo
        (readsTo_body trail))))))

/-! ### Names that are read as operators -/

/-- The symbols of operators that are words. -/
def symbolWords : List String := ["true", "false"]

theorem symbolWords_chars : ∀ word ∈ symbolWords, ∀ c ∈ word.toList, isWordChar c = true := by
  decide

/-- The name is the word of operators with such a symbol right behind it. -/
def IsOperatorWord (w : List Char) : Prop :=
  ∃ word ∈ symbolWords, w = "operator".toList ++ word.toList

theorem reads_operatorName (hw : IsOperatorWord w) :
    grammar.Reads isWordChar (.rule .operatorName) [w] ⟨[w], [], []⟩ rest := by
  obtain ⟨word, hword, rfl⟩ := hw
  have htoken : IsToken ("operator".toList ++ word.toList) := ⟨'o', _, rfl, by decide⟩
  have hchars := symbolWords_chars word hword
  have hleaves : ∀ t, (∀ c ∈ ("operator".toList ++ word.toList).getLast?, ∀ d ∈ t.head?,
      (isWordChar c && isWordChar d) = false) →
        grammar.leaves (.rule .operatorName) (("operator".toList ++ word.toList) ++ t) = some t := by
    intro t ht
    have hend : ∀ c ∈ t.head?, isWordChar c = false :=
      Spelled.head_of_apart (List.forall_mem_append.2 ⟨by decide, hchars⟩) (by simp) ht
    have hsymbol : grammar.leaves (.rule .overloadableOp) (word.toList ++ t) = some t := by
      rw [leaves_rule ranked rfl]
      exact leaves_eq_some_iff.2 ⟨.nil, matchExpr_left (match_of_word takesChar_identChar hword
        (fun w hw _ _ => symbolWords_chars w hw) (by decide) hend)⟩
    exact (Special.leaves_nameRule_iff (k := .operator)).2
      ⟨[], word.toList ++ t, List.append_assoc .., ⟨nofun, nofun⟩, hsymbol⟩
  exact (takes_nameToken spaced rfl rfl htoken hleaves).reads spaced (by decide)

/-- Other names are no names of operators. -/
theorem refuses_operatorName (hw : isName w = true) (hne : ¬ IsOperatorWord w) :
    grammar.Refuses isWordChar (.rule .operatorName) (w :: rest) := by
  obtain ⟨htoken, -⟩ := readsName hw
  intro s hs
  obtain ⟨t, ht, -, hapart⟩ := hs.between spaced htoken
  rw [ht]
  cases hmatch : grammar.matchExpr (.rule .operatorName) .spaced (w ++ t) with
  | none => rfl
  | some found =>
      exfalso
      obtain ⟨a, heq, hcases⟩ := operatorName_cases hmatch
      obtain ⟨v, hv, hname⟩ := isName_iff.1 hw
      obtain ⟨⟨c, y, rfl, -⟩, hchars, hkeyword⟩ := Grammar.isName_iff.1 hname
      obtain rfl : w = c :: y := by
        refine hv.resolve_right ?_
        rintro rfl
        cases heq
      have hend := Spelled.head_of_apart hchars (List.cons_ne_nil c y) hapart
      have hoperator : ∀ c ∈ "operator".toList, isWordChar c = true := by decide
      rcases hcases with halone | ⟨word, hmem, rfl, hafter⟩
      · exact hkeyword "operator" (by decide) (run_unique heq hchars hoperator hend halone).1.symm
      · have hall := List.forall_mem_append.2 ⟨hoperator, symbolWords_chars word hmem⟩
        rw [← List.append_assoc] at heq
        exact hne ⟨word, hmem, (run_unique heq hchars hall hend hafter).1⟩

/-- What is behind such a name makes it an operator. -/
theorem readsTo_operator (hw : IsOperatorWord w) (ps : List (Parameter isName))
    (trail : List Char) :
    grammar.ReadsTo isWordChar (grammar.body .operatorDeclaration)
      (memberTokens "public".toList "void".toList w ps (emptyBlock ++ trail))
      (.ofMember w (ps.map (·.name.1)) emptyBlock) trail := by
  have hvoid : grammar.Takes isWordChar (.rule .returnType) ["void".toList] []
      ([w] ++ (listTokens Parameter.tokens ps ++ [emptyBlock ++ trail])) := takes_void
  have hmodifiers : grammar.Takes isWordChar (.rule .modifiers) ["public".toList] []
      ("void".toList :: w :: (listTokens Parameter.tokens ps ++ [emptyBlock ++ trail])) :=
    takes_public
  rw [Outline.ofMember_eq]
  exact (hmodifiers.reads spaced (by decide)).readsTo ((hvoid.reads spaced (by decide)).readsTo
    ((reads_operatorName hw).readsTo ((reads_parameters ps).readsTo (readsTo_body trail))))

theorem refuses_operator (hw : isName w = true) (hne : ¬ IsOperatorWord w) :
    grammar.Refuses isWordChar (.rule .operatorDeclaration)
      ("public".toList :: "void".toList :: w :: rest) := by
  have hvoid : grammar.Takes isWordChar (.rule .returnType) ["void".toList] [] (w :: rest) :=
    takes_void
  exact .rule spaced rfl (takes_public.refuses (hvoid.refuses (refuses_operatorName hw hne).both))

/-- What has a result converts nothing. -/
theorem refuses_conversion :
    grammar.Refuses isWordChar (.rule .conversionDeclaration)
      ("public".toList :: "void".toList :: rest) := by
  have hkind : IsWord .conversionKind ["implicit", "explicit"] := ⟨rfl, rfl⟩
  have hvoid : grammar.Refuses isWordChar (.rule .conversionKind) ("void".toList :: rest) :=
    refuses_word spaced hkind takesChar_identChar (by decide) ⟨'v', _, rfl, by decide⟩ (by decide)
      (by decide)
  exact .rule spaced rfl (takes_public.refuses hvoid.both)

theorem refuses_destructor :
    grammar.Refuses isWordChar (.rule .destructorDeclaration)
      ("public".toList :: "void".toList :: rest) := by
  have hsign : grammar.Refuses isWordChar (.rule .destructorName) ("void".toList :: rest) :=
    refuses_of_begins (n := 1) spaced ⟨'v', _, rfl, by decide⟩ (by rintro _ ⟨⟩; rfl)
  exact .rule spaced rfl (takes_public.refuses hsign.both)

end CSharp

end FeatureTree
