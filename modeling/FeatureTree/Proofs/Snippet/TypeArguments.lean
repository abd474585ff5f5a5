import FeatureTree.Proofs.Language.TypeArguments
import FeatureTree.Proofs.Snippet.Declarators

/-!
# Fields that are given an object of a generic type

The text is written with one blank where blanks belong. It is spelled in two ways: with few type
arguments the creation is one token, the text of the initializer, and with more of them it comes
apart at its commas (`GenericField.spelled`, `GenericField.spelled_apart`). Only the first way is
that of a field.
-/

namespace FeatureTree

open scoped Tokens

/-- A field of some type, with a name and a new object of a class with type arguments for its
value, and with another name behind it. -/
structure GenericField (language : Language) where
  type : language.Name
  name : language.Name
  created : language.Name
  first : language.Name
  more : List language.Name
  next : language.Name

namespace GenericField

variable {language : Language} {isWordChar : Char → Bool} (f : GenericField language)

/-- The object that the field is given. -/
def value : List Char := creation f.created.1 f.first.1 (f.more.map (·.1))

/-- The text of the field. -/
def text : List Char :=
  f.type.1 ++ (" ".toList ++ (f.name.1 ++ (" = ".toList ++ (f.value ++ (", ".toList ++ (f.next.1 ++ [';']))))))

/-- What is behind the type arguments. -/
def ending : List Char := "()".toList ++ (", ".toList ++ (f.next.1 ++ [';']))

theorem spelled_arguments (hcomma : isWordChar ',' = false) (hangle : isWordChar '>' = false)
    (args : List (List Char)) (z : List Char) :
    Spelled isWordChar (args.flatMap (fun b => [[','], b]) ++ [ '>' :: z])
      (moreArguments args ++ '>' :: z) := by
  have hspace : ∀ c ∈ [' '], c ∈ Text.spaces := by decide
  induction args with
  | nil =>
      have hlast : Spelled isWordChar [ '>' :: z] ([] ++ ('>' :: z ++ [])) :=
        .cons (List.forall_mem_nil _) (by simp) .nil
      rwa [List.append_nil] at hlast
  | cons b args ih =>
      obtain ⟨c, s, hc, heq⟩ :
          ∃ c s, isWordChar c = false ∧ moreArguments args ++ '>' :: z = c :: s := by
        cases args with
        | nil => exact ⟨'>', z, hangle, rfl⟩
        | cons b args => exact ⟨',', _, hcomma, rfl⟩
      have htext : moreArguments (b :: args) ++ '>' :: z =
          [] ++ ',' :: ([' '] ++ (b ++ (moreArguments args ++ '>' :: z))) := by
        simp [moreArguments]
      rw [heq] at ih htext
      rw [htext]
      exact .cons_sign [] (List.forall_mem_nil _) hcomma (.cons_before [' '] hspace hc ih)

/-- The tokens of the field if the creation is the text of its initializer. -/
def tokens : List (List Char) :=
  f.type.1 :: f.name.1 :: ['='] :: f.value :: [[','], f.next.1, [';']]

theorem spelled (hsigns : ∀ c ∈ [' ', ',', '=', ';'], isWordChar c = false) :
    Spelled isWordChar f.tokens f.text := by
  have hspace : ∀ c ∈ [' '], c ∈ Text.spaces := by decide
  simp only [List.forall_mem_cons] at hsigns
  obtain ⟨hblank, hcomma, hequals, hsemicolon, -⟩ := hsigns
  exact .cons_before [] (List.forall_mem_nil _) hblank (.cons_before [' '] hspace hblank
    (.cons_sign [' '] hspace hequals (.cons_before [' '] hspace hcomma
      (.cons_sign [] (List.forall_mem_nil _) hcomma (.cons_before [' '] hspace hsemicolon
        (.cons_sign [] (List.forall_mem_nil _) hsemicolon .nil))))))

/-- The tokens of the field if its initializer ends behind the first type argument. -/
def tokensApart : List (List Char) :=
  f.type.1 :: f.name.1 :: ['='] :: ("new ".toList ++ (f.created.1 ++ '<' :: f.first.1)) ::
    ((f.more.map (·.1)).flatMap (fun b => [[','], b]) ++ [ '>' :: f.ending])

theorem spelled_apart (hsigns : ∀ c ∈ [' ', ',', '=', '>'], isWordChar c = false)
    (hne : f.more ≠ []) : Spelled isWordChar f.tokensApart f.text := by
  have hspace : ∀ c ∈ [' '], c ∈ Text.spaces := by decide
  simp only [List.forall_mem_cons] at hsigns
  obtain ⟨hblank, hcomma, hequals, hangle, -⟩ := hsigns
  have harguments := spelled_arguments hcomma hangle (f.more.map (·.1)) f.ending
  obtain ⟨s, hs⟩ : ∃ s, moreArguments (f.more.map (·.1)) ++ '>' :: f.ending = ',' :: s := by
    obtain ⟨b, more, hmore⟩ := List.exists_cons_of_ne_nil hne
    rw [hmore]
    exact ⟨_, rfl⟩
  have htext : f.text = [] ++ (f.type.1 ++ ' ' :: (f.name.1 ++ ' ' :: '=' :: ([' '] ++
      (("new ".toList ++ (f.created.1 ++ '<' :: f.first.1)) ++ ',' :: s)))) := by
    rw [← hs]
    simp [text, value, creation, ending]
  rw [hs] at harguments
  rw [htext]
  exact .cons_before [] (List.forall_mem_nil _) hblank (.cons_before [' '] hspace hblank
    (.cons_sign [' '] hspace hequals (.cons_before [' '] hspace hcomma harguments)))

theorem isName_more : ∀ b ∈ f.more.map (·.1), language.isName b = true := by
  intro b hb
  obtain ⟨w, -, rfl⟩ := List.mem_map.1 hb
  exact w.2

end GenericField

namespace Language

/-- The words that are modifiers of a field. -/
def modifierWords : Language → List String
  | .java => Java.Rule.modifierWords
  | .csharp => CSharp.Rule.modifierWords
  | .c => []

end Language

namespace GenericField

variable {language : Language} (f : GenericField language)

/-- The type of the field is no modifier, and there are at most two type arguments. -/
def IsRead : Prop :=
  f.more.length ≤ 1 ∧ ∀ word ∈ language.modifierWords, word.toList ≠ f.type.1

/-- What a grammar should find in the text of a field. -/
def views : List (Option (List Char) × Option (List Char)) :=
  [(some f.name.1, some f.value), (some f.next.1, none)]

/-- The text is a field with the two variables, and the object is the value of the first. -/
def Declares : Prop :=
  ∃ n, parseSnippet (String.ofList f.text) ⟨language, .field⟩ true = .ok n ∧ n.kind = .field ∧
    n.ListsVariables f.text [(f.name.1, some f.value), (f.next.1, none)]

end GenericField

open Grammar SnippetGrammar

namespace Java

theorem match_generic {f : GenericField .java} (h : f.IsRead) :
    ∃ inner, grammar.matchExpr (grammar.body .fieldDeclaration) .spaced
        (grammar.between .spaced f.text) = some ([], inner) ∧
      grammar.views inner = f.views := by
  have hsummarized := summarized_of_fits fits_summary
  have hs : Spelled isWordChar f.tokens f.text := f.spelled (by decide)
  obtain ⟨inner, hmatch, hviews⟩ := readsDeclarators.match_creation readsNames
    (takes_named f.type.2 h.2 (endsType_of_name f.name.2))
    (fun _ _ _ => declared_of_namesOnly hsummarized rfl) f.name.2 f.next.2 f.created.2 f.first.2
    f.isName_more (by rw [List.length_map]; exact h.1) hs
  exact ⟨inner, matchExpr_assoc.symm.trans hmatch, hviews⟩

theorem match_generic_none {f : GenericField .java} (h : ¬ f.IsRead) :
    grammar.matchExpr (grammar.body .fieldDeclaration) .spaced (grammar.between .spaced f.text) =
      none := by
  by_cases hnot : ∀ word ∈ Rule.modifierWords, word.toList ≠ f.type.1
  · have hlen : 1 < f.more.length := by
      by_contra hle
      exact h ⟨by omega, hnot⟩
    have hne : f.more ≠ [] := List.ne_nil_of_length_pos (by omega)
    have hs : Spelled isWordChar f.tokensApart f.text := f.spelled_apart (by decide) hne
    have hmatch := readsDeclarators.match_none_of_arguments readsNames
      (takes_named f.type.2 hnot (endsType_of_name f.name.2)) f.name.2 f.created.2 f.first.2
      f.isName_more (by rw [List.length_map]; exact hlen) hs
    exact matchExpr_assoc.symm.trans hmatch
  · simp only [not_forall, not_not, exists_prop] at hnot
    exact match_field_none f.type.2 f.name.2 hnot (f.spelled (by decide))

end Java

namespace CSharp

theorem match_generic {f : GenericField .csharp} (h : f.IsRead) :
    ∃ inner, grammar.matchExpr (grammar.body .fieldDeclaration) .spaced
        (grammar.between .spaced f.text) = some ([], inner) ∧
      grammar.views inner = f.views := by
  have hsummarized := summarized_of_fits fits_summary
  have hs : Spelled isWordChar f.tokens f.text := f.spelled (by decide)
  obtain ⟨inner, hmatch, hviews⟩ := readsDeclarators.match_creation readsNames
    (takes_named f.type.2 h.2 (endsType_of_name f.name.2))
    (fun _ _ _ => declared_of_namesOnly hsummarized rfl) f.name.2 f.next.2 f.created.2 f.first.2
    f.isName_more (by rw [List.length_map]; exact h.1) hs
  exact ⟨inner, matchExpr_assoc.symm.trans hmatch, hviews⟩

theorem match_generic_none {f : GenericField .csharp} (h : ¬ f.IsRead) :
    grammar.matchExpr (grammar.body .fieldDeclaration) .spaced (grammar.between .spaced f.text) =
      none := by
  by_cases hnot : ∀ word ∈ Rule.modifierWords, word.toList ≠ f.type.1
  · have hlen : 1 < f.more.length := by
      by_contra hle
      exact h ⟨by omega, hnot⟩
    have hne : f.more ≠ [] := List.ne_nil_of_length_pos (by omega)
    have hs : Spelled isWordChar f.tokensApart f.text := f.spelled_apart (by decide) hne
    have hmatch := readsDeclarators.match_none_of_arguments readsNames
      (takes_named f.type.2 hnot (endsType_of_name f.name.2)) f.name.2 f.created.2 f.first.2
      f.isName_more (by rw [List.length_map]; exact hlen) hs
    exact matchExpr_assoc.symm.trans hmatch
  · simp only [not_forall, not_not, exists_prop] at hnot
    exact match_field_none f.type.2 f.name.2 hnot (f.spelled (by decide))

end CSharp

/-- What is matched is what is read, and what is not matched is not. -/
theorem GenericField.declares_iff {language : Language} {f : GenericField language}
    (hread : f.IsRead → ∃ n, parseSnippet (String.ofList f.text) ⟨language, .field⟩ true = .ok n ∧
      n.children.map (Node.content f.text) =
        f.views.map (fun v => (.variable, v.1.map String.ofList, v.2.map some)) ∧
      n.name = some (String.ofList f.name.1))
    (hnone : ¬ f.IsRead → ∀ n,
      parseSnippet (String.ofList f.text) ⟨language, .field⟩ true ≠ .ok n) :
    f.Declares ↔ f.IsRead := by
  constructor
  · rintro ⟨n, hparse, -⟩
    by_contra h
    exact hnone h n hparse
  · intro h
    obtain ⟨n, hparse, hchildren, hname⟩ := hread h
    obtain ⟨-, -, hkind⟩ := parseSnippet_eq_ok_iff.1 hparse
    exact ⟨n, hparse, eq_of_beq hkind, hchildren, hname⟩

/-- A field with an object of a generic type for its value is read with both of its names if and
only if its type is no modifier and there are at most two type arguments. -/
theorem parseSnippet_typeArguments_iff {language : Language}
    (hlanguage : language ∈ [.java, .csharp]) (f : GenericField language) :
    f.Declares ↔ f.IsRead := by
  cases language with
  | java =>
      refine f.declares_iff (fun h => ?_) fun h => ?_
      · obtain ⟨inner, hmatch, hviews⟩ := Java.match_generic h
        exact Java.parse_field hmatch hviews
      · exact Java.readsField.parse_ne_ok Java.ranked rfl (Java.match_generic_none h) true
  | csharp =>
      refine f.declares_iff (fun h => ?_) fun h => ?_
      · obtain ⟨inner, hmatch, hviews⟩ := CSharp.match_generic h
        exact CSharp.parse_field hmatch hviews
      · exact CSharp.readsField.parse_ne_ok CSharp.ranked rfl (CSharp.match_generic_none h) true
  | c => cases hlanguage with
    | tail _ h => cases h with
      | tail _ h => cases h

/-- The comma between two type arguments does not end the initializer. -/
theorem parseSnippet_typeArguments_two :
    let f : GenericField .java := ⟨⟨['T'], by decide⟩, ⟨['x'], by decide⟩, ⟨['C'], by decide⟩,
      ⟨['A'], by decide⟩, [⟨['B'], by decide⟩], ⟨['y'], by decide⟩⟩
    Language.java ∈ [Language.java, .csharp] ∧
      f.text = "T x = new C<A, B>(), y;".toList ∧ f.Declares :=
  ⟨by decide, by decide, (parseSnippet_typeArguments_iff (by decide) _).2 ⟨by decide, by decide⟩⟩

/-- The first comma between three of them does. -/
theorem not_declares_three : ¬ ∀ f : GenericField .java, f.Declares := by
  intro h
  obtain ⟨n, hparse, -⟩ := h ⟨⟨['T'], by decide⟩, ⟨['x'], by decide⟩, ⟨['C'], by decide⟩,
    ⟨['A'], by decide⟩, [⟨['B'], by decide⟩, ⟨['D'], by decide⟩], ⟨['y'], by decide⟩⟩
  have hnone : ∀ n, parseSnippet "T x = new C<A, B, D>(), y;" ⟨.java, .field⟩ true ≠ .ok n :=
    Outcome.ne_ok_of_toOption (by decide +kernel)
  exact hnone n hparse

end FeatureTree
