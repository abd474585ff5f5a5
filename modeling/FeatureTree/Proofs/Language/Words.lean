import FeatureTree.Proofs.Grammar.Runs
import FeatureTree.Proofs.Language.CDeclarators

/-!
# Words and names of the languages

In all three languages the rules of words and names read whole runs, since every list of words has
the longer ones first. Two rules differ a little: one modifier of Java has a hyphen, so it is no
run, and a name of C# may stand behind an at sign, which is not part of the run.
-/

namespace FeatureTree

open Grammar

variable {s t : List Char}

namespace Java

theorem readsRuns_identifier : grammar.ReadsRuns isWordChar .identifier isName := fun l s =>
  (map_matchRule_token ranked rfl l s).trans <| leaves_name ranked takesChar_identChar rfl
    takesChar_beginsName (fun _ => isWordChar_of_beginsName) ⟨rfl, rfl⟩ keywords_chars
    keywords_longestFirst s

/-- The modifier that is no run of word characters. -/
def hyphened : String := "non-sealed"

/-- A modifier is a run, or the word with the hyphen, behind which no run goes on either. -/
theorem modifier_iff (l : Layout) :
    (grammar.matchRule .modifier l s).map (·.1) = some t ↔
      Text.afterRun? isWordChar (isListed Rule.modifierWords) s = some t ∨
        s = hyphened.toList ++ t ∧ ∀ c ∈ t.head?, isWordChar c = false := by
  have hrun : ∀ word ∈ Rule.modifierWords, word ≠ hyphened →
      ∀ c ∈ word.toList, isWordChar c = true := by decide
  rw [map_matchRule_token ranked rfl]
  refine (leaves_word_iff takesChar_identChar (by decide) (by decide)).trans ?_
  rw [Text.afterRun?_eq_some_iff]
  constructor
  · rintro ⟨word, hword, rfl, ht⟩
    by_cases hhyphen : word = hyphened
    · exact .inr ⟨by rw [hhyphen], ht⟩
    · exact .inl ⟨word.toList, isListed_iff.2 ⟨word, hword, rfl⟩, rfl, hrun word hword hhyphen, ht⟩
  · rintro (⟨w, hlisted, rfl, -, ht⟩ | ⟨rfl, ht⟩)
    · obtain ⟨word, hword, rfl⟩ := isListed_iff.1 hlisted
      exact ⟨word, hword, rfl, ht⟩
    · exact ⟨hyphened, by decide, rfl, ht⟩

end Java

namespace CSharp

/-- The text behind the at sign that may stand in front of a name. -/
def behindMark : List Char → List Char
  | '@' :: s => s
  | s => s

theorem leaves_mark (s : List Char) : grammar.leaves (.opt "@") s = some (behindMark s) := by
  rw [leaves_opt_eq]
  show some ((grammar.leaves (.text ['@']) s).getD s) = _
  rw [leaves_text]
  cases s with
  | nil => rfl
  | cons c s =>
      by_cases hc : c = '@'
      · subst hc
        rfl
      · rw [Text.after?, if_neg (Ne.symm hc), behindMark]
        · rfl
        · rintro _ heq
          exact hc (List.cons.inj heq).1

theorem map_identifier (l : Layout) (s : List Char) :
    (grammar.matchRule .identifier l s).map (·.1) =
      Text.afterRun? isWordChar (Grammar.isName beginsName isWordChar Rule.keywords)
        (behindMark s) := by
  rw [map_matchRule_token ranked rfl]
  show grammar.leaves (.both (.opt "@") _) s = _
  rw [leaves_both, leaves_mark, Option.bind_some]
  exact leaves_name ranked takesChar_identChar rfl takesChar_beginsName
    (fun _ => isWordChar_of_beginsName) ⟨rfl, rfl⟩ keywords_chars keywords_longestFirst _

end CSharp

namespace C

theorem readsRuns_identifier : grammar.ReadsRuns isWordChar .identifier
    (Grammar.isName beginsName isWordChar Rule.keywords) := fun l s =>
  (map_matchRule_token ranked rfl l s).trans <| leaves_name ranked takesChar_identChar rfl
    takesChar_beginsName (fun _ => isWordChar_of_beginsName) isWord_keyword keywords_chars
    keywords_longestFirst s

end C

/-- What the rules of words and names take is the longest run of word characters, all of it, and
they match exactly where that run is a name or a listed word. -/
theorem words_and_names_read_runs :
    (Java.grammar.ReadsRuns Java.isWordChar .identifier
        (isName Java.beginsName Java.isWordChar Java.Rule.keywords) ∧
      Java.grammar.ReadsRuns Java.isWordChar .keyword (isListed Java.Rule.keywords) ∧
      Java.grammar.ReadsRuns Java.isWordChar .primitiveType (isListed Java.Rule.primitiveTypes) ∧
      ∀ l s t, (Java.grammar.matchRule .modifier l s).map (·.1) = some t ↔
        Text.afterRun? Java.isWordChar (isListed Java.Rule.modifierWords) s = some t ∨
          s = Java.hyphened.toList ++ t ∧ ∀ c ∈ t.head?, Java.isWordChar c = false) ∧
    ((∀ l s, (CSharp.grammar.matchRule .identifier l s).map (·.1) =
        Text.afterRun? CSharp.isWordChar
          (isName CSharp.beginsName CSharp.isWordChar CSharp.Rule.keywords)
          (CSharp.behindMark s)) ∧
      CSharp.grammar.ReadsRuns CSharp.isWordChar .keyword (isListed CSharp.Rule.keywords) ∧
      CSharp.grammar.ReadsRuns CSharp.isWordChar .modifier (isListed CSharp.Rule.modifierWords) ∧
      CSharp.grammar.ReadsRuns CSharp.isWordChar .primitiveType
        (isListed CSharp.Rule.primitiveTypes)) ∧
    C.grammar.ReadsRuns C.isWordChar .identifier
      (isName C.beginsName C.isWordChar C.Rule.keywords) ∧
    C.grammar.ReadsRuns C.isWordChar .keyword (isListed C.Rule.keywords) ∧
    C.grammar.ReadsRuns C.isWordChar .storageClass (isListed C.Rule.storageClasses) ∧
    C.grammar.ReadsRuns C.isWordChar .typeQualifier (isListed C.Rule.typeQualifiers) ∧
    C.grammar.ReadsRuns C.isWordChar .builtinType (isListed C.Rule.builtinTypes) := by
  refine ⟨⟨Java.readsRuns_identifier, ?_, ?_, fun l _ _ => Java.modifier_iff l⟩,
    ⟨CSharp.map_identifier, ?_, ?_, ?_⟩, C.readsRuns_identifier, ?_, ?_, ?_, ?_⟩
  · exact IsWord.readsRuns ⟨rfl, rfl⟩ Java.ranked Java.takesChar_identChar Java.keywords_chars
      Java.keywords_longestFirst
  · exact IsWord.readsRuns ⟨rfl, rfl⟩ Java.ranked Java.takesChar_identChar (by decide) (by decide)
  · exact IsWord.readsRuns ⟨rfl, rfl⟩ CSharp.ranked CSharp.takesChar_identChar
      CSharp.keywords_chars CSharp.keywords_longestFirst
  · exact IsWord.readsRuns ⟨rfl, rfl⟩ CSharp.ranked CSharp.takesChar_identChar (by decide)
      (by decide)
  · exact IsWord.readsRuns ⟨rfl, rfl⟩ CSharp.ranked CSharp.takesChar_identChar (by decide)
      (by decide)
  · exact C.isWord_keyword.readsRuns C.ranked C.takesChar_identChar C.keywords_chars
      C.keywords_longestFirst
  · exact IsWord.readsRuns ⟨rfl, rfl⟩ C.ranked C.takesChar_identChar (by decide) (by decide)
  · exact IsWord.readsRuns ⟨rfl, rfl⟩ C.ranked C.takesChar_identChar (by decide) (by decide)
  · exact IsWord.readsRuns ⟨rfl, rfl⟩ C.ranked C.takesChar_identChar (by decide) (by decide)

end FeatureTree
