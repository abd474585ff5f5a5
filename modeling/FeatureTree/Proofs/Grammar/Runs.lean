import Mathlib.Data.List.TakeWhile
import FeatureTree.Proofs.Grammar.Brackets

/-!
# Rules that read a whole run

The characters of words at the front of a text form a run. A rule of words or names looks at all
of it: it takes the run, or it does not match (`Grammar.ReadsRuns`).

For names that is what the repetition is for, which takes all that it can. For words it depends on
the order of their list. The choice settles on the first word that stands at the front of the
text, and if the run goes on behind that one, the rule fails and no other word is tried. So a word
in front of a longer one that begins with it would hide the longer one, and a rule of names, which
asks first whether a keyword is there, would take the keyword for a name.
-/

namespace FeatureTree

namespace Text

variable {accepts : Char → Bool} {wanted : List Char → Bool} {s t : List Char}

/-- What is left behind the longest run of characters of a class, if the run is one of those that
are wanted. -/
def afterRun? (accepts : Char → Bool) (wanted : List Char → Bool) (s : List Char) :
    Option (List Char) :=
  if wanted (s.takeWhile accepts) = true then some (s.dropWhile accepts) else none

theorem afterRun?_eq_some_iff :
    afterRun? accepts wanted s = some t ↔ ∃ w, wanted w = true ∧ s = w ++ t ∧
      (∀ c ∈ w, accepts c = true) ∧ ∀ c ∈ t.head?, accepts c = false := by
  constructor
  · intro h
    obtain ⟨hwanted, ⟨⟩⟩ := Option.ite_none_right_eq_some.1 h
    refine ⟨s.takeWhile accepts, hwanted, List.takeWhile_append_dropWhile.symm,
      fun c => List.mem_takeWhile_imp, fun c hc => ?_⟩
    have hstop := List.head?_dropWhile_not accepts s
    rw [Option.mem_def.1 hc] at hstop
    exact hstop
  · rintro ⟨w, hwanted, rfl, hw, ht⟩
    rw [afterRun?, Grammar.takeWhile_run hw ht, if_pos hwanted, Grammar.dropWhile_run hw ht]

end Text

namespace Grammar

variable {R : Type} {g : Grammar R} {r k : R} {e first : Expr R} {accepts begins : Char → Bool}
  {s t w : List Char} {words : List String}

/-- The text is a word of the list. -/
def isListed (words : List String) (w : List Char) : Bool := words.any (·.toList == w)

theorem isListed_iff : isListed words w = true ↔ ∃ word ∈ words, word.toList = w := by
  simp [isListed]

/-- The rule takes the longest run of word characters if that is one of those it wants, and does
not match anything else. -/
def ReadsRuns (g : Grammar R) (isWordChar : Char → Bool) (r : R) (wanted : List Char → Bool) :
    Prop :=
  ∀ l s, (g.matchRule r l s).map (·.1) = Text.afterRun? isWordChar wanted s

theorem leaves_word_iff (he : g.TakesChar e accepts)
    (hchars : ∀ word ∈ words, ∀ w ∈ words, word.toList <+: w.toList → w ≠ word →
      ∀ c ∈ w.toList, accepts c = true)
    (horder : LongestFirst words) :
    g.leaves (Lexical.word e words) s = some t ↔
      ∃ word ∈ words, s = word.toList ++ t ∧ ∀ c ∈ t.head?, accepts c = false := by
  rw [leaves_eq_some_iff]
  constructor
  · rintro ⟨f, hmatch⟩
    exact word_of_match he hmatch
  · rintro ⟨word, hword, rfl, ht⟩
    exact ⟨.nil, match_of_word he hword (hchars word hword) horder ht⟩

/-- A rule whose words are made of word characters takes a whole run that is one of them. -/
theorem IsWord.readsRuns (hr : g.IsWord e r words) (hg : g.Ranked) (he : g.TakesChar e accepts)
    (hchars : ∀ word ∈ words, ∀ c ∈ word.toList, accepts c = true)
    (horder : LongestFirst words) : g.ReadsRuns accepts r (isListed words) := by
  intro l s
  rw [map_matchRule_token hg hr.1, hr.2]
  refine Option.ext fun t => ?_
  rw [leaves_word_iff he (fun _ _ w hw _ _ => hchars w hw) horder, Text.afterRun?_eq_some_iff]
  constructor
  · rintro ⟨word, hword, rfl, ht⟩
    exact ⟨word.toList, isListed_iff.2 ⟨word, hword, rfl⟩, rfl, hchars word hword, ht⟩
  · rintro ⟨w, hlisted, rfl, -, ht⟩
    obtain ⟨word, hword, rfl⟩ := isListed_iff.1 hlisted
    exact ⟨word, hword, rfl, ht⟩

/-- A name takes a whole run that begins as names do and is no keyword. -/
theorem leaves_name (hg : g.Ranked) (he : g.TakesChar e accepts)
    (hconsumes : e.consumes g.consuming = true) (hfirst : g.TakesChar first begins)
    (hbegins : ∀ c, begins c = true → accepts c = true) (hk : g.IsWord e k words)
    (hchars : ∀ word ∈ words, ∀ c ∈ word.toList, accepts c = true) (horder : LongestFirst words)
    (s : List Char) :
    g.leaves (.seq [.notAhead (.rule k), first, .star e]) s =
      Text.afterRun? accepts (isName begins accepts words) s := by
  refine Option.ext fun t => ?_
  rw [leaves_eq_some_iff, Text.afterRun?_eq_some_iff]
  constructor
  · rintro ⟨f, hmatch⟩
    obtain ⟨hkeyword, c, w, hc, rfl, hall, ht⟩ := run_of_name hg he hconsumes hfirst hbegins hmatch
    refine ⟨c :: w, isName_iff.2 ⟨⟨c, w, rfl, hc⟩, hall, fun word hword heq => ?_⟩, rfl, hall, ht⟩
    -- A run that is a keyword would have been seen ahead.
    have hseen : (g.matchRule k .token (c :: w ++ t)).map (·.1) = some t :=
      (hk.readsRuns hg he hchars horder .token _).trans
        (Text.afterRun?_eq_some_iff.2 ⟨_, isListed_iff.2 ⟨word, hword, heq⟩, rfl, hall, ht⟩)
    rw [hkeyword] at hseen
    cases hseen
  · rintro ⟨w, hname, rfl, -, ht⟩
    exact ⟨.nil, match_of_name hg he hconsumes hfirst hk hchars hname ht⟩

end Grammar

end FeatureTree
