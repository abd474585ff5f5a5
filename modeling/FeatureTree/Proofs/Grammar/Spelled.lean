import FeatureTree.Proofs.Grammar.Brackets
import FeatureTree.Proofs.Grammar.Whitespace

/-!
# Tokens with blanks between them

A text is written as tokens one after the other, each behind as many blanks as there may be.
Between the parts of a declaration blanks are dropped, and a token that allows for blanks takes
them by a repetition. Either way the next token is at the front then, so a proof about all the
ways to write a declaration goes from token to token and never counts the blanks.
-/

namespace FeatureTree

namespace Tokens

variable {p : Char → Prop} [DecidablePred p]

/-- What holds of the characters of a token is looked up there, and not tried on all characters
that there are. -/
scoped instance decidableForallMemText (s : List Char) : Decidable (∀ c ∈ s, p c) :=
  List.decidableBAll p s

scoped instance decidableForallMemChar : (o : Option Char) → Decidable (∀ c ∈ o, p c)
  | none => isTrue nofun
  | some c => decidable_of_iff (p c) ⟨by rintro h _ ⟨⟩; exact h, fun h => h c rfl⟩

end Tokens

open scoped Tokens

/-- The blanks that may stand between two tokens. -/
def Text.spaces : List Char := [' ', '\t', '\r', '\n']

/-- The tokens are written one after the other, with blanks in front of each. Two tokens that
would run into one word have a blank between them. -/
inductive Spelled (isWordChar : Char → Bool) : List (List Char) → List Char → Prop
  | nil : Spelled isWordChar [] []
  | cons {gap token s : List Char} {tokens : List (List Char)}
      (hgap : ∀ c ∈ gap, c ∈ Text.spaces)
      (hapart : ∀ c ∈ token.getLast?, ∀ d ∈ s.head?, (isWordChar c && isWordChar d) = false)
      (hs : Spelled isWordChar tokens s) : Spelled isWordChar (token :: tokens) (gap ++ (token ++ s))

namespace Grammar

variable {R : Type} {g : Grammar R} {isWordChar : Char → Bool} {e : Expr R}
  {accepts : Char → Bool} {gap token s t w : List Char} {tokens : List (List Char)} {c : Char}

/-- Between the parts of a declaration blanks are dropped one by one, and what begins otherwise is
kept, unless it may be a comment. -/
structure Spaced (g : Grammar R) : Prop where
  ranked : g.Ranked
  layout : ∀ r, g.layout r ≠ .joined
  blank : ∀ {c} s, Text.isBlank c = true → g.trivia.blank (c :: s) = some s
  solid : ∀ {c} s, Text.isBlank c = false → c ∉ ['/', '#', '\\'] → g.trivia.piece? (c :: s) = none

/-- Neither a blank nor anything else that is dropped begins with the character. -/
def IsSolid (c : Char) : Prop := Text.isBlank c = false ∧ c ∉ ['/', '#', '\\']

instance (c : Char) : Decidable (IsSolid c) := inferInstanceAs (Decidable (_ ∧ _))

/-- A text that is not dropped, not even in part. -/
def IsToken (token : List Char) : Prop := ∃ c w, token = c :: w ∧ IsSolid c

theorem IsToken.head (h : IsToken token) : ∀ c ∈ (token ++ t).head?, IsSolid c := by
  obtain ⟨c, w, rfl, hc⟩ := h
  rintro _ ⟨⟩
  exact hc

theorem not_mem_of_class (p : Char → Bool) {cs : List Char} (h : ∀ d ∈ cs, p d = false)
    (hc : p c = true) : c ∉ cs := by
  intro hmem
  rw [h c hmem] at hc
  cases hc

/-- Characters of a class are kept if none of those that may be dropped is in the class. -/
theorem isSolid_of_class (p : Char → Bool)
    (h : ∀ d ∈ [' ', '\t', '\r', '\n', '\ufeff', '/', '#', '\\'], p d = false)
    (hc : p c = true) : IsSolid c := by
  have hnot := not_mem_of_class p h hc
  simp only [List.mem_cons, List.not_mem_nil, or_false, not_or] at hnot
  simp [IsSolid, Text.isBlank, hnot]

theorem isBlank_of_space (h : c ∈ Text.spaces) : Text.isBlank c = true := by
  simp only [Text.spaces, List.mem_cons, List.not_mem_nil, or_false] at h
  rcases h with rfl | rfl | rfl | rfl <;> rfl

theorem between_gap (hg : g.Spaced) (hgap : ∀ c ∈ gap, c ∈ Text.spaces)
    (hs : ∀ c ∈ s.head?, IsSolid c) : g.between .spaced (gap ++ s) = s := by
  show g.trivia.skip (gap ++ s) = s
  induction gap with
  | nil =>
      cases s with
      | nil => rfl
      | cons c s => exact Trivia.skip_of_none (hg.solid s (hs c rfl).1 (hs c rfl).2)
  | cons c gap ih =>
      have hc := isBlank_of_space (hgap c List.mem_cons_self)
      have hpiece : g.trivia.piece? (c :: (gap ++ s)) = some (gap ++ s) := by
        rw [Trivia.piece?, hg.blank (gap ++ s) hc]
      rw [List.cons_append, Trivia.skip_of_piece hg.ranked.lawful hpiece]
      exact ih fun d hd => hgap d (List.mem_cons_of_mem c hd)

theorem isTrivia_blank_cons (hg : g.Spaced) (hc : Text.isBlank c = true)
    (s : List Char) : g.trivia.isTrivia (c :: s) = g.trivia.isTrivia s :=
  Trivia.isTrivia_of_piece hg.ranked.lawful (by rw [Trivia.piece?, hg.blank s hc])

theorem isTrivia_gap (hg : g.Spaced)
    (hgap : ∀ c ∈ gap, c ∈ Text.spaces) : g.trivia.isTrivia gap = true := by
  induction gap with
  | nil => rfl
  | cons c gap ih =>
      rw [isTrivia_blank_cons hg (isBlank_of_space (hgap c List.mem_cons_self))]
      exact ih fun d hd => hgap d (List.mem_cons_of_mem c hd)

/-- A text in which no comment begins is more than blanks if its last character is none. -/
theorem isTrivia_of_last (hg : g.Spaced) (hne : w ≠ [])
    (hw : ∀ c ∈ w, c ∉ ['/', '#', '\\']) (hlast : ∀ c ∈ w.getLast?, Text.isBlank c = false) :
    g.trivia.isTrivia (w ++ s) = false := by
  induction w with
  | nil => exact absurd rfl hne
  | cons c w ih =>
      cases hc : Text.isBlank c with
      | true =>
          have hw' : w ≠ [] := by
            rintro rfl
            rw [hlast c rfl] at hc
            cases hc
          rw [List.cons_append, isTrivia_blank_cons hg hc]
          refine ih hw' (fun d hd => hw d (List.mem_cons_of_mem c hd)) fun d hd => hlast d ?_
          rwa [List.getLast?_cons_of_ne_nil hw']
      | false =>
          have hnone := hg.solid (w ++ s) hc (hw c List.mem_cons_self)
          rw [List.cons_append, Trivia.isTrivia, Trivia.skip_of_none hnone]
          rfl

/-- Trimming takes off the blanks behind a text in which no comment begins. -/
theorem trim_gap (hg : g.Spaced) (hw : ∀ c ∈ w, c ∉ ['/', '#', '\\'])
    (hlast : ∀ c ∈ w.getLast?, Text.isBlank c = false) (hgap : ∀ c ∈ gap, c ∈ Text.spaces) :
    g.trivia.trim (w ++ gap) = w := by
  induction w with
  | nil => rw [List.nil_append, Trivia.trim_of_isTrivia (isTrivia_gap hg hgap)]
  | cons c w ih =>
      have hmore : ¬ g.trivia.isTrivia (c :: (w ++ gap)) = true := by
        have := isTrivia_of_last (s := gap) hg (List.cons_ne_nil c w) hw hlast
        rw [← List.cons_append, this]
        decide
      rw [List.cons_append, Trivia.trim, if_neg hmore,
        ih (fun d hd => hw d (List.mem_cons_of_mem c hd)) fun d hd => hlast d ?_]
      cases w with
      | nil => cases hd
      | cons e w => rwa [List.getLast?_cons_cons]

theorem trim_plain (hg : g.Spaced) (hw : ∀ c ∈ w, c ∉ ['/', '#', '\\'])
    (hlast : ∀ c ∈ w.getLast?, Text.isBlank c = false) : g.trivia.trim w = w := by
  have htrim := trim_gap hg hw hlast (List.forall_mem_nil _)
  rwa [List.append_nil] at htrim

/-- Nothing is trimmed off a text of which nothing can be dropped. -/
theorem trim_solid (hg : g.Spaced) (hw : ∀ c ∈ w, IsSolid c) : g.trivia.trim w = w :=
  trim_plain hg (fun c hc => (hw c hc).2) fun c hc => (hw c (List.mem_of_getLast? hc)).1

theorem takesChar_ws : g.TakesChar Lexical.ws
    fun c => c == ' ' || (c == '\t' || (c == '\r' || c == '\n')) :=
  (takesChar_text ' ').either ((takesChar_text '\t').either
    ((takesChar_text '\r').either (takesChar_text '\n')))

theorem takesChar_ws_iff {c : Char} :
    (c == ' ' || (c == '\t' || (c == '\r' || c == '\n'))) = true ↔ c ∈ Text.spaces := by
  simp [Text.spaces]

/-- A repetition of characters of a class takes a run of them. -/
theorem leaves_star_run (hg : g.Ranked) (he : g.TakesChar e accepts)
    (hconsumes : e.consumes g.consuming = true) (hw : ∀ c ∈ w, accepts c = true)
    (ht : ∀ c ∈ t.head?, accepts c = false) : g.leaves (.star e) (w ++ t) = some t := by
  refine leaves_eq_some_iff.2 ⟨.nil, matchExpr_star hg hconsumes rfl ?_ (none_of_head he ht)⟩
  refine rounds_of_chars (by decide) fun c hc s => ?_
  rw [he]
  exact if_pos (hw c hc)

theorem leaves_ws (g : Grammar R) (c : Char) (s : List Char) :
    g.leaves Lexical.ws (c :: s) = if c ∈ Text.spaces then some s else none := by
  rw [leaves, takesChar_ws]
  show Option.map _ (if _ then _ else _) = _
  by_cases hc : c ∈ Text.spaces
  · rw [if_pos (takesChar_ws_iff.2 hc), if_pos hc]
    rfl
  · rw [if_neg fun h => hc (takesChar_ws_iff.1 h), if_neg hc]
    rfl

/-- Blanks are taken as far as they go. -/
theorem leaves_spaces_iff (hg : g.Ranked) : g.leaves (.star Lexical.ws) s = some t ↔
    ∃ gap, s = gap ++ t ∧ (∀ c ∈ gap, c ∈ Text.spaces) ∧ ∀ c ∈ t.head?, c ∉ Text.spaces := by
  constructor
  · intro h
    obtain ⟨f, hmatch⟩ := leaves_eq_some_iff.1 h
    obtain ⟨gap, rfl, hgap, hend⟩ := chars_of_star hg takesChar_ws rfl hmatch
    refine ⟨gap, rfl, fun c hc => takesChar_ws_iff.1 (hgap c hc), fun c hc hspace => ?_⟩
    exact absurd (takesChar_ws_iff.2 hspace) (by rw [hend c hc]; decide)
  · rintro ⟨gap, rfl, hgap, hend⟩
    exact leaves_star_run hg takesChar_ws rfl (fun c hc => takesChar_ws_iff.2 (hgap c hc))
      fun c hc => Bool.eq_false_iff.2 fun hspace => hend c hc (takesChar_ws_iff.1 hspace)

/-- Inside a token blanks are taken by a repetition. -/
theorem leaves_spaces (hg : g.Ranked) (hgap : ∀ c ∈ gap, c ∈ Text.spaces)
    (hs : ∀ c ∈ s.head?, IsSolid c) : g.leaves (.star Lexical.ws) (gap ++ s) = some s := by
  refine (leaves_spaces_iff hg).2 ⟨gap, rfl, hgap, fun c hc hspace => ?_⟩
  have hblank := isBlank_of_space hspace
  rw [(hs c hc).1] at hblank
  cases hblank

theorem leaves_some_spaces_iff (hg : g.Ranked) : g.leaves (.plus Lexical.ws) s = some t ↔
    ∃ gap, s = gap ++ t ∧ (∀ c ∈ gap, c ∈ Text.spaces) ∧ gap ≠ [] ∧
      ∀ c ∈ t.head?, c ∉ Text.spaces := by
  rw [Expr.plus, leaves_both]
  cases s with
  | nil =>
      refine ⟨(nomatch ·), ?_⟩
      rintro ⟨gap, hs, -, hne, -⟩
      exact absurd (List.append_eq_nil_iff.1 hs.symm).1 hne
  | cons c s =>
      rw [leaves_ws]
      constructor
      · intro h
        split at h
        · next hc =>
            obtain ⟨gap, rfl, hgap, hend⟩ := (leaves_spaces_iff hg).1 h
            exact ⟨c :: gap, rfl, List.forall_mem_cons.2 ⟨hc, hgap⟩, nofun, hend⟩
        · cases h
      · rintro ⟨_ | ⟨d, gap⟩, hs, hgap, hne, hend⟩
        · exact absurd rfl hne
        · cases hs
          obtain ⟨hc, hmore⟩ := List.forall_mem_cons.1 hgap
          rw [if_pos hc]
          exact (leaves_spaces_iff hg).2 ⟨gap, rfl, hmore, hend⟩

end Grammar

namespace Spelled

open Grammar

variable {R : Type} {g : Grammar R} {isWordChar : Char → Bool} {s token : List Char}
  {tokens : List (List Char)}

/-- Between the parts of a declaration the next token is what is left. -/
theorem between (h : Spelled isWordChar (token :: tokens) s) (hg : g.Spaced)
    (htoken : IsToken token) :
    ∃ t, g.between .spaced s = token ++ t ∧ Spelled isWordChar tokens t ∧
      ∀ c ∈ token.getLast?, ∀ d ∈ t.head?, (isWordChar c && isWordChar d) = false := by
  cases h with
  | @cons gap token t tokens hgap hapart ht =>
      exact ⟨t, between_gap hg hgap htoken.head, ht, hapart⟩

/-- Blanks are taken up to where nothing is dropped. -/
theorem leaves_ws (h : Spelled isWordChar (token :: tokens) s) (hg : g.Spaced)
    (htoken : IsToken token) : g.leaves (.star Lexical.ws) s = some (g.between .spaced s) := by
  cases h with
  | @cons gap token t tokens hgap _ _ =>
      rw [between_gap hg hgap htoken.head]
      exact leaves_spaces hg.ranked hgap htoken.head

/-- No word goes on with the sign behind it. -/
theorem cons_before (gap : List Char) {c : Char} (hgap : ∀ c ∈ gap, c ∈ Text.spaces)
    (hc : isWordChar c = false) (hs : Spelled isWordChar tokens (c :: s)) :
    Spelled isWordChar (token :: tokens) (gap ++ (token ++ c :: s)) := by
  refine .cons hgap ?_ hs
  rintro d - _ ⟨⟩
  rw [hc, Bool.and_false]

/-- A sign is no part of a word. -/
theorem cons_sign (gap : List Char) {c : Char} (hgap : ∀ c ∈ gap, c ∈ Text.spaces)
    (hc : isWordChar c = false) (hs : Spelled isWordChar tokens s) :
    Spelled isWordChar ([c] :: tokens) (gap ++ c :: s) := by
  refine .cons hgap ?_ hs
  rintro _ ⟨⟩ d -
  exact congrArg (· && isWordChar d) hc

/-- A text begins with a blank or with its first token. -/
theorem head_ne {d : Char} (h : Spelled isWordChar (token :: tokens) s) (hne : token ≠ [])
    (hd : d ∉ Text.spaces) (htoken : ∀ c ∈ token.head?, c ≠ d) : ∀ c ∈ s.head?, c ≠ d := by
  cases h with
  | @cons gap token s _ hgap _ _ =>
      intro c hc heq
      cases gap with
      | nil =>
          obtain ⟨a, token, rfl⟩ := List.exists_cons_of_ne_nil hne
          exact htoken c hc heq
      | cons a gap =>
          obtain rfl : a = c := Option.some.inj hc
          exact hd (heq ▸ hgap a List.mem_cons_self)

/-- Behind a word there is no other character of words. -/
theorem head_of_apart (hw : ∀ c ∈ token, isWordChar c = true) (hne : token ≠ [])
    (h : ∀ c ∈ token.getLast?, ∀ d ∈ s.head?, (isWordChar c && isWordChar d) = false) :
    ∀ d ∈ s.head?, isWordChar d = false := by
  intro d hd
  have hlast := h _ (List.getLast?_eq_some_getLast hne) d hd
  rwa [hw _ (List.getLast_mem hne), Bool.true_and] at hlast

end Spelled

end FeatureTree
