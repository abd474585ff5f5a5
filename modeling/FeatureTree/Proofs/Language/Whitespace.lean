import FeatureTree.Proofs.Grammar.Whitespace
import FeatureTree.Proofs.Language.Steady

/-!
# The whitespace of the languages

In Java and C# a blank is one character, so whether one begins somewhere is a
question about that character alone. In C a backslash in front of an end of line
is a blank together with it. The end of line is a blank as well, so also in C an
end of blanks is blanks.

A comment begins with one of a few signs (`commentOpeners`). A text in which none
of these occurs has no comments.
-/

namespace FeatureTree

namespace Text

variable {c : Char} {s s' r : List Char}

theorem isSome_blank? (c : Char) (s : List Char) : (blank? (c :: s)).isSome = isBlank c := by
  rw [blank?]
  cases isBlank c <;> rfl

/-- An end of line is a blank, or a carriage return and a blank. -/
theorem blank?_of_newline? (h : newline? s = some s') :
    ∃ u, blank? s = some u ∧ (u = s' ∨ blank? u = some s') := by
  rw [newline?.eq_def] at h
  split at h <;> cases h
  · exact ⟨_, rfl, .inl rfl⟩
  · exact ⟨_, rfl, .inr rfl⟩
  · exact ⟨_, rfl, .inl rfl⟩

end Text

namespace Trivia

variable {t : Trivia}

/-- Where each blank is one character, blanks are whitespace. -/
theorem whitespace_of_blank? (ht : t.Steady) (hblank : t.blank = Text.blank?) :
    t.blanks.Whitespace where
  toSteady := blanks_steady ht
  comment_eq_none _ := rfl
  tail := by
    intro c s h
    have hpiece : t.blanks.piece? (c :: s) = if Text.isBlank c then some s else none := by
      rw [piece?_eq_or]
      show (t.blank (c :: s)).or none = _
      rw [hblank, Option.or_none, Text.blank?]
    by_cases hc : Text.isBlank c = true
    · rwa [isTrivia_of_piece (blanks_steady ht).toLawful (hpiece.trans (if_pos hc))] at h
    · rw [isTrivia, skip_of_none (hpiece.trans (if_neg hc))] at h
      cases h
  near := by
    intro c s r _ h
    show (t.blank (c :: s)).isSome = true
    have hr : (t.blank (c :: (s ++ r))).isSome = true := h
    rw [hblank, Text.isSome_blank?] at hr ⊢
    exact hr

end Trivia

/-! ## Java and C# -/

theorem Java.whitespace : Java.trivia.blanks.Whitespace :=
  Trivia.whitespace_of_blank? trivia_steady rfl

theorem CSharp.whitespace : CSharp.trivia.blanks.Whitespace :=
  Trivia.whitespace_of_blank? trivia_steady rfl

/-! ## C -/

namespace C

variable {c : Char} {s s' r : List Char}

theorem blank_eq_some_iff :
    blank (c :: s) = some s' ↔
      Text.isBlank c = true ∧ s' = s ∨ c = '\\' ∧ Text.newline? s = some s' := by
  show (Text.blank? (c :: s)).or (Text.joinedLine? (c :: s)) = some s' ↔ _
  rw [Text.blank?]
  by_cases hc : Text.isBlank c = true
  · have hsign : c ≠ '\\' := by
      rintro rfl
      cases hc
    simp [hc, hsign, eq_comm]
  · rw [if_neg hc, Option.none_or]
    constructor
    · intro h
      obtain ⟨u, hu, hnewline⟩ := Text.joinedLine?_eq_some h
      cases hu
      exact .inr ⟨rfl, hnewline⟩
    · rintro (⟨hblank, -⟩ | ⟨rfl, hnewline⟩)
      · exact absurd hblank hc
      · exact hnewline

theorem isSome_blank_iff :
    (blank (c :: s)).isSome = true ↔
      Text.isBlank c = true ∨ c = '\\' ∧ (Text.newline? s).isSome = true := by
  simp only [Option.isSome_iff_exists, blank_eq_some_iff]
  constructor
  · rintro ⟨s', ⟨hc, -⟩ | ⟨hc, hs'⟩⟩
    · exact .inl hc
    · exact .inr ⟨hc, s', hs'⟩
  · rintro (hc | ⟨hc, s', hs'⟩)
    · exact ⟨s, .inl ⟨hc, rfl⟩⟩
    · exact ⟨s', .inr ⟨hc, hs'⟩⟩

theorem whitespace : C.trivia.blanks.Whitespace where
  toSteady := Trivia.blanks_steady trivia_steady
  comment_eq_none _ := rfl
  tail := by
    intro c s h
    have hlawful := (Trivia.blanks_steady trivia_steady).toLawful
    have hpiece : ∀ s, C.trivia.blanks.piece? s = blank s := fun s => by
      rw [Trivia.piece?_eq_or]
      exact Option.or_none
    have hblank : ∀ {u v}, Text.blank? u = some v →
        C.trivia.blanks.isTrivia u = C.trivia.blanks.isTrivia v := by
      intro u v huv
      refine Trivia.isTrivia_of_piece hlawful ?_
      rw [hpiece]
      show (Text.blank? u).or _ = _
      rw [huv]
      rfl
    cases hfound : blank (c :: s) with
    | none =>
        rw [Trivia.isTrivia, Trivia.skip_of_none (by rw [hpiece, hfound])] at h
        cases h
    | some s' =>
        rw [Trivia.isTrivia_of_piece hlawful (by rw [hpiece, hfound])] at h
        obtain ⟨-, rfl⟩ | ⟨-, hnewline⟩ := blank_eq_some_iff.1 hfound
        · exact h
        · obtain ⟨u, hu, rfl | hsame⟩ := Text.blank?_of_newline? hnewline
          · rwa [hblank hu]
          · rwa [hblank hu, hblank hsame]
  near := by
    intro c s r hs h
    obtain ⟨d, s, rfl⟩ := List.exists_cons_of_ne_nil hs
    show (blank _).isSome = true
    have hr : (blank (c :: ((d :: s) ++ r))).isSome = true := h
    rw [isSome_blank_iff, List.cons_append, Text.newline?_isSome] at hr
    rw [isSome_blank_iff, Text.newline?_isSome]
    exact hr

end C

/-! ## Comments -/

/-- The signs that open a comment. -/
def Language.commentOpeners : Language → List String
  | .java => ["//", "/*"]
  | .csharp | .c => ["//", "/*", "#"]

/-- A text has no comments if none of the signs occurs that open one. -/
theorem Trivia.uncommented_of_openers {t : Trivia} {openers : List String} {text : List Char}
    (ht : ∀ s s', t.comment s = some s' → ∃ o ∈ openers, o.toList <+: s)
    (h : ∀ o ∈ openers, ¬ o.toList <:+: text) : t.Uncommented text := by
  intro v hv
  cases hcomment : t.comment v with
  | none => rfl
  | some s' =>
      obtain ⟨o, ho, hfront⟩ := ht v s' hcomment
      exact absurd (hfront.isInfix.trans hv) (h o ho)

theorem Lexical.comment_opens {s s' : List Char} (h : comment s = some s') :
    "//".toList <+: s ∨ "/*".toList <+: s := by
  rcases Option.or_eq_some_iff.1 h with h | ⟨-, h⟩
  · obtain ⟨u, rfl, -⟩ := Text.lineComment?_eq_some h
    exact .inl ⟨u, rfl⟩
  · obtain ⟨u, rfl, -⟩ := Text.blockComment?_eq_some h
    exact .inr ⟨u, rfl⟩

end FeatureTree
