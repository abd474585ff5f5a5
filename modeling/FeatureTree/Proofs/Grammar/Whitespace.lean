import FeatureTree.Proofs.Grammar.Trim

/-!
# Texts without comments

Where a text opens no comment, only blanks are dropped, and all that is odd about
trimming goes away: an end of blanks is blanks again, so the cut is right behind
the last character that is none (`trim_eq_append_iff`).

One thing is left to see to. A piece of the text and a longer piece around it are
trimmed apart from each other, and a blank can be longer than a character. If the
piece ends in the midst of one, it keeps the first half of what the longer piece
drops as a whole. Otherwise what is left of the piece lies within what is left of
the longer one (`trim_prefix`).
-/

namespace FeatureTree

namespace Trivia

variable {t : Trivia} {s p q r v w x : List Char} {c : Char}

/-- The blanks alone: nothing is a comment. -/
def blanks (t : Trivia) : Trivia := ⟨t.blank, fun _ => none⟩

/-- No comment begins in a text. -/
def Uncommented (t : Trivia) (s : List Char) : Prop := ∀ v, v <:+: s → t.comment v = none

theorem Uncommented.sub (h : t.Uncommented s) (hv : v <:+: s) : t.Uncommented v :=
  fun u hu => h u (hu.trans hv)

theorem blanks_steady (ht : t.Steady) : t.blanks.Steady where
  blank := ht.blank
  comment := fun _ _ => (nomatch ·)
  blanks := ht.blanks
  comments := ⟨(nomatch ·), fun _ => (nomatch ·)⟩
  apart := fun _ => (nomatch ·)

theorem Uncommented.piece? (h : t.Uncommented s) : t.piece? s = t.blanks.piece? s := by
  rw [piece?_eq_or, piece?_eq_or]
  show (t.blank s).or (t.comment s) = (t.blank s).or none
  rw [h s (List.infix_refl s)]

theorem Uncommented.skip (ht : t.Steady) (h : t.Uncommented s) : t.skip s = t.blanks.skip s := by
  generalize hn : s.length = n
  induction n using Nat.strongRecOn generalizing s with
  | ind n ih =>
      cases hpiece : t.piece? s with
      | none => rw [skip_of_none hpiece, skip_of_none (h.piece? ▸ hpiece)]
      | some s' =>
          obtain ⟨hs', hlen⟩ := ht.toLawful.piece s s' hpiece
          rw [skip_of_piece ht.toLawful hpiece,
            skip_of_piece (blanks_steady ht).toLawful (h.piece? ▸ hpiece)]
          exact ih s'.length (by omega) (h.sub hs'.isInfix) rfl

theorem Uncommented.trim (ht : t.Steady) (h : t.Uncommented s) : t.trim s = t.blanks.trim s := by
  induction s with
  | nil => rfl
  | cons c s ih =>
      have hs : s <:+: c :: s := (List.suffix_cons c s).isInfix
      rw [Trivia.trim, Trivia.trim, isTrivia, isTrivia, h.skip ht, ih (h.sub hs)]

/-! ## Whitespace -/

/-- There are no comments, an end of blanks is blanks, and whether a blank begins
somewhere shows within the next character, if there is one. -/
structure Whitespace (t : Trivia) : Prop extends Steady t where
  comment_eq_none : ∀ s, t.comment s = none
  tail : ∀ {c s}, t.isTrivia (c :: s) = true → t.isTrivia s = true
  near : ∀ {c s r}, s ≠ [] → (t.blank (c :: (s ++ r))).isSome = true →
    (t.blank (c :: s)).isSome = true

theorem Whitespace.piece? (ht : t.Whitespace) (s : List Char) : t.piece? s = t.blank s := by
  rw [piece?_eq_or]
  show (t.blank s).or (t.comment s) = _
  rw [ht.comment_eq_none, Option.or_none]

theorem Whitespace.suffix (ht : t.Whitespace) (hv : v <:+ s) (hs : t.isTrivia s = true) :
    t.isTrivia v = true := by
  obtain ⟨u, rfl⟩ := hv
  induction u with
  | nil => exact hs
  | cons c u ih => exact ih (ht.tail hs)

theorem Whitespace.isSome_blank (ht : t.Whitespace) (h : t.isTrivia (c :: s) = true) :
    (t.blank (c :: s)).isSome = true := by
  cases hblank : t.blank (c :: s) with
  | some s' => rfl
  | none =>
      rw [isTrivia, skip_of_none (by rw [ht.piece?, hblank])] at h
      cases h

/-- In front of blanks there is one more if one begins there. -/
theorem Whitespace.isTrivia_cons (ht : t.Whitespace) (hs : t.isTrivia s = true)
    (h : (t.blank (c :: s)).isSome = true) : t.isTrivia (c :: s) = true := by
  obtain ⟨s', hs'⟩ := Option.isSome_iff_exists.1 h
  obtain ⟨hsuffix, hlen⟩ := ht.blank _ _ hs'
  rw [isTrivia_of_piece ht.toLawful (by rw [ht.piece?, hs'])]
  rw [List.length_cons] at hlen
  exact ht.suffix (List.suffix_of_suffix_length_le hsuffix (List.suffix_cons c s) (by omega)) hs

theorem trim_of_isTrivia (h : t.isTrivia s = true) : t.trim s = [] := by
  cases s with
  | nil => rfl
  | cons c s => rw [trim, if_pos h]

/-- Up to a character at which no end of blanks begins, nothing is cut off. -/
theorem Whitespace.trim_append (ht : t.Whitespace) (hc : t.isTrivia (c :: w) = false) :
    t.trim (x ++ c :: w) = x ++ c :: t.trim w := by
  induction x with
  | nil => rw [List.nil_append, trim, if_neg (by rw [hc]; decide), List.nil_append]
  | cons d x ih =>
      have hd : ¬ t.isTrivia (d :: (x ++ c :: w)) = true := by
        intro h
        have := ht.suffix ((List.suffix_append x _).trans (List.suffix_cons d _)) h
        rw [hc] at this
        cases this
      rw [List.cons_append, trim, if_neg hd, ih]
      rfl

/-- A text is cut behind its last character that is no blank. -/
theorem Whitespace.trim_eq_append_iff (ht : t.Whitespace) :
    t.trim s = x ++ [c] ↔
      ∃ w, s = x ++ c :: w ∧ t.isTrivia w = true ∧ t.isTrivia (c :: w) = false := by
  constructor
  · intro h
    induction s generalizing x with
    | nil =>
        cases x <;> cases h
    | cons d s ih =>
        rw [trim] at h
        split at h
        · cases x <;> cases h
        · next hd =>
            cases x with
            | nil =>
                obtain ⟨rfl, hs⟩ := List.cons.inj h
                obtain ⟨tail, htail, htrivia⟩ := t.trim_append s
                rw [hs, List.nil_append] at htail
                exact ⟨s, rfl, htail ▸ htrivia, by simpa using hd⟩
            | cons e x =>
                obtain ⟨rfl, hs⟩ := List.cons.inj h
                obtain ⟨w, rfl, hw, hc⟩ := ih hs
                exact ⟨w, rfl, hw, hc⟩
  · rintro ⟨w, rfl, hw, hc⟩
    rw [ht.trim_append hc, trim_of_isTrivia hw]

/-- What is left of a piece is a front of what is left of a longer one, unless a
blank of the longer one begins with the last character of the piece. -/
theorem Whitespace.trim_prefix (ht : t.Whitespace) (hp : t.trim p ≠ [])
    (hlast : ∀ x c, p = x ++ [c] → (t.blank (c :: r)).isSome = true →
      (t.blank [c]).isSome = true) :
    q ++ t.trim p <+: t.trim (q ++ p ++ r) := by
  obtain ⟨x, c, hx⟩ : ∃ x c, t.trim p = x ++ [c] := by
    obtain ⟨x, c, hx⟩ := List.eq_nil_or_concat (t.trim p) |>.resolve_left hp
    exact ⟨x, c, by rw [hx, List.concat_eq_append]⟩
  obtain ⟨w, rfl, hw, hc⟩ := ht.trim_eq_append_iff.1 hx
  have hblank : t.isTrivia (c :: (w ++ r)) = false := by
    refine Bool.eq_false_iff.2 fun h => ?_
    have hsome := ht.isSome_blank h
    have : t.isTrivia (c :: w) = true := by
      cases w with
      | nil => exact ht.isTrivia_cons t.isTrivia_nil (hlast x c rfl hsome)
      | cons d w => exact ht.isTrivia_cons hw (ht.near (List.cons_ne_nil d w) hsome)
    rw [hc] at this
    cases this
  have hwhole : q ++ (x ++ c :: w) ++ r = (q ++ x) ++ c :: (w ++ r) := by
    simp only [List.append_assoc, List.cons_append]
  rw [hwhole, ht.trim_append hblank, hx]
  exact ⟨t.trim (w ++ r), by simp only [List.append_assoc, List.cons_append, List.nil_append]⟩

end Trivia

/-- Between the parts of a match blanks are dropped, if anything. -/
theorem Grammar.blanks_of_between {R : Type} {g : Grammar R} {l : Layout} {t u : List Char}
    (hg : g.trivia.Steady) (hopen : g.trivia.Uncommented u) (h : t = u ∨ t = g.between l u) :
    ∃ z, u = z ++ t ∧ g.trivia.blanks.isTrivia z = true := by
  have hnil : t = u → ∃ z, u = z ++ t ∧ g.trivia.blanks.isTrivia z = true :=
    fun h => ⟨[], h.symm, Trivia.isTrivia_nil _⟩
  rcases h with h | h
  · exact hnil h
  · cases l with
    | joined | token => exact hnil h
    | spaced =>
        have hblanks := Trivia.blanks_steady hg
        have hskip : g.trivia.blanks.skip u = t := (hopen.skip hg).symm.trans h.symm
        obtain ⟨z, hz⟩ := Trivia.skip_suffix hblanks.toLawful u
        rw [hskip] at hz
        subst hz
        exact ⟨z, rfl, Trivia.isTrivia_front hblanks hskip⟩

end FeatureTree
