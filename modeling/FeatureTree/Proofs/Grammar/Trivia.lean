import FeatureTree.Proofs.Grammar.Rest

/-!
# Where blanks and comments end

`skip` drops one piece after the other. Its bound is bookkeeping: a piece is
never empty, so there are no more pieces than characters, and `skip` goes on
behind a piece as if the text began there (`skip_of_piece`).

What is a piece, is decided by the text in front of what the piece leaves. Only
where it leaves nothing can more text make a difference: a line comment that
reaches the end of a text goes on into whatever is put behind it. `leavesOpen`
asks whether that is so, and `isTrivia_append` says what it comes to: blanks
and comments can be cut off the front of a text, but with a comment left open
at the cut everything goes that still belongs to the comment.
-/

namespace FeatureTree

namespace Text

/-- Bounds that are both long enough allow for the same steps. -/
theorem iterate_congr {β γ : Type} {step : List Char → Option (List Char)} (hstep : Drops step)
    {bound : List β} {bound' : List γ} {s : List Char} (h : s.length ≤ bound.length)
    (h' : s.length ≤ bound'.length) : iterate step bound s = iterate step bound' s := by
  have hnil : step [] = none := by
    cases hs : step [] with
    | none => rfl
    | some s' => exact absurd (hstep [] s' hs).2 (Nat.not_lt_zero _)
  induction bound generalizing bound' s with
  | nil =>
      rw [List.length_eq_zero_iff.1 (Nat.le_zero.1 h)]
      cases bound' with
      | nil => rfl
      | cons b' bound' => rw [iterate, iterate, hnil]
  | cons b bound ih =>
      rw [List.length_cons] at h
      cases bound' with
      | nil =>
          rw [List.length_eq_zero_iff.1 (Nat.le_zero.1 h'), iterate, iterate, hnil]
      | cons b' bound' =>
          rw [List.length_cons] at h'
          rw [iterate, iterate]
          cases hs : step s with
          | none => rfl
          | some s' =>
              have hlen := (hstep s s' hs).2
              exact ih (by omega) (by omega)

theorem iterate_step {step : List Char → Option (List Char)} (hstep : Drops step)
    {s s' : List Char} (h : step s = some s') : iterate step s s = iterate step s' s' := by
  have hlen := (hstep s s' h).2
  cases s with
  | nil => exact absurd hlen (Nat.not_lt_zero _)
  | cons c s =>
      rw [iterate, h]
      rw [List.length_cons] at hlen
      exact iterate_congr hstep (by omega) (Nat.le_refl _)

theorem iterate_stop {step : List Char → Option (List Char)} {s : List Char}
    (h : step s = none) : iterate step s s = s := by
  cases s with
  | nil => rfl
  | cons c s => rw [iterate, h]

/-- What is dropped depends on the text up to where it ends. Only at the end of
the text there may be two cases: it ends there, or it would go on, with a letter
and with anything else. -/
structure Local (drop : List Char → Option (List Char)) : Prop where
  append : ∀ {s s'} r, drop s = some s' → s' ≠ [] → drop (s ++ r) = some (s' ++ r)
  last : ∀ {s}, drop s = some [] →
    (∀ r, drop (s ++ r) = some r) ∨
      drop (s ++ ['x']) = some [] ∧ ∀ r, (drop (s ++ r)).isSome = true

theorem Local.or {f g : List Char → Option (List Char)} (hf : Local f) (hg : Local g)
    (hfg : ∀ {s s'} r, g s = some s' → f (s ++ r) = none) : Local fun s => (f s).or (g s) where
  append := by
    intro s s' r h hs'
    rcases Option.or_eq_some_iff.1 h with h | ⟨-, h⟩
    · rw [hf.append r h hs']; rfl
    · rw [hfg r h, hg.append r h hs']; rfl
  last := by
    intro s h
    rcases Option.or_eq_some_iff.1 h with h | ⟨-, h⟩
    · rcases hf.last h with hclosed | ⟨hopen, hsome⟩
      · exact .inl fun r => by rw [hclosed r]; rfl
      · refine .inr ⟨by rw [hopen]; rfl, fun r => ?_⟩
        rw [Option.isSome_or, hsome r]
        rfl
    · rcases hg.last h with hclosed | ⟨hopen, hsome⟩
      · exact .inl fun r => by rw [hfg r h, hclosed r]; rfl
      · refine .inr ⟨by rw [hfg _ h, hopen]; rfl, fun r => ?_⟩
        rw [Option.isSome_or, hsome r, Bool.or_true]

end Text

namespace Trivia

variable {t : Trivia} {s s' r : List Char}

theorem skip_of_piece (ht : t.Lawful) (h : t.piece? s = some s') : t.skip s = t.skip s' :=
  Text.iterate_step ht.piece h

theorem skip_of_none (h : t.piece? s = none) : t.skip s = s := Text.iterate_stop h

theorem isTrivia_of_piece (ht : t.Lawful) (h : t.piece? s = some s') :
    t.isTrivia s = t.isTrivia s' := by
  rw [isTrivia, isTrivia, skip_of_piece ht h]

/-- A text is cut where only blanks and comments follow. -/
theorem trim_append (s : List Char) : ∃ tail, s = t.trim s ++ tail ∧ t.isTrivia tail = true := by
  induction s with
  | nil => exact ⟨[], rfl, rfl⟩
  | cons c s ih =>
      rw [trim]
      by_cases h : t.isTrivia (c :: s) = true
      · rw [if_pos h]
        exact ⟨c :: s, rfl, h⟩
      · rw [if_neg h]
        obtain ⟨tail, hs, htail⟩ := ih
        exact ⟨tail, by rw [List.cons_append, ← hs], htail⟩

/-- The last of the blanks and comments that a text holds. -/
def lastPiece (t : Trivia) (s : List Char) : List Char :=
  Text.iterate (fun s => (t.piece? s).filter (· ≠ [])) s s

/-- The text ends in a comment that would go on: a letter put behind it belongs
to the comment. -/
def leavesOpen (t : Trivia) (s : List Char) : Bool := t.isTrivia (s ++ ['x'])

/-- What is left of a text after the comment that the text in front of it
leaves open. -/
def behindComment (t : Trivia) (s r : List Char) : List Char :=
  (t.comment (t.lastPiece s ++ r)).getD r

/-- A piece depends on the text up to where it ends, and a letter is no
piece. -/
structure Local (t : Trivia) : Prop extends Lawful t where
  comments : Text.Local t.comment
  blank_append : ∀ {s s'} r, t.blank s = some s' → s' ≠ [] → t.blank (s ++ r) = some (s' ++ r)
  blank_comment : ∀ {s s'} r, t.comment s = some s' → t.blank (s ++ r) = none
  /-- The last blank may take in one blank more. -/
  blank_last : ∀ {s} r, t.blank s = some [] →
    ∃ r', t.blank (s ++ r) = some r' ∧ (r' = r ∨ t.blank r = some r')
  letter : t.piece? ['x'] = none

theorem Local.drops (ht : t.Local) :
    Text.Drops fun s => (t.piece? s).filter (· ≠ []) := by
  intro s s' h
  exact ht.toLawful.piece s s' (Option.filter_eq_some_iff.1 h).1

theorem lastPiece_of_piece (ht : t.Local) (h : t.piece? s = some s') (hs' : s' ≠ []) :
    t.lastPiece s = t.lastPiece s' :=
  Text.iterate_step ht.drops (Option.filter_eq_some_iff.2 ⟨h, by simpa using hs'⟩)

theorem lastPiece_of_last (h : t.piece? s = some []) : t.lastPiece s = s :=
  Text.iterate_stop (by rw [h]; rfl)

theorem piece?_append (ht : t.Local) (h : t.piece? s = some s') (hs' : s' ≠ []) :
    t.piece? (s ++ r) = some (s' ++ r) := by
  rw [piece?] at h
  cases hblank : t.blank s with
  | some rest =>
      rw [hblank] at h
      cases h
      rw [piece?, ht.blank_append r hblank hs']
  | none =>
      rw [hblank] at h
      rw [piece?, ht.blank_comment r h]
      exact ht.comments.append r h hs'

/-- All but the last piece can be left out in front of more text. -/
theorem isTrivia_lastPiece (ht : t.Local) (hs : t.isTrivia s = true) (hne : s ≠ []) :
    t.piece? (t.lastPiece s) = some [] ∧
      ∀ r, t.isTrivia (s ++ r) = t.isTrivia (t.lastPiece s ++ r) := by
  generalize hn : s.length = n
  induction n using Nat.strongRecOn generalizing s with
  | ind n ih =>
      cases hpiece : t.piece? s with
      | none =>
          rw [isTrivia, skip_of_none hpiece] at hs
          exact absurd (List.isEmpty_iff.1 hs) hne
      | some s' =>
          by_cases hs' : s' = []
          · subst hs'
            rw [lastPiece_of_last hpiece]
            exact ⟨hpiece, fun r => rfl⟩
          · have hlen := (ht.toLawful.piece s s' hpiece).2
            rw [isTrivia_of_piece ht.toLawful hpiece] at hs
            obtain ⟨hlast, happend⟩ := ih s'.length (by omega) hs hs' rfl
            rw [lastPiece_of_piece ht hpiece hs']
            refine ⟨hlast, fun r => ?_⟩
            rw [isTrivia_of_piece ht.toLawful (piece?_append ht hpiece hs'), happend]

/-- A blank at the end can be left out in front of more text. -/
theorem isTrivia_blank (ht : t.Local) (h : t.blank s = some []) (r : List Char) :
    t.isTrivia (s ++ r) = t.isTrivia r := by
  obtain ⟨r', hr', hsame⟩ := ht.blank_last r h
  rw [isTrivia_of_piece ht.toLawful (by rw [piece?, hr'])]
  rcases hsame with rfl | hsame
  · rfl
  · rw [isTrivia_of_piece (s := r) ht.toLawful (by rw [piece?, hsame])]

theorem isTrivia_comment (ht : t.Local) (h : t.comment s = some []) {r' : List Char}
    (hr' : t.comment (s ++ r) = some r') : t.isTrivia (s ++ r) = t.isTrivia r' := by
  rw [isTrivia_of_piece ht.toLawful]
  rw [piece?, ht.blank_comment r h]
  exact hr'

theorem isTrivia_letter (ht : t.Local) : t.isTrivia ['x'] = false := by
  rw [isTrivia, skip_of_none ht.letter]
  rfl

/-- Blanks and comments can be cut off the front of a text, together with what
belongs to a comment that they leave open. -/
theorem isTrivia_append (ht : t.Local) (hs : t.isTrivia s = true) (r : List Char) :
    t.isTrivia (s ++ r) =
      t.isTrivia (if t.leavesOpen s then t.behindComment s r else r) := by
  by_cases hne : s = []
  · rw [hne, leavesOpen, List.nil_append, List.nil_append, isTrivia_letter ht]
    rfl
  obtain ⟨hlast, happend⟩ := isTrivia_lastPiece ht hs hne
  rw [leavesOpen, happend, happend, behindComment]
  generalize t.lastPiece s = last at hlast
  rw [piece?] at hlast
  cases hblank : t.blank last with
  | some rest =>
      rw [hblank] at hlast
      cases hlast
      rw [isTrivia_blank ht hblank, isTrivia_blank ht hblank, isTrivia_letter ht]
      rfl
  | none =>
      rw [hblank] at hlast
      rcases ht.comments.last hlast with hclosed | ⟨hopen, hsome⟩
      · rw [isTrivia_comment ht hlast (hclosed r), isTrivia_comment ht hlast (hclosed ['x']),
          isTrivia_letter ht]
        rfl
      · obtain ⟨r', hr'⟩ := Option.isSome_iff_exists.1 (hsome r)
        rw [isTrivia_comment ht hlast hr', isTrivia_comment ht hlast hopen, hr']
        rfl

end Trivia

end FeatureTree
