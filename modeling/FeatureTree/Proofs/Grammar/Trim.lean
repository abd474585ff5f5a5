import FeatureTree.Proofs.Grammar.Match

/-!
# Where a text is cut

Blanks and comments are dropped off the front of a text, and off the end of a
match when its span is made. Both are judged by the text at hand, so a piece has
to be compared with itself in front of more text and in front of less. `Steady`
is what all pieces have in common there: a piece stays one if the text is cut off
behind it, and with more text behind it, it can only become longer.

Two facts about spans follow. What is dropped in front of a text is blanks and
comments as a text of its own (`isTrivia_front`), and of a match that does not
begin with a blank or comment something is left (`trim_ne_nil`).
-/

namespace FeatureTree

namespace Text

/-- A piece stays one if the text ends behind it, and takes in only what is put
behind the text. -/
structure Steady (drop : List Char → Option (List Char)) : Prop where
  ends : ∀ {p w}, drop (p ++ w) = some w → drop p = some []
  goesOn : ∀ {s x} r, drop s = some x → ∃ y, drop (s ++ r) = some y ∧ y <:+ x ++ r

variable {drop f g : List Char → Option (List Char)} {p q r : List Char}

/-- A piece stays one wherever behind it the text ends. -/
theorem Steady.cut (h : Steady drop) (hdrop : drop (p ++ (q ++ r)) = some (q ++ r)) :
    drop (p ++ q) = some q := by
  obtain ⟨y, hy, hyq⟩ := h.goesOn q (h.ends hdrop)
  obtain ⟨z, hz, hzr⟩ := h.goesOn r hy
  rw [List.append_assoc, hdrop] at hz
  cases hz
  -- The piece of the longer text takes no less, that of the shorter one no more.
  have hlen := hzr.length_le
  simp only [List.length_append] at hlen
  rw [hy, List.IsSuffix.eq_of_length_le hyq (by simp only [List.nil_append]; omega)]
  rfl

theorem Steady.or (hf : Steady f) (hg : Steady g)
    (hfg : ∀ {s x} r, g s = some x → f (s ++ r) = none) : Steady fun s => (f s).or (g s) where
  ends := by
    intro p w h
    rcases Option.or_eq_some_iff.1 h with h | ⟨hnone, h⟩
    · rw [hf.ends h]; rfl
    · cases hp : f p with
      | none => rw [hg.ends h]; rfl
      | some x =>
          obtain ⟨y, hy, -⟩ := hf.goesOn w hp
          rw [hnone] at hy
          cases hy
  goesOn := by
    intro s x r h
    rcases Option.or_eq_some_iff.1 h with h | ⟨-, h⟩
    · obtain ⟨y, hy, hyx⟩ := hf.goesOn r h
      exact ⟨y, by rw [hy]; rfl, hyx⟩
    · obtain ⟨y, hy, hyx⟩ := hg.goesOn r h
      exact ⟨y, by rw [hfg r h, hy]; rfl, hyx⟩

end Text

namespace Trivia

variable {t : Trivia} {s p r : List Char}

/-- Both blanks and comments are steady, and no comment begins like a blank. -/
structure Steady (t : Trivia) : Prop extends Lawful t where
  blanks : Text.Steady t.blank
  comments : Text.Steady t.comment
  apart : ∀ {s x} r, t.comment s = some x → t.blank (s ++ r) = none

theorem piece?_eq_or (t : Trivia) : t.piece? = fun s => (t.blank s).or (t.comment s) := by
  funext s
  rw [piece?]
  cases t.blank s <;> rfl

theorem Steady.piece (ht : t.Steady) : Text.Steady t.piece? := by
  rw [piece?_eq_or]
  exact ht.blanks.or ht.comments ht.apart

/-- There is nothing to drop exactly where no piece begins. -/
theorem skip_eq_self_iff (ht : t.Lawful) : t.skip s = s ↔ t.piece? s = none := by
  constructor
  · intro h
    cases hpiece : t.piece? s with
    | none => rfl
    | some s' =>
        rw [skip_of_piece ht hpiece] at h
        have hlen := (ht.piece s s' hpiece).2
        have := (skip_suffix ht s').length_le
        rw [h] at this
        omega
  · exact skip_of_none

theorem isTrivia_nil (t : Trivia) : t.isTrivia [] = true := rfl

/-- What is dropped in front of a text consists of blanks and comments. -/
theorem isTrivia_front (ht : t.Steady) (h : t.skip (p ++ r) = r) : t.isTrivia p = true := by
  generalize hn : p.length = n
  induction n using Nat.strongRecOn generalizing p with
  | ind n ih =>
      cases hpiece : t.piece? (p ++ r) with
      | none =>
          rw [skip_of_none hpiece] at h
          rw [List.append_left_eq_self.1 h]
          exact t.isTrivia_nil
      | some s' =>
          have hs' := ht.toLawful.piece _ _ hpiece
          rw [skip_of_piece ht.toLawful hpiece] at h
          -- The piece lies in front of what is left in the end.
          obtain ⟨p', rfl⟩ : ∃ p', s' = p' ++ r := by
            obtain ⟨p', hp'⟩ := skip_suffix ht.toLawful s'
            exact ⟨p', by rw [h] at hp'; exact hp'.symm⟩
          obtain ⟨x, hx⟩ := hs'.1
          rw [← List.append_assoc, List.append_cancel_right_eq] at hx
          subst hx
          rw [List.append_assoc] at hpiece
          rw [isTrivia_of_piece ht.toLawful (ht.piece.cut hpiece)]
          have hlen := hs'.2
          simp only [List.length_append] at hlen hn
          exact ih p'.length (by omega) h rfl

theorem isTrivia_eq_false (ht : t.Steady) (hp : p ≠ []) (h : t.skip (p ++ r) = p ++ r) :
    t.isTrivia p = false := by
  have hnone : t.piece? p = none := by
    cases hpiece : t.piece? p with
    | none => rfl
    | some x =>
        obtain ⟨y, hy, -⟩ := ht.piece.goesOn r hpiece
        rw [(skip_eq_self_iff ht.toLawful).1 h] at hy
        cases hy
  rw [isTrivia, skip_of_none hnone]
  simpa using hp

/-- Something is left of a match that begins with no blank or comment. -/
theorem trim_ne_nil (ht : t.Steady) (hp : p ≠ []) (h : t.skip (p ++ r) = p ++ r) :
    t.trim p ≠ [] := by
  obtain ⟨c, p, rfl⟩ := List.exists_cons_of_ne_nil hp
  rw [trim, isTrivia_eq_false ht hp h]
  exact List.cons_ne_nil _ _

end Trivia

end FeatureTree
