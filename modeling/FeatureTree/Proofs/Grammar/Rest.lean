import FeatureTree.Proofs.Grammar.Inversion

/-!
# What a match leaves

A match takes a piece off the front of a text, so what it leaves is an end of
that text, and the gaps between the parts of a match are pieces of it as well.
Nothing else about a match is as widely used: spans are computed from what
stood before and after, and both the depth of calls and the rounds of a
repetition are bounded by the length of what is left.

Some expressions take at least one character. Which ones do can be read off an
expression, given which rules do; `consumes` is that reading.
-/

namespace FeatureTree

namespace Text

/-- A function that drops a piece, never an empty one, off the front of a
text. -/
def Drops (drop : List Char → Option (List Char)) : Prop :=
  ∀ s s', drop s = some s' → s' <:+ s ∧ s'.length < s.length

theorem Drops.or {f g : List Char → Option (List Char)} (hf : Drops f) (hg : Drops g) :
    Drops fun s => (f s).or (g s) := by
  intro s s' h
  rcases Option.or_eq_some_iff.1 h with h | ⟨-, h⟩
  · exact hf s s' h
  · exact hg s s' h

theorem iterate_suffix {β : Type} {step : List Char → Option (List Char)} (hstep : Drops step)
    (bound : List β) (s : List Char) : iterate step bound s <:+ s := by
  induction bound generalizing s with
  | nil => exact List.suffix_refl s
  | cons b bound ih =>
      rw [iterate]
      cases hs : step s with
      | none => exact List.suffix_refl s
      | some s' => exact (ih s').trans (hstep s s' hs).1

end Text

namespace Trivia

/-- Both blanks and comments are pieces of the text that they are dropped
from. -/
structure Lawful (t : Trivia) : Prop where
  blank : Text.Drops t.blank
  comment : Text.Drops t.comment

variable {t : Trivia}

theorem Lawful.piece (ht : t.Lawful) : Text.Drops t.piece? := by
  intro s s' h
  rw [piece?] at h
  cases hb : t.blank s with
  | none => rw [hb] at h; exact ht.comment s s' h
  | some rest =>
      rw [hb] at h
      cases h
      exact ht.blank s s' hb

theorem skip_suffix (ht : t.Lawful) (s : List Char) : t.skip s <:+ s :=
  Text.iterate_suffix ht.piece s s

end Trivia

namespace Expr

variable {R : Type}

/-- The expression takes at least one character wherever it matches, if the
rules do of which `c` says so. -/
def consumes (c : R → Bool) : Expr R → Bool
  | .text word => !word.isEmpty
  | .char _ => true
  | .rule r => c r
  | .both a b => a.consumes c || b.consumes c
  | .either a b => a.consumes c && b.consumes c
  | .opt _ | .star _ | .ahead _ | .notAhead _ => false

end Expr

namespace Grammar

variable {R : Type} {skip : List Char → List Char} {call : R → Layout → Matcher R}

theorem gap_suffix (hskip : ∀ s, skip s <:+ s) (l : Layout) (s : List Char) :
    gap skip l s <:+ s := by
  cases l with
  | spaced => exact hskip s
  | joined | token => exact List.suffix_refl s

theorem many_suffix {step : Matcher R}
    (hstep : ∀ s s' f, step s = some (s', f) → s' <:+ s) {bound s t : List Char} {f : Forest R}
    (h : many step bound s = (t, f)) : t <:+ s := by
  induction bound generalizing s f with
  | nil =>
      cases h
      exact List.suffix_refl t
  | cons b bound ih =>
      rw [many] at h
      split at h
      · cases h
        exact List.suffix_refl t
      · next s' f' hs =>
          cases h
          exact (ih rfl).trans (hstep s s' f' hs)

/-- What an expression leaves is an end of the text, if that holds of every
rule. -/
theorem eval_suffix (hskip : ∀ s, skip s <:+ s)
    (hcall : ∀ r l s s' f, call r l s = some (s', f) → s' <:+ s) {e : Expr R} {l : Layout}
    {s rest : List Char} {f : Forest R} (h : eval skip call e l s = some (rest, f)) :
    rest <:+ s := by
  induction e generalizing s rest f with
  | text word =>
      obtain ⟨rfl, -⟩ := eval_text_eq_some.1 h
      exact List.suffix_append word rest
  | char accepts =>
      obtain ⟨c, rfl, -⟩ := eval_char_eq_some.1 h
      exact List.suffix_cons c rest
  | rule r => exact hcall r l s rest f h
  | both a b iha ihb =>
      obtain ⟨u, f₁, f₂, ha, hb, -⟩ := eval_both_eq_some.1 h
      exact (ihb hb).trans ((gap_suffix hskip l u).trans (iha ha))
  | either a b iha ihb =>
      obtain ha | ⟨-, hb⟩ := eval_either_eq_some.1 h
      · exact iha ha
      · exact ihb hb
  | opt a iha =>
      obtain ha | ⟨-, rfl, -⟩ := eval_opt_eq_some.1 h
      · exact iha ha
      · exact List.suffix_refl rest
  | star a iha =>
      obtain ⟨-, rfl, -⟩ | ⟨u, f₁, f₂, ha, hmany, -⟩ := eval_star_eq_some.1 h
      · exact List.suffix_refl rest
      · have hround : ∀ t t' f, eval skip call a l (gap skip l t) = some (t', f) → t' <:+ t :=
          fun t t' f ht => (iha ht).trans (gap_suffix hskip l t)
        exact (many_suffix hround hmany).trans (iha ha)
  | ahead a _ =>
      obtain ⟨-, rfl, -⟩ := eval_ahead_eq_some.1 h
      exact List.suffix_refl rest
  | notAhead a _ =>
      obtain ⟨-, rfl, -⟩ := eval_notAhead_eq_some.1 h
      exact List.suffix_refl rest

/-- An expression that is read to consume takes at least one character. -/
theorem eval_length_lt {c : R → Bool} (hskip : ∀ s, skip s <:+ s)
    (hcall : ∀ r l s s' f, call r l s = some (s', f) →
      s' <:+ s ∧ (c r = true → s'.length < s.length))
    {e : Expr R} (he : e.consumes c = true) {l : Layout} {s rest : List Char} {f : Forest R}
    (h : eval skip call e l s = some (rest, f)) : rest.length < s.length := by
  have hsuffix : ∀ r l s s' f, call r l s = some (s', f) → s' <:+ s :=
    fun r l s s' f h => (hcall r l s s' f h).1
  induction e generalizing s rest f with
  | text word =>
      obtain ⟨rfl, -⟩ := eval_text_eq_some.1 h
      rw [List.length_append]
      cases word with
      | nil => cases he
      | cons w ws => simp only [List.length_cons]; omega
  | char accepts =>
      obtain ⟨c, rfl, -⟩ := eval_char_eq_some.1 h
      exact Nat.lt_succ_self _
  | rule r => exact (hcall r l s rest f h).2 he
  | both a b iha ihb =>
      obtain ⟨u, f₁, f₂, ha, hb, -⟩ := eval_both_eq_some.1 h
      have hgap := (gap_suffix hskip l u).length_le
      have h₁ := (eval_suffix hskip hsuffix ha).length_le
      have h₂ := (eval_suffix hskip hsuffix hb).length_le
      rw [Expr.consumes, Bool.or_eq_true] at he
      rcases he with he | he
      · have := iha he ha; omega
      · have := ihb he hb; omega
  | either a b iha ihb =>
      rw [Expr.consumes, Bool.and_eq_true] at he
      obtain ha | ⟨-, hb⟩ := eval_either_eq_some.1 h
      · exact iha he.1 ha
      · exact ihb he.2 hb
  | opt a _ | star a _ | ahead a _ | notAhead a _ => cases he

end Grammar

end FeatureTree
