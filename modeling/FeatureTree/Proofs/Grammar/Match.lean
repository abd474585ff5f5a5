import FeatureTree.Proofs.Grammar.Depth
import FeatureTree.Proofs.Grammar.Trivia

/-!
# Matching step by step

To show that a grammar matches a text, one shows how: each lemma here takes the
matches of the parts of an expression and gives the match of the whole. Calls
have no depth any more (`matchRule_eq`), so a match is put together in the order
of the text.

Repetition is where the order matters. `Rounds` is a run of a repetition that
may still go on, so that one more round can be put behind it (`Rounds.snoc`);
the repetition matches once a round fails (`matchExpr_star`).
-/

namespace FeatureTree

namespace Trivia

variable {t : Trivia}

theorem skip_skip (ht : t.Lawful) (s : List Char) : t.skip (t.skip s) = t.skip s := by
  generalize hn : s.length = n
  induction n using Nat.strongRecOn generalizing s with
  | ind n ih =>
      cases hpiece : t.piece? s with
      | none => rw [skip_of_none hpiece, skip_of_none hpiece]
      | some s' =>
          have hlen := (ht.piece s s' hpiece).2
          rw [skip_of_piece ht hpiece]
          exact ih s'.length (by omega) s' rfl

end Trivia

namespace Grammar

variable {R : Type} {g : Grammar R} {r : R} {a b e : Expr R} {l : Layout}
  {s t t' u : List Char} {f h fs : Forest R}

/-- What stands between two parts. -/
def between (g : Grammar R) (l : Layout) (s : List Char) : List Char := gap g.trivia.skip l s

theorem between_between (hg : g.Ranked) : g.between l (g.between l s) = g.between l s := by
  cases l with
  | spaced => exact Trivia.skip_skip hg.lawful s
  | joined | token => rfl

/-! ## Expressions -/

theorem matchExpr_text (word t : List Char) :
    g.matchExpr (.text word) l (word ++ t) = some (t, .nil) := by
  rw [matchExpr, eval, Text.after?_eq_some_iff.2 rfl]
  rfl

theorem matchExpr_both (ha : g.matchExpr a l s = some (u, f))
    (hb : g.matchExpr b l (g.between l u) = some (t, h)) :
    g.matchExpr (.both a b) l s = some (t, f ++ h) := by
  rw [matchExpr] at ha hb ⊢
  rw [eval, ha]
  simp only
  rw [show gap g.trivia.skip l u = g.between l u from rfl, hb]

theorem matchExpr_both_none (ha : g.matchExpr a l s = none) :
    g.matchExpr (.both a b) l s = none := by
  rw [matchExpr] at ha ⊢
  rw [eval, ha]

theorem matchExpr_both_none_right (ha : g.matchExpr a l s = some (u, f))
    (hb : g.matchExpr b l (g.between l u) = none) :
    g.matchExpr (.both a b) l s = none := by
  rw [matchExpr] at ha hb ⊢
  rw [eval, ha]
  simp only
  rw [show gap g.trivia.skip l u = g.between l u from rfl, hb]

theorem matchExpr_left (ha : g.matchExpr a l s = some (t, f)) :
    g.matchExpr (.either a b) l s = some (t, f) := by
  rw [matchExpr] at ha ⊢
  rw [eval, ha]

theorem matchExpr_right (ha : g.matchExpr a l s = none) :
    g.matchExpr (.either a b) l s = g.matchExpr b l s := by
  rw [matchExpr] at ha
  rw [matchExpr, eval, ha]
  rfl

theorem matchExpr_either_eq_none :
    g.matchExpr (.either a b) l s = none ↔
      g.matchExpr a l s = none ∧ g.matchExpr b l s = none := by
  constructor
  · intro h
    cases ha : g.matchExpr a l s with
    | none => rw [matchExpr_right ha] at h; exact ⟨rfl, h⟩
    | some found => rw [matchExpr_left ha] at h; cases h
  · rintro ⟨ha, hb⟩
    rw [matchExpr_right ha, hb]

/-- A choice matches as the first of its alternatives that does. -/
theorem matchExpr_choice {es : List (Expr R)} :
    g.matchExpr (.choice es) l s = es.findSome? fun e => g.matchExpr e l s := by
  induction es using Expr.choice.induct with
  | case1 => rfl
  | case2 a =>
      rw [Expr.choice, List.findSome?_cons]
      cases g.matchExpr a l s <;> rfl
  | case3 a b rest ih =>
      rw [Expr.choice, List.findSome?_cons]
      cases ha : g.matchExpr a l s with
      | none => rw [matchExpr_right ha, ih]
      | some found => rw [matchExpr_left ha]

/-- A choice fails where all its alternatives fail. -/
theorem matchExpr_choice_eq_none {es : List (Expr R)} :
    g.matchExpr (.choice es) l s = none ↔ ∀ e ∈ es, g.matchExpr e l s = none := by
  rw [matchExpr_choice, List.findSome?_eq_none_iff]

theorem matchExpr_opt (ha : g.matchExpr a l s = some (t, f)) :
    g.matchExpr (.opt a) l s = some (t, f) := by
  rw [matchExpr] at ha ⊢
  rw [eval, ha]

theorem matchExpr_opt_none (ha : g.matchExpr a l s = none) :
    g.matchExpr (.opt a) l s = some (s, .nil) := by
  rw [matchExpr] at ha ⊢
  rw [eval, ha]

theorem matchExpr_notAhead (ha : g.matchExpr a l s = none) :
    g.matchExpr (.notAhead a) l s = some (s, .nil) := by
  rw [matchExpr] at ha ⊢
  rw [eval, ha]

theorem matchExpr_notAhead_none (ha : g.matchExpr a l s = some (t, f)) :
    g.matchExpr (.notAhead a) l s = none := by
  rw [matchExpr] at ha ⊢
  rw [eval, ha]

theorem matchExpr_suffix (hg : g.Ranked) (h : g.matchExpr e l s = some (t, f)) : t <:+ s :=
  eval_suffix (Trivia.skip_suffix hg.lawful) (fun _ _ _ _ _ h => (matchRule_rest hg h).1) h

theorem matchExpr_lt (hg : g.Ranked) (he : e.consumes g.consuming = true)
    (h : g.matchExpr e l s = some (t, f)) : t.length < s.length :=
  eval_length_lt (Trivia.skip_suffix hg.lawful) (fun _ _ _ _ _ h => matchRule_rest hg h) he h

/-! ## The parts of a match -/

theorem matchExpr_text_iff {word : List Char} :
    g.matchExpr (.text word) l s = some (t, f) ↔ s = word ++ t ∧ f = .nil := eval_text_eq_some

theorem matchExpr_text_none {word : List Char} (h : ∀ u, s ≠ word ++ u) :
    g.matchExpr (.text word) l s = none := by
  cases hmatch : g.matchExpr (.text word) l s with
  | none => rfl
  | some found => exact absurd (matchExpr_text_iff.1 hmatch).1 (h _)

theorem matchExpr_text_ne {c d : Char} (h : c ≠ d) (word s : List Char) :
    g.matchExpr (.text (d :: word)) l (c :: s) = none :=
  matchExpr_text_none fun _ hs => h (List.cons.inj hs).1

theorem matchExpr_both_iff :
    g.matchExpr (.both a b) l s = some (t, f) ↔
      ∃ u f₁ f₂, g.matchExpr a l s = some (u, f₁) ∧
        g.matchExpr b l (g.between l u) = some (t, f₂) ∧ f = f₁ ++ f₂ := eval_both_eq_some

theorem matchExpr_either_iff :
    g.matchExpr (.either a b) l s = some (t, f) ↔
      g.matchExpr a l s = some (t, f) ∨
        g.matchExpr a l s = none ∧ g.matchExpr b l s = some (t, f) := eval_either_eq_some

theorem matchExpr_opt_iff :
    g.matchExpr (.opt a) l s = some (t, f) ↔
      g.matchExpr a l s = some (t, f) ∨ g.matchExpr a l s = none ∧ t = s ∧ f = .nil :=
  eval_opt_eq_some

theorem matchExpr_notAhead_iff :
    g.matchExpr (.notAhead a) l s = some (t, f) ↔
      g.matchExpr a l s = none ∧ t = s ∧ f = .nil := eval_notAhead_eq_some

theorem matchExpr_assoc :
    g.matchExpr (.both (.both a b) e) l s = g.matchExpr (.both a (.both b e)) l s := by
  refine Option.ext fun found => ?_
  obtain ⟨t, f⟩ := found
  constructor
  · intro h
    obtain ⟨u, _, f₃, hab, he, rfl⟩ := matchExpr_both_iff.1 h
    obtain ⟨v, f₁, f₂, ha, hb, rfl⟩ := matchExpr_both_iff.1 hab
    rw [Forest.append_assoc]
    exact matchExpr_both ha (matchExpr_both hb he)
  · intro h
    obtain ⟨u, f₁, _, ha, hbe, rfl⟩ := matchExpr_both_iff.1 h
    obtain ⟨v, f₂, f₃, hb, he, rfl⟩ := matchExpr_both_iff.1 hbe
    rw [← Forest.append_assoc]
    exact matchExpr_both (matchExpr_both ha hb) he

/-! ## Repetition -/

/-- Rounds of a repetition, one after the other, each behind a gap. -/
inductive Rounds (g : Grammar R) (e : Expr R) (l : Layout) :
    List Char → List Char → Forest R → Prop
  | none (s : List Char) : Rounds g e l s s .nil
  | more {s s₁ t : List Char} {f fs : Forest R}
      (hround : g.matchExpr e l (g.between l s) = some (s₁, f))
      (hrest : Rounds g e l s₁ t fs) : Rounds g e l s t (f ++ fs)

theorem Rounds.snoc (h : g.Rounds e l s t fs)
    (hround : g.matchExpr e l (g.between l t) = some (t', f)) :
    g.Rounds e l s t' (fs ++ f) := by
  induction h with
  | none s =>
      rw [Forest.nil_append, ← Forest.append_nil f]
      exact .more hround (.none t')
  | more hfirst _ ih =>
      rw [Forest.append_assoc]
      exact .more hfirst (ih hround)

/-- Rounds can start behind the gap in front of the first. -/
theorem Rounds.skip (hg : g.Ranked) (h : g.Rounds e l s t fs) :
    ∃ t', g.Rounds e l (g.between l s) t' fs ∧ g.between l t' = g.between l t := by
  cases h with
  | none => exact ⟨_, .none _, between_between hg⟩
  | more hround hrest => exact ⟨t, .more (by rwa [between_between hg]) hrest, rfl⟩

theorem many_of_rounds (hg : g.Ranked) (he : e.consumes g.consuming = true)
    (h : g.Rounds e l s t fs) (hstop : g.matchExpr e l (g.between l t) = none)
    {bound : List Char} (hbound : s.length ≤ bound.length) :
    many (fun u => g.matchExpr e l (g.between l u)) bound s = (t, fs) := by
  induction h generalizing bound with
  | none s =>
      cases bound with
      | nil => rfl
      | cons c bound => rw [many, hstop]
  | @more s s₁ t f fs hround hrest ih =>
      have hlt := matchExpr_lt hg he hround
      have hgap := (gap_suffix (Trivia.skip_suffix hg.lawful) l s).length_le
      rw [between] at hlt
      cases bound with
      | nil => rw [List.length_nil] at hbound; omega
      | cons c bound =>
          rw [List.length_cons] at hbound
          rw [many, hround]
          simp only
          rw [ih hstop (by omega)]

/-- A repetition takes the rounds up to the first that fails. -/
theorem matchExpr_star (hg : g.Ranked) (he : e.consumes g.consuming = true)
    (hs : g.between l s = s) (h : g.Rounds e l s t f)
    (hstop : g.matchExpr e l (g.between l t) = none) :
    g.matchExpr (.star e) l s = some (t, f) := by
  cases h with
  | none =>
      rw [hs, matchExpr] at hstop
      rw [matchExpr, eval, hstop]
  | @more _ s₁ _ f fs hround hrest =>
      rw [hs, matchExpr] at hround
      rw [matchExpr, eval, hround]
      simp only
      have hmany := many_of_rounds hg he hrest hstop (Nat.le_refl s₁.length)
      rw [show many (fun u => eval g.trivia.skip g.matchRule e l (gap g.trivia.skip l u)) s₁ s₁ =
        (t, fs) from hmany]

/-- A repetition that takes all it can is rounds up to where one fails. -/
theorem rounds_of_many (hg : g.Ranked) (he : e.consumes g.consuming = true) {bound : List Char}
    (hbound : s.length ≤ bound.length)
    (h : many (fun u => g.matchExpr e l (g.between l u)) bound s = (t, f)) :
    g.Rounds e l s t f ∧ g.matchExpr e l (g.between l t) = none := by
  induction bound generalizing s f with
  | nil =>
      cases h
      refine ⟨.none t, ?_⟩
      cases hround : g.matchExpr e l (g.between l t) with
      | none => rfl
      | some found =>
          have hlt := matchExpr_lt hg he hround
          have hgap := (gap_suffix (Trivia.skip_suffix hg.lawful) l t).length_le
          rw [between] at hlt
          rw [List.length_nil] at hbound
          omega
  | cons c bound ih =>
      rw [many] at h
      split at h
      · next hstop =>
          cases h
          exact ⟨.none _, hstop⟩
      · next s₁ f₁ hround =>
          have hlt := matchExpr_lt hg he hround
          have hgap := (gap_suffix (Trivia.skip_suffix hg.lawful) l s).length_le
          rw [between] at hlt
          rw [List.length_cons] at hbound
          cases h
          obtain ⟨hrest, hstop⟩ := ih (by omega) rfl
          exact ⟨.more hround hrest, hstop⟩

theorem matchExpr_star_iff (hg : g.Ranked) (he : e.consumes g.consuming = true)
    (hs : g.between l s = s) :
    g.matchExpr (.star e) l s = some (t, f) ↔
      g.Rounds e l s t f ∧ g.matchExpr e l (g.between l t) = none := by
  constructor
  · intro h
    obtain ⟨hnone, rfl, rfl⟩ | ⟨u, f₁, f₂, hround, hmany, rfl⟩ := eval_star_eq_some.1 h
    · exact ⟨.none t, hs.symm ▸ hnone⟩
    · obtain ⟨hrest, hstop⟩ := rounds_of_many hg he (Nat.le_refl _) hmany
      exact ⟨.more (hs.symm ▸ hround) hrest, hstop⟩
  · rintro ⟨hrounds, hstop⟩
    exact matchExpr_star hg he hs hrounds hstop

theorem rounds_of_chars (hl : l ≠ .spaced) {w : List Char}
    (hw : ∀ c ∈ w, ∀ s, g.matchExpr e l (c :: s) = some (s, .nil)) :
    g.Rounds e l (w ++ t) t .nil := by
  induction w with
  | nil => exact .none t
  | cons c w ih =>
      have hbetween : ∀ s, g.between l s = s := by
        intro s
        cases l with
        | spaced => exact absurd rfl hl
        | joined | token => rfl
      refine .more (f := .nil) ?_ (ih fun d hd => hw d (List.mem_cons_of_mem c hd))
      rw [hbetween]
      exact hw c List.mem_cons_self (w ++ t)

/-! ## Rules -/

theorem matchRule_of_body (hg : g.Ranked)
    (h : g.matchExpr (g.body r) (l.inside (g.layout r)) s = some (t, f))
    (hrecords : (l.around (g.layout r)).records = true) :
    g.matchRule r l s = some (t, .cons r s t f .nil) := by
  have hrecord : g.record r l s t f = .cons r s t f .nil := if_pos hrecords
  rw [matchRule_eq hg, h, Option.map_some]
  simp only [hrecord]

theorem matchRule_none (hg : g.Ranked)
    (h : g.matchExpr (g.body r) (l.inside (g.layout r)) s = none) :
    g.matchRule r l s = none := by
  rw [matchRule_eq hg, h, Option.map_none]

end Grammar

end FeatureTree
