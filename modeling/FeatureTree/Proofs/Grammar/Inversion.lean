import FeatureTree.Grammar.Match

/-!
# What a match is made of

One equation for each kind of expression, that says all that its match can be,
and one for rules. A proof about matches takes them apart with these and never
unfolds `eval` or `run`.
-/

namespace FeatureTree

namespace Grammar

variable {R : Type} {skip : List Char → List Char} {call : R → Layout → Matcher R}
  {l : Layout} {s t : List Char} {f : Forest R}

theorem eval_text_eq_some {word : List Char} :
    eval skip call (.text word) l s = some (t, f) ↔ s = word ++ t ∧ f = .nil := by
  rw [eval, Option.map_eq_some_iff]
  constructor
  · rintro ⟨u, hu, heq⟩
    cases heq
    exact ⟨Text.after?_eq_some_iff.1 hu, rfl⟩
  · rintro ⟨hs, rfl⟩
    exact ⟨t, Text.after?_eq_some_iff.2 hs, rfl⟩

theorem eval_char_eq_some {accepts : Char → Bool} :
    eval skip call (.char accepts) l s = some (t, f) ↔
      ∃ c, s = c :: t ∧ accepts c = true ∧ f = .nil := by
  cases s with
  | nil =>
      constructor
      · intro h
        cases h
      · rintro ⟨c, hs, -⟩
        cases hs
  | cons c s =>
      rw [eval]
      constructor
      · intro h
        split at h
        · next hc =>
            cases h
            exact ⟨c, rfl, hc, rfl⟩
        · cases h
      · rintro ⟨d, hs, hd, rfl⟩
        cases hs
        rw [if_pos hd]

theorem eval_both_eq_some {a b : Expr R} :
    eval skip call (.both a b) l s = some (t, f) ↔
      ∃ u f₁ f₂, eval skip call a l s = some (u, f₁) ∧
        eval skip call b l (gap skip l u) = some (t, f₂) ∧ f = f₁ ++ f₂ := by
  constructor
  · intro h
    rw [eval] at h
    split at h
    · cases h
    · next u f₁ ha =>
        split at h
        · cases h
        · next t' f₂ hb =>
            cases h
            exact ⟨u, f₁, f₂, ha, hb, rfl⟩
  · rintro ⟨u, f₁, f₂, ha, hb, rfl⟩
    simp only [eval, ha, hb]

theorem eval_either_eq_some {a b : Expr R} :
    eval skip call (.either a b) l s = some (t, f) ↔
      eval skip call a l s = some (t, f) ∨
        eval skip call a l s = none ∧ eval skip call b l s = some (t, f) := by
  rw [eval]
  cases ha : eval skip call a l s with
  | none => simp
  | some found => simp

theorem eval_opt_eq_some {a : Expr R} :
    eval skip call (.opt a) l s = some (t, f) ↔
      eval skip call a l s = some (t, f) ∨
        eval skip call a l s = none ∧ t = s ∧ f = .nil := by
  rw [eval]
  cases ha : eval skip call a l s with
  | none => simp [eq_comm]
  | some found => simp

theorem eval_star_eq_some {a : Expr R} :
    eval skip call (.star a) l s = some (t, f) ↔
      (eval skip call a l s = none ∧ t = s ∧ f = .nil) ∨
        ∃ u f₁ f₂, eval skip call a l s = some (u, f₁) ∧
          many (fun v => eval skip call a l (gap skip l v)) u u = (t, f₂) ∧ f = f₁ ++ f₂ := by
  rw [eval]
  cases ha : eval skip call a l s with
  | none => simp [eq_comm]
  | some found =>
      constructor
      · intro h
        cases h
        exact .inr ⟨_, _, _, rfl, rfl, rfl⟩
      · rintro (⟨hnone, -⟩ | ⟨u, f₁, f₂, hsome, hmany, rfl⟩)
        · cases hnone
        · cases hsome
          simp only [hmany]

theorem eval_ahead_eq_some {a : Expr R} :
    eval skip call (.ahead a) l s = some (t, f) ↔
      eval skip call a l s ≠ none ∧ t = s ∧ f = .nil := by
  rw [eval]
  cases ha : eval skip call a l s with
  | none => simp
  | some found => simp [eq_comm]

theorem eval_notAhead_eq_some {a : Expr R} :
    eval skip call (.notAhead a) l s = some (t, f) ↔
      eval skip call a l s = none ∧ t = s ∧ f = .nil := by
  rw [eval]
  cases ha : eval skip call a l s with
  | none => simp [eq_comm]
  | some found => simp

/-- What a rule records of its match: itself, or nothing. -/
def record (g : Grammar R) (r : R) (l : Layout) (s t : List Char) (inner : Forest R) :
    Forest R :=
  if (l.around (g.layout r)).records = true then .cons r s t inner .nil else .nil

theorem run_eq_some {g : Grammar R} {d : Nat} {r : R} :
    g.run d r l s = some (t, f) ↔
      ∃ n inner, d = n + 1 ∧
        eval g.trivia.skip (g.run n) (g.body r) (l.inside (g.layout r)) s = some (t, inner) ∧
        f = g.record r l s t inner := by
  cases d with
  | zero =>
      constructor
      · intro h
        cases h
      · rintro ⟨n, inner, hn, -⟩
        cases hn
  | succ d =>
      rw [run]
      constructor
      · intro h
        split at h
        · cases h
        · next t' inner hbody =>
            refine ⟨d, inner, rfl, ?_⟩
            split at h
            · next hrecords =>
                cases h
                exact ⟨hbody, (if_pos hrecords).symm⟩
            · next hrecords =>
                cases h
                exact ⟨hbody, (if_neg hrecords).symm⟩
      · rintro ⟨n, inner, hn, hbody, rfl⟩
        cases hn
        simp only [hbody, record]
        split <;> rfl

end Grammar

end FeatureTree
