import FeatureTree.Proofs.Grammar.Rest

/-!
# The depth of calls is never reached

Matching a rule is recursion on how deeply calls may nest, and the bound that
`parse` passes is bookkeeping: a larger one changes nothing. This file proves
it as congruence, since what is needed is not that the recursion ends but that
the answer does not depend on the bound.

A call either follows a character that was taken or stands at the place where
its caller was tried. The rules that an expression may try at its own place,
`leading`, can be read off it, and in none of the grammars here do they lead
back to the caller: they have a rank, and leading calls go down in rank. So a
text of `n` characters needs at most `n * (N + 1) + rank + 1` nested calls,
where no rank is above `N`; `Grammar.depth` is larger than that.

With the depth out of the way, `matchRule` and `matchExpr` match without it,
and every rule is its body (`matchRule_eq`).
-/

namespace FeatureTree

namespace Expr

variable {R : Type}

/-- The rules that may be tried at the place where the expression is tried, if
the rules of which `c` says so take at least one character. -/
def leading (c : R → Bool) : Expr R → List R
  | .text _ | .char _ => []
  | .rule r => [r]
  | .both a b => a.leading c ++ if a.consumes c then [] else b.leading c
  | .either a b => a.leading c ++ b.leading c
  | .opt a | .star a | .ahead a | .notAhead a => a.leading c

end Expr

namespace Grammar

variable {R : Type}

/-- Whether a rule takes at least one character, so far as a number of nested
calls shows. -/
def consumesWithin (g : Grammar R) : Nat → R → Bool
  | 0, _ => false
  | n + 1, r => (g.body r).consumes (g.consumesWithin n)

/-- The length of the longest chain of leading calls that starts with a rule, up
to a number. -/
def rankWithin (g : Grammar R) (c : R → Bool) : Nat → R → Nat
  | 0, _ => 0
  | n + 1, r => ((g.body r).leading c).foldr (fun r' m => max (g.rankWithin c n r' + 1) m) 0

/-- The rules that take at least one character. In the grammars here eight
nested calls are enough to see it. -/
def consuming (g : Grammar R) : R → Bool := g.consumesWithin 8

/-- The rank of a rule: the length of the longest chain of leading calls. -/
def rank (g : Grammar R) : R → Nat := g.rankWithin g.consuming 8

/-- No rule leads back to itself before a character is taken, since leading
calls go down in rank. -/
structure Ranked (g : Grammar R) : Prop where
  lawful : g.trivia.Lawful
  consumes : ∀ r, g.consuming r = true → (g.body r).consumes g.consuming = true
  leading : ∀ r, ∀ r' ∈ (g.body r).leading g.consuming, g.rank r' < g.rank r
  rank_le : ∀ r, g.rank r ≤ g.rules.length

/-- The conditions on a single rule. -/
def isRanked (g : Grammar R) (r : R) : Bool :=
  (!g.consuming r || (g.body r).consumes g.consuming) &&
    ((g.body r).leading g.consuming).all (fun r' => g.rank r' < g.rank r) &&
    g.rank r ≤ g.rules.length

variable {g : Grammar R}

theorem ranked_of_isRanked (hlawful : g.trivia.Lawful) (hrules : ∀ r, r ∈ g.rules)
    (h : g.rules.all g.isRanked = true) : g.Ranked := by
  have hrule : ∀ r, g.isRanked r = true := fun r => List.all_eq_true.1 h r (hrules r)
  simp only [isRanked, Bool.and_eq_true, Bool.or_eq_true, Bool.not_eq_true', List.all_eq_true,
    decide_eq_true_eq] at hrule
  refine ⟨hlawful, fun r hr => ?_, fun r => (hrule r).1.2, fun r => (hrule r).2⟩
  exact (hrule r).1.1.resolve_left (by simp [hr])

/-- What a rule leaves is an end of the text, and a shorter one if the rule
takes something. -/
theorem run_rest (hg : g.Ranked) {d : Nat} {r : R} {l : Layout} {s rest : List Char}
    {f : Forest R} (h : g.run d r l s = some (rest, f)) :
    rest <:+ s ∧ (g.consuming r = true → rest.length < s.length) := by
  induction d generalizing r l s rest f with
  | zero => cases h
  | succ d ih =>
      obtain ⟨n, inner, hn, hbody, -⟩ := run_eq_some.1 h
      cases hn
      have hskip := Trivia.skip_suffix hg.lawful
      have hcall : ∀ r l s s' f, g.run d r l s = some (s', f) →
          s' <:+ s ∧ (g.consuming r = true → s'.length < s.length) := fun _ _ _ _ _ h => ih h
      exact ⟨eval_suffix hskip (fun r l s s' f h => (hcall r l s s' f h).1) hbody,
        fun hr => eval_length_lt hskip hcall (hg.consumes r hr) hbody⟩

section Congruence

variable {skip : List Char → List Char} {call₁ call₂ : R → Layout → Matcher R} {c : R → Bool}

theorem many_congr {step₁ step₂ : Matcher R} {n : Nat}
    (hrest : ∀ s s' f, step₁ s = some (s', f) → s' <:+ s)
    (hstep : ∀ s, s.length ≤ n → step₁ s = step₂ s) (bound s : List Char) (hs : s.length ≤ n) :
    many step₁ bound s = many step₂ bound s := by
  induction bound generalizing s with
  | nil => rfl
  | cons b bound ih =>
      rw [many, many, ← hstep s hs]
      cases hfound : step₁ s with
      | none => rfl
      | some found =>
          have hlen := (hrest s found.1 found.2 hfound).length_le
          simp only [ih found.1 (by omega)]

/-- Two ways to match rules that agree behind the first character of a text,
and on the leading rules also in front of it, match an expression alike. -/
theorem eval_congr (hskip : ∀ s, skip s <:+ s)
    (hrest : ∀ r l s s' f, call₁ r l s = some (s', f) →
      s' <:+ s ∧ (c r = true → s'.length < s.length))
    {e : Expr R} {l : Layout} {s : List Char}
    (hbehind : ∀ r l t, t.length < s.length → call₁ r l t = call₂ r l t)
    (hleading : ∀ r ∈ e.leading c, ∀ l t, t.length ≤ s.length → call₁ r l t = call₂ r l t) :
    eval skip call₁ e l s = eval skip call₂ e l s := by
  have hsuffix : ∀ r l s s' f, call₁ r l s = some (s', f) → s' <:+ s :=
    fun r l s s' f h => (hrest r l s s' f h).1
  induction e generalizing s with
  | text word => rfl
  | char accepts => cases s <;> rfl
  | rule r => exact hleading r (by simp [Expr.leading]) l s (Nat.le_refl _)
  | both a b iha ihb =>
      simp only [Expr.leading, List.mem_append] at hleading
      rw [eval, eval, ← iha hbehind fun r hr => hleading r (.inl hr)]
      split
      · rfl
      · next s₁ f₁ ha =>
          have hgap := (gap_suffix hskip l s₁).length_le
          have hs₁ := (eval_suffix hskip hsuffix ha).length_le
          rw [ihb (fun r l t ht => hbehind r l t (by omega)) ?_]
          intro r hr l' t ht
          by_cases hca : a.consumes c = true
          · have := eval_length_lt hskip hrest hca ha
            exact hbehind r l' t (by omega)
          · exact hleading r (.inr (by rwa [if_neg hca])) l' t (by omega)
  | either a b iha ihb =>
      simp only [Expr.leading, List.mem_append] at hleading
      rw [eval, eval, ← iha hbehind fun r hr => hleading r (.inl hr),
        ← ihb hbehind fun r hr => hleading r (.inr hr)]
  | opt a iha | ahead a iha | notAhead a iha =>
      rw [eval, eval, ← iha hbehind hleading]
  | star a iha =>
      have hround : ∀ t, t.length ≤ s.length →
          eval skip call₁ a l (gap skip l t) = eval skip call₂ a l (gap skip l t) := by
        intro t ht
        have hgap := (gap_suffix hskip l t).length_le
        exact iha (fun r l u hu => hbehind r l u (by omega))
          fun r hr l u hu => hleading r hr l u (by omega)
      rw [eval, eval, ← iha hbehind hleading]
      split
      · rfl
      · next s₁ f₁ ha =>
          have hs₁ := (eval_suffix hskip hsuffix ha).length_le
          rw [many_congr (fun t t' f ht => (eval_suffix hskip hsuffix ht).trans
            (gap_suffix hskip l t)) hround s₁ s₁ hs₁]

end Congruence

/-- How deeply calls may nest that start with a rule in front of a text. -/
def need (g : Grammar R) (r : R) (s : List Char) : Nat :=
  s.length * (g.rules.length + 1) + g.rank r + 1

theorem need_le_depth (hg : g.Ranked) (r : R) (s : List Char) :
    g.need r s ≤ g.depth s := by
  have := hg.rank_le r
  rw [need, depth, Nat.add_mul]
  omega

/-- Behind a character, any rule needs less than the rule in front of it. -/
theorem need_lt_of_length_lt (hg : g.Ranked) (r r' : R) {s t : List Char}
    (h : t.length < s.length) : g.need r' t < g.need r s := by
  have hr' := hg.rank_le r'
  have hmul : (t.length + 1) * (g.rules.length + 1) ≤ s.length * (g.rules.length + 1) :=
    Nat.mul_le_mul_right _ h
  rw [Nat.add_mul] at hmul
  rw [need, need]
  omega

theorem need_lt_of_rank_lt {r r' : R} {s t : List Char} (hr : g.rank r' < g.rank r)
    (h : t.length ≤ s.length) : g.need r' t < g.need r s := by
  have hmul : t.length * (g.rules.length + 1) ≤ s.length * (g.rules.length + 1) :=
    Nat.mul_le_mul_right _ h
  rw [need, need]
  omega

/-- Two depths that both suffice give the same answer. -/
theorem run_congr (hg : g.Ranked) {d₁ d₂ : Nat} {r : R} {l : Layout} {s : List Char}
    (h₁ : g.need r s ≤ d₁) (h₂ : g.need r s ≤ d₂) :
    g.run d₁ r l s = g.run d₂ r l s := by
  induction d₁ generalizing d₂ r l s with
  | zero => rw [need] at h₁; omega
  | succ d₁ ih =>
      obtain ⟨d₂, rfl⟩ : ∃ d, d₂ = d + 1 := ⟨d₂ - 1, by rw [need] at h₂; omega⟩
      have hrest : ∀ r l s s' f, g.run d₁ r l s = some (s', f) →
          s' <:+ s ∧ (g.consuming r = true → s'.length < s.length) :=
        fun _ _ _ _ _ h => run_rest hg h
      have hbehind : ∀ r' l t, t.length < s.length → g.run d₁ r' l t = g.run d₂ r' l t := by
        intro r' l t ht
        have := need_lt_of_length_lt hg r r' ht
        exact ih (by omega) (by omega)
      have hleading : ∀ r' ∈ (g.body r).leading g.consuming, ∀ l t, t.length ≤ s.length →
          g.run d₁ r' l t = g.run d₂ r' l t := by
        intro r' hr' l t ht
        have := need_lt_of_rank_lt (hg.leading r r' hr') ht
        exact ih (by omega) (by omega)
      rw [run, run, eval_congr (Trivia.skip_suffix hg.lawful) hrest hbehind hleading]

/-! ## Matching without a depth -/

/-- Matches a rule, however deeply calls nest. -/
def matchRule (g : Grammar R) (r : R) (l : Layout) : Matcher R :=
  fun s => g.run (g.depth s) r l s

/-- Matches an expression over the rules of the grammar. -/
def matchExpr (g : Grammar R) (e : Expr R) (l : Layout) : Matcher R :=
  eval g.trivia.skip g.matchRule e l

/-- A rule matches as its body does. -/
theorem matchRule_eq (hg : g.Ranked) (r : R) (l : Layout) (s : List Char) :
    g.matchRule r l s =
      (g.matchExpr (g.body r) (l.inside (g.layout r)) s).map fun (rest, inner) =>
        (rest, g.record r l s rest inner) := by
  obtain ⟨d, hd⟩ : ∃ d, g.depth s = d + 1 :=
    ⟨g.depth s - 1, by have := need_le_depth hg r s; rw [need] at this; omega⟩
  have hrest : ∀ r l s s' f, g.run d r l s = some (s', f) →
      s' <:+ s ∧ (g.consuming r = true → s'.length < s.length) :=
    fun _ _ _ _ _ h => run_rest hg h
  have hbehind : ∀ r' l t, t.length < s.length → g.run d r' l t = g.matchRule r' l t := by
    intro r' l t ht
    have := need_lt_of_length_lt hg r r' ht
    have := need_le_depth hg r s
    exact run_congr hg (by omega) (need_le_depth hg r' t)
  have hleading : ∀ r' ∈ (g.body r).leading g.consuming, ∀ l t, t.length ≤ s.length →
      g.run d r' l t = g.matchRule r' l t := by
    intro r' hr' l t ht
    have := need_lt_of_rank_lt (hg.leading r r' hr') ht
    have := need_le_depth hg r s
    exact run_congr hg (by omega) (need_le_depth hg r' t)
  rw [matchRule, hd, run, matchExpr,
    ← eval_congr (Trivia.skip_suffix hg.lawful) hrest hbehind hleading]
  split
  · next h => rw [h]; rfl
  · next rest f h => rw [h]; simp only [Option.map_some, record]; split <;> rfl

theorem matchRule_rest (hg : g.Ranked) {r : R} {l : Layout} {s rest : List Char}
    {f : Forest R} (h : g.matchRule r l s = some (rest, f)) :
    rest <:+ s ∧ (g.consuming r = true → rest.length < s.length) :=
  run_rest hg h

end Grammar

end FeatureTree
