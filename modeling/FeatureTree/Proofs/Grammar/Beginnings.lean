import FeatureTree.Proofs.Grammar.Calls

/-!
# How matches begin

With which characters a match can begin can be read off an expression. The first part of
a sequence decides, unless it is one that takes nothing where it fails: then the second
part is matched at the same place, as there is no gap left to drop.

`Grammar.firsts` is that reading for rules, to a depth of calls; deeper calls may begin
with anything.

`Grammar.Passes` says how a sequence is matched part by part, each behind the gap that
the one before leaves. A part passes to one place only.
-/

namespace FeatureTree

namespace Expr

variable {R : Type}

mutual

/-- The expression may match in front of the character, where `first` says it of
rules. -/
def begins (first : R → Char → Bool) : Expr R → Char → Bool
  | .text word, c => word.head?.all (· == c)
  | .char accepts, c => accepts c
  | .rule r, c => first r c
  | .both a b, c => a.begins first c && (!a.stays first c || b.begins first c)
  | .either a b, c => a.begins first c || b.begins first c
  | .ahead a, c => a.begins first c
  | .opt _, _ | .star _, _ | .notAhead _, _ => true

/-- The expression takes nothing in front of the character. -/
def stays (first : R → Char → Bool) : Expr R → Char → Bool
  | .opt a, c | .star a, c => !a.begins first c
  | .both a b, c => a.stays first c && b.stays first c
  | .ahead _, _ | .notAhead _, _ => true
  | _, _ => false

end

end Expr

namespace Grammar

variable {R : Type} {g : Grammar R} {r r' : R} {e : Expr R} {l : Layout} {c : Char}
  {s t : List Char} {f : Forest R} {first : R → Char → Bool} {n : Nat}

/-- The rule may match in front of the character. -/
def firsts (g : Grammar R) : Nat → R → Char → Bool
  | 0, _, _ => true
  | n + 1, r, c => (g.body r).begins (g.firsts n) c

theorem matchExpr_begins
    (hfirst : ∀ r l t f, g.between l (c :: s) = c :: s →
      g.matchRule r l (c :: s) = some (t, f) → first r c = true)
    (hs : g.between l (c :: s) = c :: s) (h : g.matchExpr e l (c :: s) = some (t, f)) :
    e.begins first c = true ∧ (e.stays first c = true → t = c :: s) := by
  induction e generalizing t f with
  | text word =>
      obtain ⟨hword, -⟩ := matchExpr_text_iff.1 h
      refine ⟨?_, fun hstays => nomatch hstays⟩
      cases word with
      | nil => rfl
      | cons d word =>
          obtain ⟨rfl, -⟩ := List.cons.inj hword
          simp [Expr.begins]
  | char accepts =>
      obtain ⟨d, hd, haccepts, -⟩ := eval_char_eq_some.1 h
      obtain ⟨rfl, -⟩ := List.cons.inj hd
      exact ⟨haccepts, fun hstays => nomatch hstays⟩
  | rule r => exact ⟨hfirst r l t f hs h, fun hstays => nomatch hstays⟩
  | both a b iha ihb =>
      obtain ⟨u, f₁, f₂, ha, hb, -⟩ := matchExpr_both_iff.1 h
      obtain ⟨hbegins, hstays⟩ := iha ha
      rw [Expr.begins, Expr.stays, hbegins, Bool.true_and]
      cases hsame : a.stays first c with
      | false => exact ⟨rfl, fun hboth => nomatch hboth⟩
      | true =>
          rw [hstays hsame, hs] at hb
          exact ihb hb
  | either a b iha ihb =>
      refine ⟨?_, fun hstays => nomatch hstays⟩
      rw [Expr.begins, Bool.or_eq_true]
      obtain ha | ⟨-, hb⟩ := matchExpr_either_iff.1 h
      · exact .inl (iha ha).1
      · exact .inr (ihb hb).1
  | opt a iha =>
      refine ⟨rfl, fun hstays => ?_⟩
      obtain ha | ⟨-, ht, -⟩ := matchExpr_opt_iff.1 h
      · rw [Expr.stays, (iha ha).1] at hstays
        cases hstays
      · exact ht
  | star a iha =>
      refine ⟨rfl, fun hstays => ?_⟩
      obtain ⟨-, ht, -⟩ | ⟨u, f₁, f₂, ha, -, -⟩ := eval_star_eq_some.1 h
      · exact ht
      · rw [Expr.stays, (iha ha).1] at hstays
        cases hstays
  | ahead a iha =>
      obtain ⟨hsome, ht, -⟩ := eval_ahead_eq_some.1 h
      obtain ⟨found, hfound⟩ := Option.ne_none_iff_exists'.1 hsome
      exact ⟨(iha hfound).1, fun _ => ht⟩
  | notAhead a _ =>
      obtain ⟨-, ht, -⟩ := matchExpr_notAhead_iff.1 h
      exact ⟨rfl, fun _ => ht⟩

theorem between_inside (r : R) (hs : g.between l s = s) :
    g.between (l.inside (g.layout r)) s = s := by
  cases g.layout r with
  | spaced => exact hs
  | joined | token => rfl

theorem matchRule_firsts (hg : g.Ranked) (hs : g.between l (c :: s) = c :: s)
    (h : g.matchRule r l (c :: s) = some (t, f)) (n : Nat) : g.firsts n r c = true := by
  induction n generalizing r l t f with
  | zero => rfl
  | succ n ih =>
      obtain ⟨inner, hbody, -⟩ := (matchRule_eq_some_iff hg).1 h
      exact (matchExpr_begins (fun r l t f hl hrule => ih hl hrule) (between_inside r hs) hbody).1

theorem rest_of_stays (hg : g.Ranked) (hs : g.between l (c :: s) = c :: s)
    (he : e.stays (g.firsts n) c = true) (h : g.matchExpr e l (c :: s) = some (t, f)) :
    t = c :: s :=
  (matchExpr_begins (fun _ _ _ _ hl hrule => matchRule_firsts hg hl hrule n) hs h).2 he

theorem matchExpr_none_of_begins (hg : g.Ranked) (he : e.begins (g.firsts n) c = false)
    (hs : g.between l (c :: s) = c :: s) : g.matchExpr e l (c :: s) = none := by
  cases h : g.matchExpr e l (c :: s) with
  | none => rfl
  | some found =>
      have hbegins :=
        (matchExpr_begins (fun _ _ _ _ hl hrule => matchRule_firsts hg hl hrule n) hs h).1
      cases he.symm.trans hbegins

/-! ## Part by part -/

section Parts

variable {a b : Expr R} {u u' v : List Char}

/-- The expression matches at the one text, and the next part is matched at the other. -/
def Passes (g : Grammar R) (e : Expr R) (s u : List Char) : Prop :=
  ∃ t f, g.matchExpr e .spaced s = some (t, f) ∧ g.between .spaced t = u

theorem passes_of_matchRule (h : (g.matchRule r .spaced s).isSome = true) :
    ∃ u, g.Passes (.rule r) s u := by
  obtain ⟨⟨t, f⟩, hmatch⟩ := Option.isSome_iff_exists.1 h
  exact ⟨_, t, f, hmatch, rfl⟩

theorem Passes.unique (h : g.Passes e s u) (h' : g.Passes e s u') : u = u' := by
  obtain ⟨t, f, hmatch, rfl⟩ := h
  obtain ⟨t', f', hmatch', rfl⟩ := h'
  cases hmatch.symm.trans hmatch'
  rfl

theorem Passes.between (hg : g.Ranked) (h : g.Passes e s u) : g.between .spaced u = u := by
  obtain ⟨t, f, -, rfl⟩ := h
  exact between_between hg

theorem passes_both (h : g.Passes (.both a b) s u) : ∃ v, g.Passes a s v ∧ g.Passes b v u := by
  obtain ⟨t, f, hmatch, hu⟩ := h
  obtain ⟨v, f₁, f₂, ha, hb, -⟩ := matchExpr_both_iff.1 hmatch
  exact ⟨_, ⟨v, f₁, ha, rfl⟩, ⟨t, f₂, hb, hu⟩⟩

theorem passes_either (h : g.Passes (.either a b) s u) : g.Passes a s u ∨ g.Passes b s u := by
  obtain ⟨t, f, hmatch, hu⟩ := h
  obtain ha | ⟨-, hb⟩ := matchExpr_either_iff.1 hmatch
  · exact .inl ⟨t, f, ha, hu⟩
  · exact .inr ⟨t, f, hb, hu⟩

theorem passes_opt (hs : g.between .spaced s = s) (h : g.Passes (.opt a) s u) :
    g.Passes a s u ∨ u = s := by
  obtain ⟨t, f, hmatch, hu⟩ := h
  obtain ha | ⟨-, rfl, -⟩ := matchExpr_opt_iff.1 hmatch
  · exact .inl ⟨t, f, ha, hu⟩
  · exact .inr (hu.symm.trans hs)

theorem passes_text {word : List Char} (h : g.Passes (.text word) s u) : ∃ t, s = word ++ t := by
  obtain ⟨t, f, hmatch, -⟩ := h
  exact ⟨t, (matchExpr_text_iff.1 hmatch).1⟩

theorem passes_body (hg : g.Ranked) (hr : g.layout r = .spaced) (h : g.Passes (.rule r) s u) :
    g.Passes (g.body r) s u := by
  obtain ⟨t, f, hmatch, hu⟩ := h
  obtain ⟨inner, hbody, -⟩ := (matchRule_eq_some_iff hg).1 hmatch
  rw [hr] at hbody
  exact ⟨t, inner, hbody, hu⟩

/-- A rule that asks for a sign first begins with it, whatever its layout. -/
theorem passes_sign (hg : g.Ranked) (h : g.Passes (.rule r) s u)
    (hr : g.body r = .both (.text [c]) e) : ∃ t, s = c :: t := by
  obtain ⟨t, f, hmatch, -⟩ := h
  obtain ⟨inner, hbody, -⟩ := (matchRule_eq_some_iff hg).1 hmatch
  rw [hr] at hbody
  obtain ⟨v, f₁, f₂, hsign, -⟩ := matchExpr_both_iff.1 hbody
  exact ⟨v, (matchExpr_text_iff.1 hsign).1⟩

theorem not_passes_of_begins (hg : g.Ranked) (he : e.begins (g.firsts n) c = false)
    (hs : g.between .spaced (c :: s) = c :: s) : ¬ g.Passes e (c :: s) u := by
  rintro ⟨t, f, hmatch, -⟩
  cases (matchExpr_none_of_begins hg he hs).symm.trans hmatch

theorem passes_stays (hg : g.Ranked) (hs : g.between .spaced (c :: s) = c :: s)
    (he : e.stays (g.firsts n) c = true) (h : g.Passes e (c :: s) u) : u = c :: s := by
  obtain ⟨t, f, hmatch, rfl⟩ := h
  rw [rest_of_stays hg hs he hmatch, hs]

theorem Passes.eq_cons (hg : g.Ranked) (he : e.consumes g.consuming = true)
    (h : g.Passes e s u) : ∃ c t, s = c :: t := by
  obtain ⟨t, f, hmatch, -⟩ := h
  have hlt := matchExpr_lt hg he hmatch
  cases s with
  | nil => exact absurd hlt (Nat.not_lt_zero _)
  | cons c s => exact ⟨c, s, rfl⟩

/-- A repetition ends where the second round fails. -/
theorem passes_star (hg : g.Ranked) (he : a.consumes g.consuming = true)
    (hs : g.between .spaced s = s) (h : g.Passes a s u)
    (hstop : g.matchExpr a .spaced u = none) : g.Passes (.star a) s u := by
  obtain ⟨t, f, hmatch, rfl⟩ := h
  exact ⟨t, _, matchExpr_star hg he hs (.more (hs.symm ▸ hmatch) (.none t)) hstop, rfl⟩

end Parts

end Grammar

end FeatureTree
