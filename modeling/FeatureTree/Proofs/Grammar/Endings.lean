import FeatureTree.Proofs.Grammar.Calls

/-!
# How matches end

Which character a match ends with, and in front of what, can be read off an
expression, up to one complication: a part that takes nothing still lets the gap in
front of it be dropped. So a match ends somewhere, and perhaps the gap behind that is
dropped (`EndsIn`). The last part of a sequence that takes something decides.

`Expr.endsIn` is that reading, and `matchRule_endsIn` says that it is right.
Where the reading does not see enough, a rule can be settled by hand (`Settles`).
-/

namespace FeatureTree

/-- What is known of the endings of matches: the rules that end as wanted, and the
characters and classes of characters that may come last. -/
structure Ending (R : Type) where
  rules : R → Bool
  last : Char → Bool
  within : (Char → Bool) → Bool

namespace Expr

variable {R : Type}

/-- If the expression takes something, it ends as wanted. `c` tells the rules that
take at least one character. -/
def endsIn (c : R → Bool) (E : Ending R) : Expr R → Bool
  | .text word => word.getLast?.all E.last
  | .char accepts => E.within accepts
  | .rule r => E.rules r
  | .both a b => b.endsIn c E && (a.endsIn c E || b.consumes c)
  | .either a b => a.endsIn c E && b.endsIn c E
  | .opt a | .star a => a.endsIn c E
  | .ahead _ | .notAhead _ => true

end Expr

namespace Grammar

variable {R : Type} {g : Grammar R} {Q : Char → List Char → Prop} {l : Layout}
  {s s' t t' : List Char}

/-- The match ends where it began or behind a character of which `Q` holds, given
what follows; a gap may be dropped behind it. -/
def EndsIn (g : Grammar R) (Q : Char → List Char → Prop) (l : Layout) (s t : List Char) : Prop :=
  ∃ u, (t = u ∨ t = g.between l u) ∧ (u = s ∨ ∃ x c, s = x ++ c :: u ∧ Q c u)

theorem EndsIn.refl (s : List Char) : g.EndsIn Q l s s := ⟨s, .inl rfl, .inl rfl⟩

theorem EndsIn.single {c : Char} (h : Q c t) : g.EndsIn Q l (c :: t) t :=
  ⟨t, .inl rfl, .inr ⟨[], c, rfl, h⟩⟩

/-- Another match behind the gap goes on from where the first ended. -/
theorem EndsIn.trans (hg : g.Ranked) (h : g.EndsIn Q l s t)
    (h' : g.EndsIn Q l (g.between l t) t') : g.EndsIn Q l s t' := by
  obtain ⟨u, ht, hu⟩ := h
  have hbetween : g.between l t = g.between l u := by
    rcases ht with rfl | rfl
    · rfl
    · exact between_between hg
  rw [hbetween] at h'
  obtain ⟨u', ht', rfl | ⟨x', c, hx', hc⟩⟩ := h'
  · refine ⟨u, .inr ?_, hu⟩
    rcases ht' with rfl | rfl
    · rfl
    · exact between_between hg
  · obtain ⟨y, hy⟩ := gap_suffix (Trivia.skip_suffix hg.lawful) l u
    refine ⟨u', ht', .inr ?_⟩
    have hu' : u = (y ++ x') ++ c :: u' := by
      rw [← hy, show gap g.trivia.skip l u = g.between l u from rfl, hx', List.append_assoc]
    rcases hu with rfl | ⟨x, d, rfl, -⟩
    · exact ⟨y ++ x', c, hu', hc⟩
    · exact ⟨x ++ d :: (y ++ x'), c, by rw [hu']; simp, hc⟩

/-- Where something was taken behind a gap, a character has come last. -/
theorem EndsIn.of_length_lt (h : g.EndsIn Q l s t) (hs : g.between l s = s)
    (hlt : t.length < s.length) :
    ∃ x c u, s = x ++ c :: u ∧ Q c u ∧ (t = u ∨ t = g.between l u) := by
  obtain ⟨u, ht, rfl | ⟨x, c, hx, hc⟩⟩ := h
  · rw [hs, or_self] at ht
    rw [ht] at hlt
    exact absurd hlt (Nat.lt_irrefl _)
  · exact ⟨x, c, u, hx, hc, ht⟩

/-- It makes no difference what a match stands behind, if it takes something. -/
theorem EndsIn.of_suffix (h : g.EndsIn Q l s' t) (hs' : g.between l s' = s')
    (hlt : t.length < s'.length) (hsuffix : s' <:+ s) : g.EndsIn Q l s t := by
  obtain ⟨x, c, u, rfl, hc, ht⟩ := h.of_length_lt hs' hlt
  obtain ⟨y, rfl⟩ := hsuffix
  exact ⟨u, ht, .inr ⟨y ++ x, c, by simp, hc⟩⟩

/-- Inside a rule nothing is dropped that is not dropped around it. -/
theorem EndsIn.of_inside {r : R} (h : g.EndsIn Q (l.inside (g.layout r)) s t) :
    g.EndsIn Q l s t := by
  cases hr : g.layout r with
  | spaced => rwa [hr] at h
  | joined | token =>
      rw [hr] at h
      obtain ⟨u, ht, hu⟩ := h
      exact ⟨u, .inl (ht.elim id id), hu⟩

section Reading

variable {E : Ending R} {skip : List Char → List Char} {call : R → Layout → Matcher R}
  {e : Expr R} {f : Forest R}

/-- A rule takes something or not, and ends as wanted if it should. -/
structure Calls (g : Grammar R) (E : Ending R) (Q : Char → List Char → Prop)
    (call : R → Layout → Matcher R) : Prop where
  rest : ∀ r l s t f, call r l s = some (t, f) →
    t <:+ s ∧ (g.consuming r = true → t.length < s.length)
  ends : ∀ r l s t f, E.rules r = true → call r l s = some (t, f) → g.EndsIn Q l s t

theorem many_endsIn (hg : g.Ranked) {step : Matcher R}
    (hstep : ∀ s t f, step s = some (t, f) → g.EndsIn Q l (g.between l s) t)
    {bound : List Char} (h : many step bound s = (t, f)) (hs : g.EndsIn Q l s' s) :
    g.EndsIn Q l s' t := by
  induction bound generalizing s f with
  | nil =>
      cases h
      exact hs
  | cons b bound ih =>
      rw [many] at h
      split at h
      · cases h
        exact hs
      · next u f' hu =>
          cases h
          exact ih rfl (hs.trans hg (hstep s u f' hu))

theorem eval_endsIn (hg : g.Ranked) (hlast : ∀ c u, E.last c = true → Q c u)
    (hwithin : ∀ accepts c u, E.within accepts = true → accepts c = true → Q c u)
    (hcall : g.Calls E Q call) (he : e.endsIn g.consuming E = true)
    (h : eval g.trivia.skip call e l s = some (t, f)) : g.EndsIn Q l s t := by
  have hskip := Trivia.skip_suffix hg.lawful
  have hsuffix : ∀ r l s t f, call r l s = some (t, f) → t <:+ s :=
    fun r l s t f h => (hcall.rest r l s t f h).1
  induction e generalizing s t f with
  | text word =>
      obtain ⟨rfl, -⟩ := eval_text_eq_some.1 h
      rcases List.eq_nil_or_concat word with rfl | ⟨x, c, hx⟩
      · exact .refl t
      · rw [List.concat_eq_append] at hx
        subst hx
        rw [Expr.endsIn, List.getLast?_concat, Option.all_some] at he
        exact ⟨t, .inl rfl, .inr ⟨x, c, by simp, hlast c t he⟩⟩
  | char accepts =>
      obtain ⟨c, rfl, hc, -⟩ := eval_char_eq_some.1 h
      exact .single (hwithin accepts c t he hc)
  | rule r => exact hcall.ends r l s t f he h
  | both a b iha ihb =>
      obtain ⟨u, f₁, f₂, ha, hb, -⟩ := eval_both_eq_some.1 h
      rw [Expr.endsIn, Bool.and_eq_true, Bool.or_eq_true] at he
      obtain ⟨heb, hea | hconsumes⟩ := he
      · exact (iha hea ha).trans hg (ihb heb hb)
      · have hlt := eval_length_lt hskip hcall.rest hconsumes hb
        exact (ihb heb hb).of_suffix (between_between hg) hlt
          ((gap_suffix hskip l u).trans (eval_suffix hskip hsuffix ha))
  | either a b iha ihb =>
      rw [Expr.endsIn, Bool.and_eq_true] at he
      obtain ha | ⟨-, hb⟩ := eval_either_eq_some.1 h
      · exact iha he.1 ha
      · exact ihb he.2 hb
  | opt a iha =>
      obtain ha | ⟨-, rfl, -⟩ := eval_opt_eq_some.1 h
      · exact iha he ha
      · exact .refl t
  | star a iha =>
      obtain ⟨-, rfl, -⟩ | ⟨u, f₁, f₂, ha, hmany, -⟩ := eval_star_eq_some.1 h
      · exact .refl t
      · exact many_endsIn hg (fun _ _ _ hround => iha he hround) hmany (iha he ha)
  | ahead a _ =>
      obtain ⟨-, rfl, -⟩ := eval_ahead_eq_some.1 h
      exact .refl t
  | notAhead a _ =>
      obtain ⟨-, rfl, -⟩ := eval_notAhead_eq_some.1 h
      exact .refl t

/-- The reading is right: its characters are as wanted, and so are its rules, as far
as it sees, or else for reasons of their own. -/
structure Settles (g : Grammar R) (E : Ending R) (Q : Char → List Char → Prop) : Prop where
  last : ∀ c u, E.last c = true → Q c u
  within : ∀ accepts c u, E.within accepts = true → accepts c = true → Q c u
  rules : ∀ r, E.rules r = true → (g.body r).endsIn g.consuming E = true ∨
    ∀ (l : Layout) s t f, g.matchExpr (g.body r) (l.inside (g.layout r)) s = some (t, f) →
      g.EndsIn Q (l.inside (g.layout r)) s t

theorem matchRule_endsIn (hg : g.Ranked) (hE : g.Settles E Q) {r : R} (hr : E.rules r = true)
    (h : g.matchRule r l s = some (t, f)) : g.EndsIn Q l s t := by
  refine matchRule_induction hg
    (P := fun r l s t _ => E.rules r = true → g.EndsIn Q l s t) ?_ h hr
  intro r l s t inner call hcall heval hbody hr
  refine EndsIn.of_inside (r := r) ?_
  rcases hE.rules r hr with hread | hspecial
  · exact eval_endsIn hg hE.last hE.within
      ⟨fun r l s t f h => matchRule_rest hg (hcall r l s t f h).1,
        fun r l s t f hr h => (hcall r l s t f h).2 hr⟩ hread heval
  · exact hspecial l s t inner hbody

end Reading

end Grammar

end FeatureTree
