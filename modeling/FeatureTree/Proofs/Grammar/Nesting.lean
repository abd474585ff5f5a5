import FeatureTree.Proofs.Grammar.Match
import FeatureTree.Proofs.Grammar.Records

/-!
# Where records lie

The records of a match lie one behind the other, and those inside a record lie
within it (`Forest.Within`). Spans are trimmed one by one and can lose this; the
matches never do, so whatever is to be known of the order of spans comes from
here (`run_within`).

Between two parts blanks and comments are dropped before the second is tried,
even if it is then missing. So a rule is only ever tried in front of something
else, once it was so for the rule that the match began with (`run_solid`). The
entry rule of a grammar is the one exception; it asks for the start of the text
first, and what comes behind that is `parse_entry`.
-/

namespace FeatureTree

namespace Forest

variable {R : Type} {f g : Forest R} {s s' t t' u : List Char}

/-- The records lie one behind the other between a text and an end of it, and
the records inside each lie within that one. -/
def Within : Forest R → List Char → List Char → Prop
  | .nil, s, t => t <:+ s
  | .cons _ before after inner next, s, t =>
    before <:+ s ∧ inner.Within before after ∧ next.Within after t

theorem Within.suffix (h : f.Within s t) : t <:+ s := by
  induction f generalizing s t with
  | nil => exact h
  | cons r before after inner next ihInner ihNext =>
      obtain ⟨hbefore, hinner, hnext⟩ := h
      exact (ihNext hnext).trans ((ihInner hinner).trans hbefore)

theorem Within.mono (h : f.Within s t) (hs : s <:+ s') (ht : t' <:+ t) : f.Within s' t' := by
  induction f generalizing s s' with
  | nil => exact ht.trans (List.IsSuffix.trans h hs)
  | cons r before after inner next _ ihNext =>
      obtain ⟨hbefore, hinner, hnext⟩ := h
      exact ⟨hbefore.trans hs, hinner, ihNext hnext (List.suffix_refl after)⟩

theorem Within.append (hf : f.Within s u) (hg : g.Within u t) : (f ++ g).Within s t := by
  induction f generalizing s with
  | nil => exact hg.mono hf (List.suffix_refl t)
  | cons r before after inner next _ ihNext =>
      obtain ⟨hbefore, hinner, hnext⟩ := hf
      exact ⟨hbefore, hinner, ihNext hnext⟩

theorem all_and {P Q : R → List Char → List Char → Forest R → Prop} (hP : f.All P)
    (hQ : f.All Q) : f.All fun r before after inner =>
      P r before after inner ∧ Q r before after inner := by
  induction f with
  | nil => trivial
  | cons r before after inner next ihInner ihNext =>
      exact ⟨⟨hP.1, hQ.1⟩, ihInner hP.2.1 hQ.2.1, ihNext hP.2.2 hQ.2.2⟩

/-- What follows of a record from where it lies, follows of all records. -/
theorem Within.all {P Q : R → List Char → List Char → Forest R → Prop} (h : f.Within s t)
    (himp : ∀ r before after inner, before <:+ s → after <:+ before →
      P r before after inner → Q r before after inner) (hP : f.All P) : f.All Q := by
  induction f generalizing s t with
  | nil => trivial
  | cons r before after inner next ihInner ihNext =>
      obtain ⟨hbefore, hinner, hnext⟩ := h
      have hafter : after <:+ before := hinner.suffix
      refine ⟨himp r before after inner hbefore hafter hP.1, ?_, ?_⟩
      · exact ihInner hinner (fun r b a i hb => himp r b a i (hb.trans hbefore)) hP.2.1
      · exact ihNext hnext (fun r b a i hb => himp r b a i (hb.trans (hafter.trans hbefore)))
          hP.2.2

end Forest

namespace Grammar

variable {R : Type} {skip : List Char → List Char} {call : R → Layout → Matcher R}

/-! ## Records lie within the match -/

theorem many_within {step : Matcher R}
    (hstep : ∀ s t f, step s = some (t, f) → f.Within s t) {bound s t : List Char} {f : Forest R}
    (h : many step bound s = (t, f)) : f.Within s t := by
  induction bound generalizing s f with
  | nil =>
      cases h
      exact List.suffix_refl t
  | cons b bound ih =>
      rw [many] at h
      split at h
      · cases h
        exact List.suffix_refl t
      · next s' f' hs =>
          cases h
          exact (hstep s s' f' hs).append (ih rfl)

theorem eval_within (hskip : ∀ s, skip s <:+ s)
    (hcall : ∀ r l s t f, call r l s = some (t, f) → f.Within s t) {e : Expr R} {l : Layout}
    {s t : List Char} {f : Forest R} (h : eval skip call e l s = some (t, f)) :
    f.Within s t := by
  induction e generalizing s t f with
  | text word =>
      obtain ⟨rfl, rfl⟩ := eval_text_eq_some.1 h
      exact List.suffix_append word t
  | char accepts =>
      obtain ⟨c, rfl, -, rfl⟩ := eval_char_eq_some.1 h
      exact List.suffix_cons c t
  | rule r => exact hcall r l s t f h
  | both a b iha ihb =>
      obtain ⟨u, f₁, f₂, ha, hb, rfl⟩ := eval_both_eq_some.1 h
      exact (iha ha).append ((ihb hb).mono (gap_suffix hskip l u) (List.suffix_refl t))
  | either a b iha ihb =>
      obtain ha | ⟨-, hb⟩ := eval_either_eq_some.1 h
      · exact iha ha
      · exact ihb hb
  | opt a iha =>
      obtain ha | ⟨-, rfl, rfl⟩ := eval_opt_eq_some.1 h
      · exact iha ha
      · exact List.suffix_refl t
  | star a iha =>
      obtain ⟨-, rfl, rfl⟩ | ⟨u, f₁, f₂, ha, hmany, rfl⟩ := eval_star_eq_some.1 h
      · exact List.suffix_refl t
      · have hround : ∀ v v' f, eval skip call a l (gap skip l v) = some (v', f) →
            f.Within v v' :=
          fun v v' f hv => (iha hv).mono (gap_suffix hskip l v) (List.suffix_refl v')
        exact (iha ha).append (many_within hround hmany)
  | ahead a _ =>
      obtain ⟨-, rfl, rfl⟩ := eval_ahead_eq_some.1 h
      exact List.suffix_refl t
  | notAhead a _ =>
      obtain ⟨-, rfl, rfl⟩ := eval_notAhead_eq_some.1 h
      exact List.suffix_refl t

variable {g : Grammar R}

/-- The records of a match lie within it, one behind the other. -/
theorem run_within (hg : g.Ranked) {d : Nat} {r : R} {l : Layout} {s t : List Char}
    {f : Forest R} (h : g.run d r l s = some (t, f)) : f.Within s t := by
  induction d generalizing r l s t f with
  | zero => cases h
  | succ d ih =>
      have hrest := (run_rest hg h).1
      obtain ⟨n, inner, hn, hbody, rfl⟩ := run_eq_some.1 h
      cases hn
      rw [record]
      split
      · have hskip := Trivia.skip_suffix hg.lawful
        exact ⟨List.suffix_refl s, eval_within hskip (fun _ _ _ _ _ hcall => ih hcall) hbody,
          List.suffix_refl t⟩
      · exact hrest

/-! ## Rules are tried behind blanks and comments -/

/-- The record begins where there is no blank or comment to drop, and if its
rule takes something, it is not empty. -/
def Solid (g : Grammar R) (r : R) (before after : List Char) (_ : Forest R) : Prop :=
  g.between .spaced before = before ∧ (g.consuming r = true → after.length < before.length)

theorem eval_all_behind {P : R → List Char → List Char → Forest R → Prop} {l : Layout}
    (hgap : ∀ s, gap skip l (gap skip l s) = gap skip l s)
    (hcall : ∀ r s t f, gap skip l s = s → call r l s = some (t, f) → f.All P) {e : Expr R}
    {s t : List Char} {f : Forest R} (hs : gap skip l s = s)
    (h : eval skip call e l s = some (t, f)) : f.All P := by
  induction e generalizing s t f with
  | text word =>
      obtain ⟨-, rfl⟩ := eval_text_eq_some.1 h
      trivial
  | char accepts =>
      obtain ⟨c, -, -, rfl⟩ := eval_char_eq_some.1 h
      trivial
  | rule r => exact hcall r s t f hs h
  | both a b iha ihb =>
      obtain ⟨u, f₁, f₂, ha, hb, rfl⟩ := eval_both_eq_some.1 h
      exact Forest.all_append.2 ⟨iha hs ha, ihb (hgap u) hb⟩
  | either a b iha ihb =>
      obtain ha | ⟨-, hb⟩ := eval_either_eq_some.1 h
      · exact iha hs ha
      · exact ihb hs hb
  | opt a iha =>
      obtain ha | ⟨-, -, rfl⟩ := eval_opt_eq_some.1 h
      · exact iha hs ha
      · trivial
  | star a iha =>
      obtain ⟨-, -, rfl⟩ | ⟨u, f₁, f₂, ha, hmany, rfl⟩ := eval_star_eq_some.1 h
      · trivial
      · exact Forest.all_append.2 ⟨iha hs ha, many_all (fun v _ _ hv => iha (hgap v) hv) hmany⟩
  | ahead a _ =>
      obtain ⟨-, -, rfl⟩ := eval_ahead_eq_some.1 h
      trivial
  | notAhead a _ =>
      obtain ⟨-, -, rfl⟩ := eval_notAhead_eq_some.1 h
      trivial

/-- Behind blanks and comments all records of a match are solid. -/
theorem run_solid (hg : g.Ranked) (hlayout : ∀ r, g.layout r ≠ .joined) {d : Nat} {r : R}
    {s t : List Char} {f : Forest R} (hs : g.between .spaced s = s)
    (h : g.run d r .spaced s = some (t, f)) : f.All g.Solid := by
  induction d generalizing r s t f with
  | zero => cases h
  | succ d ih =>
      have hrest := (run_rest hg h).2
      obtain ⟨n, inner, hn, hbody, rfl⟩ := run_eq_some.1 h
      cases hn
      have hinner : inner.All g.Solid := by
        cases hl : g.layout r with
        | joined => exact absurd hl (hlayout r)
        | token =>
            rw [hl] at hbody
            rw [eval_token hlayout hbody]
            trivial
        | spaced =>
            rw [hl] at hbody
            exact eval_all_behind (fun _ => between_between hg)
              (fun _ _ _ _ hs hcall => ih hs hcall) hs hbody
      rw [record]
      split
      · exact ⟨⟨hs, hrest⟩, hinner, trivial⟩
      · trivial

/-! ## Entry rules -/

/-- An entry rule asks for the start of the text, and then for what it is the
entry to. -/
def Enters (g : Grammar R) (entry : R) (e : Expr R) : Prop :=
  g.layout entry = .spaced ∧ g.body entry = .both .start e

/-- An entry rule leaves what its expression leaves behind the blanks and
comments at the start. -/
theorem parse_entry (hg : g.Ranked) {entry : R} {e : Expr R} (he : g.Enters entry e)
    (s : List Char) :
    g.parse entry s = (g.matchExpr e .spaced (g.between .spaced s)).map fun (rest, inner) =>
      (rest, .cons entry s rest inner .nil) := by
  obtain ⟨hlayout, hbody⟩ := he
  have hrecord : ∀ rest inner, g.record entry .spaced s rest inner =
      .cons entry s rest inner .nil := fun rest inner => if_pos (by rw [hlayout]; rfl)
  show g.matchRule entry .spaced s = _
  rw [matchRule_eq hg, hlayout, hbody]
  simp only [hrecord]
  have hstart : g.matchExpr .start .spaced s = some (s, .nil) := matchExpr_text [] s
  show (g.matchExpr (.both .start e) .spaced s).map _ = _
  cases h : g.matchExpr e .spaced (g.between .spaced s) with
  | none => rw [matchExpr_both_none_right hstart h]
  | some found => rw [matchExpr_both hstart h]; rfl

end Grammar

end FeatureTree
