import FeatureTree.Proofs.Grammar.Inversion

/-!
# What holds of every record

A match records the rules that matched inside it, to any depth. `Forest.All`
says that something holds of each of these records, and `run_all` is the
induction that proves it: to know it of all records of a match it is enough to
know it of a rule, given that it holds of all records inside.

Inside a token nothing is recorded at all, so a token has no records inside,
unless a rule keeps them on its own account (`joined`).
-/

namespace FeatureTree

namespace Forest

variable {R : Type}

/-- Something holds of every record: of its rule, of the texts before and after
the match, and of the records inside. -/
def All (P : R → List Char → List Char → Forest R → Prop) : Forest R → Prop
  | .nil => True
  | .cons r before after inner next => P r before after inner ∧ inner.All P ∧ next.All P

theorem all_append {P : R → List Char → List Char → Forest R → Prop} {f g : Forest R} :
    (f ++ g).All P ↔ f.All P ∧ g.All P := by
  induction f with
  | nil => simp [All]
  | cons r before after inner next _ ih => simp [All, ih, and_assoc]

end Forest

namespace Grammar

variable {R : Type} {P : R → List Char → List Char → Forest R → Prop}

theorem many_all {step : Matcher R} (hstep : ∀ s s' f, step s = some (s', f) → f.All P)
    {bound s t : List Char} {f : Forest R} (h : many step bound s = (t, f)) : f.All P := by
  induction bound generalizing s f with
  | nil =>
      cases h
      trivial
  | cons b bound ih =>
      rw [many] at h
      split at h
      · cases h
        trivial
      · next s' f' hs =>
          cases h
          exact Forest.all_append.2 ⟨hstep s s' f' hs, ih rfl⟩

theorem eval_all {skip : List Char → List Char} {call : R → Layout → Matcher R} {e : Expr R}
    {l : Layout} {s rest : List Char} {f : Forest R}
    (hcall : ∀ r s s' f, call r l s = some (s', f) → f.All P)
    (h : eval skip call e l s = some (rest, f)) : f.All P := by
  induction e generalizing s rest f with
  | text word =>
      obtain ⟨-, rfl⟩ := eval_text_eq_some.1 h
      trivial
  | char accepts =>
      obtain ⟨c, -, -, rfl⟩ := eval_char_eq_some.1 h
      trivial
  | rule r => exact hcall r s rest f h
  | both a b iha ihb =>
      obtain ⟨u, f₁, f₂, ha, hb, rfl⟩ := eval_both_eq_some.1 h
      exact Forest.all_append.2 ⟨iha ha, ihb hb⟩
  | either a b iha ihb =>
      obtain ha | ⟨-, hb⟩ := eval_either_eq_some.1 h
      · exact iha ha
      · exact ihb hb
  | opt a iha =>
      obtain ha | ⟨-, -, rfl⟩ := eval_opt_eq_some.1 h
      · exact iha ha
      · trivial
  | star a iha =>
      obtain ⟨-, -, rfl⟩ | ⟨u, f₁, f₂, ha, hmany, rfl⟩ := eval_star_eq_some.1 h
      · trivial
      · exact Forest.all_append.2 ⟨iha ha, many_all (fun _ _ _ ht => iha ht) hmany⟩
  | ahead a _ =>
      obtain ⟨-, -, rfl⟩ := eval_ahead_eq_some.1 h
      trivial
  | notAhead a _ =>
      obtain ⟨-, -, rfl⟩ := eval_notAhead_eq_some.1 h
      trivial

variable {g : Grammar R}

/-- What holds of a rule, given that it holds inside, holds of all records of a
match. `ok` is a condition on layouts that the rules keep. -/
theorem run_all (ok : Layout → Prop) (hinside : ∀ l r, ok l → ok (l.inside (g.layout r)))
    (hbody : ∀ d r l s rest f, ok l → (l.around (g.layout r)).records = true →
      eval g.trivia.skip (g.run d) (g.body r) (l.inside (g.layout r)) s = some (rest, f) →
      f.All P → P r s rest f)
    {d : Nat} {r : R} {l : Layout} (hl : ok l) {s rest : List Char} {f : Forest R}
    (h : g.run d r l s = some (rest, f)) : f.All P := by
  induction d generalizing r l s rest f with
  | zero => cases h
  | succ d ih =>
      obtain ⟨n, inner, hn, heval, rfl⟩ := run_eq_some.1 h
      cases hn
      have hinner : inner.All P :=
        eval_all (fun _ _ _ _ hcall => ih (hinside l r hl) hcall) heval
      rw [record]
      split
      · next hrecords =>
          exact ⟨hbody d r l s rest inner hl hrecords heval hinner, hinner, trivial⟩
      · trivial

/-- Where records are kept, a rule that matched is recorded. -/
theorem run_eq_cons {d : Nat} {r : R} {l : Layout} {s t : List Char} {f : Forest R}
    (h : g.run d r l s = some (t, f)) (hrecords : (l.around (g.layout r)).records = true) :
    ∃ n inner, d = n + 1 ∧ f = .cons r s t inner .nil ∧
      eval g.trivia.skip (g.run n) (g.body r) (l.inside (g.layout r)) s = some (t, inner) := by
  obtain ⟨n, inner, hn, heval, rfl⟩ := run_eq_some.1 h
  exact ⟨n, inner, hn, if_pos hrecords, heval⟩

/-- Nothing is recorded inside a token. -/
theorem run_token (hlayout : ∀ r, g.layout r ≠ .joined) {d : Nat} {r : R}
    {s rest : List Char} {f : Forest R} (h : g.run d r .token s = some (rest, f)) :
    f = .nil := by
  obtain ⟨n, inner, -, -, rfl⟩ := run_eq_some.1 h
  rw [record]
  cases hr : g.layout r with
  | joined => exact absurd hr (hlayout r)
  | spaced | token => rfl

theorem eval_token (hlayout : ∀ r, g.layout r ≠ .joined) {d : Nat} {e : Expr R}
    {s rest : List Char} {f : Forest R}
    (h : eval g.trivia.skip (g.run d) e .token s = some (rest, f)) : f = .nil := by
  have hall : f.All fun _ _ _ _ => False := by
    refine eval_all (fun r s s' f hcall => ?_) h
    rw [run_token hlayout hcall]
    trivial
  cases f with
  | nil => rfl
  | cons r before after inner next => exact hall.1.elim

end Grammar

end FeatureTree
