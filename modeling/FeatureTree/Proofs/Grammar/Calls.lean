import FeatureTree.Proofs.Grammar.Match
import FeatureTree.Proofs.Grammar.Records

/-!
# Induction over calls

A rule is its body, and the rules that its body calls need less depth than it does.
So what holds of every match of a rule can be proved from the match of its body, if
it may be assumed of the calls in there (`matchRule_induction`). The bound on the
depth of calls does not show: a match is one of `matchRule`, at any depth.

The first use of it is that the records of a match are matches themselves
(`matchRule_matched`). What is known of the matches of a rule is known of its records
wherever they stand.
-/

namespace FeatureTree

namespace Grammar

variable {R : Type} {g : Grammar R} {r : R} {l : Layout} {s t : List Char} {f : Forest R}

theorem matchRule_eq_some_iff (hg : g.Ranked) :
    g.matchRule r l s = some (t, f) ↔
      ∃ inner, g.matchExpr (g.body r) (l.inside (g.layout r)) s = some (t, inner) ∧
        f = g.record r l s t inner := by
  rw [matchRule_eq hg, Option.map_eq_some_iff]
  constructor
  · rintro ⟨⟨t', inner⟩, hbody, heq⟩
    cases heq
    exact ⟨inner, hbody, rfl⟩
  · rintro ⟨inner, hbody, rfl⟩
    exact ⟨(t, inner), hbody, rfl⟩

/-- The calls of rules that need less depth than a bound. -/
def callsBelow (g : Grammar R) (bound : Nat) (r : R) (l : Layout) : Matcher R := fun s =>
  if g.need r s < bound then g.matchRule r l s else none

theorem callsBelow_eq_some_iff {bound : Nat} :
    g.callsBelow bound r l s = some (t, f) ↔
      g.need r s < bound ∧ g.matchRule r l s = some (t, f) := by
  rw [callsBelow]
  split
  · next hlt => simp [hlt]
  · next hlt => simp [hlt]

/-- The calls that a body can make are those that need less than its rule does. -/
theorem matchExpr_eq_callsBelow (hg : g.Ranked) (r : R) (l : Layout) (s : List Char) :
    g.matchExpr (g.body r) l s =
      eval g.trivia.skip (g.callsBelow (g.need r s)) (g.body r) l s := by
  have hcall : ∀ {r' l' s'}, g.need r' s' < g.need r s →
      g.matchRule r' l' s' = g.callsBelow (g.need r s) r' l' s' :=
    fun hlt => (if_pos hlt).symm
  refine eval_congr (Trivia.skip_suffix hg.lawful) (fun _ _ _ _ _ h => matchRule_rest hg h) ?_ ?_
  · intro r' l' s' hlt
    exact hcall (need_lt_of_length_lt hg r r' hlt)
  · intro r' hr' l' s' hle
    exact hcall (need_lt_of_rank_lt (hg.leading r r' hr') hle)

/-- What holds of a rule whenever it holds of the calls in its body, holds of every
match of a rule. -/
theorem matchRule_induction (hg : g.Ranked)
    {P : R → Layout → List Char → List Char → Forest R → Prop}
    (step : ∀ r l s t inner (call : R → Layout → Matcher R),
      (∀ r' l' s' t' f', call r' l' s' = some (t', f') →
        g.matchRule r' l' s' = some (t', f') ∧ P r' l' s' t' f') →
      eval g.trivia.skip call (g.body r) (l.inside (g.layout r)) s = some (t, inner) →
      g.matchExpr (g.body r) (l.inside (g.layout r)) s = some (t, inner) →
      P r l s t (g.record r l s t inner))
    (h : g.matchRule r l s = some (t, f)) : P r l s t f := by
  generalize hn : g.need r s = n
  induction n using Nat.strongRecOn generalizing r l s t f with
  | ind n ih =>
      obtain ⟨inner, hbody, rfl⟩ := (matchRule_eq_some_iff hg).1 h
      refine step r l s t inner (g.callsBelow n) ?_ ?_ hbody
      · intro r' l' s' t' f' hcall
        obtain ⟨hlt, hmatch⟩ := callsBelow_eq_some_iff.1 hcall
        exact ⟨hmatch, ih _ hlt hmatch rfl⟩
      · rw [← hn, ← matchExpr_eq_callsBelow hg, hbody]

/-- The record is that of a match. -/
def Matched (g : Grammar R) (r : R) (before after : List Char) (inner : Forest R) : Prop :=
  ∃ l, g.matchRule r l before = some (after, .cons r before after inner .nil)

theorem matchRule_matched (hg : g.Ranked) (h : g.matchRule r l s = some (t, f)) :
    f.All g.Matched := by
  refine matchRule_induction hg (P := fun _ _ _ _ f => f.All g.Matched) ?_ h
  intro r l s t inner call hcall heval hbody
  have hinner : inner.All g.Matched := eval_all (fun r l s f h => (hcall r _ l s f h).2) heval
  by_cases hrecords : (l.around (g.layout r)).records = true
  · rw [record, if_pos hrecords]
    exact ⟨⟨l, matchRule_of_body hg hbody hrecords⟩, hinner, trivial⟩
  · rw [record, if_neg hrecords]
    trivial

end Grammar

end FeatureTree
