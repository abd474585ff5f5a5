import FeatureTree.Proofs.Exchange.Match
import FeatureTree.Proofs.Grammar.Brackets

/-!
# Balanced text with one piece for another

Groups, their pieces, and literals are tokens: what they leave is all there is to them. If
the two pieces are pieces of balanced text themselves, a group that begins in front of them
is read over them, and comes to the same end (`ExchangesGroups.leaves_group`).
-/

namespace FeatureTree

namespace SnippetGrammar

open Grammar

variable {R : Type} {g : SnippetGrammar R} {x : Exchange} {single isWordChar : Char → Bool}
  {group : Bracket → R} {piece r : R} {literals : List R} {t : Trivia} {b : Bracket}
  {s s' y : List Char} {e : Expr R} {l : Layout}

theorem leaves_behind (hg : g.Ranked) (h : s <:+ x.behind) :
    x.Alike (g.leaves e s) (g.leaves e s) := by
  cases hs : g.leaves e s with
  | none => exact .none
  | some t =>
      obtain ⟨f, hmatch⟩ := leaves_eq_some_iff.1 hs
      exact .some (.behind ((matchExpr_suffix hg hmatch).trans h))

/-- Balanced text is read with either piece: the pieces are pieces of balanced text, literals
are read alike, and brackets lead from place to place. -/
structure ExchangesGroups (g : SnippetGrammar R) (x : Exchange) (single isWordChar : Char → Bool)
    (group : Bracket → R) (piece : R) (literals : List R) : Prop
    extends g.Exchanges x single, g.Balances group piece literals,
      x.Closed (g.firstLiteral? literals) g.trivia isWordChar where
  source_piece : g.leaves (.rule piece) (x.source []) = some x.behind
  target_piece : g.leaves (.rule piece) (x.target []) = some x.behind
  bracket : ∀ b : Bracket, single b.opener = true ∧ single b.closer = true

namespace ExchangesGroups

variable (hx : g.ExchangesGroups x single isWordChar group piece literals)

include hx

theorem after?_closer (b : Bracket) (h : x.Rest s s') :
    x.Alike (Text.after? [b.closer] s) (Text.after? [b.closer] s') :=
  h.after? hx.next hx.source_head hx.target_head (by simp [hx.bracket b])

/-- A group is read alike if the pieces inside it are. -/
theorem leaves_piece_opener_alike (b : Bracket)
    (hinside : x.Alike (g.leaves (.star (.rule piece)) s) (g.leaves (.star (.rule piece)) s')) :
    x.Alike (g.leaves (.rule piece) (b.opener :: s)) (g.leaves (.rule piece) (b.opener :: s')) := by
  have hb := hx.toBalances
  rw [hb.leaves_piece_opener, hb.leaves_piece_opener, hb.leaves_group, hb.leaves_group]
  obtain ⟨hs, hs'⟩ | ⟨u, u', hs, hs', hrest⟩ := hinside.elim
  · rw [hs, hs']
    exact .none
  · rw [hs, hs']
    exact hx.after?_closer b hrest

/-- A piece that is no group is a literal or a single character. -/
theorem leaves_piece_alike_of_none {c : Char} (hopener : Bracket.ofOpener? c = none)
    (hy : x.Place (c :: y)) :
    x.Alike (g.leaves (.rule piece) (c :: x.source y))
      (g.leaves (.rule piece) (c :: x.target y)) := by
  have hb := hx.toBalances
  have hliteral : x.Alike (g.firstLiteral? literals (c :: x.source y))
      (g.firstLiteral? literals (c :: x.target y)) := hx.literal _ hy (List.cons_ne_nil c y)
  rw [hb.leaves_piece_of_none hopener, hb.leaves_piece_of_none hopener]
  obtain ⟨hs, hs'⟩ | ⟨u, u', hs, hs', hrest⟩ := hliteral.elim
  · rw [hs, hs']
    split
    · exact .some (.front (hx.char hy (.inl hs)))
    · exact .none
  · rw [hs, hs']
    exact .some hrest

/-- Pieces are read alike if the first of them is, and the others are where it stops. -/
theorem leaves_pieces_alike (hy : x.Place y)
    (hpiece : x.Alike (g.leaves (.rule piece) (x.source y)) (g.leaves (.rule piece) (x.target y)))
    (hothers : ∀ z, x.Place z → z.length < y.length →
      x.Alike (g.leaves (.star (.rule piece)) (x.source z))
        (g.leaves (.star (.rule piece)) (x.target z))) :
    x.Alike (g.leaves (.star (.rule piece)) (x.source y))
      (g.leaves (.star (.rule piece)) (x.target y)) := by
  have hb := hx.toBalances
  obtain ⟨hs, hs'⟩ | ⟨u, u', hs, hs', hrest⟩ := hpiece.elim
  · rw [leaves_star_of_none hb.ranked hb.consumes_piece hs,
      leaves_star_of_none hb.ranked hb.consumes_piece hs']
    exact .some (.front hy)
  · rw [leaves_star_of_some hb.ranked hb.consumes_piece hs,
      leaves_star_of_some hb.ranked hb.consumes_piece hs']
    cases hrest with
    | behind hu => exact leaves_behind hb.ranked hu
    | @front z hz =>
        obtain ⟨f, hmatch⟩ := leaves_eq_some_iff.1 hs
        have hlt := matchExpr_lt hb.ranked hb.consumes_piece hmatch
        exact hothers z hz (Exchange.length_lt_of_source hlt)

/-- A piece of balanced text is read alike, and so are all that follow. -/
theorem leaves_piece (hy : x.Place y) :
    x.Alike (g.leaves (.rule piece) (x.source y)) (g.leaves (.rule piece) (x.target y)) ∧
      x.Alike (g.leaves (.star (.rule piece)) (x.source y))
        (g.leaves (.star (.rule piece)) (x.target y)) := by
  -- A group is one piece and is read through the pieces inside it, so both are proved together.
  generalize hn : y.length = n
  induction n using Nat.strongRecOn generalizing y with
  | ind n ih =>
      have hpiece : x.Alike (g.leaves (.rule piece) (x.source y))
          (g.leaves (.rule piece) (x.target y)) := by
        cases y with
        | nil => rw [hx.source_piece, hx.target_piece]; exact .some (.behind (List.suffix_refl _))
        | cons c y =>
            cases hopener : Bracket.ofOpener? c with
            | some b =>
                obtain rfl := Bracket.eq_opener hopener
                have hy' := hx.char hy (.inl (hx.toBalances.firstLiteral_opener b _))
                exact hx.leaves_piece_opener_alike b
                  (ih y.length (hn ▸ Nat.lt_succ_self _) hy' rfl).2
            | none => exact hx.leaves_piece_alike_of_none hopener hy
      exact ⟨hpiece, hx.leaves_pieces_alike hy hpiece fun z hz hlt =>
        (ih z.length (hn ▸ hlt) hz rfl).2⟩

theorem leaves_group_none (h : ∀ c ∈ s.head?, single c = false) (b : Bracket) :
    g.leaves (.rule (group b)) s = none := by
  have hb := hx.toBalances
  cases s with
  | nil =>
      rw [leaves_rule hb.ranked (hb.layout_group b), hb.body_group, Expr.seq, leaves_both,
        leaves_text]
      rfl
  | cons c s =>
      refine hb.leaves_group_of_ne ?_
      rintro rfl
      cases (h _ rfl).symm.trans (hx.bracket b).1

theorem leaves_group (b : Bracket) (h : x.Rest s s') :
    x.Alike (g.leaves (.rule (group b)) s) (g.leaves (.rule (group b)) s') := by
  have hb := hx.toBalances
  cases h with
  | behind hu => exact leaves_behind hb.ranked hu
  | @front y hy =>
      cases y with
      | nil =>
          rw [hx.leaves_group_none hx.source_head, hx.leaves_group_none hx.target_head]
          exact .none
      | cons c y =>
          show x.Alike (g.leaves _ (c :: x.source y)) (g.leaves _ (c :: x.target y))
          by_cases hc : c = b.opener
          · subst hc
            rw [← hb.leaves_piece_opener, ← hb.leaves_piece_opener]
            exact (hx.leaves_piece hy).1
          · rw [hb.leaves_group_of_ne hc, hb.leaves_group_of_ne hc]
            exact .none

end ExchangesGroups

/-- Inside a token nothing is recorded, so it has no names but its own. -/
theorem names_token (hlayout : ∀ r, g.layout r ≠ .joined) (hr : g.layout r = .token)
    (hrole : g.role r ≠ .name) {f : Forest R} (h : g.matchRule r l s = some (s', f)) :
    g.names f = [] := by
  obtain ⟨d, inner, -, hbody, rfl⟩ := run_eq_some.1 h
  have htoken : l.inside (g.layout r) = .token := by rw [hr]; cases l <;> rfl
  rw [htoken] at hbody
  rw [names_record, eval_token hlayout hbody]
  split
  · cases hr : g.role r with
    | name => exact absurd hr hrole
    | _ => rfl
  · rfl

/-- A token that is read alike is matched alike. -/
theorem Alike.token (hg : g.Ranked) (hlayout : ∀ r, g.layout r ≠ .joined)
    (hr : g.layout r = .token) (hrole : g.role r ≠ .name)
    (h : x.Alike (g.leaves (.rule r) s) (g.leaves (.rule r) s')) :
    g.Alike x (g.matchRule r l s) (g.matchRule r l s') := by
  rw [leaves_rule hg hr, leaves_rule hg hr, ← map_matchRule_token hg hr l,
    ← map_matchRule_token hg hr l] at h
  cases hs : g.matchRule r l s with
  | none =>
      cases hs' : g.matchRule r l s' with
      | none => exact .none
      | some found => rw [hs, hs'] at h; cases h
  | some found =>
      cases hs' : g.matchRule r l s' with
      | none => rw [hs, hs'] at h; cases h
      | some found' =>
          rw [hs, hs'] at h
          cases h with
          | some hrest =>
              refine .some hrest ?_
              rw [names_token hlayout hr hrole hs, names_token hlayout hr hrole hs']

end SnippetGrammar

end FeatureTree
