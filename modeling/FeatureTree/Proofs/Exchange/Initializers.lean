import FeatureTree.Proofs.Exchange.Balanced

/-!
# Tokens that see to blanks themselves

Between the parts of a token nothing is dropped, so a token that allows for blanks says so in
its expression, and what it says may cover less than is dropped elsewhere. A reader that takes
blanks only comes to a stand in front of a comment. So there is one direction left: what is
read with the comment in place is read with the blank as well (`Follows`).

An initializer ends where a semicolon stands, or the boundary in front of another declarator.
The boundary is such a token. Hence an initializer may run on with the comment in place, over
the end that it had with the blank (`leaves_initializer`).
-/

namespace FeatureTree

namespace SnippetGrammar

open Grammar

variable {R : Type} {g : SnippetGrammar R} {x : Exchange} {a b e : Expr R}
  {s s' t t' y : List Char} {n : Nat}

/-! ## Readers with blanks of their own -/

/-- What is read with the new piece is read with the old one too, or the reader has come to the
new piece. It does not get over the new piece. -/
structure Kept (g : SnippetGrammar R) (x : Exchange) (e : Expr R) : Prop where
  keeps : ∀ {s s' t'}, x.Rest s s' → g.leaves e s' = some t' →
    t' = x.target [] ∨ ∃ t, g.leaves e s = some t ∧ x.Rest t t'
  halts : ∀ {t'}, g.leaves e (x.target []) = some t' → t' = x.target []

/-- What is read with the new piece is read with the old one too. In front of the new piece
nothing is read. -/
structure Follows (g : SnippetGrammar R) (x : Exchange) (e : Expr R) : Prop where
  follows : ∀ {s s' t'}, x.Rest s s' → g.leaves e s' = some t' →
    ∃ t, g.leaves e s = some t ∧ x.Rest t t'
  stuck : g.leaves e (x.target []) = none

theorem follows_of_alike (h : ∀ s s', x.Rest s s' → x.Alike (g.leaves e s) (g.leaves e s'))
    (hstuck : g.leaves e (x.target []) = none) : g.Follows x e where
  follows := by
    intro s s' t' hrest ht'
    obtain ⟨-, hs'⟩ | ⟨u, u', hs, hs', hu⟩ := (h s s' hrest).elim
    · rw [hs'] at ht'
      cases ht'
    · rw [hs'] at ht'
      cases ht'
      exact ⟨u, hs, hu⟩
  stuck := hstuck

theorem Follows.kept (h : g.Follows x e) : g.Kept x e where
  keeps hrest ht' := .inr (h.follows hrest ht')
  halts ht' := by
    rw [h.stuck] at ht'
    cases ht'

theorem Kept.both (ha : g.Kept x a) (hb : g.Kept x b) : g.Kept x (.both a b) where
  keeps := by
    intro s s' t' hrest ht'
    rw [leaves_both] at ht'
    obtain ⟨u', hu', ht'⟩ := Option.bind_eq_some_iff.1 ht'
    rcases ha.keeps hrest hu' with rfl | ⟨u, hu, hrest'⟩
    · exact .inl (hb.halts ht')
    · refine (hb.keeps hrest' ht').imp_right ?_
      rintro ⟨t, ht, hrest''⟩
      exact ⟨t, by rw [leaves_both, hu]; exact ht, hrest''⟩
  halts := by
    intro t' ht'
    rw [leaves_both] at ht'
    obtain ⟨u', hu', ht'⟩ := Option.bind_eq_some_iff.1 ht'
    rw [ha.halts hu'] at ht'
    exact hb.halts ht'

theorem Follows.both (ha : g.Kept x a) (hb : g.Follows x b) : g.Follows x (.both a b) where
  follows := by
    intro s s' t' hrest ht'
    rw [leaves_both] at ht'
    obtain ⟨u', hu', ht'⟩ := Option.bind_eq_some_iff.1 ht'
    rcases ha.keeps hrest hu' with rfl | ⟨u, hu, hrest'⟩
    · rw [hb.stuck] at ht'
      cases ht'
    · obtain ⟨t, ht, hrest''⟩ := hb.follows hrest' ht'
      exact ⟨t, by rw [leaves_both, hu]; exact ht, hrest''⟩
  stuck := by
    rw [leaves_both]
    cases hu' : g.leaves a (x.target []) with
    | none => rfl
    | some u' => rw [ha.halts hu', Option.bind_some]; exact hb.stuck

/-- What takes something is not read in front of the new piece. -/
theorem Kept.stuck (hg : g.Ranked) (ha : g.Kept x a) (hconsumes : a.consumes g.consuming = true) :
    g.leaves a (x.target []) = none := by
  cases hu : g.leaves a (x.target []) with
  | none => rfl
  | some u =>
      obtain ⟨f, hmatch⟩ := leaves_eq_some_iff.1 hu
      have hlt := matchExpr_lt hg hconsumes hmatch
      rw [ha.halts hu] at hlt
      omega

/-- Where no round is read with the new piece but what is behind the rounds is, no round is read
with the old piece: that would begin as nothing behind the rounds does. -/
theorem Follows.no_round (hg : g.Ranked) (hb : g.Follows x b)
    (hapart : ∀ c, a.begins (g.firsts n) c = true → b.begins (g.firsts n) c = false)
    (hrest : x.Rest s s') (ha : g.leaves a s' = none) (ht : g.leaves b s' = some t') :
    g.leaves a s = none := by
  cases hrest with
  | behind hu => exact ha
  | @front y hy =>
      cases y with
      | nil =>
          rw [hb.stuck] at ht
          cases ht
      | cons c y =>
          refine leaves_none_of_begins hg (n := n) (Bool.eq_false_iff.2 fun hc => ?_)
          have hnone : g.leaves b (x.target (c :: y)) = none :=
            leaves_none_of_begins hg (hapart c hc)
          rw [hnone] at ht
          cases ht

/-- A repetition in front of what cannot begin like another round. -/
theorem Follows.star (hg : g.Ranked) (ha : g.Kept x a) (hconsumes : a.consumes g.consuming = true)
    (hb : g.Follows x b)
    (hapart : ∀ c, a.begins (g.firsts n) c = true → b.begins (g.firsts n) c = false) :
    g.Follows x (.both (.star a) b) where
  follows := by
    intro s s' t' hrest ht'
    generalize hn : s'.length = m
    induction m using Nat.strongRecOn generalizing s s' with
    | ind m ih =>
        rw [leaves_both] at ht'
        cases hu' : g.leaves a s' with
        | none =>
            rw [leaves_star_of_none hg hconsumes hu', Option.bind_some] at ht'
            have hnone := hb.no_round hg hapart hrest hu' ht'
            rw [leaves_both, leaves_star_of_none hg hconsumes hnone, Option.bind_some]
            exact hb.follows hrest ht'
        | some u' =>
            rw [leaves_star_of_some hg hconsumes hu', ← leaves_both] at ht'
            rcases ha.keeps hrest hu' with rfl | ⟨u, hu, hrest'⟩
            · rw [leaves_both, leaves_star_of_none hg hconsumes (ha.stuck hg hconsumes),
                Option.bind_some, hb.stuck] at ht'
              cases ht'
            · obtain ⟨f, hmatch⟩ := leaves_eq_some_iff.1 hu'
              have hlt := matchExpr_lt hg hconsumes hmatch
              rw [leaves_both, leaves_star_of_some hg hconsumes hu, ← leaves_both]
              exact ih u'.length (by omega) hrest' ht' rfl
  stuck := by
    rw [leaves_both, leaves_star_of_none hg hconsumes (ha.stuck hg hconsumes), Option.bind_some,
      hb.stuck]

/-- Blanks are read up to the new piece. -/
theorem kept_blanks (hg : g.Ranked) {accepts : Char → Bool} (ha : g.TakesChar a accepts)
    (hconsumes : a.consumes g.consuming = true)
    (hplace : ∀ {c y}, x.Place (c :: y) → accepts c = true → x.Place y)
    (htarget : ∀ c ∈ (x.target []).head?, accepts c = false) : g.Kept x (.star a) := by
  have hleaves : ∀ c s, g.leaves a (c :: s) = if accepts c = true then some s else none := by
    intro c s
    rw [leaves, ha, matchExpr, eval]
    split <;> rfl
  have hstuck : g.leaves a (x.target []) = none := by
    rw [leaves, none_of_head ha htarget]
    rfl
  refine ⟨fun {s s' t'} hrest ht' => ?_, fun ht' => ?_⟩
  · cases hrest with
    | behind hu =>
        obtain ⟨f, hmatch⟩ := leaves_eq_some_iff.1 ht'
        exact .inr ⟨t', ht', .behind ((matchExpr_suffix hg hmatch).trans hu)⟩
    | @front y hy =>
        induction y with
        | nil =>
            rw [leaves_star_of_none hg hconsumes hstuck] at ht'
            exact .inl (Option.some.inj ht').symm
        | cons c y ih =>
            have hsource := hleaves c (x.source y)
            have htarget := hleaves c (x.target y)
            by_cases hc : accepts c = true
            · rw [if_pos hc] at hsource htarget
              rw [show x.source (c :: y) = c :: x.source y from rfl,
                leaves_star_of_some hg hconsumes hsource]
              rw [show x.target (c :: y) = c :: x.target y from rfl,
                leaves_star_of_some hg hconsumes htarget] at ht'
              exact ih (hplace hy hc) ht'
            · rw [if_neg hc] at hsource htarget
              rw [show x.target (c :: y) = c :: x.target y from rfl,
                leaves_star_of_none hg hconsumes htarget] at ht'
              cases ht'
              exact .inr ⟨_, leaves_star_of_none hg hconsumes hsource, .front hy⟩
  · rw [leaves_star_of_none hg hconsumes hstuck] at ht'
    exact (Option.some.inj ht').symm

/-! ## Initializers -/

/-- One piece of an initializer: neither its end stands there, nor the comma in front of another
declarator. -/
def initializerRound (boundary piece : R) : Expr R :=
  .seq [.notAhead (.choice [";", .rule boundary]), .rule piece]

variable {boundary piece : R}

/-- An initializer ends here. -/
def AtEnd (g : SnippetGrammar R) (boundary : R) (s : List Char) : Prop :=
  (∃ u, s = ';' :: u) ∨ (g.leaves (.rule boundary) s).isSome = true

theorem leaves_round_of_atEnd (h : g.AtEnd boundary s) :
    g.leaves (initializerRound boundary piece) s = none := by
  have hchoice : (g.leaves (.choice [";", .rule boundary]) s).isSome = true := by
    rw [leaves_choice, List.findSome?_cons]
    rcases h with ⟨u, rfl⟩ | h
    · rw [leaves_text]
      rfl
    · cases g.leaves ";" s with
      | some u => rfl
      | none => rw [List.findSome?_singleton]; exact h
  rw [initializerRound, Expr.seq, leaves_both, leaves_notAhead, if_pos hchoice, Option.bind_none]

theorem leaves_round_of_not_atEnd (h : ¬ g.AtEnd boundary s) :
    g.leaves (initializerRound boundary piece) s = g.leaves (.rule piece) s := by
  have hchoice : ¬ (g.leaves (.choice [";", .rule boundary]) s).isSome = true := by
    rw [leaves_choice, List.findSome?_cons]
    cases hs : g.leaves ";" s with
    | some u =>
        rw [leaves_text] at hs
        exact absurd (.inl ⟨u, Text.after?_eq_some_iff.1 hs⟩) h
    | none => rw [List.findSome?_singleton]; exact fun hb => h (.inr hb)
  rw [initializerRound, Expr.seq, leaves_both, leaves_notAhead, if_neg hchoice, Option.bind_some]
  rfl

/-- What an initializer needs in order to be read with either piece. The text behind its
boundaries may differ. -/
structure ExchangesInitializers (g : SnippetGrammar R) (x : Exchange) (boundary piece : R) :
    Prop where
  ranked : g.Ranked
  consumes : (initializerRound boundary piece).consumes g.consuming = true
  piece : ∀ {s s'}, x.Rest s s' → x.Alike (g.leaves (.rule piece) s) (g.leaves (.rule piece) s')
  boundary : g.Follows x (.rule boundary)
  semicolon : ∀ c ∈ (x.target []).head?, c ≠ ';'

namespace ExchangesInitializers

variable (hx : g.ExchangesInitializers x boundary piece)

include hx

/-- With the new piece in place an initializer does not end where it did not. -/
theorem atEnd_source (hrest : x.Rest s s') (h : g.AtEnd boundary s') : g.AtEnd boundary s := by
  rcases h with ⟨u, hu⟩ | h
  · cases hrest with
    | behind _ => exact .inl ⟨u, hu⟩
    | @front y hy =>
        cases y with
        | nil => exact absurd rfl (hx.semicolon ';' (by rw [hu]; rfl))
        | cons c y =>
            obtain ⟨rfl, -⟩ := List.cons.inj hu
            exact .inl ⟨x.source y, rfl⟩
  · obtain ⟨t', ht'⟩ := Option.isSome_iff_exists.1 h
    obtain ⟨t, ht, -⟩ := hx.boundary.follows hrest ht'
    exact .inr (Option.isSome_iff_exists.2 ⟨t, ht⟩)

theorem round_some (hrest : x.Rest s s')
    (h : g.leaves (initializerRound boundary piece) s = some t) :
    ∃ t', g.leaves (initializerRound boundary piece) s' = some t' ∧ x.Rest t t' := by
  by_cases hend : g.AtEnd boundary s
  · rw [leaves_round_of_atEnd hend] at h
    cases h
  · have hend' : ¬ g.AtEnd boundary s' := fun h => hend (hx.atEnd_source hrest h)
    rw [leaves_round_of_not_atEnd hend] at h
    rw [leaves_round_of_not_atEnd hend']
    obtain ⟨hs, -⟩ | ⟨u, u', hs, hs', hu⟩ := (hx.piece hrest).elim
    · rw [hs] at h
      cases h
    · rw [hs] at h
      cases h
      exact ⟨u', hs', hu⟩

theorem round_none (hrest : x.Rest s s')
    (h : g.leaves (initializerRound boundary piece) s = none)
    (hend : g.AtEnd boundary s → g.AtEnd boundary s') :
    g.leaves (initializerRound boundary piece) s' = none := by
  by_cases hs : g.AtEnd boundary s
  · exact leaves_round_of_atEnd (hend hs)
  · have hs' : ¬ g.AtEnd boundary s' := fun h => hs (hx.atEnd_source hrest h)
    rw [leaves_round_of_not_atEnd hs] at h
    rw [leaves_round_of_not_atEnd hs']
    obtain ⟨-, hnone⟩ | ⟨u, u', hu, -⟩ := (hx.piece hrest).elim
    · exact hnone
    · rw [hu] at h
      cases h

/-- The pieces of an initializer are read up to the same end, unless there is an end in the text
as it is that is none with the new piece. -/
theorem leaves_rounds (hrest : x.Rest s s')
    (h : g.leaves (.star (initializerRound boundary piece)) s = some t)
    (hend : ∀ t', x.Rest t t' → g.AtEnd boundary t → g.AtEnd boundary t') :
    ∃ t', g.leaves (.star (initializerRound boundary piece)) s' = some t' ∧ x.Rest t t' := by
  generalize hn : s.length = n
  induction n using Nat.strongRecOn generalizing s s' with
  | ind n ih =>
      cases hs : g.leaves (initializerRound boundary piece) s with
      | none =>
          rw [leaves_star_of_none hx.ranked hx.consumes hs] at h
          cases h
          exact ⟨s', leaves_star_of_none hx.ranked hx.consumes
            (hx.round_none hrest hs (hend s' hrest)), hrest⟩
      | some u =>
          obtain ⟨u', hu', hrest'⟩ := hx.round_some hrest hs
          rw [leaves_star_of_some hx.ranked hx.consumes hs] at h
          rw [leaves_star_of_some hx.ranked hx.consumes hu']
          obtain ⟨f, hmatch⟩ := leaves_eq_some_iff.1 hs
          have hlt := matchExpr_lt hx.ranked hx.consumes hmatch
          exact ih u.length (by omega) hrest' h rfl

theorem leaves_initializer (hrest : x.Rest s s')
    (h : g.leaves (.plus (initializerRound boundary piece)) s = some t)
    (hend : ∀ t', x.Rest t t' → g.AtEnd boundary t → g.AtEnd boundary t') :
    ∃ t', g.leaves (.plus (initializerRound boundary piece)) s' = some t' ∧ x.Rest t t' := by
  rw [Expr.plus, leaves_both] at h
  obtain ⟨u, hu, hmore⟩ := Option.bind_eq_some_iff.1 h
  obtain ⟨u', hu', hrest'⟩ := hx.round_some hrest hu
  obtain ⟨t', ht', hrest''⟩ := hx.leaves_rounds hrest' hmore hend
  exact ⟨t', by rw [Expr.plus, leaves_both, hu']; exact ht', hrest''⟩

end ExchangesInitializers

end SnippetGrammar

end FeatureTree
