import FeatureTree.Grammar.Role
import FeatureTree.Proofs.Exchange.Text
import FeatureTree.Proofs.Grammar.Calls

/-!
# Matches with one piece for another

The matches of a grammar keep the relation between the rests of two texts that differ in
one piece, and record the same names (`matchRule_alike`). This is an induction over
expressions, and over the calls of rules as far as they go. It covers the expressions that
read one character after the other; whatever reads literals or blanks on its own account
has to be looked at by itself, and is a leaf of the induction.
-/

namespace FeatureTree

namespace SnippetGrammar

variable {R : Type} {g : SnippetGrammar R} {x : Exchange} {single : Char → Bool}
  {s s' t t' : List Char} {f f' : Forest R} {r : R} {l : Layout} {e : Expr R} {ok : R → Bool}

/-- The pieces from which names are recorded, looking through rules that are looked through. -/
def names (g : SnippetGrammar R) : Forest R → List (List Char)
  | .nil => []
  | .cons r before after inner next =>
    (match g.role r with
      | .name => [Forest.taken before after]
      | .transparent => g.names inner
      | _ => []) ++ g.names next

@[simp] theorem names_append (f f' : Forest R) :
    g.names (f ++ f') = g.names f ++ g.names f' := by
  induction f with
  | nil => rfl
  | cons r before after inner next _ ih => simp [names, ih]

/-- Both matches fail, or they leave rests that belong together and record the same names. -/
inductive Alike (g : SnippetGrammar R) (x : Exchange) :
    Option (List Char × Forest R) → Option (List Char × Forest R) → Prop
  | none : Alike g x none none
  | some {t t' : List Char} {f f' : Forest R} (hrest : x.Rest t t')
      (hnames : g.names f = g.names f') : Alike g x (some (t, f)) (some (t', f'))

/-- What the matches of a grammar need in order to be alike with either piece. -/
structure Exchanges (g : SnippetGrammar R) (x : Exchange) (single : Char → Bool) : Prop where
  ranked : g.Ranked
  old_ne : x.old ≠ []
  skip : ∀ {s s'}, x.Rest s s' → x.Rest (g.trivia.skip s) (g.trivia.skip s')
  next : ∀ {c y}, x.Place (c :: y) → single c = true → x.Place y
  source_head : ∀ c ∈ (x.source []).head?, single c = false
  target_head : ∀ c ∈ (x.target []).head?, single c = false

/-- If the rule makes a name, the old piece is not in it. -/
def NameIsClear (g : SnippetGrammar R) (x : Exchange) (r : R) : Prop :=
  g.role r = .name → ∀ l s t f w, g.matchRule r l s = some (t, f) → s = w ++ t → ¬ x.old <:+: w

theorem Exchanges.between (hx : g.Exchanges x single) (h : x.Rest s s') :
    x.Rest (g.between l s) (g.between l s') := by
  cases l with
  | spaced => exact hx.skip h
  | joined | token => exact h

end SnippetGrammar

namespace Expr

variable {R : Type}

/-- An expression that reads single characters and calls rules of which `ok` says so. -/
def Steady (single : Char → Bool) (c ok : R → Bool) : Expr R → Prop
  | .text word => word.all single = true
  | .char accepts => ∀ d, accepts d = true → single d = true
  | .rule r => ok r = true
  | .both a b | .either a b => a.Steady single c ok ∧ b.Steady single c ok
  | .opt a | .ahead a | .notAhead a => a.Steady single c ok
  | .star a => a.consumes c = true ∧ a.Steady single c ok

end Expr

namespace SnippetGrammar

variable {R : Type} {g : SnippetGrammar R} {x : Exchange} {single : Char → Bool}
  {s s' t t' : List Char} {f f' : Forest R} {r : R} {l : Layout} {e : Expr R} {ok : R → Bool}

open Grammar

theorem Alike.elim {o o' : Option (List Char × Forest R)} (h : g.Alike x o o') :
    o = .none ∧ o' = .none ∨
      ∃ t f t' f', o = .some (t, f) ∧ o' = .some (t', f') ∧ x.Rest t t' ∧
        g.names f = g.names f' := by
  cases h with
  | none => exact .inl ⟨rfl, rfl⟩
  | some hrest hnames => exact .inr ⟨_, _, _, _, rfl, rfl, hrest, hnames⟩

theorem Alike.map_nil {o o' : Option (List Char)} (h : x.Alike o o') :
    g.Alike x (o.map (·, .nil)) (o'.map (·, .nil)) := by
  cases h with
  | none => exact .none
  | some hrest => exact .some hrest rfl

theorem many_of_none {step : Matcher R} (h : step s = none) (bound : List Char) :
    many step bound s = (s, .nil) := by
  cases bound with
  | nil => rfl
  | cons c bound => rw [many, h]

theorem many_alike {step : Matcher R} {n : Nat}
    (hlt : ∀ s t f, step s = some (t, f) → t.length < s.length)
    (hstep : ∀ s s', s.length ≤ n → x.Rest s s' → g.Alike x (step s) (step s'))
    {bound bound' : List Char} (hbound : s.length ≤ bound.length)
    (hbound' : s'.length ≤ bound'.length) (hn : s.length ≤ n) (h : x.Rest s s') :
    x.Rest (many step bound s).1 (many step bound' s').1 ∧
      g.names (many step bound s).2 = g.names (many step bound' s').2 := by
  induction bound generalizing s s' bound' with
  | nil =>
      obtain ⟨hs, hs'⟩ | ⟨t, f, t', f', hs, -⟩ := (hstep s s' hn h).elim
      · rw [many_of_none hs, many_of_none hs']
        exact ⟨h, rfl⟩
      · have := hlt s t f hs
        rw [List.length_nil] at hbound
        omega
  | cons c bound ih =>
      obtain ⟨hs, hs'⟩ | ⟨t, f, t', f', hs, hs', hrest, hnames⟩ := (hstep s s' hn h).elim
      · rw [many_of_none hs, many_of_none hs']
        exact ⟨h, rfl⟩
      · have ht := hlt s t f hs
        have ht' := hlt s' t' f' hs'
        cases bound' with
        | nil => rw [List.length_nil] at hbound'; omega
        | cons c' bound' =>
            rw [List.length_cons] at hbound hbound'
            have hbound : t.length ≤ bound.length := by omega
            have hbound' : t'.length ≤ bound'.length := by omega
            obtain ⟨hmany, hmore⟩ := ih hbound hbound' (by omega) hrest
            rw [many, many, hs, hs']
            exact ⟨hmany, by simp only [names_append, hnames, hmore]⟩

theorem matchExpr_char_alike (hx : g.Exchanges x single) {accepts : Char → Bool}
    (h : ∀ d, accepts d = true → single d = true) (hrest : x.Rest s s') :
    g.Alike x (g.matchExpr (.char accepts) l s) (g.matchExpr (.char accepts) l s') := by
  have hstop : ∀ z : List Char, (∀ c ∈ z.head?, single c = false) →
      g.matchExpr (.char accepts) l z = none := by
    intro z hz
    cases z with
    | nil => rfl
    | cons c z =>
        refine if_neg fun hc => ?_
        cases (hz c rfl).symm.trans (h c hc)
  cases hrest with
  | behind hu =>
      cases s with
      | nil => exact .none
      | cons c s =>
          show g.Alike x (if accepts c = true then _ else _) (if accepts c = true then _ else _)
          split
          · exact .some (.behind ((List.suffix_cons c s).trans hu)) rfl
          · exact .none
  | @front y hy =>
      cases y with
      | nil => rw [hstop _ hx.source_head, hstop _ hx.target_head]; exact .none
      | cons c y =>
          show g.Alike x (if accepts c = true then _ else _) (if accepts c = true then _ else _)
          split
          · next hc => exact .some (.front (hx.next hy (h c hc))) rfl
          · exact .none

variable {a b : Expr R}

theorem Alike.both (ha : g.Alike x (g.matchExpr a l s) (g.matchExpr a l s'))
    (hb : ∀ u f u', g.matchExpr a l s = .some (u, f) → x.Rest u u' →
      g.Alike x (g.matchExpr b l (g.between l u)) (g.matchExpr b l (g.between l u'))) :
    g.Alike x (g.matchExpr (.both a b) l s) (g.matchExpr (.both a b) l s') := by
  obtain ⟨hs, hs'⟩ | ⟨u, f, u', f', hs, hs', hrest, hnames⟩ := ha.elim
  · rw [matchExpr_both_none hs, matchExpr_both_none hs']
    exact .none
  · obtain ⟨ht, ht'⟩ | ⟨t, h, t', h', ht, ht', hrest', hnames'⟩ := (hb u f u' hs hrest).elim
    · rw [matchExpr_both_none_right hs ht, matchExpr_both_none_right hs' ht']
      exact .none
    · rw [matchExpr_both hs ht, matchExpr_both hs' ht']
      exact .some hrest' (by rw [names_append, names_append, hnames, hnames'])

theorem Alike.either (ha : g.Alike x (g.matchExpr a l s) (g.matchExpr a l s'))
    (hb : g.Alike x (g.matchExpr b l s) (g.matchExpr b l s')) :
    g.Alike x (g.matchExpr (.either a b) l s) (g.matchExpr (.either a b) l s') := by
  obtain ⟨hs, hs'⟩ | ⟨u, f, u', f', hs, hs', hrest, hnames⟩ := ha.elim
  · rwa [matchExpr_right hs, matchExpr_right hs']
  · rw [matchExpr_left hs, matchExpr_left hs']
    exact .some hrest hnames

theorem Alike.opt (h : x.Rest s s') (ha : g.Alike x (g.matchExpr a l s) (g.matchExpr a l s')) :
    g.Alike x (g.matchExpr (.opt a) l s) (g.matchExpr (.opt a) l s') := by
  obtain ⟨hs, hs'⟩ | ⟨u, f, u', f', hs, hs', hrest, hnames⟩ := ha.elim
  · rw [matchExpr_opt_none hs, matchExpr_opt_none hs']
    exact .some h rfl
  · rw [matchExpr_opt hs, matchExpr_opt hs']
    exact .some hrest hnames

/-- The rounds are alike if each of them takes something and is alike on what is left. -/
theorem Alike.star (h : x.Rest s s')
    (ha : g.Alike x (g.matchExpr a l s) (g.matchExpr a l s'))
    (hsuffix : ∀ u f, g.matchExpr a l s = .some (u, f) → u <:+ s)
    (hlt : ∀ t u f, g.matchExpr a l (g.between l t) = .some (u, f) → u.length < t.length)
    (hround : ∀ t t', t.length ≤ s.length → x.Rest t t' →
      g.Alike x (g.matchExpr a l (g.between l t)) (g.matchExpr a l (g.between l t'))) :
    g.Alike x (g.matchExpr (.star a) l s) (g.matchExpr (.star a) l s') := by
  obtain ⟨hs, hs'⟩ | ⟨u, f, u', f', hs, hs', hrest, hnames⟩ := ha.elim
  · rw [matchExpr, eval_star_eq_some.2 (.inl ⟨hs, rfl, rfl⟩),
      eval_star_eq_some.2 (.inl ⟨hs', rfl, rfl⟩)]
    exact .some h rfl
  · have hu := (hsuffix u f hs).length_le
    -- The loops are bounded by their own texts, which is enough for either.
    obtain ⟨hmany, hmore⟩ :=
      many_alike (g := g) hlt hround (Nat.le_refl _) (Nat.le_refl _) hu hrest
    rw [matchExpr, eval_star_eq_some.2 (.inr ⟨u, f, _, hs, Prod.eta _, rfl⟩),
      eval_star_eq_some.2 (.inr ⟨u', f', _, hs', Prod.eta _, rfl⟩)]
    exact .some hmany (by rw [names_append, names_append, hnames]; exact congrArg _ hmore)

theorem Alike.ahead (h : x.Rest s s') (ha : g.Alike x (g.matchExpr a l s) (g.matchExpr a l s')) :
    g.Alike x (g.matchExpr (.ahead a) l s) (g.matchExpr (.ahead a) l s') := by
  obtain ⟨hs, hs'⟩ | ⟨u, f, u', f', hs, hs', -, -⟩ := ha.elim
  · rw [matchExpr] at hs hs'
    rw [matchExpr, eval, eval, hs, hs']
    exact .none
  · rw [matchExpr] at hs hs'
    rw [matchExpr, eval, eval, hs, hs']
    exact .some h rfl

theorem Alike.notAhead (h : x.Rest s s')
    (ha : g.Alike x (g.matchExpr a l s) (g.matchExpr a l s')) :
    g.Alike x (g.matchExpr (.notAhead a) l s) (g.matchExpr (.notAhead a) l s') := by
  obtain ⟨hs, hs'⟩ | ⟨u, f, u', f', hs, hs', -, -⟩ := ha.elim
  · rw [matchExpr_notAhead hs, matchExpr_notAhead hs']
    exact .some h rfl
  · rw [matchExpr_notAhead_none hs, matchExpr_notAhead_none hs']
    exact .none

/-- An expression that reads single characters is matched alike, if the rules are that it
calls. -/
theorem matchExpr_alike (hx : g.Exchanges x single)
    (he : e.Steady single g.consuming ok) (h : x.Rest s s')
    (hbehind : ∀ r l t t', ok r = true → t.length < s.length → x.Rest t t' →
      g.Alike x (g.matchRule r l t) (g.matchRule r l t'))
    (hleading : ∀ r ∈ e.leading g.consuming, ∀ l t t', ok r = true → t.length ≤ s.length →
      x.Rest t t' → g.Alike x (g.matchRule r l t) (g.matchRule r l t')) :
    g.Alike x (g.matchExpr e l s) (g.matchExpr e l s') := by
  have hgap : ∀ t, (g.between l t).length ≤ t.length :=
    fun t => (gap_suffix (Trivia.skip_suffix hx.ranked.lawful) l t).length_le
  induction e generalizing s s' with
  | text word => exact .map_nil (h.after? hx.next hx.source_head hx.target_head he)
  | char accepts => exact matchExpr_char_alike hx he h
  | rule r => exact hleading r (by simp [Expr.leading]) l s s' he (Nat.le_refl _) h
  | both a b iha ihb =>
      simp only [Expr.leading, List.mem_append] at hleading
      refine .both (iha he.1 h hbehind fun r hr => hleading r (.inl hr)) fun u f u' hs hrest => ?_
      have hu := (matchExpr_suffix hx.ranked hs).length_le
      have hbetween := hgap u
      refine ihb he.2 (hx.between hrest) (fun r l' t t' hr ht => ?_) fun r hr l' t t' hok ht => ?_
      · exact hbehind r l' t t' hr (by omega)
      · -- A rule that `b` begins with is one of the whole only if `a` may take nothing.
        by_cases hca : a.consumes g.consuming = true
        · have := matchExpr_lt hx.ranked hca hs
          exact hbehind r l' t t' hok (by omega)
        · exact hleading r (.inr (by rwa [if_neg hca])) l' t t' hok (by omega)
  | either a b iha ihb =>
      simp only [Expr.leading, List.mem_append] at hleading
      exact .either (iha he.1 h hbehind fun r hr => hleading r (.inl hr))
        (ihb he.2 h hbehind fun r hr => hleading r (.inr hr))
  | opt a iha => exact .opt h (iha he h hbehind hleading)
  | star a iha =>
      refine .star h (iha he.2 h hbehind hleading) (fun u f hu => matchExpr_suffix hx.ranked hu)
        (fun t u f hu => ?_) fun t t' ht hrest => ?_
      · exact Nat.lt_of_lt_of_le (matchExpr_lt hx.ranked he.1 hu) (hgap t)
      · have hbetween := hgap t
        exact iha he.2 (hx.between hrest) (fun r l' u u' hr hu => hbehind r l' u u' hr (by omega))
          fun r hr l' u u' hok hu => hleading r hr l' u u' hok (by omega)
  | ahead a iha => exact .ahead h (iha he h hbehind hleading)
  | notAhead a iha => exact .notAhead h (iha he h hbehind hleading)

theorem names_record (inner : Forest R) :
    g.names (g.record r l s t inner) =
      if (l.around (g.layout r)).records = true then
        match g.role r with
        | .name => [Forest.taken s t]
        | .transparent => g.names inner
        | _ => []
      else [] := by
  rw [record]
  split
  · rw [names, names, List.append_nil]
  · rfl

/-- A name does not reach over the piece, so it is the same with either. -/
theorem taken_alike (hx : g.Exchanges x single) (hname : g.NameIsClear x r)
    (hrole : g.role r = .name) (hmatch : g.matchRule r l s = some (t, f)) (hs : x.Rest s s')
    (ht : x.Rest t t') :
    Forest.taken s t = Forest.taken s' t' := by
  obtain ⟨w, hw⟩ := (matchRule_rest hx.ranked hmatch).1
  cases ht with
  | @front y' hy' =>
      cases hs with
      | behind hu =>
          rw [Exchange.Rest.eq_of_behind hx.old_ne (.front hy')
            ((List.suffix_append w _).trans (hw ▸ hu))]
      | @front y hy =>
          obtain rfl : w ++ y' = y := Exchange.append_source hw
          rw [Exchange.source, Exchange.target, List.append_assoc, List.append_assoc]
          exact (Forest.taken_append w _).trans (Forest.taken_append w _).symm
  | behind hu =>
      cases hs with
      | behind hu' => rfl
      | @front y hy =>
          obtain ⟨v, hv⟩ := hu
          refine absurd ?_ (hname hrole _ _ _ _ _ hmatch hw.symm)
          have htail : (y ++ x.old ++ v) ++ t = w ++ t := by
            rw [hw, Exchange.source, ← hv]
            simp only [List.append_assoc]
          exact ⟨y, v, List.append_cancel_right htail⟩

/-- A rule is matched alike if its body is. -/
theorem Alike.rule (hx : g.Exchanges x single) (hname : g.NameIsClear x r) (hs : x.Rest s s')
    (h : g.Alike x (g.matchExpr (g.body r) (l.inside (g.layout r)) s)
      (g.matchExpr (g.body r) (l.inside (g.layout r)) s')) :
    g.Alike x (g.matchRule r l s) (g.matchRule r l s') := by
  obtain ⟨hnone, hnone'⟩ | ⟨t, f, t', f', hbody, hbody', hrest, hnames⟩ := h.elim
  · rw [matchRule_none hx.ranked hnone, matchRule_none hx.ranked hnone']
    exact .none
  · have hmatch := (matchRule_eq_some_iff hx.ranked).2 ⟨f, hbody, rfl⟩
    have hmatch' := (matchRule_eq_some_iff hx.ranked).2 ⟨f', hbody', rfl⟩
    rw [hmatch, hmatch']
    refine .some hrest ?_
    rw [names_record, names_record]
    split
    · cases hrole : g.role r with
      | name => simp only [taken_alike hx hname hrole hmatch hs hrest]
      | transparent => exact hnames
      | node _ | fallbackName | body | hidden => rfl
    · rfl

/-- Rules are matched alike whose bodies read single characters and call such rules, or that
are known to be. -/
theorem matchRule_alike (hx : g.Exchanges x single)
    (hok : ∀ r, ok r = true →
      (∀ l s s', x.Rest s s' → g.Alike x (g.matchRule r l s) (g.matchRule r l s')) ∨
        (g.body r).Steady single g.consuming ok)
    (hname : ∀ r, ok r = true → g.NameIsClear x r) (hr : ok r = true) (h : x.Rest s s') :
    g.Alike x (g.matchRule r l s) (g.matchRule r l s') := by
  generalize hn : g.need r s = n
  induction n using Nat.strongRecOn generalizing r l s s' with
  | ind n ih =>
      rcases hok r hr with hleaf | hbody
      · exact hleaf l s s' h
      · refine .rule hx (hname r hr) h (matchExpr_alike hx hbody h ?_ ?_)
        · intro r' l' t t' hr' ht hrest
          exact ih _ (hn ▸ need_lt_of_length_lt hx.ranked r r' ht) hr' hrest rfl
        · intro r' hleading l' t t' hr' ht hrest
          exact ih _ (hn ▸ need_lt_of_rank_lt (hx.ranked.leading r r' hleading) ht) hr' hrest rfl

end SnippetGrammar

end FeatureTree
