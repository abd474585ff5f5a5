import FeatureTree.Proofs.Declarators.Values

/-!
# Tokens inside an initializer

A declarator behind a comma that the boundary does not see is read as more of the initializer.
Its tokens are passed over then: signs and words by their characters, groups and declarators
in parentheses as a whole. Inside of parentheses it is a repetition of pieces that passes over
them and not one of rounds, so what is said of a token is said of all repetitions that take
pieces (`TakesPieces`).
-/

namespace FeatureTree

open scoped Tokens

namespace SnippetGrammar

open Grammar

variable {R : Type} {g : SnippetGrammar R} {isWordChar : Char → Bool} {group : Bracket → R}
  {piece boundary initPiece : R} {literals : List R} {e : Expr R} {b : Bracket}
  {tokens tokens' inner rest : List (List Char)} {token gap s t v w : List Char} {c : Char}

/-- Where no initializer may end, the expression takes a piece. -/
structure TakesPieces (g : SnippetGrammar R) (piece : R) (e : Expr R) : Prop where
  consumes : e.consumes g.consuming = true
  takes : ∀ {c} s, c ∉ [',', ';'] → g.leaves e (c :: s) = g.leaves (.rule piece) (c :: s)

/-- In front of the rest, pieces are taken to the end of the tokens. -/
def PassesOver (g : SnippetGrammar R) (isWordChar : Char → Bool) (piece : R)
    (tokens rest : List (List Char)) : Prop :=
  ∀ ⦃s⦄, Spelled isWordChar (tokens ++ rest) s → ∃ t, Spelled isWordChar rest t ∧
    ∀ ⦃e⦄, g.TakesPieces piece e → g.leaves (.star e) s = g.leaves (.star e) t

/-- The text is a group, whatever follows it. -/
def IsGroup (g : SnippetGrammar R) (group : Bracket → R) (b : Bracket) (w : List Char) : Prop :=
  (∃ v, w = b.opener :: v) ∧ ∀ t, g.leaves (.rule (group b)) (w ++ t) = some t

theorem passesOver_nil : g.PassesOver isWordChar piece [] rest :=
  fun s hs => ⟨s, hs, fun _ _ => rfl⟩

theorem PassesOver.append (h : g.PassesOver isWordChar piece tokens (tokens' ++ rest))
    (h' : g.PassesOver isWordChar piece tokens' rest) :
    g.PassesOver isWordChar piece (tokens ++ tokens') rest := by
  intro s hs
  rw [List.append_assoc] at hs
  obtain ⟨t, ht, hpass⟩ := h hs
  obtain ⟨u, hu, hpass'⟩ := h' ht
  exact ⟨u, hu, fun e he => (hpass he).trans (hpass' he)⟩

/-- In front of the tokens no literal goes on. -/
def CalmTokens (isWordChar : Char → Bool) (tokens : List (List Char)) : Prop :=
  ∀ ⦃s⦄, Spelled isWordChar tokens s → IsCalm s

theorem calmTokens_cons (hne : token ≠ []) (htoken : IsCalm token) :
    CalmTokens isWordChar (token :: rest) := by
  intro s hs c hc hmem
  have hspace : ∀ c ∈ ['"', '\'', '8', '$', '@'], c ∉ Text.spaces := by decide
  refine hs.head_ne hne (hspace c hmem) (fun d hd heq => ?_) c hc rfl
  exact htoken d hd (heq ▸ hmem)

/-- The tokens are passed over where no literal goes on behind them, and then none goes on in front
of them. -/
def Skims (g : SnippetGrammar R) (isWordChar : Char → Bool) (piece : R)
    (tokens : List (List Char)) : Prop :=
  ∀ ⦃rest⦄, CalmTokens isWordChar rest →
    g.PassesOver isWordChar piece tokens rest ∧ CalmTokens isWordChar (tokens ++ rest)

theorem skims_nil : g.Skims isWordChar piece [] := fun _ hrest => ⟨passesOver_nil, hrest⟩

theorem Skims.append (h : g.Skims isWordChar piece tokens) (h' : g.Skims isWordChar piece tokens') :
    g.Skims isWordChar piece (tokens ++ tokens') := by
  intro rest hrest
  obtain ⟨hpasses', hcalm'⟩ := h' hrest
  obtain ⟨hpasses, hcalm⟩ := h hcalm'
  exact ⟨hpasses.append hpasses', by rwa [List.append_assoc]⟩

theorem Skims.flatMap {α : Type} {f : α → List (List Char)} {xs : List α}
    (h : ∀ x ∈ xs, g.Skims isWordChar piece (f x)) : g.Skims isWordChar piece (xs.flatMap f) := by
  induction xs with
  | nil => exact skims_nil
  | cons x xs ih =>
      obtain ⟨hx, hxs⟩ := List.forall_mem_cons.1 h
      exact hx.append (ih hxs)

namespace ReadsValues

variable (hr : g.ReadsValues group piece literals boundary initPiece)

include hr

theorem takesPieces_piece : g.TakesPieces piece (.rule piece) := ⟨hr.consumes_piece, fun _ _ => rfl⟩

theorem takesPieces_round : g.TakesPieces piece (initializerRound boundary initPiece) :=
  ⟨hr.consumes_round, fun s hc => hr.leaves_round hc s⟩

theorem leaves_star_sign (he : g.TakesPieces piece e) (hc : c ∈ quietSigns)
    (hplain : isPlain c = true) (hfree : c ∉ [',', ';']) (s : List Char) :
    g.leaves (.star e) (c :: s) = g.leaves (.star e) s := by
  refine leaves_star_of_some hr.ranked he.consumes ?_
  rw [he.takes s hfree, hr.leaves_piece_sign hc, if_pos hplain]

theorem leaves_star_gap (he : g.TakesPieces piece e) (hgap : ∀ c ∈ gap, c ∈ Text.spaces)
    (s : List Char) : g.leaves (.star e) (gap ++ s) = g.leaves (.star e) s := by
  have hspaces : ∀ c ∈ Text.spaces, c ∈ quietSigns ∧ isPlain c = true ∧ c ∉ [',', ';'] := by
    decide
  induction gap with
  | nil => rfl
  | cons c gap ih =>
      obtain ⟨hc, hplain, hfree⟩ := hspaces c (hgap c List.mem_cons_self)
      rw [List.cons_append, hr.leaves_star_sign he hc hplain hfree]
      exact ih fun d hd => hgap d (List.mem_cons_of_mem c hd)

/-- Blanks in front of the next token are passed over. -/
theorem leaves_star_between (hg : g.Spaced) (he : g.TakesPieces piece e) (htoken : IsToken token)
    (hs : Spelled isWordChar (token :: rest) s) :
    g.leaves (.star e) s = g.leaves (.star e) (g.between .spaced s) := by
  cases hs with
  | @cons gap _ t _ hgap _ _ =>
      rw [hr.leaves_star_gap he hgap, between_gap hg hgap htoken.head]

theorem passes_sign (hc : c ∈ ['=', '*']) : g.PassesOver isWordChar piece [[c]] rest := by
  have hsigns : ∀ c ∈ ['=', '*'], c ∈ quietSigns ∧ isPlain c = true ∧ c ∉ [',', ';'] := by decide
  obtain ⟨hquiet, hplain, hfree⟩ := hsigns c hc
  intro s hs
  cases hs with
  | @cons gap _ t _ hgap _ ht =>
      refine ⟨t, ht, fun e he => ?_⟩
      rw [hr.leaves_star_gap he hgap]
      exact hr.leaves_star_sign he hquiet hplain hfree t

/-- Text without quotes and slashes is passed over where no literal goes on behind it. -/
theorem passes_clear (hw : Balanced false w) (hclear : IsClear w)
    (hrest : CalmTokens isWordChar rest) : g.PassesOver isWordChar piece [w] rest := by
  intro s hs
  cases hs with
  | @cons gap _ t _ hgap _ ht =>
      refine ⟨t, ht, fun e he => ?_⟩
      rw [hr.leaves_star_gap he hgap]
      refine hr.leaves_pieces hw hclear (hrest ht) he.consumes ?_
      rintro c s (hinside | hfree)
      · cases hinside
      · exact he.takes s hfree

theorem passes_group (hw : g.IsGroup group b w) : g.PassesOver isWordChar piece [w] rest := by
  obtain ⟨⟨v, rfl⟩, hgroup⟩ := hw
  intro s hs
  cases hs with
  | @cons gap _ t _ hgap _ ht =>
      refine ⟨t, ht, fun e he => ?_⟩
      have hopener : b.opener ∉ [',', ';'] := by cases b <;> decide
      have hpiece : g.leaves e (b.opener :: (v ++ t)) = some t := by
        rw [he.takes _ hopener, hr.leaves_piece_opener]
        exact hgroup t
      rw [hr.leaves_star_gap he hgap]
      exact leaves_star_of_some hr.ranked he.consumes hpiece

/-- Balanced text without quotes and slashes is a group between brackets. -/
theorem isGroup_of_balanced (b : Bracket) (hv : Balanced true v) (hclear : IsClear v) :
    g.IsGroup group b (b.opener :: (v ++ [b.closer])) := by
  refine ⟨⟨_, rfl⟩, fun t => ?_⟩
  have hinner : g.leaves (.star (.rule piece)) (v ++ b.closer :: t) = some (b.closer :: t) := by
    rw [hr.leaves_pieces hv hclear (isCalm_closer b t) hr.consumes_piece fun _ _ _ => rfl]
    exact leaves_star_of_none hr.ranked hr.consumes_piece (hr.leaves_piece_closer b t)
  rw [List.cons_append, List.append_assoc, hr.leaves_group]
  show (g.leaves (.star (.rule piece)) (v ++ b.closer :: t)).bind _ = _
  rw [hinner]
  exact if_pos rfl

/-- Tokens between parentheses are passed over as one group. -/
theorem passes_parens (hg : g.Spaced) (h : g.PassesOver isWordChar piece inner ([')'] :: rest)) :
    g.PassesOver isWordChar piece (['('] :: (inner ++ [[')']])) rest := by
  intro s hs
  rw [List.cons_append, List.append_assoc] at hs
  cases hs with
  | @cons gap _ z _ hgap _ hz =>
      obtain ⟨y, hy, hpass⟩ := h hz
      have htoken : IsToken [')'] := ⟨')', [], rfl, by decide⟩
      obtain ⟨t, ht, hrest, -⟩ := hy.between hg htoken
      have hinner : g.leaves (.star (.rule piece)) z = some (')' :: t) := by
        rw [hpass hr.takesPieces_piece,
          hr.leaves_star_between hg hr.takesPieces_piece htoken hy, ht]
        exact leaves_star_of_none hr.ranked hr.consumes_piece (hr.leaves_piece_closer .paren t)
      have hgroup : g.leaves (.rule (group .paren)) ('(' :: z) = some t := by
        rw [show '(' = Bracket.paren.opener from rfl, hr.leaves_group, hinner]
        rfl
      refine ⟨t, hrest, fun e he => ?_⟩
      have hpiece : g.leaves e ('(' :: z) = some t := by
        rw [he.takes z (by decide)]
        exact (hr.leaves_piece_opener .paren z).trans hgroup
      rw [hr.leaves_star_gap he hgap]
      exact leaves_star_of_some hr.ranked he.consumes hpiece

theorem skims_clear (hne : w ≠ []) (hcalm : IsCalm w) (hw : Balanced false w) (hclear : IsClear w) :
    g.Skims isWordChar piece [w] :=
  fun _ hrest => ⟨hr.passes_clear hw hclear hrest, calmTokens_cons hne hcalm⟩

theorem skims_group (hw : g.IsGroup group b w) : g.Skims isWordChar piece [w] := by
  have hpasses : ∀ rest, g.PassesOver isWordChar piece [w] rest := fun _ => hr.passes_group hw
  obtain ⟨⟨v, rfl⟩, -⟩ := hw
  refine fun rest _ => ⟨hpasses rest, calmTokens_cons (List.cons_ne_nil _ v) ?_⟩
  rintro _ ⟨⟩
  cases b <;> decide

theorem skims_parens (hg : g.Spaced) (h : g.Skims isWordChar piece inner) :
    g.Skims isWordChar piece (['('] :: (inner ++ [[')']])) := by
  intro rest _
  obtain ⟨hpasses, -⟩ := h (calmTokens_cons (List.cons_ne_nil ')' []) (isCalm_closer .paren []))
  refine ⟨hr.passes_parens hg hpasses, calmTokens_cons (List.cons_ne_nil '(' []) ?_⟩
  rintro _ ⟨⟩
  decide

end ReadsValues

end SnippetGrammar

end FeatureTree
