import FeatureTree.Proofs.Exchange.Initializers
import FeatureTree.Node.OfForest
import FeatureTree.Proofs.Grammar.Contributions

/-!
# Lists of declarators with one piece for another

Which rounds a list of declarators has depends on where its initializers end, so a list is
matched with either piece alike only if each initializer is seen to end where it did (`Keeps`).
One declarator is carried over first (`Carries`), which needs to know that a comma or a
semicolon stands behind it; the list then by induction on its rounds, from the front, where
that sign is the beginning of the next round or the semicolon at the end.

The records themselves differ, since they hold the texts with the pieces in them. What agrees
is what is read off: the names of the variables and the texts of their initializers (`views`).
-/

namespace FeatureTree

namespace SnippetGrammar

open Grammar

variable {R : Type} {g : SnippetGrammar R} {x : Exchange} {single : Char → Bool} {a b e : Expr R}
  {r init declarator boundary piece : R} {s s' t t' u z word : List Char}
  {f f' : Forest R} {c : Char}

/-! ## Variables in a sequence of records -/

/-- Where implementation texts are recorded, looking through rules that are looked through. -/
def bodies (g : SnippetGrammar R) : Forest R → List (List Char × List Char)
  | .nil => []
  | .cons r before after inner next =>
    (match g.role r with
      | .body => [(before, after)]
      | .transparent => g.bodies inner
      | _ => []) ++ g.bodies next

/-- What variables are recorded, each with its text and the records inside it. -/
def declared (g : SnippetGrammar R) : Forest R → List (List Char × List Char × Forest R)
  | .nil => []
  | .cons r before after inner next =>
    (match g.role r with
      | .node .variable => [(before, after, inner)]
      | .transparent => g.declared inner
      | _ => []) ++ g.declared next

@[simp] theorem bodies_append (f f' : Forest R) :
    g.bodies (f ++ f') = g.bodies f ++ g.bodies f' := by
  induction f with
  | nil => rfl
  | cons r before after inner next _ ih => simp [bodies, ih]

@[simp] theorem declared_append (f f' : Forest R) :
    g.declared (f ++ f') = g.declared f ++ g.declared f' := by
  induction f with
  | nil => rfl
  | cons r before after inner next _ ih => simp [declared, ih]

theorem bodies_eq_nil (h : .body ∉ g.contributions f) : g.bodies f = [] := by
  induction f with
  | nil => rfl
  | cons r before after inner next ihInner ihNext =>
      rw [contributions, List.mem_append, not_or] at h
      rw [bodies, ihNext h.2, List.append_nil]
      cases hrole : g.role r with
      | body => simp [hrole] at h
      | transparent => exact ihInner (by simpa [hrole] using h.1)
      | node _ | name | fallbackName | hidden => rfl

theorem declared_eq_nil (h : .child .variable ∉ g.contributions f) : g.declared f = [] := by
  induction f with
  | nil => rfl
  | cons r before after inner next ihInner ihNext =>
      rw [contributions, List.mem_append, not_or] at h
      rw [declared, ihNext h.2, List.append_nil]
      cases hrole : g.role r with
      | node kind =>
          cases kind with
          | «variable» => simp [hrole] at h
          | _ => rfl
      | transparent => exact ihInner (by simpa [hrole] using h.1)
      | body | name | fallbackName | hidden => rfl

/-- Read off the expression, its matches contribute names only. -/
def namesOnly (g : SnippetGrammar R) (summary : R → Summary) (e : Expr R) : Bool :=
  (e.track (fun r => (g.summaryOf summary r).track (Summary.many [.name, .fallback]).tracker)
    [false]).isSome

variable {summary : R → Summary}

theorem contributions_of_namesOnly (hg : g.Summarized summary) (he : g.namesOnly summary e = true)
    (h : g.matchExpr e .spaced s = some (t, f)) :
    ∀ c ∈ g.contributions f, c ∈ [Contribution.name, .fallback] := by
  obtain ⟨qs, hqs⟩ := Option.isSome_iff_exists.1 he
  have hcall : ∀ r s s' f qs qs', g.matchRule r .spaced s = some (s', f) →
      (g.summaryOf summary r).track (Summary.many [.name, .fallback]).tracker qs = some qs' →
      (Summary.many [.name, .fallback]).tracker.Leads qs (g.contributions f) qs' :=
    fun r s s' f qs qs' hf hqs => Summary.leads_of_accepts (run_accepts hg hf) hqs
  obtain ⟨q, -, hq⟩ := eval_leads hcall hqs h false (List.mem_singleton.2 rfl)
  exact Summary.allowed_of_foldlM_many hq

theorem bodies_of_namesOnly (hg : g.Summarized summary) (he : g.namesOnly summary e = true)
    (h : g.matchExpr e .spaced s = some (t, f)) : g.bodies f = [] :=
  bodies_eq_nil fun hmem => absurd (contributions_of_namesOnly hg he h _ hmem) (by decide)

theorem declared_of_namesOnly (hg : g.Summarized summary) (he : g.namesOnly summary e = true)
    (h : g.matchExpr e .spaced s = some (t, f)) : g.declared f = [] :=
  declared_eq_nil fun hmem => absurd (contributions_of_namesOnly hg he h _ hmem) (by decide)

/-- The text of a match, without blanks and comments at its end. -/
def textOf (g : SnippetGrammar R) (taken : List Char × List Char) : List Char :=
  g.trivia.trim (Forest.taken taken.1 taken.2)

/-- The name and the initializer of a variable. -/
def view (g : SnippetGrammar R) (inner : Forest R) : Option (List Char) × Option (List Char) :=
  ((g.names inner).head?, (g.bodies inner).head?.map g.textOf)

/-- The names and initializers of the variables. -/
def views (g : SnippetGrammar R) (f : Forest R) : List (Option (List Char) × Option (List Char)) :=
  (g.declared f).map fun d => g.view d.2.2

@[simp] theorem views_append (f f' : Forest R) : g.views (f ++ f') = g.views f ++ g.views f' := by
  simp [views]

/-- With the new piece in place the initializer ends where it ended, and it has the same text. -/
structure Keeps (g : SnippetGrammar R) (x : Exchange) (boundary : R)
    (body : List Char × List Char) : Prop where
  ends : ∀ t', x.Rest body.2 t' → g.AtEnd boundary body.2 → g.AtEnd boundary t'
  text : ∀ s' t', x.Rest body.1 s' → x.Rest body.2 t' → g.textOf body = g.textOf (s', t')

/-- All initializers of the variables are kept. -/
def KeepsAll (g : SnippetGrammar R) (x : Exchange) (boundary : R) (f : Forest R) : Prop :=
  ∀ d ∈ g.declared f, ∀ m ∈ (g.bodies d.2.2).head?, g.Keeps x boundary m

theorem keepsAll_append :
    g.KeepsAll x boundary (f ++ f') ↔ g.KeepsAll x boundary f ∧ g.KeepsAll x boundary f' := by
  simp only [KeepsAll, declared_append, List.forall_mem_append]

/-- A comma or a semicolon stands there. -/
def Separated (g : SnippetGrammar R) (t : List Char) : Prop :=
  ∃ c z, g.between .spaced t = c :: z ∧ (c = ',' ∨ c = ';')

/-- Where variables are declared, the expression is matched with the new piece as it is with the
old one: the variables have the same names and initializers, if these can be kept. -/
def CarriesViews (g : SnippetGrammar R) (x : Exchange) (boundary : R) (e : Expr R) : Prop :=
  ∀ ⦃s s' t f⦄, x.Rest s s' → g.between .spaced s = s → g.between .spaced s' = s' →
    g.matchExpr e .spaced s = some (t, f) → g.declared f ≠ [] → g.KeepsAll x boundary f →
    ∃ t' f', g.matchExpr e .spaced s' = some (t', f') ∧ x.Rest t t' ∧ g.views f = g.views f'

/-! ## One declarator -/

/-- The lists of declarators of a grammar: what a declarator can be given a value by, and that the
signs between are read as single characters. -/
structure ExchangesDeclarators (g : SnippetGrammar R) (x : Exchange) (single : Char → Bool)
    (boundary piece init declarator : R) : Prop extends g.Exchanges x single where
  initializers : g.ExchangesInitializers x boundary piece
  layout_init : g.layout init = .token
  role_init : g.role init = .body
  body_init : g.body init = .plus (initializerRound boundary piece)
  layout_declarator : g.layout declarator = .spaced
  role_declarator : g.role declarator = .node .variable
  consumes : g.consuming declarator = true
  signs : ∀ c ∈ ['=', ',', ';'], single c = true

/-- A part of a declarator is matched with the new piece as it is with the old one, in front of
a comma or a semicolon: it has the same names and initializers, if these can be kept. -/
def Carries (g : SnippetGrammar R) (x : Exchange) (boundary : R) (e : Expr R) : Prop :=
  ∀ ⦃s s' t f⦄, x.Rest s s' → g.between .spaced s = s → g.between .spaced s' = s' →
    g.matchExpr e .spaced s = some (t, f) → g.Separated t →
    (∀ m ∈ (g.bodies f).head?, g.Keeps x boundary m) →
    ∃ t' f', g.matchExpr e .spaced s' = some (t', f') ∧ x.Rest t t' ∧
      g.names f = g.names f' ∧ (g.bodies f).map g.textOf = (g.bodies f').map g.textOf

theorem Exchanges.head (hx : g.Exchanges x single) (hrest : x.Rest (c :: z) s')
    (hc : single c = true) : ∃ z', s' = c :: z' ∧ x.Rest z z' := by
  generalize hs : c :: z = s at hrest
  cases hrest with
  | behind hu => exact ⟨z, hs.symm, .behind ((List.suffix_cons c z).trans (hs ▸ hu))⟩
  | @front y hy =>
      cases y with
      | nil =>
          have hfalse := hx.source_head c (by rw [← hs]; rfl)
          rw [hc] at hfalse
          cases hfalse
      | cons d y =>
          obtain ⟨rfl, rfl⟩ := List.cons.inj hs
          exact ⟨x.target y, rfl, .front (hx.next hy hc)⟩

/-- One more declarator, behind its comma. -/
def more (declarator : R) : Expr R := .seq [",", .rule declarator]

/-- In front of each round there is a comma. -/
theorem separated_of_rounds (h : g.Rounds (more declarator) .spaced s t f) (ht : g.Separated t) :
    g.Separated s := by
  cases h with
  | none => exact ht
  | more hround _ =>
      obtain ⟨u, _, _, hsign, -⟩ := matchExpr_both_iff.1 hround
      exact ⟨',', u, (matchExpr_text_iff.1 hsign).1, .inl rfl⟩

namespace ExchangesDeclarators

variable (hx : g.ExchangesDeclarators x single boundary piece init declarator)

include hx

theorem carries_both
    (ha : ∀ ⦃s s'⦄, x.Rest s s' → g.Alike x (g.matchExpr a .spaced s) (g.matchExpr a .spaced s'))
    (hquiet : ∀ ⦃s t f⦄, g.matchExpr a .spaced s = some (t, f) → g.bodies f = [])
    (hb : g.Carries x boundary b) : g.Carries x boundary (.both a b) := by
  intro s s' t f hrest hs hs' hmatch hsep hkeeps
  obtain ⟨u, f₁, f₂, hmatcha, hmatchb, rfl⟩ := matchExpr_both_iff.1 hmatch
  obtain ⟨hnone, -⟩ | ⟨v, h₁, u', f₁', hv, hmatcha', hrest', hnames⟩ := (ha hrest).elim
  · rw [hmatcha] at hnone
    cases hnone
  · rw [hmatcha] at hv
    cases hv
    have hbodies := hquiet hmatcha
    rw [bodies_append, hbodies, List.nil_append] at hkeeps
    obtain ⟨t', f₂', hmatchb', hrest'', hnames', htexts⟩ :=
      hb (hx.between hrest') (between_between hx.ranked) (between_between hx.ranked) hmatchb hsep
        hkeeps
    refine ⟨t', f₁' ++ f₂', matchExpr_both hmatcha' hmatchb', hrest'', ?_, ?_⟩
    · rw [names_append, names_append, hnames, hnames']
    · rw [bodies_append, bodies_append, hbodies, hquiet hmatcha', List.nil_append,
        List.nil_append, htexts]

theorem carries_init : g.Carries x boundary (.rule init) := by
  intro s s' t f hrest hs hs' hmatch hsep hkeeps
  obtain ⟨inner, hbody, rfl⟩ := (matchRule_eq_some_iff hx.ranked).1 hmatch
  have hrecords : (Layout.spaced.around (g.layout init)).records = true := by
    rw [hx.layout_init]
    rfl
  have hinside : Layout.spaced.inside (g.layout init) = .token := by
    rw [hx.layout_init]
    rfl
  have hbodies : ∀ s t inner, g.bodies (g.record init .spaced s t inner) = [(s, t)] := by
    intro s t inner
    rw [record, if_pos hrecords, bodies, hx.role_init]
    rfl
  have hkept : g.Keeps x boundary (s, t) := hkeeps _ (by rw [hbodies]; rfl)
  rw [hinside, hx.body_init] at hbody
  obtain ⟨t', hleaves, hrest'⟩ := hx.initializers.leaves_initializer hrest
    (leaves_eq_some_iff.2 ⟨inner, hbody⟩) hkept.ends
  obtain ⟨inner', hbody'⟩ := leaves_eq_some_iff.1 hleaves
  have hmatch' : g.matchExpr (.rule init) .spaced s' =
      some (t', g.record init .spaced s' t' inner') :=
    (matchRule_eq_some_iff hx.ranked).2 ⟨inner', by rwa [hinside, hx.body_init], rfl⟩
  refine ⟨t', _, hmatch', hrest', ?_, ?_⟩
  · rw [names_record, names_record, hx.role_init]
  · rw [hbodies, hbodies, List.map_singleton, List.map_singleton, hkept.text _ _ hrest hrest']

theorem carries_value : g.Carries x boundary (.opt (.seq ["=", .rule init])) := by
  have hsign : ∀ ⦃s s'⦄, x.Rest s s' →
      g.Alike x (g.matchExpr "=" .spaced s) (g.matchExpr "=" .spaced s') := fun s s' hrest =>
    .map_nil (hrest.after? hx.next hx.source_head hx.target_head (by simp [hx.signs]))
  have hquiet : ∀ ⦃s t f⦄, g.matchExpr "=" .spaced s = some (t, f) → g.bodies f = [] := by
    intro s t f hmatch
    obtain ⟨-, rfl⟩ := matchExpr_text_iff.1 hmatch
    rfl
  intro s s' t f hrest hs hs' hmatch hsep hkeeps
  rcases matchExpr_opt_iff.1 hmatch with hvalue | ⟨hnone, rfl, rfl⟩
  · obtain ⟨t', f', hvalue', hrest', hsame⟩ :=
      hx.carries_both hsign hquiet hx.carries_init hrest hs hs' hvalue hsep hkeeps
    exact ⟨t', f', matchExpr_opt hvalue', hrest', hsame⟩
  · -- A comma or semicolon stands there, so with the new piece there is no value either.
    obtain ⟨c, z, hc, hcs⟩ := hsep
    rw [hs] at hc
    subst hc
    have hsingle : single c = true := by rcases hcs with rfl | rfl <;> exact hx.signs _ (by simp)
    obtain ⟨z', rfl, hrest'⟩ := hx.head hrest hsingle
    refine ⟨c :: z', .nil, matchExpr_opt_none (matchExpr_both_none ?_), hrest, rfl, rfl⟩
    refine matchExpr_text_ne (d := '=') ?_ [] z'
    rcases hcs with rfl | rfl <;> decide

/-- A declarator is matched with the new piece as it is with the old one, in front of a comma or
a semicolon. -/
theorem views_declarator (hbody : g.Carries x boundary (g.body declarator)) (hrest : x.Rest s s')
    (hs : g.between .spaced s = s) (hs' : g.between .spaced s' = s')
    (hmatch : g.matchExpr (.rule declarator) .spaced s = some (t, f)) (hsep : g.Separated t)
    (hkeeps : g.KeepsAll x boundary f) :
    ∃ t' f', g.matchExpr (.rule declarator) .spaced s' = some (t', f') ∧ x.Rest t t' ∧
      g.views f = g.views f' := by
  obtain ⟨inner, hmatchbody, rfl⟩ := (matchRule_eq_some_iff hx.ranked).1 hmatch
  have hrecords : (Layout.spaced.around (g.layout declarator)).records = true := by
    rw [hx.layout_declarator]
    rfl
  have hinside : Layout.spaced.inside (g.layout declarator) = .spaced := by
    rw [hx.layout_declarator]
    rfl
  have hdeclared : ∀ s t inner, g.declared (g.record declarator .spaced s t inner) =
      [(s, t, inner)] := by
    intro s t inner
    rw [record, if_pos hrecords, declared, hx.role_declarator]
    rfl
  rw [hinside] at hmatchbody
  have hinner := hkeeps _ (by rw [hdeclared]; exact List.mem_singleton.2 rfl)
  obtain ⟨t', inner', hmatchbody', hrest', hnames, htexts⟩ :=
    hbody hrest hs hs' hmatchbody hsep hinner
  have hmatch' : g.matchExpr (.rule declarator) .spaced s' =
      some (t', g.record declarator .spaced s' t' inner') :=
    (matchRule_eq_some_iff hx.ranked).2 ⟨inner', by rwa [hinside], rfl⟩
  refine ⟨t', _, hmatch', hrest', ?_⟩
  rw [views, views, hdeclared, hdeclared, List.map_singleton, List.map_singleton, view, view,
    hnames, ← List.head?_map, ← List.head?_map, htexts]

theorem views_more (hbody : g.Carries x boundary (g.body declarator)) (hrest : x.Rest s s')
    (hmatch : g.matchExpr (more declarator) .spaced s = some (t, f)) (hsep : g.Separated t)
    (hkeeps : g.KeepsAll x boundary f) :
    ∃ t' f', g.matchExpr (more declarator) .spaced s' = some (t', f') ∧ x.Rest t t' ∧
      g.views f = g.views f' := by
  obtain ⟨u, f₁, f₂, hsign, hrule, rfl⟩ := matchExpr_both_iff.1 hmatch
  obtain ⟨rfl, rfl⟩ := matchExpr_text_iff.1 hsign
  obtain ⟨u', rfl, hrest'⟩ := hx.head (z := u) hrest (hx.signs ',' (by simp))
  obtain ⟨t', f', hmatch', hrest'', hviews⟩ := hx.views_declarator hbody (hx.between hrest')
    (between_between hx.ranked) (between_between hx.ranked) hrule hsep hkeeps
  exact ⟨t', _, matchExpr_both (matchExpr_text [','] u') hmatch', hrest'', hviews⟩

theorem views_rounds (hbody : g.Carries x boundary (g.body declarator)) (hrest : x.Rest s s')
    (h : g.Rounds (more declarator) .spaced s t f) (hsep : g.Separated t)
    (hkeeps : g.KeepsAll x boundary f) :
    ∃ t' f', g.Rounds (more declarator) .spaced s' t' f' ∧ x.Rest t t' ∧
      g.views f = g.views f' := by
  induction h generalizing s' with
  | none s => exact ⟨s', _, .none s', hrest, rfl⟩
  | @more s u t f₁ f₂ hround hrounds ih =>
      obtain ⟨hkeeps₁, hkeeps₂⟩ := keepsAll_append.1 hkeeps
      obtain ⟨u', f₁', hround', hrest', hviews⟩ :=
        hx.views_more hbody (hx.between hrest) hround (separated_of_rounds hrounds hsep) hkeeps₁
      obtain ⟨t', f₂', hrounds', hrest'', hviews'⟩ := ih hrest' hsep hkeeps₂
      exact ⟨t', f₁' ++ f₂', .more hround' hrounds', hrest'', by
        rw [views_append, views_append, hviews, hviews']⟩

/-- A list of declarators and the semicolon behind it are matched with the new piece as they are
with the old one. -/
theorem carriesViews_list (hbody : g.Carries x boundary (g.body declarator)) :
    g.CarriesViews x boundary (.seq [.rule declarator, .star (more declarator), ";"]) := by
  intro s s' t f hrest hs hs' hmatch _ hkeeps
  have hconsumes : (more declarator).consumes g.consuming = true := rfl
  obtain ⟨u, f₁, _, hfirst, htail, rfl⟩ := matchExpr_both_iff.1 hmatch
  obtain ⟨v, f₂, _, hstar, hsign, rfl⟩ := matchExpr_both_iff.1 htail
  obtain ⟨hv, rfl⟩ := matchExpr_text_iff.1 hsign
  obtain ⟨hrounds, -⟩ :=
    (matchExpr_star_iff hx.ranked hconsumes (between_between hx.ranked)).1 hstar
  -- Behind the first declarator stands the comma of a round, or the semicolon if there is none.
  have hsep : g.Separated v := ⟨';', t, hv, .inr rfl⟩
  obtain ⟨c, z, hc, hcs⟩ := separated_of_rounds hrounds hsep
  rw [between_between hx.ranked] at hc
  obtain ⟨hkeeps₁, hkeeps₂⟩ := keepsAll_append.1 hkeeps
  obtain ⟨u', f₁', hfirst', hrest', hviews⟩ :=
    hx.views_declarator hbody hrest hs hs' hfirst ⟨c, z, hc, hcs⟩ hkeeps₁
  obtain ⟨v', f₂', hrounds', hrest'', hviews'⟩ :=
    hx.views_rounds hbody (hx.between hrest') hrounds hsep (keepsAll_append.1 hkeeps₂).1
  obtain ⟨t', ht', hrest'''⟩ := hx.head (z := t) (hv ▸ hx.between hrest'') (hx.signs ';' (by simp))
  have hstop : g.matchExpr (more declarator) .spaced (g.between .spaced v') = none := by
    rw [ht']
    exact matchExpr_both_none (matchExpr_text_ne (by decide) [] t')
  have hstar' := matchExpr_star hx.ranked hconsumes (between_between hx.ranked) hrounds' hstop
  have hsign' : g.matchExpr ";" .spaced (g.between .spaced v') = some (t', .nil) := by
    rw [ht']
    exact matchExpr_text [';'] t'
  refine ⟨t', _, matchExpr_both hfirst' (matchExpr_both hstar' hsign'), hrest''', ?_⟩
  simp only [views_append, hviews, hviews']

end ExchangesDeclarators

/-- What is in front of the declarators may be read first. -/
theorem CarriesViews.behind (hx : g.Exchanges x single)
    (ha : ∀ ⦃s s'⦄, x.Rest s s' → g.Alike x (g.matchExpr a .spaced s) (g.matchExpr a .spaced s'))
    (hquiet : ∀ ⦃s t f⦄, g.matchExpr a .spaced s = some (t, f) → g.declared f = [])
    (hb : g.CarriesViews x boundary b) : g.CarriesViews x boundary (.both a b) := by
  intro s s' t f hrest hs hs' hmatch hdeclared hkeeps
  obtain ⟨u, f₁, f₂, hmatcha, hmatchb, rfl⟩ := matchExpr_both_iff.1 hmatch
  obtain ⟨hnone, -⟩ | ⟨v, h₁, u', f₁', hv, hmatcha', hrest', hnames⟩ := (ha hrest).elim
  · rw [hmatcha] at hnone
    cases hnone
  · rw [hmatcha] at hv
    cases hv
    rw [declared_append, hquiet hmatcha, List.nil_append] at hdeclared
    obtain ⟨t', f₂', hmatchb', hrest'', hviews⟩ := hb (hx.between hrest')
      (between_between hx.ranked) (between_between hx.ranked) hmatchb hdeclared
      (keepsAll_append.1 hkeeps).2
    refine ⟨t', _, matchExpr_both hmatcha' hmatchb', hrest'', ?_⟩
    simp only [views, declared_append, hquiet hmatcha, hquiet hmatcha', List.nil_append]
    exact hviews

theorem CarriesViews.assoc (h : g.CarriesViews x boundary (.both a (.both b e))) :
    g.CarriesViews x boundary (.both (.both a b) e) := by
  intro s s' t f hrest hs hs' hmatch hdeclared hkeeps
  rw [matchExpr_assoc] at hmatch ⊢
  exact h hrest hs hs' hmatch hdeclared hkeeps

/-- Where variables are declared, the alternative that declares none has not been taken. -/
theorem CarriesViews.left (h : g.CarriesViews x boundary (.both a (.text word)))
    (hb : ∀ ⦃s t f⦄, g.matchExpr b .spaced s = some (t, f) → g.declared f = []) :
    g.CarriesViews x boundary (.both (.either a b) (.text word)) := by
  intro s s' t f hrest hs hs' hmatch hdeclared hkeeps
  obtain ⟨u, f₁, f₂, heither, hword, rfl⟩ := matchExpr_both_iff.1 hmatch
  obtain ⟨-, rfl⟩ := matchExpr_text_iff.1 hword
  rcases matchExpr_either_iff.1 heither with ha | ⟨-, hb'⟩
  · obtain ⟨t', f', hmatch', hrest', hviews⟩ :=
      h hrest hs hs' (matchExpr_both ha hword) hdeclared hkeeps
    obtain ⟨u', f₁', f₂', ha', hword', rfl⟩ := matchExpr_both_iff.1 hmatch'
    exact ⟨t', _, matchExpr_both (matchExpr_left ha') hword', hrest', hviews⟩
  · rw [Forest.append_nil, hb hb'] at hdeclared
    exact absurd rfl hdeclared

end SnippetGrammar

end FeatureTree
