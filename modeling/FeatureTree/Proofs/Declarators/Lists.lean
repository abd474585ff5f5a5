import Mathlib.Data.List.Chain
import FeatureTree.Proofs.Declarators.Passes
import FeatureTree.Proofs.Declarators.Tokens

/-!
# Lists of declarators as they are written

A list of declarators is written as tokens. What a declarator declares is read first, up to the
sign behind it (`Heads`), and the sign decides what comes next: an equals sign and an initializer,
or nothing. An initializer goes on to the next end, so whether the declarators behind it are read
as such depends on whether each comma is seen to be one in front of a declarator (`Sees`). Those
that are not seen there are more of the initializer (`Hides`).

So what a list declares is told by going along it, with the one bit whether the comma at hand is
inside an initializer (`Declarator.visible`). The proof follows that: the rest of a list is read
from either side of the comma, behind a declarator with or without an initializer
(`continues`), and the induction needs both.
-/

namespace FeatureTree

open scoped Tokens

/-- A declarator as it is written: what it declares, and the text of its initializer. -/
structure Declarator (α : Type) where
  declared : α
  value : Option InitialValue

namespace Declarator

variable {α : Type}

/-- The tokens of a declarator. -/
def tokens (spell : α → List (List Char)) (d : Declarator α) : List (List Char) :=
  spell d.declared ++
    match d.value with
    | none => []
    | some v => [['='], v.1]

/-- The tokens of more declarators, each behind its comma, and the semicolon at the end. -/
def moreTokens (spell : α → List (List Char)) : List (Declarator α) → List (List Char)
  | [] => [[';']]
  | d :: ds => [','] :: (d.tokens spell ++ moreTokens spell ds)

/-- Behind a declarator there is a comma or a semicolon. -/
theorem moreTokens_eq (spell : α → List (List Char)) (ds : List (Declarator α)) :
    ∃ c rest, (c = ',' ∨ c = ';') ∧ moreTokens spell ds = [c] :: rest := by
  cases ds with
  | nil => exact ⟨';', [], .inr rfl, rfl⟩
  | cons d ds => exact ⟨',', _, .inl rfl, rfl⟩

/-- Behind what a declarator declares there is one of three signs. -/
theorem tokens_append (spell : α → List (List Char)) (d : Declarator α)
    (ds : List (Declarator α)) : ∃ c rest, c ∈ ['=', ',', ';'] ∧
      d.tokens spell ++ moreTokens spell ds = spell d.declared ++ [c] :: rest := by
  obtain ⟨declared, value⟩ := d
  cases value with
  | none =>
      obtain ⟨c, rest, hc, heq⟩ := moreTokens_eq spell ds
      refine ⟨c, rest, by rcases hc with rfl | rfl <;> decide, ?_⟩
      rw [tokens, heq, List.append_nil]
  | some v =>
      refine ⟨'=', v.1 :: moreTokens spell ds, by decide, ?_⟩
      rw [tokens, List.append_assoc]
      rfl

/-- The declarators that are read as such. Inside of the initializer of another one, a declarator
is read as such if it is seen. -/
def visible (seen : α → Bool) : Bool → List (Declarator α) → List (Declarator α)
  | _, [] => []
  | inside, d :: ds =>
    if inside && !seen d.declared then visible seen true ds
    else d :: visible seen d.value.isSome ds

theorem visible_sublist (seen : α → Bool) (inside : Bool) (ds : List (Declarator α)) :
    (visible seen inside ds).Sublist ds := by
  induction ds generalizing inside with
  | nil => exact .slnil
  | cons d ds ih =>
      rw [visible]
      split
      · exact (ih true).cons d
      · exact (ih d.value.isSome).cons_cons d

/-- All are read as such if each one is seen that stands behind an initializer. -/
theorem visible_eq_self_iff {seen : α → Bool} {inside : Bool} {ds : List (Declarator α)} :
    visible seen inside ds = ds ↔
      (inside = true → ∀ d ∈ ds.head?, seen d.declared = true) ∧
        ds.IsChain fun d d' => d.value.isSome = true → seen d'.declared = true := by
  induction ds generalizing inside with
  | nil => simp [visible]
  | cons d ds ih =>
      rw [visible, List.isChain_cons]
      by_cases h : (inside && !seen d.declared) = true
      · rw [if_pos h]
        obtain ⟨rfl, hnot⟩ := Bool.and_eq_true_iff.1 h
        have hlen := (visible_sublist seen true ds).length_le
        constructor
        · intro heq
          rw [heq, List.length_cons] at hlen
          omega
        · rintro ⟨hseen, -⟩
          rw [hseen rfl d rfl] at hnot
          cases hnot
      · rw [if_neg h, List.cons.injEq, ih]
        have hseen : inside = true → seen d.declared = true := by simpa using h
        constructor
        · rintro ⟨-, hnext, hchain⟩
          refine ⟨fun hinside x hx => ?_, fun x hx hvalue => hnext hvalue x hx, hchain⟩
          obtain rfl : d = x := Option.some.inj hx
          exact hseen hinside
        · rintro ⟨-, hnext, hchain⟩
          exact ⟨rfl, fun hvalue x hx => hnext x hx hvalue, hchain⟩

end Declarator

namespace SnippetGrammar

open Grammar

variable {R : Type} {g : SnippetGrammar R} {isWordChar : Char → Bool} {group : Bracket → R}
  {piece boundary initPiece init declarator : R} {head : Expr R} {literals : List R} {α : Type}
  {spell : α → List (List Char)} {name : α → List Char} {tokens rest : List (List Char)}
  {s t u v w y z : List Char} {c : Char} {view : Option (List Char) × Option (List Char)}
  {views : List (Option (List Char) × Option (List Char))}

/-- A declarator is read, and declares one variable. -/
def Declares (g : SnippetGrammar R) (declarator : R) (s t : List Char)
    (view : Option (List Char) × Option (List Char)) : Prop :=
  ∃ f, g.matchExpr (.rule declarator) .spaced s = some (t, f) ∧ g.views f = [view]

/-- More declarators are read, each behind its comma, and the semicolon at the end. -/
inductive Continues (g : SnippetGrammar R) (declarator : R) :
    List Char → List Char → List (Option (List Char) × Option (List Char)) → Prop
  | stop {s t : List Char} (h : g.between .spaced s = ';' :: t) : Continues g declarator s t []
  | next {s t u w : List Char} {view : Option (List Char) × Option (List Char)}
      {views : List (Option (List Char) × Option (List Char))}
      (h : g.between .spaced s = ',' :: w)
      (hfirst : g.Declares declarator (g.between .spaced w) u view)
      (hrest : Continues g declarator u t views) : Continues g declarator s t (view :: views)

theorem Continues.rounds (h : g.Continues declarator s t views) :
    ∃ u f, g.Rounds (more declarator) .spaced s u f ∧ g.between .spaced u = ';' :: t ∧
      g.views f = views := by
  induction h with
  | stop h => exact ⟨_, _, .none _, h, rfl⟩
  | @next s t u w view views h hfirst _ ih =>
      obtain ⟨f, hmatch, hview⟩ := hfirst
      obtain ⟨u', f', hrounds, hend, hviews⟩ := ih
      have hround : g.matchExpr (more declarator) .spaced (g.between .spaced s) =
          some (u, .nil ++ f) := by
        rw [h]
        exact matchExpr_both (matchExpr_text [','] w) hmatch
      refine ⟨u', _, .more hround hrounds, hend, ?_⟩
      rw [Forest.nil_append, views_append, hview, hviews]
      rfl

/-- A list of declarators is read up to the semicolon behind it. -/
theorem match_list (hg : g.Ranked) (hfirst : g.Declares declarator s u view)
    (h : g.Continues declarator u t views) :
    ∃ f, g.matchExpr (.seq [.rule declarator, .star (more declarator), ";"]) .spaced s =
      some (t, f) ∧ g.views f = view :: views := by
  obtain ⟨f, hmatch, hview⟩ := hfirst
  obtain ⟨v, f', hrounds, hend, hviews⟩ := h.rounds
  obtain ⟨v', hrounds', hsame⟩ := hrounds.skip hg
  have hstop : g.matchExpr (more declarator) .spaced (g.between .spaced v') = none := by
    rw [hsame, hend]
    exact matchExpr_both_none (matchExpr_text_ne (by decide) [] t)
  have hstar := matchExpr_star hg rfl (between_between hg) hrounds' hstop
  have hsign : g.matchExpr ";" .spaced (g.between .spaced v') = some (t, .nil) := by
    rw [hsame, hend]
    exact matchExpr_text [';'] t
  refine ⟨_, matchExpr_both hmatch (matchExpr_both hstar hsign), ?_⟩
  rw [Forest.append_nil, views_append, hview, hviews]
  rfl

/-- The value that a declarator may be given. -/
def valuePart (init : R) : Expr R := .opt (.seq ["=", .rule init])

/-- The declarators of a grammar: what they declare, and what they may be given a value by. -/
structure ReadsDeclarators (g : SnippetGrammar R) (group : Bracket → R) (piece : R)
    (literals : List R) (boundary initPiece init declarator : R) (head : Expr R) : Prop
    extends g.ReadsValues group piece literals boundary initPiece where
  spaced : g.Spaced
  layout_init : g.layout init = .token
  role_init : g.role init = .body
  body_init : g.body init = .plus (initializerRound boundary initPiece)
  layout_declarator : g.layout declarator = .spaced
  role_declarator : g.role declarator = .node .variable
  body_declarator : ∀ s, g.matchExpr (g.body declarator) .spaced s =
    g.matchExpr (.both head (valuePart init)) .spaced s

/-- The tokens are what a declarator declares: up to the sign behind them they are read as such,
and give it its name. -/
def Heads (g : SnippetGrammar R) (isWordChar : Char → Bool) (head : Expr R)
    (tokens : List (List Char)) (name : List Char) : Prop :=
  ∀ c ∈ ['=', ',', ';'], ∀ rest, g.Takes isWordChar head tokens [name] ([c] :: rest)

/-- The boundary sees that a declarator begins behind a comma. -/
def Sees (g : SnippetGrammar R) (isWordChar : Char → Bool) (boundary : R)
    (tokens : List (List Char)) : Prop :=
  ∀ ⦃c rest s⦄, c ∈ ['=', ',', ';'] → Spelled isWordChar (tokens ++ [c] :: rest) s →
    (g.leaves (.rule boundary) (',' :: s)).isSome = true

theorem isToken_sign (hc : c ∈ ['=', ',', ';']) : IsToken [c] := by
  refine ⟨c, [], rfl, ?_⟩
  revert c
  decide

theorem isCalm_sign (hc : c ∈ ['=', ',', ';']) : IsCalm (c :: s) := by
  rintro _ ⟨⟩
  revert c
  decide

/-- The boundary does not see that a declarator begins, and the tokens up to the sign behind it are
pieces of an initializer. -/
structure Hides (g : SnippetGrammar R) (isWordChar : Char → Bool) (piece boundary : R)
    (tokens : List (List Char)) : Prop where
  boundary : ∀ ⦃c rest s⦄, c ∈ ['=', ',', ';'] → Spelled isWordChar (tokens ++ [c] :: rest) s →
    g.leaves (.rule boundary) (',' :: s) = none
  passes : ∀ c ∈ ['=', ',', ';'], ∀ rest, g.PassesOver isWordChar piece tokens ([c] :: rest)

/-- How declarators are written, what they are named, and which of them the boundary sees. -/
structure Spelling (g : SnippetGrammar R) (isWordChar : Char → Bool) (piece boundary : R)
    (head : Expr R) (spell : α → List (List Char)) (name : α → List Char) (seen : α → Bool) :
    Prop where
  heads : ∀ x, g.Heads isWordChar head (spell x) (name x)
  sees : ∀ x, seen x = true → g.Sees isWordChar boundary (spell x)
  hides : ∀ x, seen x = false → g.Hides isWordChar piece boundary (spell x)

/-- The token is a name: nothing less is one, and more is none unless it goes on the word. -/
def ReadsName (g : SnippetGrammar R) (isWordChar : Char → Bool) (identifier : R)
    (w : List Char) : Prop :=
  IsToken w ∧ ∀ t, (∀ c ∈ w.getLast?, ∀ d ∈ t.head?, (isWordChar c && isWordChar d) = false) →
    g.leaves (.rule identifier) (w ++ t) = some t

section Names

variable {identifier : R} {tail : Expr R} (hg : g.Spaced) (hr : g.layout boundary = .token)
  (hbody : g.body boundary = .both "," (.both (.star Lexical.ws)
    (.both (.rule identifier) (.both (.star Lexical.ws) tail))))
  (hw : g.ReadsName isWordChar identifier w)

include hg hr hbody hw

/-- A boundary that looks for a name goes on behind the name in front of it. -/
theorem leaves_boundary {gap gap' : List Char} (hgap : ∀ c ∈ gap, c ∈ Text.spaces)
    (hgap' : ∀ c ∈ gap', c ∈ Text.spaces) (hz : ∀ c ∈ z.head?, IsSolid c)
    (hapart : ∀ c ∈ w.getLast?, ∀ d ∈ (gap' ++ z).head?, (isWordChar c && isWordChar d) = false) :
    g.leaves (.rule boundary) (',' :: (gap ++ (w ++ (gap' ++ z)))) = g.leaves tail z := by
  obtain ⟨htoken, hname⟩ := hw
  have hcomma : g.leaves "," (',' :: (gap ++ (w ++ (gap' ++ z)))) =
      some (gap ++ (w ++ (gap' ++ z))) := by
    rw [leaves_text]
    rfl
  rw [leaves_rule hg.ranked hr, hbody, leaves_both, hcomma, Option.bind_some, leaves_both,
    leaves_spaces hg.ranked hgap htoken.head, Option.bind_some, leaves_both, hname _ hapart,
    Option.bind_some, leaves_both, leaves_spaces hg.ranked hgap' hz, Option.bind_some]

/-- It sees a declarator that begins with a name. -/
theorem sees_name (htail : ∀ c ∈ ['=', ',', ';'], ∀ z, (g.leaves tail (c :: z)).isSome = true) :
    g.Sees isWordChar boundary [w] := by
  intro c rest s hc hs
  cases hs with
  | cons hgap hapart hs =>
      cases hs with
      | @cons gap' _ z _ hgap' _ _ =>
          rw [leaves_boundary hg hr hbody hw hgap hgap' (isToken_sign hc).head hapart]
          exact htail c hc z

/-- It sees none if something else follows the name. -/
theorem boundary_none {gap : List Char} (hgap : ∀ c ∈ gap, c ∈ Text.spaces) (hc : IsSolid c)
    (hword : isWordChar c = false) (htail : g.leaves tail (c :: z) = none) :
    g.leaves (.rule boundary) (',' :: (gap ++ (w ++ c :: z))) = none := by
  have hleaves : g.leaves (.rule boundary) (',' :: (gap ++ (w ++ ([] ++ c :: z)))) =
      g.leaves tail (c :: z) :=
    leaves_boundary hg hr hbody hw hgap nofun (by rintro _ ⟨⟩; exact hc)
      (by rintro _ _ _ ⟨⟩; rw [hword, Bool.and_false])
  exact hleaves.trans htail

end Names

/-- From inside of an initializer the text goes on to its end, and else it stays. -/
def Reaches (g : SnippetGrammar R) (boundary initPiece : R) (inside : Bool) (s t : List Char) :
    Prop :=
  if inside then g.leaves (.star (initializerRound boundary initPiece)) s = some t else t = s

/-- What a list shows of its declarators: the names of those that are read as such, and if all are
seen, their values as well. -/
def Shows (seen : α → Bool) (name : α → List Char) (inside : Bool) (ds : List (Declarator α))
    (views : List (Option (List Char) × Option (List Char))) : Prop :=
  views.map (·.1) = (Declarator.visible seen inside ds).map (fun d => some (name d.declared)) ∧
    ((∀ d ∈ ds, seen d.declared = true) →
      views = ds.map fun d => (some (name d.declared), d.value.map (·.1)))

/-- The rest of a list is read from where the text reaches, and shows its declarators. If the next
one is seen, that is where it stands. -/
def ReadsRest (g : SnippetGrammar R) (boundary initPiece declarator : R) (seen : α → Bool)
    (name : α → List Char) (inside : Bool) (ds : List (Declarator α)) (s : List Char) : Prop :=
  ∃ u views, g.Reaches boundary initPiece inside s u ∧ g.Continues declarator u [] views ∧
    Shows seen name inside ds views ∧ ((∀ d ∈ ds.head?, seen d.declared = true) → u = s)

namespace ReadsDeclarators

variable (hr : g.ReadsDeclarators group piece literals boundary initPiece init declarator head)

include hr

theorem between_sign (hc : c ∈ ['=', ',', ';']) (hs : Spelled isWordChar ([c] :: rest) s) :
    ∃ t, g.between .spaced s = c :: t ∧ Spelled isWordChar rest t := by
  obtain ⟨t, ht, hrest, -⟩ := hs.between hr.spaced (isToken_sign hc)
  exact ⟨t, ht, hrest⟩

/-- A declarator is what it declares and what follows that. -/
theorem declares_of_value (hheads : g.Heads isWordChar head tokens w) (hc : c ∈ ['=', ',', ';'])
    (hs : Spelled isWordChar (tokens ++ [c] :: rest) s) :
    ∃ t, Spelled isWordChar ([c] :: rest) t ∧ ∀ u f,
      g.matchExpr (valuePart init) .spaced (g.between .spaced t) = some (u, f) → g.names f = [] →
      g.Declares declarator (g.between .spaced s) u (some w, (g.bodies f).head?.map g.textOf) := by
  obtain ⟨t, v, h, ht, hmatch, hsame, hnames, hbodies⟩ := hheads c hc rest hs
  refine ⟨t, ht, fun u f hvalue hnone => ?_⟩
  have hbody : g.matchExpr (g.body declarator) .spaced (g.between .spaced s) = some (u, h ++ f) := by
    rw [hr.body_declarator]
    exact matchExpr_both hmatch (by rw [hsame]; exact hvalue)
  refine ⟨_, match_of_body hr.ranked hr.layout_declarator hbody, ?_⟩
  simp [SnippetGrammar.views, declared, hr.role_declarator, SnippetGrammar.view, hnames, hnone,
    hbodies]

/-- Without an equals sign there is no value. -/
theorem declares_bare (hheads : g.Heads isWordChar head tokens w) (hc : c = ',' ∨ c = ';')
    (hs : Spelled isWordChar (tokens ++ [c] :: rest) s) :
    ∃ t, Spelled isWordChar ([c] :: rest) t ∧
      g.Declares declarator (g.between .spaced s) (g.between .spaced t) (some w, none) := by
  have hsign : c ∈ ['=', ',', ';'] := by rcases hc with rfl | rfl <;> decide
  obtain ⟨t, ht, hdeclares⟩ := hr.declares_of_value hheads hsign hs
  obtain ⟨z, hz, -⟩ := hr.between_sign hsign ht
  refine ⟨t, ht, hdeclares _ .nil (matchExpr_opt_none (matchExpr_both_none ?_)) rfl⟩
  rw [hz]
  exact matchExpr_text_ne (by rcases hc with rfl | rfl <;> decide) [] z

/-- Behind an equals sign the value is what the initializer takes. -/
theorem declares_value (hheads : g.Heads isWordChar head tokens w) (hv : IsToken v)
    (hs : Spelled isWordChar (tokens ++ ['='] :: v :: rest) s) :
    ∃ t, Spelled isWordChar rest t ∧
      ∀ u, g.leaves (.plus (initializerRound boundary initPiece)) (v ++ t) = some u →
        g.Declares declarator (g.between .spaced s) u (some w, some (g.textOf (v ++ t, u))) := by
  obtain ⟨t, ht, hdeclares⟩ := hr.declares_of_value hheads (by decide) hs
  obtain ⟨z, hz, hrest⟩ := hr.between_sign (by decide) ht
  obtain ⟨y, hy, hrest', -⟩ := hrest.between hr.spaced hv
  refine ⟨y, hrest', fun u hu => ?_⟩
  obtain ⟨inner, hbody⟩ := leaves_eq_some_iff.1 hu
  have hinit : g.matchExpr (.rule init) .spaced (v ++ y) =
      some (u, .cons init (v ++ y) u inner .nil) :=
    matchRule_of_body hr.ranked (by rw [hr.layout_init, hr.body_init]; exact hbody)
      (by rw [hr.layout_init]; rfl)
  have hvalue := hdeclares u (.nil ++ .cons init (v ++ y) u inner .nil) (matchExpr_opt (by
    rw [hz]
    exact matchExpr_both (matchExpr_text ['='] z) (by rw [hy]; exact hinit)))
  rw [Forest.nil_append, names, bodies, hr.role_init] at hvalue
  exact hvalue rfl

/-- In front of a comma or semicolon the initializer goes on as far as it does from there, and
if it does not go on, its text is the value. -/
theorem declares_value_before (hheads : g.Heads isWordChar head tokens w)
    (hv : g.IsInitializer boundary initPiece v) (hc : c = ',' ∨ c = ';')
    (hs : Spelled isWordChar (tokens ++ ['='] :: v :: [c] :: rest) s) :
    ∃ t, Spelled isWordChar ([c] :: rest) t ∧ ∀ u,
      g.leaves (.star (initializerRound boundary initPiece)) (g.between .spaced t) = some u →
      ∃ x, g.Declares declarator (g.between .spaced s) u (some w, some x) ∧
        (u = g.between .spaced t → x = v) := by
  have hsign : c ∈ ['=', ',', ';'] := by rcases hc with rfl | rfl <;> decide
  obtain ⟨t, ht, hdeclares⟩ := hr.declares_value hheads hv.isToken hs
  refine ⟨t, ht, fun u hu => ?_⟩
  have hcalm : IsCalm t := calmTokens_cons (List.cons_ne_nil c []) (isCalm_sign hsign) ht
  have hstar : g.leaves (.star (initializerRound boundary initPiece)) (v ++ t) = some u := by
    rw [hv.leaves t hcalm,
      hr.leaves_star_between hr.spaced hr.takesPieces_round (isToken_sign hsign) ht, hu]
  have hne : u ≠ v ++ t := by
    rintro rfl
    obtain ⟨f, hmatch⟩ := leaves_eq_some_iff.1 (hv.leaves t hcalm ▸ hstar)
    have hlen := (matchExpr_suffix hr.ranked hmatch).length_le
    obtain ⟨d, z, rfl, -⟩ := hv.isToken
    simp only [List.cons_append, List.length_cons, List.length_append] at hlen
    omega
  refine ⟨_, hdeclares u (leaves_plus_of_star hr.ranked hr.consumes_round hstar hne), ?_⟩
  rintro rfl
  cases ht with
  | @cons gap _ z _ hgap _ _ =>
      rw [between_gap hr.spaced hgap (isToken_sign hsign).head, textOf, ← List.append_assoc]
      exact (congrArg _ (Forest.taken_append _ _)).trans (hv.trim hr.spaced hgap)

theorem reaches_of_atEnd (inside : Bool) (h : g.AtEnd boundary s) :
    g.Reaches boundary initPiece inside s s := by
  cases inside with
  | false => rfl
  | true =>
      exact leaves_star_of_none hr.ranked hr.consumes_round (leaves_round_of_atEnd h)

/-- A declarator has its name, and its value if no more of the text is. -/
theorem declares {d : Declarator α} {ds : List (Declarator α)}
    (hheads : g.Heads isWordChar head (spell d.declared) (name d.declared))
    (hs : Spelled isWordChar (d.tokens spell ++ Declarator.moreTokens spell ds) s) :
    ∃ t, Spelled isWordChar (Declarator.moreTokens spell ds) t ∧
      ∀ u, g.Reaches boundary initPiece d.value.isSome (g.between .spaced t) u →
        ∃ x, g.Declares declarator (g.between .spaced s) u (some (name d.declared), x) ∧
          (u = g.between .spaced t → x = d.value.map (·.1)) := by
  obtain ⟨c, rest, hc, heq⟩ := Declarator.moreTokens_eq spell ds
  obtain ⟨declared, value⟩ := d
  rw [heq] at hs ⊢
  cases value with
  | none =>
      rw [Declarator.tokens, List.append_nil] at hs
      obtain ⟨t, ht, hdeclares⟩ := hr.declares_bare hheads hc hs
      refine ⟨t, ht, ?_⟩
      rintro u (rfl : u = _)
      exact ⟨none, hdeclares, fun _ => rfl⟩
  | some v =>
      rw [Declarator.tokens, List.append_assoc] at hs
      obtain ⟨t, ht, hdeclares⟩ := hr.declares_value_before hheads (hr.isInitializer v.2) hc hs
      refine ⟨t, ht, fun u hu => ?_⟩
      obtain ⟨x, hx, heq⟩ := hdeclares u hu
      exact ⟨some x, hx, fun hend => congrArg some (heq hend)⟩

/-- A declarator that is not seen is passed over with its value, from the comma in front of it to
the sign behind it. -/
theorem passes_declarator {d : Declarator α} {ds : List (Declarator α)}
    (hhides : g.Hides isWordChar piece boundary (spell d.declared))
    (hs : Spelled isWordChar (d.tokens spell ++ Declarator.moreTokens spell ds) s) :
    ∃ t, Spelled isWordChar (Declarator.moreTokens spell ds) t ∧
      g.leaves (.star (initializerRound boundary initPiece)) (',' :: s) =
        g.leaves (.star (initializerRound boundary initPiece)) (g.between .spaced t) := by
  obtain ⟨c, rest, hc, heq⟩ := Declarator.tokens_append spell d ds
  obtain ⟨c', rest', hc', heq'⟩ := Declarator.moreTokens_eq spell ds
  have hsign : c' ∈ ['=', ',', ';'] := by rcases hc' with rfl | rfl <;> decide
  have hround : g.leaves (initializerRound boundary initPiece) (',' :: s) = some s := by
    rw [leaves_round_of_not_atEnd, hr.leaves_initPiece, hr.leaves_piece_sign (by decide)]
    · rfl
    · rintro (⟨u, hu⟩ | hend)
      · cases hu
      · rw [hhides.boundary hc (heq ▸ hs)] at hend
        cases hend
  have hpasses : g.PassesOver isWordChar piece (d.tokens spell) (Declarator.moreTokens spell ds) := by
    obtain ⟨declared, value⟩ := d
    cases value with
    | none =>
        rw [Declarator.tokens, List.append_nil, heq']
        exact hhides.passes c' hsign rest'
    | some v =>
        have hcalm : CalmTokens isWordChar ([c'] :: rest') :=
          calmTokens_cons (List.cons_ne_nil c' []) (isCalm_sign hsign)
        have hvalue : g.PassesOver isWordChar piece [v.1] ([c'] :: rest') :=
          hr.passes_clear v.2.balanced v.2.isClear hcalm
        rw [heq']
        exact (hhides.passes '=' (by decide) _).append
          ((hr.passes_sign (by decide)).append hvalue)
  obtain ⟨t, ht, hpass⟩ := hpasses hs
  refine ⟨t, ht, ?_⟩
  rw [leaves_star_of_some hr.ranked hr.consumes_round hround, hpass hr.takesPieces_round]
  rw [heq'] at ht
  exact hr.leaves_star_between hr.spaced hr.takesPieces_round (isToken_sign hsign) ht

/-- A declarator is read with the rest of its list, if that is read from where it ends. -/
theorem declares_list {seen : α → Bool} {d : Declarator α} {ds : List (Declarator α)}
    (hheads : g.Heads isWordChar head (spell d.declared) (name d.declared))
    (hs : Spelled isWordChar (d.tokens spell ++ Declarator.moreTokens spell ds) s)
    (hrest : ∀ t, Spelled isWordChar (Declarator.moreTokens spell ds) t →
      g.ReadsRest boundary initPiece declarator seen name d.value.isSome ds (g.between .spaced t)) :
    ∃ u view views, g.Declares declarator (g.between .spaced s) u view ∧
      g.Continues declarator u [] views ∧ Shows seen name false (d :: ds) (view :: views) := by
  obtain ⟨t, ht, hdeclares⟩ := hr.declares hheads hs
  obtain ⟨u, views, hreaches, hcontinues, ⟨hnames, hexact⟩, hstays⟩ := hrest t ht
  obtain ⟨x, hx, hvalue⟩ := hdeclares u hreaches
  refine ⟨u, _, views, hx, hcontinues, ?_, fun hall => ?_⟩
  · rw [List.map_cons, hnames]
    rfl
  · obtain ⟨-, hall⟩ := List.forall_mem_cons.1 hall
    rw [hexact hall, hvalue (hstays fun d hd => hall d (List.mem_of_mem_head? hd)), List.map_cons]

/-- The rest of a list is read, from inside of an initializer or from behind a declarator. -/
theorem continues {seen : α → Bool}
    (hspelling : g.Spelling isWordChar piece boundary head spell name seen)
    {ds : List (Declarator α)} (hs : Spelled isWordChar (Declarator.moreTokens spell ds) s)
    (inside : Bool) :
    g.ReadsRest boundary initPiece declarator seen name inside ds (g.between .spaced s) := by
  induction ds generalizing s inside with
  | nil =>
      obtain ⟨t, ht, hrest⟩ := hr.between_sign (by decide) hs
      cases hrest
      exact ⟨_, [], hr.reaches_of_atEnd inside (.inl ⟨[], ht⟩),
        .stop (by rw [between_between hr.ranked, ht]), ⟨rfl, fun _ => rfl⟩, fun _ => rfl⟩
  | cons d ds ih =>
      obtain ⟨t, ht, hrest⟩ := hr.between_sign (by decide) hs
      by_cases hhidden : (inside && !seen d.declared) = true
      · obtain ⟨rfl, hnot⟩ := Bool.and_eq_true_iff.1 hhidden
        have hseen : seen d.declared ≠ true := by simpa using hnot
        obtain ⟨w, hw, hpass⟩ := hr.passes_declarator
          (hspelling.hides d.declared (Bool.eq_false_iff.2 hseen)) hrest
        obtain ⟨u, views, hreaches, hcontinues, ⟨hnames, -⟩, -⟩ := ih hw true
        refine ⟨u, views, ?_, hcontinues, ⟨?_, fun h => absurd (h d List.mem_cons_self) hseen⟩,
          fun h => absurd (h d rfl) hseen⟩
        · show g.leaves _ _ = _
          rw [ht, hpass]
          exact hreaches
        · rw [hnames, Declarator.visible, if_pos hhidden]
      · obtain ⟨u, view, views, hdeclares, hcontinues, hshows⟩ := hr.declares_list
          (hspelling.heads d.declared) hrest fun t ht => ih ht d.value.isSome
        have hvisible : Declarator.visible seen inside (d :: ds) =
            Declarator.visible seen false (d :: ds) := if_neg hhidden
        have hreaches : g.Reaches boundary initPiece inside (g.between .spaced s)
            (g.between .spaced s) := by
          cases inside with
          | false => rfl
          | true =>
              obtain ⟨c, rest, hc, heq⟩ := Declarator.tokens_append spell d ds
              refine hr.reaches_of_atEnd true (.inr ?_)
              rw [ht]
              exact hspelling.sees d.declared (by simpa using hhidden) hc (heq ▸ hrest)
        refine ⟨_, view :: views, hreaches, .next (by rw [between_between hr.ranked, ht]) hdeclares
          hcontinues, ?_, fun _ => rfl⟩
        rwa [Shows, hvisible]

/-- A list of declarators is matched with its semicolon. What stands in front of it is read first
and declares nothing. -/
theorem match_declaration {seen : α → Bool} {front : Expr R} {fronts : List (List Char)}
    {d : Declarator α} {ds : List (Declarator α)}
    (hspelling : g.Spelling isWordChar piece boundary head spell name seen)
    (hfront : g.Takes isWordChar front fronts [] (d.tokens spell ++ Declarator.moreTokens spell ds))
    (hquiet : ∀ ⦃s t f⦄, g.matchExpr front .spaced s = some (t, f) → g.declared f = [])
    (hs : Spelled isWordChar (fronts ++ (d.tokens spell ++ Declarator.moreTokens spell ds)) s) :
    ∃ f, g.matchExpr (.both front (.seq [.rule declarator, .star (more declarator), ";"])) .spaced
        (g.between .spaced s) = some ([], f) ∧ Shows seen name false (d :: ds) (g.views f) := by
  obtain ⟨t, u, f, ht, hmatch, hsame, -, -⟩ := hfront hs
  obtain ⟨v, view, views, hdeclares, hcontinues, hshows⟩ := hr.declares_list
    (hspelling.heads d.declared) ht fun t ht => hr.continues hspelling ht d.value.isSome
  obtain ⟨f', hmatch', hviews⟩ := match_list hr.ranked hdeclares hcontinues
  refine ⟨f ++ f', matchExpr_both hmatch (by rw [hsame]; exact hmatch'), ?_⟩
  rw [views_append, hviews, SnippetGrammar.views, hquiet hmatch]
  exact hshows

end ReadsDeclarators

end SnippetGrammar

end FeatureTree
