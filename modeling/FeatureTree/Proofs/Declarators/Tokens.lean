import FeatureTree.Proofs.Exchange.Declarators
import FeatureTree.Proofs.Grammar.Spelled

/-!
# Expressions that take tokens

An expression is matched against a text of which only the tokens are known. It takes some tokens
if it matches at the first of them and leaves the rest, whatever the blanks (`Takes`); where it
stops, a gap may have been dropped already or not, and nothing behind it can tell the difference.
A sequence takes the tokens of its parts, and a repetition those of its rounds, as long as the
tokens behind begin no other round (`Refuses`).
-/

namespace FeatureTree

open scoped Tokens

namespace SnippetGrammar

open Grammar

variable {R : Type} {g : SnippetGrammar R} {isWordChar : Char → Bool} {a b e : Expr R} {r : R}
  {tokens tokens' rest : List (List Char)} {names names' : List (List Char)}
  {token s t w : List Char} {c : Char} {n : Nat}

/-- In front of the rest the expression takes the tokens. It records the names and no
implementation text. -/
def Takes (g : SnippetGrammar R) (isWordChar : Char → Bool) (e : Expr R)
    (tokens names rest : List (List Char)) : Prop :=
  ∀ ⦃s⦄, Spelled isWordChar (tokens ++ rest) s →
    ∃ t u f, Spelled isWordChar rest t ∧
      g.matchExpr e .spaced (g.between .spaced s) = some (u, f) ∧
      g.between .spaced u = g.between .spaced t ∧ g.names f = names ∧ g.bodies f = []

/-- The expression does not match at the first of the tokens. -/
def Refuses (g : SnippetGrammar R) (isWordChar : Char → Bool) (e : Expr R)
    (tokens : List (List Char)) : Prop :=
  ∀ ⦃s⦄, Spelled isWordChar tokens s → g.matchExpr e .spaced (g.between .spaced s) = none

/-- Rounds of a repetition that take the tokens, one after the other. -/
inductive TakesRounds (g : SnippetGrammar R) (isWordChar : Char → Bool) (e : Expr R)
    (rest : List (List Char)) : List (List Char) → Prop
  | stop : TakesRounds g isWordChar e rest []
  | round {tokens tokens' : List (List Char)}
      (h : g.Takes isWordChar e tokens [] (tokens' ++ rest))
      (hmore : TakesRounds g isWordChar e rest tokens') :
      TakesRounds g isWordChar e rest (tokens ++ tokens')

theorem takes_nothing (hs : ∀ ⦃s⦄, Spelled isWordChar rest s →
    g.matchExpr e .spaced (g.between .spaced s) = some (g.between .spaced s, .nil))
    (hg : g.Spaced) : g.Takes isWordChar e [] [] rest := by
  intro s h
  exact ⟨s, _, _, h, hs h, between_between hg.ranked, rfl, rfl⟩

/-- What is left out may be missing. -/
theorem Refuses.opt (hg : g.Spaced) (h : g.Refuses isWordChar e rest) :
    g.Takes isWordChar (.opt e) [] [] rest :=
  takes_nothing (fun _ hs => matchExpr_opt_none (h hs)) hg

theorem Refuses.both (h : g.Refuses isWordChar a rest) :
    g.Refuses isWordChar (.both a b) rest :=
  fun _ hs => matchExpr_both_none (h hs)

theorem Refuses.choice {es : List (Expr R)} (h : ∀ e ∈ es, g.Refuses isWordChar e rest) :
    g.Refuses isWordChar (.choice es) rest :=
  fun _ hs => matchExpr_choice_eq_none.2 fun e he => h e he hs

theorem Refuses.rule (hg : g.Spaced) (hr : g.layout r = .spaced)
    (h : g.Refuses isWordChar (g.body r) rest) : g.Refuses isWordChar (.rule r) rest :=
  fun _ hs => matchRule_none hg.ranked (by rw [hr]; exact h hs)

theorem refuses_of_begins (hg : g.Spaced) (htoken : IsToken token)
    (h : ∀ c ∈ token.head?, e.begins (g.firsts n) c = false) :
    g.Refuses isWordChar e (token :: rest) := by
  intro s hs
  obtain ⟨t, ht, -⟩ := hs.between hg htoken
  obtain ⟨c, w, rfl, -⟩ := htoken
  have hsame := between_between (l := .spaced) (s := s) hg.ranked
  rw [ht] at hsame ⊢
  exact matchExpr_none_of_begins hg.ranked (h c rfl) hsame

theorem refuses_text (hg : g.Spaced) (htoken : IsToken token) {d : Char}
    (h : ∀ c ∈ token.head?, c ≠ d) (word : List Char) :
    g.Refuses isWordChar (.text (d :: word)) (token :: rest) := by
  intro s hs
  obtain ⟨t, ht, -⟩ := hs.between hg htoken
  obtain ⟨c, w, rfl, -⟩ := htoken
  rw [ht]
  exact matchExpr_text_ne (h c rfl) word (w ++ t)

theorem takes_text (hg : g.Spaced) (htoken : IsToken token) :
    g.Takes isWordChar (.text token) [token] [] rest := by
  intro s hs
  obtain ⟨t, ht, hrest, -⟩ := hs.between hg htoken
  exact ⟨t, t, .nil, hrest, by rw [ht]; exact matchExpr_text token t, rfl, rfl, rfl⟩

theorem Takes.both (ha : g.Takes isWordChar a tokens names (tokens' ++ rest))
    (hb : g.Takes isWordChar b tokens' names' rest) :
    g.Takes isWordChar (.both a b) (tokens ++ tokens') (names ++ names') rest := by
  intro s hs
  rw [List.append_assoc] at hs
  obtain ⟨t, u, f, ht, hmatch, hsame, hnames, hbodies⟩ := ha hs
  obtain ⟨t', u', f', ht', hmatch', hsame', hnames', hbodies'⟩ := hb ht
  refine ⟨t', u', f ++ f', ht', matchExpr_both hmatch (by rw [hsame]; exact hmatch'), hsame', ?_, ?_⟩
  · rw [names_append, hnames, hnames']
  · rw [bodies_append, hbodies, hbodies', List.append_nil]

theorem Takes.left (ha : g.Takes isWordChar a tokens names rest) :
    g.Takes isWordChar (.either a b) tokens names rest := by
  intro s hs
  obtain ⟨t, u, f, ht, hmatch, hmore⟩ := ha hs
  exact ⟨t, u, f, ht, matchExpr_left hmatch, hmore⟩

theorem Takes.right (ha : g.Refuses isWordChar a (tokens ++ rest))
    (hb : g.Takes isWordChar b tokens names rest) :
    g.Takes isWordChar (.either a b) tokens names rest := by
  intro s hs
  obtain ⟨t, u, f, ht, hmatch, hmore⟩ := hb hs
  exact ⟨t, u, f, ht, (matchExpr_right (ha hs)).trans hmatch, hmore⟩

theorem Takes.opt (h : g.Takes isWordChar e tokens names rest) :
    g.Takes isWordChar (.opt e) tokens names rest := by
  intro s hs
  obtain ⟨t, u, f, ht, hmatch, hmore⟩ := h hs
  exact ⟨t, u, f, ht, matchExpr_opt hmatch, hmore⟩

theorem TakesRounds.rounds (h : g.TakesRounds isWordChar e rest tokens) :
    ∀ ⦃s s' : List Char⦄, Spelled isWordChar (tokens ++ rest) s →
      g.between .spaced s' = g.between .spaced s →
      ∃ t u f, Spelled isWordChar rest t ∧ g.Rounds e .spaced s' u f ∧
        g.between .spaced u = g.between .spaced t ∧ g.names f = [] ∧ g.bodies f = [] := by
  induction h with
  | stop => exact fun s s' hs hsame => ⟨s, s', .nil, hs, .none s', hsame, rfl, rfl⟩
  | @round tokens tokens' hround _ ih =>
      intro s s' hs hsame
      rw [List.append_assoc] at hs
      obtain ⟨t, u, f, ht, hmatch, hbetween, hnames, hbodies⟩ := hround hs
      obtain ⟨t', u', f', ht', hrounds, hbetween', hnames', hbodies'⟩ := ih ht hbetween
      refine ⟨t', u', f ++ f', ht', .more (by rw [hsame]; exact hmatch) hrounds, hbetween', ?_, ?_⟩
      · rw [names_append, hnames, hnames']
        rfl
      · rw [bodies_append, hbodies, hbodies']
        rfl

/-- A repetition takes the tokens of its rounds, if no other round follows. -/
theorem TakesRounds.star (hg : g.Spaced) (he : e.consumes g.consuming = true)
    (h : g.TakesRounds isWordChar e rest tokens) (hstop : g.Refuses isWordChar e rest) :
    g.Takes isWordChar (.star e) tokens [] rest := by
  intro s hs
  obtain ⟨t, u, f, ht, hrounds, hsame, hnames, hbodies⟩ :=
    h.rounds hs (between_between hg.ranked)
  refine ⟨t, u, f, ht, matchExpr_star hg.ranked he (between_between hg.ranked) hrounds ?_, hsame,
    hnames, hbodies⟩
  rw [hsame]
  exact hstop ht

theorem Refuses.star (hg : g.Spaced) (he : e.consumes g.consuming = true)
    (h : g.Refuses isWordChar e rest) : g.Takes isWordChar (.star e) [] [] rest :=
  TakesRounds.stop.star hg he h

/-- Rounds that take the tokens of the items of a list, one item after the other. -/
theorem TakesRounds.flatMap {α : Type} {f : α → List (List Char)} {xs : List α}
    (h : ∀ x ∈ xs, ∀ rest, g.Takes isWordChar e (f x) [] rest) :
    g.TakesRounds isWordChar e rest (xs.flatMap f) := by
  induction xs with
  | nil => exact .stop
  | cons x xs ih =>
      obtain ⟨hx, hxs⟩ := List.forall_mem_cons.1 h
      exact .round (hx _) (ih hxs)

theorem match_of_body {f : Forest R} (hg : g.Ranked) (hr : g.layout r = .spaced)
    (h : g.matchExpr (g.body r) .spaced s = some (t, f)) :
    g.matchExpr (.rule r) .spaced s = some (t, .cons r s t f .nil) :=
  matchRule_of_body hg (by rw [hr]; exact h) (by rw [hr]; rfl)

/-- A rule that is looked through takes what its body takes. -/
theorem Takes.rule (hg : g.Spaced) (hr : g.layout r = .spaced) (hrole : g.role r = .transparent)
    (h : g.Takes isWordChar (g.body r) tokens names rest) :
    g.Takes isWordChar (.rule r) tokens names rest := by
  intro s hs
  obtain ⟨t, u, f, ht, hmatch, hsame, hnames, hbodies⟩ := h hs
  refine ⟨t, u, _, ht, match_of_body hg.ranked hr hmatch, hsame, ?_, ?_⟩
  · rw [SnippetGrammar.names, hrole, hnames]
    exact List.append_nil names
  · rw [bodies, hrole, hbodies]
    rfl

/-- A rule that makes a node keeps what is inside it to itself. -/
theorem Takes.node {kind : Kind} (hg : g.Spaced) (hr : g.layout r = .spaced)
    (hrole : g.role r = .node kind) (h : g.Takes isWordChar (g.body r) tokens names rest) :
    g.Takes isWordChar (.rule r) tokens [] rest := by
  intro s hs
  obtain ⟨t, u, f, ht, hmatch, hsame, -, -⟩ := h hs
  refine ⟨t, u, _, ht, match_of_body hg.ranked hr hmatch, hsame, ?_, ?_⟩
  · rw [SnippetGrammar.names, hrole]
    rfl
  · rw [bodies, hrole]
    rfl

/-- A hidden rule keeps its names to itself. -/
theorem Takes.hidden (hg : g.Spaced) (hr : g.layout r = .spaced) (hrole : g.role r = .hidden)
    (h : g.Takes isWordChar (g.body r) tokens names rest) :
    g.Takes isWordChar (.rule r) tokens [] rest := by
  intro s hs
  obtain ⟨t, u, f, ht, hmatch, hsame, -, -⟩ := h hs
  refine ⟨t, u, _, ht, match_of_body hg.ranked hr hmatch, hsame, ?_, ?_⟩
  · rw [SnippetGrammar.names, hrole]
    rfl
  · rw [bodies, hrole]
    rfl

theorem match_of_leaves (hg : g.Ranked) (hr : g.layout r = .token) (l : Layout)
    (h : g.leaves (.rule r) s = some t) : ∃ f, g.matchRule r l s = some (t, f) := by
  rw [leaves_rule hg hr, ← map_matchRule_token hg hr l] at h
  obtain ⟨⟨u, f⟩, hmatch, hu⟩ := Option.map_eq_some_iff.1 h
  exact ⟨f, by rw [hmatch, ← hu]⟩

theorem match_none_of_leaves (hg : g.Ranked) (hr : g.layout r = .token) (l : Layout)
    (h : g.leaves (.rule r) s = none) : g.matchRule r l s = none := by
  rw [leaves_rule hg hr, ← map_matchRule_token hg hr l] at h
  exact Option.map_eq_none_iff.1 h

/-- A rule that names what is around it records the token that it takes. -/
theorem takes_name (hg : g.Spaced) {k : R} (hr : g.layout r = .spaced) (hrole : g.role r = .name)
    (hbody : g.body r = .rule k) (hk : g.layout k = .token) (htoken : IsToken token)
    (hleaves : ∀ t, (∀ c ∈ token.getLast?, ∀ d ∈ t.head?, (isWordChar c && isWordChar d) = false) →
      g.leaves (.rule k) (token ++ t) = some t) :
    g.Takes isWordChar (.rule r) [token] [token] rest := by
  intro s hs
  obtain ⟨t, ht, hrest, hapart⟩ := hs.between hg htoken
  obtain ⟨inner, hmatch⟩ := match_of_leaves hg.ranked hk .spaced (hleaves t hapart)
  refine ⟨t, t, .cons r (token ++ t) t inner .nil, hrest, ?_, rfl, ?_, ?_⟩
  · rw [ht]
    exact match_of_body hg.ranked hr (by rw [hbody]; exact hmatch)
  · rw [SnippetGrammar.names, hrole, Forest.taken_append]
    rfl
  · rw [bodies, hrole]
    rfl

/-- Inside a token nothing is recorded, so there is no implementation text but its own. -/
theorem bodies_token (hlayout : ∀ r, g.layout r ≠ .joined) (hr : g.layout r = .token)
    (hrole : g.role r ≠ .body) {l : Layout} {f : Forest R} (h : g.matchRule r l s = some (t, f)) :
    g.bodies f = [] := by
  obtain ⟨d, inner, -, hbody, rfl⟩ := run_eq_some.1 h
  have htoken : l.inside (g.layout r) = .token := by rw [hr]; cases l <;> rfl
  rw [htoken] at hbody
  rw [record, eval_token hlayout hbody]
  split
  · rw [bodies]
    cases hr : g.role r with
    | body => exact absurd hr hrole
    | _ => rfl
  · rfl

/-- A token that is no name and no implementation text. -/
theorem takes_token (hg : g.Spaced) (hr : g.layout r = .token) (hname : g.role r ≠ .name)
    (hbody : g.role r ≠ .body) (htoken : IsToken token)
    (hleaves : ∀ t, (∀ c ∈ token.getLast?, ∀ d ∈ t.head?, (isWordChar c && isWordChar d) = false) →
      g.leaves (.rule r) (token ++ t) = some t) :
    g.Takes isWordChar (.rule r) [token] [] rest := by
  intro s hs
  obtain ⟨t, ht, hrest, hapart⟩ := hs.between hg htoken
  obtain ⟨f, hmatch⟩ := match_of_leaves hg.ranked hr .spaced (hleaves t hapart)
  exact ⟨t, t, f, hrest, by rw [ht]; exact hmatch, rfl, names_token hg.layout hr hname hmatch,
    bodies_token hg.layout hr hbody hmatch⟩

/-- The expression is refused behind what it follows. -/
theorem Takes.refuses (ha : g.Takes isWordChar a tokens names rest)
    (hb : g.Refuses isWordChar b rest) : g.Refuses isWordChar (.both a b) (tokens ++ rest) := by
  intro s hs
  obtain ⟨t, u, f, ht, hmatch, hsame, -⟩ := ha hs
  exact matchExpr_both_none_right hmatch (by rw [hsame]; exact hb ht)

section Words

variable {wordChar : Expr R} {words : List String} {word : String}
  (hg : g.Spaced) (hr : g.IsWord wordChar r words) (hchar : g.TakesChar wordChar isWordChar)

include hg hr hchar

theorem refuses_word (hwords : ∀ v ∈ words, ∀ c ∈ v.toList, isWordChar c = true)
    (htoken : IsToken w) (hw : ∀ c ∈ w, isWordChar c = true)
    (hnot : ∀ word ∈ words, word.toList ≠ w) : g.Refuses isWordChar (.rule r) (w :: rest) := by
  intro s hs
  obtain ⟨t, ht, -, hapart⟩ := hs.between hg htoken
  obtain ⟨c, v, rfl, -⟩ := htoken
  rw [ht]
  exact hr.none_of_run hg.ranked hchar hwords hw hnot
    (Spelled.head_of_apart hw (List.cons_ne_nil c v) hapart)

theorem takes_word
    (hwords : ∀ v ∈ words, word.toList <+: v.toList → ∀ c ∈ v.toList, isWordChar c = true)
    (horder : LongestFirst words) (hname : g.role r ≠ .name) (hbody : g.role r ≠ .body)
    (hword : word ∈ words) (htoken : IsToken word.toList) :
    g.Takes isWordChar (.rule r) [word.toList] [] rest := by
  refine takes_token hg hr.1 hname hbody htoken fun t ht => ?_
  obtain ⟨c, v, heq, -⟩ := htoken
  rw [leaves_rule hg.ranked hr.1, hr.2]
  refine leaves_eq_some_iff.2 ⟨.nil,
    match_of_word hchar hword (fun v hv hlonger _ => hwords v hv hlonger) horder ?_⟩
  exact Spelled.head_of_apart (hwords word hword List.prefix_rfl)
    (by rw [heq]; exact List.cons_ne_nil c v) ht

end Words

end SnippetGrammar

end FeatureTree
