import FeatureTree.Proofs.Declarators.Tokens
import FeatureTree.Proofs.Node.Contents
import FeatureTree.Proofs.Node.Identifiers

/-!
# What a declaration says of itself

Of a declaration with parameters three things are to be known: its names, its parameters with
theirs, and its implementation text. They come from different parts, so each part is read with
what it adds (`Reads`), as it is with the names alone where there are no parameters (`Takes`). A
part in which every rule is hidden or a name adds no parameter (`Takes.reads`). The last part
ends at a known place, and what is left of the text there is blanks (`ReadsTo`).
-/

namespace FeatureTree

open scoped Tokens

/-- The names, the names of the parameters, and the implementation texts that records contribute. -/
structure Outline where
  names : List (List Char)
  parameters : List (Option (List Char))
  bodies : List (List Char)

namespace Outline

/-- Nothing is contributed. -/
def empty : Outline := ⟨[], [], []⟩

/-- One contribution behind the other. -/
def append (o o' : Outline) : Outline :=
  ⟨o.names ++ o'.names, o.parameters ++ o'.parameters, o.bodies ++ o'.bodies⟩

instance : Append Outline := ⟨append⟩

variable {o : Outline}

theorem append_def (o o' : Outline) :
    o ++ o' = ⟨o.names ++ o'.names, o.parameters ++ o'.parameters, o.bodies ++ o'.bodies⟩ := rfl

@[simp] theorem empty_append (o : Outline) : empty ++ o = o := rfl

@[simp] theorem append_empty (o : Outline) : o ++ empty = o := by
  simp [append_def, empty]

end Outline

namespace SnippetGrammar

open Grammar

variable {R : Type} {g : SnippetGrammar R} {isWordChar : Char → Bool} {a b e : Expr R} {r : R}
  {kind : Kind} {tokens tokens' rest names : List (List Char)} {token s t u v w : List Char}
  {f f' : Forest R} {o o' : Outline}

/-- What is recorded directly is hidden, a name or a text. -/
def Role.isFlat : Role → Bool
  | .node _ | .transparent => false
  | _ => true

theorem nodesOf_eq_nil (h : ∀ r ∈ f.rules, Role.isFlat (g.role r) = true) :
    g.nodesOf kind f = [] := by
  induction f with
  | nil => rfl
  | cons r before after inner next _ ih =>
      obtain ⟨hr, hnext⟩ := List.forall_mem_cons.1 h
      rw [nodesOf, ih hnext, List.append_nil]
      cases hrole : g.role r with
      | node k =>
          rw [hrole] at hr
          cases hr
      | transparent =>
          rw [hrole] at hr
          cases hr
      | name | fallbackName | body | hidden => rfl

/-- What records contribute. -/
def outline (g : SnippetGrammar R) (f : Forest R) : Outline :=
  ⟨g.names f, (g.nodesOf .parameter f).map fun m => (g.names m.2.2).head?, (g.bodies f).map g.textOf⟩

@[simp] theorem outline_append (f f' : Forest R) :
    g.outline (f ++ f') = g.outline f ++ g.outline f' := by
  simp [outline, Outline.append_def]

/-- In front of the rest the expression takes the tokens, and this is what it contributes. -/
def Reads (g : SnippetGrammar R) (isWordChar : Char → Bool) (e : Expr R)
    (tokens : List (List Char)) (o : Outline) (rest : List (List Char)) : Prop :=
  ∀ ⦃s⦄, Spelled isWordChar (tokens ++ rest) s →
    ∃ t u f, Spelled isWordChar rest t ∧
      g.matchExpr e .spaced (g.between .spaced s) = some (u, f) ∧
      g.between .spaced u = g.between .spaced t ∧ g.outline f = o

/-- The expression is matched at the first of the tokens. It contributes this, and leaves a known
end of the text. -/
def ReadsTo (g : SnippetGrammar R) (isWordChar : Char → Bool) (e : Expr R)
    (tokens : List (List Char)) (o : Outline) (u : List Char) : Prop :=
  ∀ ⦃s⦄, Spelled isWordChar tokens s →
    ∃ f, g.matchExpr e .spaced (g.between .spaced s) = some (u, f) ∧ g.outline f = o

/-- No parameter is recorded where no rule is looked through and none makes a node. -/
theorem Takes.reads (hg : g.Spaced) (h : g.Takes isWordChar e tokens names rest)
    (he : ∀ r ∈ e.mentions, Role.isFlat (g.role r) = true) :
    g.Reads isWordChar e tokens ⟨names, [], []⟩ rest := by
  intro s hs
  obtain ⟨t, u, f, ht, hmatch, hsame, hnames, hbodies⟩ := h hs
  have hrules : f.rules ⊆ e.mentions := eval_rules (fun _ _ _ _ => matchRule_rules hg.ranked) hmatch
  refine ⟨t, u, f, ht, hmatch, hsame, ?_⟩
  rw [outline, hnames, hbodies, nodesOf_eq_nil fun r hr => he r (hrules hr)]
  rfl

/-- A parameter has the name that is recorded inside it. -/
theorem Takes.parameter (hg : g.Spaced) (hr : g.layout r = .spaced)
    (hrole : g.role r = .node .parameter) (h : g.Takes isWordChar (g.body r) tokens names rest) :
    g.Reads isWordChar (.rule r) tokens ⟨[], [names.head?], []⟩ rest := by
  intro s hs
  obtain ⟨t, u, f, ht, hmatch, hsame, hnames, -⟩ := h hs
  refine ⟨t, u, _, ht, match_of_body hg.ranked hr hmatch, hsame, ?_⟩
  simp only [outline, SnippetGrammar.names, nodesOf, bodies, hrole, if_true, List.append_nil,
    List.map_cons, List.map_nil, hnames]

/-- A token that names what is around it. -/
theorem takes_nameToken (hg : g.Spaced) (hr : g.layout r = .token) (hrole : g.role r = .name)
    (htoken : IsToken token)
    (hleaves : ∀ t, (∀ c ∈ token.getLast?, ∀ d ∈ t.head?, (isWordChar c && isWordChar d) = false) →
      g.leaves (.rule r) (token ++ t) = some t) :
    g.Takes isWordChar (.rule r) [token] [token] rest := by
  intro s hs
  obtain ⟨t, ht, hrest, hapart⟩ := hs.between hg htoken
  obtain ⟨f, hmatch⟩ := match_of_leaves hg.ranked hr .spaced (hleaves t hapart)
  refine ⟨t, t, f, hrest, by rw [ht]; exact hmatch, rfl, ?_⟩
  obtain ⟨inner, -, rfl⟩ := (matchRule_eq_some_iff hg.ranked).1 hmatch
  have hrecords : (Layout.spaced.around (g.layout r)).records = true := by rw [hr]; rfl
  simp only [record, if_pos hrecords, SnippetGrammar.names, bodies, hrole, Forest.taken_append,
    List.append_nil, and_self]

/-- What is left out contributes nothing. -/
theorem Refuses.reads_opt (hg : g.Spaced) (h : g.Refuses isWordChar e rest) :
    g.Reads isWordChar (.opt e) [] .empty rest :=
  fun s hs => ⟨s, _, .nil, hs, matchExpr_opt_none (h hs), between_between hg.ranked, rfl⟩

theorem Reads.opt (h : g.Reads isWordChar e tokens o rest) :
    g.Reads isWordChar (.opt e) tokens o rest := by
  intro s hs
  obtain ⟨t, u, f, ht, hmatch, hmore⟩ := h hs
  exact ⟨t, u, f, ht, matchExpr_opt hmatch, hmore⟩

theorem Reads.both (ha : g.Reads isWordChar a tokens o (tokens' ++ rest))
    (hb : g.Reads isWordChar b tokens' o' rest) :
    g.Reads isWordChar (.both a b) (tokens ++ tokens') (o ++ o') rest := by
  intro s hs
  rw [List.append_assoc] at hs
  obtain ⟨t, u, f, ht, hmatch, hsame, rfl⟩ := ha hs
  obtain ⟨t', u', f', ht', hmatch', hsame', rfl⟩ := hb ht
  exact ⟨t', u', f ++ f', ht', matchExpr_both hmatch (by rw [hsame]; exact hmatch'), hsame',
    outline_append f f'⟩

/-- A rule that is looked through contributes what its body does. -/
theorem Reads.rule (hg : g.Spaced) (hr : g.layout r = .spaced) (hrole : g.role r = .transparent)
    (h : g.Reads isWordChar (g.body r) tokens o rest) :
    g.Reads isWordChar (.rule r) tokens o rest := by
  intro s hs
  obtain ⟨t, u, f, ht, hmatch, hsame, rfl⟩ := h hs
  refine ⟨t, u, _, ht, match_of_body hg.ranked hr hmatch, hsame, ?_⟩
  simp only [outline, SnippetGrammar.names, nodesOf, bodies, hrole, List.append_nil]

/-- The last part of a sequence says where the match ends. -/
theorem Reads.readsTo (ha : g.Reads isWordChar a tokens o rest)
    (hb : g.ReadsTo isWordChar b rest o' u) :
    g.ReadsTo isWordChar (.both a b) (tokens ++ rest) (o ++ o') u := by
  intro s hs
  obtain ⟨t, v, f, ht, hmatch, hsame, rfl⟩ := ha hs
  obtain ⟨f', hmatch', rfl⟩ := hb ht
  exact ⟨f ++ f', matchExpr_both hmatch (by rw [hsame]; exact hmatch'), outline_append f f'⟩

theorem ReadsTo.left (h : g.ReadsTo isWordChar a tokens o u) :
    g.ReadsTo isWordChar (.either a b) tokens o u := by
  intro s hs
  obtain ⟨f, hmatch, ho⟩ := h hs
  exact ⟨f, matchExpr_left hmatch, ho⟩

/-- An implementation text at the end of the text. -/
theorem readsTo_text (hg : g.Spaced) (hr : g.layout r = .token) (hrole : g.role r = .body)
    (htoken : IsToken w) (hleaves : g.leaves (.rule r) (w ++ t) = some t) :
    g.ReadsTo isWordChar (.rule r) [w ++ t] ⟨[], [], [g.trivia.trim w]⟩ t := by
  intro s hs
  have htoken' : IsToken (w ++ t) := by
    obtain ⟨c, v, rfl, hc⟩ := htoken
    exact ⟨c, v ++ t, rfl, hc⟩
  obtain ⟨v, hv, hnil, -⟩ := hs.between hg htoken'
  cases hnil
  rw [List.append_nil] at hv
  obtain ⟨f, hmatch⟩ := match_of_leaves hg.ranked hr .spaced hleaves
  refine ⟨f, by rw [hv]; exact hmatch, ?_⟩
  obtain ⟨inner, -, rfl⟩ := (matchRule_eq_some_iff hg.ranked).1 hmatch
  have hrecords : (Layout.spaced.around (g.layout r)).records = true := by rw [hr]; rfl
  simp only [record, if_pos hrecords, outline, SnippetGrammar.names, nodesOf, bodies, hrole,
    List.append_nil, List.map_cons, List.map_nil, textOf, Forest.taken_append]

end SnippetGrammar

end FeatureTree
