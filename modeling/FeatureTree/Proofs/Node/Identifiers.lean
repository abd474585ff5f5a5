import FeatureTree.Proofs.Exchange.Variables
import FeatureTree.Proofs.Grammar.Calls
import FeatureTree.Proofs.Grammar.Whitespace

/-!
# Names and the spans of identifiers

A name is what its rule took, all of it. The span of the identifier loses the blanks and
comments at the end of that, so the two agree as long as no end of a name reads like blanks
and comments. Where some does, the span cuts out the front of the name.

Every node of a tree is an identifier or is made by a match somewhere in the text
(`MadeBy`), and its identifier stands for one of the names recorded inside that match
(`MadeBy.identifier`). Which rules can have recorded the name is read off the bodies of the
rules: names are looked for through rules without a role, and no further.
-/

namespace FeatureTree

/-- The rules that an expression calls where matches are recorded. -/
def Expr.mentions {R : Type} : Expr R → List R
  | .text _ | .char _ | .ahead _ | .notAhead _ => []
  | .rule r => [r]
  | .both a b | .either a b => a.mentions ++ b.mentions
  | .opt a | .star a => a.mentions

/-- The rules of the records, without those inside them. -/
def Forest.rules {R : Type} : Forest R → List R
  | .nil => []
  | .cons r _ _ _ next => r :: next.rules

@[simp] theorem Forest.rules_append {R : Type} (f g : Forest R) :
    (f ++ g).rules = f.rules ++ g.rules := by
  induction f with
  | nil => rfl
  | cons r before after inner next _ ih => simp [rules, ih]

namespace Grammar

variable {R : Type} {g : Grammar R} {r : R} {l : Layout} {s t before after : List Char}
  {f inner : Forest R} {rs : List R}

theorem many_rules {step : Matcher R} (hstep : ∀ s t f, step s = some (t, f) → f.rules ⊆ rs)
    {bound : List Char} (h : many step bound s = (t, f)) : f.rules ⊆ rs := by
  induction bound generalizing s f with
  | nil =>
      cases h
      exact List.nil_subset rs
  | cons b bound ih =>
      rw [many] at h
      split at h
      · cases h
        exact List.nil_subset rs
      · next s' f' hs =>
          cases h
          rw [Forest.rules_append]
          exact List.append_subset.2 ⟨hstep s s' f' hs, ih rfl⟩

/-- Only rules that the expression calls are recorded. -/
theorem eval_rules {skip : List Char → List Char} {call : R → Layout → Matcher R} {e : Expr R}
    (hcall : ∀ r s t f, call r l s = some (t, f) → f.rules ⊆ [r])
    (h : eval skip call e l s = some (t, f)) : f.rules ⊆ e.mentions := by
  induction e generalizing s t f with
  | text word =>
      obtain ⟨-, rfl⟩ := eval_text_eq_some.1 h
      exact List.nil_subset _
  | char accepts =>
      obtain ⟨c, -, -, rfl⟩ := eval_char_eq_some.1 h
      exact List.nil_subset _
  | rule r => exact hcall r s t f h
  | both a b iha ihb =>
      obtain ⟨u, f₁, f₂, ha, hb, rfl⟩ := eval_both_eq_some.1 h
      rw [Forest.rules_append]
      exact List.append_subset.2 ⟨List.subset_append_of_subset_left _ (iha ha),
        List.subset_append_of_subset_right _ (ihb hb)⟩
  | either a b iha ihb =>
      obtain ha | ⟨-, hb⟩ := eval_either_eq_some.1 h
      · exact List.subset_append_of_subset_left _ (iha ha)
      · exact List.subset_append_of_subset_right _ (ihb hb)
  | opt a iha =>
      obtain ha | ⟨-, -, rfl⟩ := eval_opt_eq_some.1 h
      · exact iha ha
      · exact List.nil_subset _
  | star a iha =>
      obtain ⟨-, -, rfl⟩ | ⟨u, f₁, f₂, ha, hmany, rfl⟩ := eval_star_eq_some.1 h
      · exact List.nil_subset _
      · rw [Forest.rules_append]
        exact List.append_subset.2 ⟨iha ha, many_rules (fun _ _ _ ht => iha ht) hmany⟩
  | ahead a _ =>
      obtain ⟨-, -, rfl⟩ := eval_ahead_eq_some.1 h
      exact List.nil_subset _
  | notAhead a _ =>
      obtain ⟨-, -, rfl⟩ := eval_notAhead_eq_some.1 h
      exact List.nil_subset _

theorem matchRule_rules (hg : g.Ranked) (h : g.matchRule r l s = some (t, f)) :
    f.rules ⊆ [r] := by
  obtain ⟨inner, -, rfl⟩ := (matchRule_eq_some_iff hg).1 h
  rw [record]
  split
  · exact List.Subset.refl [r]
  · exact List.nil_subset [r]

/-- Directly inside a match stand rules that its body calls. -/
theorem Matched.rules (hg : g.Ranked) (h : g.Matched r before after inner) :
    inner.rules ⊆ (g.body r).mentions := by
  obtain ⟨l, hmatch⟩ := h
  obtain ⟨inner', hbody, hrecord⟩ := (matchRule_eq_some_iff hg).1 hmatch
  rw [record] at hrecord
  split at hrecord
  · cases hrecord
    exact eval_rules (fun _ _ _ _ => matchRule_rules hg) hbody
  · cases hrecord

theorem Matched.within (hg : g.Ranked) (h : g.Matched r before after inner) :
    inner.Within before after := by
  obtain ⟨l, hmatch⟩ := h
  exact (run_within hg hmatch).2.1

theorem Matched.all (hg : g.Ranked) (h : g.Matched r before after inner) :
    inner.All g.Matched := by
  obtain ⟨l, hmatch⟩ := h
  exact (matchRule_matched hg hmatch).2.1

/-- Each record inside a match is a match in the same text. -/
theorem Matched.inside (hg : g.Ranked) (h : g.Matched r before after inner) :
    inner.All fun r before' after' inner' =>
      before' <:+ before ∧ g.Matched r before' after' inner' :=
  (h.within hg).all (fun _ _ _ _ hbefore _ hmatched => ⟨hbefore, hmatched⟩) (h.all hg)

end Grammar

namespace Trivia

variable {t : Trivia} {u v : List Char}

/-- Nothing is trimmed off a text if nothing is trimmed off its end, and no comment begins in
front of that. -/
theorem trim_front (ht : t.Lawful)
    (hu : ∀ c ∈ u, ∀ s, t.piece? (c :: s) = none ∨ t.piece? (c :: s) = some s)
    (hv : v ≠ []) (htrim : t.trim v = v) : t.trim (u ++ v) = u ++ v := by
  have hkept : ∀ {w}, w ≠ [] → t.trim w = w → t.isTrivia w = false := by
    intro w hne hw
    refine Bool.eq_false_iff.2 fun h => hne ?_
    rw [← hw, trim_of_isTrivia h]
  induction u with
  | nil => exact htrim
  | cons c u ih =>
      have hmore := ih fun d hd => hu d (List.mem_cons_of_mem c hd)
      have hne : u ++ v ≠ [] := List.append_ne_nil_of_right_ne_nil u hv
      have hcons : t.isTrivia (c :: (u ++ v)) = false := by
        rcases hu c List.mem_cons_self (u ++ v) with hnone | hsome
        · rw [isTrivia, skip_of_none hnone]
          rfl
        · rw [isTrivia_of_piece ht hsome]
          exact hkept hne hmore
      rw [List.cons_append, trim, hcons, hmore]
      rfl

end Trivia

namespace Node

/-- The span of the identifier cuts its name out of the text. -/
def CutsName (text : List Char) (i : Node) : Prop :=
  ∃ name, i.name = some name ∧ i.span.slice? text = some name.toList

/-- The span of the identifier cuts out a text that its name begins with. -/
def CutsFront (text : List Char) (i : Node) : Prop :=
  ∃ name cut, i.name = some name ∧ i.span.slice? text = some cut ∧ cut <+: name.toList

end Node

namespace SnippetGrammar

open Grammar

variable {R : Type} {g : SnippetGrammar R} {total : Nat} {kind : Kind} {r : R}
  {f inner : Forest R} {d : Draft} {n p i : Node} {text before after : List Char}
  {P : R → List Char → List Char → Forest R → Prop}

/-- The records that can name the node around them. -/
def named (g : SnippetGrammar R) : Forest R → List (R × List Char × List Char)
  | .nil => []
  | .cons r before after inner next =>
    (match g.role r with
      | .name => [(r, before, after)]
      | .transparent => g.named inner
      | _ => []) ++ g.named next

@[simp] theorem named_nil : g.named .nil = [] := rfl

@[simp] theorem named_cons : g.named (.cons r before after inner f) =
    (match g.role r with
      | .name => [(r, before, after)]
      | .transparent => g.named inner
      | _ => []) ++ g.named f := rfl

@[simp] theorem named_append (f f' : Forest R) : g.named (f ++ f') = g.named f ++ g.named f' := by
  induction f with
  | nil => rfl
  | cons r before after inner next _ ih => simp [ih]

theorem names_eq_named : g.names f = (g.named f).map fun m => Forest.taken m.2.1 m.2.2 := by
  induction f with
  | nil => rfl
  | cons r before after inner next ihInner ihNext =>
      rw [names, named_cons, List.map_append, ihNext]
      cases hrole : g.role r with
      | transparent => rw [← ihInner]
      | name | node _ | fallbackName | body | hidden => rfl

/-- Behind parts that are hidden, the token that names is the first to be recorded. -/
theorem head_named (hg : g.Ranked) {parts : List R} (hparts : ∀ q ∈ parts, g.role q = .hidden)
    (hrole : g.role r = .name) (hlayout : g.layout r = .token) {e : Expr R} {l : Layout}
    (hl : l.records = true) {s t : List Char}
    (h : g.matchExpr (parts.foldr (fun q => .both (.rule q)) (.both (.rule r) e)) l s =
      some (t, f)) :
    ∃ before after more, before <:+ s ∧ g.leaves (.rule r) before = some after ∧
      g.named f = (r, before, after) :: more := by
  induction parts generalizing s f with
  | nil =>
      obtain ⟨u, f₁, f₂, hname, -, rfl⟩ := matchExpr_both_iff.1 h
      have hleaves : g.leaves (.rule r) s = some u := by
        rw [leaves_rule hg hlayout, ← map_matchRule_token hg hlayout l,
          show g.matchRule r l s = _ from hname]
        rfl
      obtain ⟨inner, -, rfl⟩ := (matchRule_eq_some_iff hg).1 hname
      have hrecords : (l.around (g.layout r)).records = true := by rw [hlayout]; exact hl
      refine ⟨s, u, g.named f₂, List.suffix_refl s, hleaves, ?_⟩
      rw [named_append, record, if_pos hrecords, named_cons, hrole]
      rfl
  | cons q parts ih =>
      obtain ⟨hq, hmore⟩ := List.forall_mem_cons.1 hparts
      obtain ⟨u, f₁, f₂, hpart, hrest, rfl⟩ := matchExpr_both_iff.1 h
      obtain ⟨before, after, more, hbefore, hleaves, hnamed⟩ := ih hmore hrest
      have hsuffix : g.between l u <:+ s :=
        (gap_suffix (Trivia.skip_suffix hg.lawful) l u).trans (matchExpr_suffix hg hpart)
      have hnone : g.named f₁ = [] := by
        obtain ⟨inner, -, rfl⟩ := (matchRule_eq_some_iff hg).1 hpart
        rw [record]
        split
        · rw [named_cons, hq]
          rfl
        · rfl
      exact ⟨before, after, more, hbefore.trans hsuffix, hleaves,
        by rw [named_append, hnone, hnamed, List.nil_append]⟩

theorem all_named (hf : f.All P) {m : R × List Char × List Char} (hm : m ∈ g.named f) :
    g.role m.1 = .name ∧ ∃ inner, P m.1 m.2.1 m.2.2 inner := by
  induction f with
  | nil => cases hm
  | cons r before after inner next ihInner ihNext =>
      obtain ⟨hr, hinner, hnext⟩ := hf
      rw [named_cons, List.mem_append] at hm
      rcases hm with hm | hm
      · cases hrole : g.role r with
        | name =>
            rw [hrole] at hm
            obtain rfl := List.mem_singleton.1 hm
            exact ⟨hrole, inner, hr⟩
        | transparent =>
            rw [hrole] at hm
            exact ihInner hinner hm
        | node _ | fallbackName | body | hidden =>
            rw [hrole] at hm
            cases hm
      · exact ihNext hnext hm

/-- Names are looked for through rules without a role, and no further. -/
theorem rules_of_named (hf : f.All fun r _ _ inner => inner.rules ⊆ (g.body r).mentions)
    {m : R × List Char × List Char} (hm : m ∈ g.named f) :
    m.1 ∈ f.rules ∨ ∃ r, g.role r = .transparent ∧ m.1 ∈ (g.body r).mentions := by
  induction f with
  | nil => cases hm
  | cons r before after inner next ihInner ihNext =>
      obtain ⟨hr, hinner, hnext⟩ := hf
      rw [named_cons, List.mem_append] at hm
      rcases hm with hm | hm
      · cases hrole : g.role r with
        | name =>
            rw [hrole] at hm
            obtain rfl := List.mem_singleton.1 hm
            exact .inl List.mem_cons_self
        | transparent =>
            rw [hrole] at hm
            exact .inr ((ihInner hinner hm).elim (fun h => ⟨r, hrole, hr h⟩) id)
        | node _ | fallbackName | body | hidden =>
            rw [hrole] at hm
            cases hm
      · exact (ihNext hnext hm).imp_left (List.mem_cons_of_mem r)

/-- The identifier that stands for the name that a record has taken. -/
def identifierOf (g : SnippetGrammar R) (total : Nat) (m : R × List Char × List Char) : Node :=
  .leaf .identifier (some (String.ofList (Forest.taken m.2.1 m.2.2))) (g.spanOf total m.2.1 m.2.2)

/-- The identifiers among the children stand for recorded names. -/
theorem identifier_of_contribute (hkinds : ∀ r, g.role r ≠ .node .identifier)
    (hi : i ∈ (g.contribute total kind f d).children) (hkind : i.kind = .identifier) :
    i ∈ d.children ++ (g.named f).map (g.identifierOf total) := by
  induction f generalizing d with
  | nil => exact List.mem_append_left _ hi
  | cons r before after inner next ihInner ihNext =>
      rw [contribute] at hi
      rw [named_cons, List.map_append, ← List.append_assoc, List.mem_append]
      refine (List.mem_append.1 (ihNext hi)).imp_left fun hmem => ?_
      cases hrole : g.role r with
      | node k =>
          rw [hrole] at hmem
          rcases List.mem_append.1 hmem with hmem | hmem
          · exact List.mem_append_left _ hmem
          · rw [List.mem_singleton.1 hmem] at hkind
            exact absurd (hrole.trans (congrArg Role.node hkind)) (hkinds r)
      | name =>
          rw [hrole] at hmem
          dsimp only at hmem
          rw [Draft.addName] at hmem
          split at hmem
          · exact List.mem_append_left _ hmem
          · dsimp only at hmem
            split at hmem
            · exact hmem
            · exact List.mem_append_left _ hmem
      | transparent =>
          rw [hrole] at hmem
          exact ihInner hmem
      | fallbackName | body | hidden =>
          rw [hrole] at hmem
          exact List.mem_append_left _ hmem

/-- A node that has an identifier has one, for the first name that is recorded. -/
theorem identifiers_contribute (hkinds : ∀ r, g.role r ≠ .node .identifier)
    (hkind : kind.hasIdentifierChild = true) :
    (g.contribute total kind f d).children.filter (·.kind == .identifier) =
      d.children.filter (·.kind == .identifier) ++
        if d.name = none then ((g.named f).head?.map (g.identifierOf total)).toList else [] := by
  induction f generalizing d with
  | nil => simp [contribute]
  | cons r before after inner next ihInner ihNext =>
      rw [contribute, ihNext, named_cons]
      cases hrole : g.role r with
      | node k =>
          have hother : ∀ m : Node, m.kind = k → [m].filter (·.kind == .identifier) = [] := by
            rintro m rfl
            refine List.filter_cons_of_neg fun heq => hkinds r ?_
            rw [hrole, beq_iff_eq.1 heq]
          show List.filter _ (d.children ++ [_]) ++ _ = _
          rw [List.filter_append, hother _ rfl, List.append_nil]
          rfl
      | name =>
          dsimp only
          rw [Draft.addName]
          cases hname : d.name with
          | some name => simp [hname]
          | none =>
              simp only [hkind, if_true, reduceCtorEq, if_false, List.append_nil]
              show List.filter _ (d.children ++ [_]) = _
              rw [List.filter_append]
              rfl
      | transparent =>
          dsimp only
          rw [ihInner, contribute_name, names_eq_named]
          cases hname : d.name with
          | some name => simp
          | none =>
              cases g.named inner with
              | nil => simp
              | cons m ms => simp
      | fallbackName | body | hidden => rfl

/-- What holds of the nodes that records make and of identifiers, holds of all nodes that are
contributed. -/
theorem contribute_everywhere {Q : Node → Prop}
    (hleaf : ∀ name span, Q (.leaf .identifier (some name) span))
    (hf : f.All fun r before after inner => ∀ kind, g.role r = .node kind →
      Q (g.nodeOf total kind before after inner))
    (hd : ∀ m ∈ Node.preorderAll d.children, Q m) :
    ∀ m ∈ Node.preorderAll (g.contribute total kind f d).children, Q m := by
  induction f generalizing kind d with
  | nil => exact hd
  | cons r before after inner next ihInner ihNext =>
      obtain ⟨hr, hinner, hnext⟩ := hf
      rw [contribute]
      refine ihNext hnext ?_
      have hadd : ∀ {c : Node}, (∀ m ∈ c.preorder, Q m) →
          ∀ m ∈ Node.preorderAll (d.addChild c).children, Q m := by
        intro c hc
        rw [Draft.addChild, Node.preorderAll_append, Node.preorderAll, Node.preorderAll,
          List.append_nil]
        exact List.forall_mem_append.2 ⟨hd, hc⟩
      cases hrole : g.role r with
      | node k =>
          refine hadd ?_
          rw [Draft.finish, Node.preorder]
          exact List.forall_mem_cons.2 ⟨hr k hrole, ihInner hinner (List.forall_mem_nil _)⟩
      | name =>
          dsimp only
          rw [Draft.addName]
          split
          · exact hd
          · dsimp only
            split
            · refine hadd ?_
              rw [Node.leaf, Node.preorder]
              exact List.forall_mem_singleton.2 (hleaf _ _)
            · exact hd
      | transparent => exact ihInner hinner hd
      | fallbackName | body | hidden => exact hd

/-- The node is made by a match of the rule somewhere in the text. -/
def MadeBy (g : SnippetGrammar R) (text : List Char) (r : R) (n : Node) : Prop :=
  ∃ kind before after inner, g.role r = .node kind ∧ before <:+ text ∧
    g.Matched r before after inner ∧ n = g.nodeOf (Text.byteLength text) kind before after inner

/-- All nodes below a node that a match makes are made by matches, but for identifiers. -/
theorem MadeBy.everywhere (hg : g.Ranked) (h : g.MadeBy text r n) :
    ∀ m ∈ n.preorder, (∃ r, g.MadeBy text r m) ∨
      ∃ name span, m = .leaf .identifier (some name) span := by
  obtain ⟨kind, before, after, inner, hrole, hbefore, hmatched, rfl⟩ := h
  rw [nodeOf, Draft.finish, Node.preorder]
  refine List.forall_mem_cons.2 ⟨.inl ⟨r, kind, before, after, inner, hrole, hbefore, hmatched,
    rfl⟩, contribute_everywhere (fun name span => .inr ⟨name, span, rfl⟩) ?_
      (List.forall_mem_nil _)⟩
  refine (hmatched.within hg).all ?_ (hmatched.all hg)
  intro r' before' after' inner' hbefore' _ hmatched' kind' hrole'
  exact .inl ⟨r', kind', before', after', inner', hrole', hbefore'.trans hbefore, hmatched', rfl⟩

/-- The identifier of a node that a match makes stands for a name that its rule calls for, or a
rule without a role does. -/
theorem MadeBy.identifier (hg : g.Ranked) (hkinds : ∀ r, g.role r ≠ .node .identifier)
    (h : g.MadeBy text r p) (hi : i ∈ p.children) (hkind : i.kind = .identifier) :
    ∃ k before after inner, g.role k = .name ∧
      (k ∈ (g.body r).mentions ∨ ∃ q, g.role q = .transparent ∧ k ∈ (g.body q).mentions) ∧
      before <:+ text ∧ g.Matched k before after inner ∧
      i = g.identifierOf (Text.byteLength text) (k, before, after) := by
  obtain ⟨kind, before₀, after₀, inner₀, -, hbefore₀, hmatched₀, rfl⟩ := h
  obtain ⟨⟨k, before, after⟩, hm, rfl⟩ :=
    List.mem_map.1 (identifier_of_contribute hkinds hi hkind)
  obtain ⟨hrole, inner, hbefore, hmatched⟩ := all_named (hmatched₀.inside hg) hm
  have hrules : inner₀.All fun r _ _ inner => inner.rules ⊆ (g.body r).mentions :=
    (hmatched₀.within hg).all (fun _ _ _ _ _ _ h => h.rules hg) (hmatched₀.all hg)
  refine ⟨k, before, after, inner, hrole, ?_, hbefore.trans hbefore₀, hmatched, rfl⟩
  exact (rules_of_named hrules hm).imp_left fun h => hmatched₀.rules hg h

/-- An identifier cuts out what trimming leaves of the name. -/
theorem cutsFront_identifierOf (k : R) (hbefore : before <:+ text) (hafter : after <:+ before) :
    (g.identifierOf (Text.byteLength text) (k, before, after)).CutsFront text := by
  refine ⟨_, _, rfl, slice?_spanOf hbefore hafter, ?_⟩
  obtain ⟨tail, htail, -⟩ := g.trivia.trim_append (Forest.taken before after)
  exact ⟨tail, by rw [String.toList_ofList]; exact htail.symm⟩

/-- It cuts out the name if nothing is trimmed off. -/
theorem cutsName_identifierOf (k : R) (hbefore : before <:+ text) (hafter : after <:+ before)
    (htrim : g.trivia.trim (Forest.taken before after) = Forest.taken before after) :
    (g.identifierOf (Text.byteLength text) (k, before, after)).CutsName text := by
  refine ⟨_, rfl, (slice?_spanOf hbefore hafter).trans ?_⟩
  rw [textOf, htrim, String.toList_ofList]

end SnippetGrammar

end FeatureTree
