import FeatureTree.Proofs.Grammar.Beginnings
import FeatureTree.Proofs.Grammar.Words
import FeatureTree.Proofs.Snippet.Root

/-!
# The rules that a production tries

The entry rule of a production tries rules at one place, and those that are looked
through try others in turn. Written out in order (`alternatives`), the first that matches
makes the root (`read_eq_ok_iff_tried`). So a production reads as another does whose rules
come in another order, as long as no rule that comes earlier now matches at that place.
-/

namespace FeatureTree

section First

variable {α β : Type} [BEq α] [LawfulBEq α] {f : α → Option β} {a : α} {as : List α} {b : β}

theorem takeWhile_append_of_mem (h : a ∈ as) : ∃ bs, as = as.takeWhile (· != a) ++ a :: bs := by
  obtain ⟨front, bs, rfl, hfront⟩ := List.eq_append_cons_of_mem h
  refine ⟨bs, ?_⟩
  rw [List.takeWhile_append_of_pos fun b hb => ?_]
  · simp
  · rw [bne_iff_ne]
    rintro rfl
    exact hfront hb

theorem findSome?_eq_some_iff_takeWhile :
    as.findSome? f = some b ↔
      ∃ a ∈ as, f a = some b ∧ ∀ c ∈ as.takeWhile (· != a), f c = none := by
  constructor
  · intro h
    obtain ⟨front, a, back, rfl, ha, hfront⟩ := List.findSome?_eq_some_iff.1 h
    refine ⟨a, by simp, ha, fun c hc => ?_⟩
    rw [List.takeWhile_append_of_pos fun d hd => ?_] at hc
    · simp at hc
      exact hfront c hc
    · rw [bne_iff_ne]
      rintro rfl
      rw [hfront d hd] at ha
      cases ha
  · rintro ⟨a, ha, hb, hfront⟩
    obtain ⟨back, hsplit⟩ := takeWhile_append_of_mem ha
    exact List.findSome?_eq_some_iff.2 ⟨_, a, back, hsplit, hb, hfront⟩

end First

namespace Expr

variable {R : Type}

/-- The rules that a choice tries, where `f` writes out those that are looked through. -/
def alternatives (f : R → List R) : Expr R → List R
  | .rule r => f r
  | .either a b => a.alternatives f ++ b.alternatives f
  | _ => []

end Expr

namespace SnippetGrammar

variable {R : Type} {g : SnippetGrammar R}

/-- The rules that make nodes and are tried where a rule is. -/
def nodeRules (g : SnippetGrammar R) : Nat → R → List R
  | 0, _ => []
  | n + 1, r =>
    match g.role r with
    | .node _ => [r]
    | _ => (g.body r).alternatives (g.nodeRules n)

/-- The rules that a production tries, in order. -/
def alternatives (g : SnippetGrammar R) (production : Production) : List R :=
  match (g.entry production).map g.body with
  | some (.both _ e) => e.alternatives (g.nodeRules 3)
  | _ => []

/-- The root that a rule makes at the front of a text. -/
def rootAt (g : SnippetGrammar R) (total : Nat) (s : List Char) (r : R) : Option Node :=
  (g.matchRule r .spaced s).bind fun found => g.root? total found.2

/-- The match of the expression makes the root of the first rule that matches. -/
structure Tries (g : SnippetGrammar R) (e : Expr R) (rules : List R) : Prop where
  found : ∀ total s rest f, g.matchExpr e .spaced s = some (rest, f) →
    ∃ n, g.root? total f = some n ∧ rules.findSome? (g.rootAt total s) = some n
  failed : ∀ total s, g.matchExpr e .spaced s = none →
    rules.findSome? (g.rootAt total s) = none

theorem tries_choice {c : R → Bool} {rules : R → List R} {e : Expr R}
    (he : e.isChoice c = true) (hrules : ∀ r, c r = true → g.Tries (.rule r) (rules r)) :
    g.Tries e (e.alternatives rules) := by
  induction e with
  | rule r => exact hrules r he
  | either a b iha ihb =>
      rw [Expr.isChoice, Bool.and_eq_true] at he
      have ha := iha he.1
      have hb := ihb he.2
      constructor
      · intro total s rest f h
        rw [Expr.alternatives, List.findSome?_append]
        obtain hleft | ⟨hnone, hright⟩ := Grammar.matchExpr_either_iff.1 h
        · obtain ⟨n, hroot, hn⟩ := ha.found total s rest f hleft
          exact ⟨n, hroot, by rw [hn, Option.some_or]⟩
        · obtain ⟨n, hroot, hn⟩ := hb.found total s rest f hright
          exact ⟨n, hroot, by rw [ha.failed total s hnone, Option.none_or, hn]⟩
      · intro total s h
        obtain ⟨hleft, hright⟩ := Grammar.matchExpr_either_eq_none.1 h
        rw [Expr.alternatives, List.findSome?_append, ha.failed total s hleft,
          hb.failed total s hright]
        rfl
  | _ => cases he

/-- A rule that makes a node is the only one that is tried. -/
theorem tries_node (hg : g.Ranked) {n : Nat} {r : R} {kind : Kind}
    (hr : g.makesNode (n + 1) r = true) (hrole : g.role r = .node kind) :
    g.Tries (.rule r) (g.nodeRules (n + 1) r) := by
  have hrules : g.nodeRules (n + 1) r = [r] := by rw [nodeRules, hrole]
  rw [hrules]
  constructor
  · intro total s rest f h
    obtain ⟨r', k, inner, -, -, hroot⟩ := root?_of_makesNode hg hr h
    refine ⟨_, hroot total, ?_⟩
    rw [List.findSome?_singleton, rootAt, show g.matchRule r .spaced s = _ from h, Option.bind_some,
      hroot]
  · intro total s h
    rw [List.findSome?_singleton, rootAt, show g.matchRule r .spaced s = none from h,
      Option.bind_none]

/-- Where a rule is looked through, the rules are tried that its body tries. -/
theorem tries_transparent (hg : g.Ranked) {r : R} {rules : List R}
    (hlayout : g.layout r = .spaced) (hrole : g.role r = .transparent)
    (hbody : g.Tries (g.body r) rules) : g.Tries (.rule r) rules := by
  constructor
  · intro total s rest f h
    obtain ⟨inner, hinner, rfl⟩ := (Grammar.matchRule_eq_some_iff hg).1 h
    rw [hlayout] at hinner
    obtain ⟨m, hroot, hm⟩ := hbody.found total s rest inner hinner
    refine ⟨m, ?_, hm⟩
    rw [Grammar.record, if_pos (by rw [hlayout]; rfl), root?, hrole]
    simp only [hroot, Option.some_or]
  · intro total s h
    rw [show g.matchExpr (.rule r) .spaced s = g.matchRule r .spaced s from rfl,
      Grammar.matchRule_eq hg, Option.map_eq_none_iff, hlayout] at h
    exact hbody.failed total s h

theorem tries_nodeRules (hg : g.Ranked) {n : Nat} {r : R} (hr : g.makesNode n r = true) :
    g.Tries (.rule r) (g.nodeRules n r) := by
  induction n generalizing r with
  | zero => cases hr
  | succ n ih =>
      obtain ⟨hlayout, hmakes⟩ := Bool.and_eq_true_iff.1 hr
      rw [beq_iff_eq] at hlayout
      cases hrole : g.role r with
      | node kind => exact tries_node hg hr hrole
      | transparent =>
          rw [hrole] at hmakes
          have hrules : g.nodeRules (n + 1) r = (g.body r).alternatives (g.nodeRules n) := by
            rw [nodeRules, hrole]
          rw [hrules]
          exact tries_transparent hg hlayout hrole (tries_choice hmakes fun r hr => ih hr)
      | name | fallbackName | body | hidden =>
          rw [hrole] at hmakes
          cases hmakes

theorem tries_entry (hg : g.Regular) {production : Production} {entry : R}
    (hentry : g.entry production = some entry) :
    g.role entry = .transparent ∧ ∃ e, g.Enters entry e ∧ g.Tries e (g.alternatives production) := by
  obtain ⟨htransparent, e, henters, hchoice⟩ := hg.entries production entry hentry
  refine ⟨htransparent, e, henters, ?_⟩
  rw [alternatives, hentry, Option.map_some, henters.2]
  exact tries_choice hchoice fun r hr => tries_nodeRules hg.ranked hr

section Read

variable [BEq R] {language : Language} {input : List Char} {production other : Production}
  {boundary : Boundary} {n : Node}

/-- A text is read as the root of the first rule of the production that matches. -/
theorem read_eq_ok_iff_tried (hg : g.Regular) :
    g.read language input production boundary = .ok n ↔
      (g.alternatives production).findSome?
          (g.rootAt (Text.byteLength input) (g.trivia.skip input)) = some n ∧
        (boundary = .strict → g.checkTrailing input n = .ok ()) := by
  rw [read_eq_ok_iff]
  constructor
  · rintro ⟨entry, rest, f, hentry, hparse, hroot, hcheck⟩
    refine ⟨?_, hcheck⟩
    obtain ⟨htransparent, e, henters, htries⟩ := tries_entry hg hentry
    rw [Grammar.parse_entry hg.ranked henters] at hparse
    obtain ⟨⟨rest', inner⟩, hmatch, heq⟩ := Option.map_eq_some_iff.1 hparse
    cases heq
    obtain ⟨m, hm, hfirst⟩ := htries.found (Text.byteLength input) _ _ _ hmatch
    rw [root?, htransparent, hm] at hroot
    cases hroot
    exact hfirst
  · rintro ⟨hfirst, hcheck⟩
    cases hentry : g.entry production with
    | none => rw [alternatives, hentry] at hfirst; cases hfirst
    | some entry =>
        obtain ⟨htransparent, e, henters, htries⟩ := tries_entry hg hentry
        cases hmatch : g.matchExpr e .spaced (g.between .spaced input) with
        | none => cases (htries.failed _ _ hmatch).symm.trans hfirst
        | some found =>
            obtain ⟨rest, f⟩ := found
            obtain ⟨m, hm, hm'⟩ := htries.found (Text.byteLength input) _ _ _ hmatch
            cases hm'.symm.trans hfirst
            refine ⟨entry, rest, .cons entry input rest f .nil, rfl, ?_, ?_, hcheck⟩
            · rw [Grammar.parse_entry hg.ranked henters, hmatch]
              rfl
            · rw [root?, htransparent]
              simp only [hm, Option.some_or]

end Read

/-! ## Productions that try the same rules -/

section Transfer

variable {r : R} {kind : Kind} {s : List Char} {n : Node}

/-- A rule that makes a node makes the root wherever it matches. -/
theorem rootAt_of_match (hg : g.Ranked) (hr : g.role r = .node kind)
    (h : (g.matchRule r .spaced s).isSome = true) (total : Nat) :
    ∃ n, g.rootAt total s r = some n ∧ n.kind = kind := by
  obtain ⟨⟨rest, f⟩, hmatch⟩ := Option.isSome_iff_exists.1 h
  obtain ⟨inner, -, rfl⟩ := (Grammar.matchRule_eq_some_iff hg).1 hmatch
  have hrecords : (Layout.spaced.around (g.layout r)).records = true := by
    cases g.layout r <;> rfl
  rw [rootAt, hmatch, Option.bind_some, Grammar.record, if_pos hrecords, root?, hr]
  exact ⟨_, rfl, rfl⟩

theorem match_of_rootAt (hg : g.Ranked) (hr : g.role r = .node kind) {total : Nat}
    (h : g.rootAt total s r = some n) : (g.matchRule r .spaced s).isSome = true ∧ n.kind = kind := by
  have hmatch : (g.matchRule r .spaced s).isSome = true := by
    cases hrule : g.matchRule r .spaced s with
    | none => rw [rootAt, hrule] at h; cases h
    | some found => rfl
  obtain ⟨m, hm, hkind⟩ := rootAt_of_match hg hr hmatch total
  cases hm.symm.trans h
  exact ⟨hmatch, hkind⟩

/-- Where the first rule matches, the second does not. -/
def Excludes (g : SnippetGrammar R) (r r' : R) : Prop :=
  ∀ s, g.between .spaced s = s → (g.matchRule r .spaced s).isSome = true →
    g.matchRule r' .spaced s = none

/-- What a rule asks for after its first part. -/
def tail (g : SnippetGrammar R) (r : R) : Expr R :=
  match g.body r with
  | .both _ e => e
  | e => e

/-- The rule begins with another one. -/
structure BeginsWith (g : SnippetGrammar R) (r first : R) : Prop where
  layout : g.layout r = .spaced
  body : g.body r = .both (.rule first) (g.tail r)

theorem BeginsWith.passes {first : R} (hr : g.BeginsWith r first) (hg : g.Ranked)
    {u : List Char} (h : g.Passes (.rule r) s u) :
    ∃ v, g.Passes (.rule first) s v ∧ g.Passes (g.tail r) v u := by
  have hbody := Grammar.passes_body hg hr.layout h
  rw [hr.body] at hbody
  exact Grammar.passes_both hbody

theorem match_none_of_tails (hg : g.Ranked) {first r' : R} (hr : g.BeginsWith r first)
    (hr' : g.BeginsWith r' first) (hmatch : (g.matchRule r .spaced s).isSome = true)
    (h : ∀ {v u x}, g.Passes (.rule first) s v → g.Passes (g.tail r) v u →
      ¬ g.Passes (g.tail r') v x) : g.matchRule r' .spaced s = none := by
  rw [← Option.not_isSome_iff_eq_none]
  intro hmatch'
  obtain ⟨u, hpasses⟩ := Grammar.passes_of_matchRule hmatch
  obtain ⟨u', hpasses'⟩ := Grammar.passes_of_matchRule hmatch'
  obtain ⟨v, hv, htail⟩ := hr.passes hg hpasses
  obtain ⟨v', hv', htail'⟩ := hr'.passes hg hpasses'
  cases hv.unique hv'
  exact h hv htail htail'

/-- Rules that begin alike exclude each other if what comes then tells them apart. -/
theorem excludes_of_tails (hg : g.Ranked) {first r' : R} (hr : g.BeginsWith r first)
    (hr' : g.BeginsWith r' first)
    (h : ∀ {v u x}, g.between .spaced v = v → g.Passes (g.tail r) v u →
      ¬ g.Passes (g.tail r') v x) : g.Excludes r r' :=
  fun _ _ hmatch => match_none_of_tails hg hr hr' hmatch fun hv => h (hv.between hg)

theorem Excludes.symm {r' : R} (h : g.Excludes r r') : g.Excludes r' r := by
  intro s hs hmatch
  rw [← Option.not_isSome_iff_eq_none]
  intro hmatch'
  rw [h s hs hmatch'] at hmatch
  cases hmatch

end Transfer

/-! ## Rules written out make nodes -/

theorem mem_alternatives {f : R → List R} {e : Expr R} {r : R} (h : r ∈ e.alternatives f) :
    ∃ r', r ∈ f r' := by
  induction e with
  | rule r' => exact ⟨r', h⟩
  | either a b iha ihb =>
      rw [Expr.alternatives, List.mem_append] at h
      exact h.elim iha ihb
  | _ => cases h

theorem role_of_mem_nodeRules {n : Nat} {r r' : R} (h : r ∈ g.nodeRules n r') :
    ∃ kind, g.role r = .node kind := by
  induction n generalizing r' with
  | zero => cases h
  | succ n ih =>
      rw [nodeRules] at h
      split at h
      · next kind hrole =>
          cases List.mem_singleton.1 h
          exact ⟨kind, hrole⟩
      · obtain ⟨r₁, h⟩ := mem_alternatives h
        exact ih h

theorem role_of_mem_alternatives {production : Production} {r : R}
    (h : r ∈ g.alternatives production) : ∃ kind, g.role r = .node kind := by
  rw [alternatives] at h
  split at h
  · obtain ⟨r', h⟩ := mem_alternatives h
    exact role_of_mem_nodeRules h
  · cases h

section Agree

variable [DecidableEq R] {language : Language} {input : List Char} {production other : Production}
  {boundary : Boundary} {kind : Kind} {n : Node}

/-- The rules of a kind in the one production are rules of the other, and a rule that comes
earlier there comes earlier in the first as well, or does not match where the rule does. -/
def Agrees (g : SnippetGrammar R) (apart : R → R → Prop) (failing : List R)
    (production other : Production) (kind : Kind) : Prop :=
  ∀ r ∈ g.alternatives production, g.role r = .node kind →
    r ∈ g.alternatives other ∧ ∀ r' ∈ (g.alternatives other).takeWhile (· != r),
      r' ∈ (g.alternatives production).takeWhile (· != r) ∨ apart r r' ∨ r' ∈ failing

instance (apart : R → R → Prop) [DecidableRel apart] (failing : List R) :
    Decidable (g.Agrees apart failing production other kind) :=
  inferInstanceAs (Decidable (∀ r ∈ g.alternatives production, _ → _))

/-- A text is read alike as two productions that agree on the kind of its root. -/
theorem read_of_agrees (hg : g.Regular) {apart : R → R → Prop} {failing : List R}
    (hapart : ∀ r r', apart r r' → g.Excludes r r')
    (hfailing : ∀ r ∈ failing, g.matchRule r .spaced (g.trivia.skip input) = none)
    (hagrees : g.Agrees apart failing production other n.kind)
    (h : g.read language input production boundary = .ok n) :
    g.read language input other boundary = .ok n := by
  obtain ⟨hfirst, hcheck⟩ := (read_eq_ok_iff_tried hg).1 h
  obtain ⟨r, hr, hroot, hbefore⟩ := findSome?_eq_some_iff_takeWhile.1 hfirst
  obtain ⟨kind, hrole⟩ := role_of_mem_alternatives hr
  obtain ⟨hmatch, hkind⟩ := match_of_rootAt hg.ranked hrole hroot
  obtain ⟨hmem, hothers⟩ := hagrees r hr (hkind ▸ hrole)
  refine (read_eq_ok_iff_tried hg).2
    ⟨findSome?_eq_some_iff_takeWhile.2 ⟨r, hmem, hroot, fun r' hr' => ?_⟩, hcheck⟩
  rcases hothers r' hr' with hearlier | hexcluded | hfails
  · exact hbefore r' hearlier
  · have hnone : g.matchRule r' .spaced (g.trivia.skip input) = none :=
      hapart r r' hexcluded _ (Grammar.between_between hg.ranked) hmatch
    rw [rootAt, hnone, Option.bind_none]
  · rw [rootAt, hfailing r' hfails, Option.bind_none]

/-- What is read is the root of a rule of the production that matches. -/
theorem exists_match_of_read (hg : g.Regular)
    (h : g.read language input production boundary = .ok n) :
    ∃ r ∈ g.alternatives production, g.role r = .node n.kind ∧
      (g.matchRule r .spaced (g.trivia.skip input)).isSome = true := by
  obtain ⟨hfirst, -⟩ := (read_eq_ok_iff_tried hg).1 h
  obtain ⟨r, hr, hroot, -⟩ := findSome?_eq_some_iff_takeWhile.1 hfirst
  obtain ⟨kind, hrole⟩ := role_of_mem_alternatives hr
  obtain ⟨hmatch, hkind⟩ := match_of_rootAt hg.ranked hrole hroot
  exact ⟨r, hr, hkind ▸ hrole, hmatch⟩

theorem exists_rule_of_read (hg : g.Regular)
    (h : g.read language input production boundary = .ok n) :
    ∃ r ∈ g.alternatives production, g.role r = .node n.kind := by
  obtain ⟨r, hr, hrole, -⟩ := exists_match_of_read hg h
  exact ⟨r, hr, hrole⟩

/-- No rule matches that comes before all those that make a root of the kind that is read. -/
theorem match_none_of_before (hg : g.Regular) {r : R}
    (h : g.read language input production boundary = .ok n)
    (hbefore : ∀ r' ∈ g.alternatives production, g.role r' = .node n.kind →
      r ∈ (g.alternatives production).takeWhile (· != r')) :
    g.matchRule r .spaced (g.trivia.skip input) = none := by
  obtain ⟨hfirst, -⟩ := (read_eq_ok_iff_tried hg).1 h
  obtain ⟨r', hr', hroot, hnone⟩ := findSome?_eq_some_iff_takeWhile.1 hfirst
  obtain ⟨kind', hrole'⟩ := role_of_mem_alternatives hr'
  have hmem := hbefore r' hr' ((match_of_rootAt hg.ranked hrole' hroot).2 ▸ hrole')
  obtain ⟨kind, hrole⟩ := role_of_mem_alternatives ((List.takeWhile_prefix _).subset hmem)
  rw [← Option.not_isSome_iff_eq_none]
  intro hmatch
  obtain ⟨m, hm, -⟩ := rootAt_of_match hg.ranked hrole hmatch (Text.byteLength input)
  cases (hnone r hmem).symm.trans hm

/-- Where a production reads nothing, none of its rules matches. -/
theorem match_none_of_read (hg : g.Regular)
    (h : ∀ n, g.read language input production .lenient ≠ .ok n) :
    ∀ r ∈ g.alternatives production, g.matchRule r .spaced (g.trivia.skip input) = none := by
  intro r hr
  rw [← Option.not_isSome_iff_eq_none]
  intro hmatch
  obtain ⟨kind, hrole⟩ := role_of_mem_alternatives hr
  obtain ⟨m, hm, -⟩ := rootAt_of_match hg.ranked hrole hmatch (Text.byteLength input)
  obtain ⟨n, hn⟩ : ∃ n, (g.alternatives production).findSome?
      (g.rootAt (Text.byteLength input) (g.trivia.skip input)) = some n := by
    rw [← Option.isSome_iff_exists, List.findSome?_isSome_iff]
    exact ⟨r, hr, by rw [hm]; rfl⟩
  exact h n ((read_eq_ok_iff_tried hg).2 ⟨hn, fun h => nomatch h⟩)

end Agree

end SnippetGrammar

end FeatureTree
