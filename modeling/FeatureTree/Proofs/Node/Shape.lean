import FeatureTree.Node.OfForest
import FeatureTree.Node.Walk
import FeatureTree.Proofs.Grammar.Contributions
import FeatureTree.Target

/-!
# The shape of nodes

What a node of some kind looks like (`Node.HasShape`): which children it has
and in what order, whether it has a name and whether it has a body.

The draft of a node is filled in by one contribution after the other, so its
shape is kept by following how far it has come. A `Progress` says what the
draft holds (`Describes`), and its tracker refuses each contribution that the
kind has no place for. If the records inside a node lead from the empty draft
to a progress that is complete, the node has the shape of its kind; if that
holds of all records, as `WellMade` says, it holds at any depth
(`root_allShaped`).
-/

namespace FeatureTree

namespace Node

/-- The first child is an identifier with the name of the node, and the others
come after it. -/
def Declares (n : Node) (others : List Node) : Prop :=
  ∃ i, n.children = i :: others ∧ i.kind = .identifier ∧ i.name = n.name ∧ n.name.isSome

/-- The node has the shape of its kind. -/
def HasShape (language : Language) (n : Node) : Prop :=
  match n.kind with
  | .method | .constructor | .function | .property =>
    ∃ ps, n.Declares ps ∧ ∀ p ∈ ps, p.kind = .parameter
  | .class =>
    ∃ ps ms, n.Declares (ps ++ ms) ∧ (∀ p ∈ ps, p.kind = .parameter) ∧
      (∀ m ∈ ms, Production.classMember.accepts m.kind = true) ∧ n.body = none
  | .interface | .struct =>
    ∃ ms, n.Declares ms ∧ (∀ m ∈ ms, Production.classMember.accepts m.kind = true) ∧
      n.body = none
  | .enum => n.Declares [] ∧ n.body.isSome
  | .field =>
    ∃ v vs, n.children = v :: vs ∧ (∀ c ∈ n.children, c.kind = .variable) ∧ n.name = v.name ∧
      n.body = none
  | .declaration =>
    (∀ c ∈ n.children, c.kind = .variable) ∧
      (∀ v vs, n.children = v :: vs → n.name = v.name) ∧ n.body = none
  | .initializer => n.children = [] ∧ n.name = none ∧ n.body.isSome
  | .variable => n.children = [] ∧ n.name.isSome
  | .identifier => n.children = [] ∧ n.name.isSome ∧ n.body = none
  | .parameter => n.children = [] ∧ n.body = none ∧ (language ≠ .c → n.name.isSome)

theorem mem_preorderAll {m : Node} {ns : List Node} :
    m ∈ preorderAll ns ↔ ∃ c ∈ ns, m ∈ c.preorder := by
  induction ns with
  | nil => simp [preorderAll]
  | cons n ns ih => simp [preorderAll, ih]

/-- The nodes of a tree are its root and those of the children's trees. -/
theorem mem_preorder {m n : Node} : m ∈ n.preorder ↔ m = n ∨ ∃ c ∈ n.children, m ∈ c.preorder := by
  obtain ⟨kind, name, children, span, body⟩ := n
  rw [preorder, List.mem_cons, mem_preorderAll]

theorem self_mem_preorder (n : Node) : n ∈ n.preorder := mem_preorder.2 (.inl rfl)

/-- What holds of all nodes of a tree holds of its root and of all nodes of the children's
trees. -/
theorem forall_mem_preorder_iff {P : Node → Prop} {n : Node} :
    (∀ m ∈ n.preorder, P m) ↔ P n ∧ ∀ c ∈ n.children, ∀ m ∈ c.preorder, P m := by
  constructor
  · intro h
    exact ⟨h n n.self_mem_preorder, fun c hc m hm => h m (mem_preorder.2 (.inr ⟨c, hc, hm⟩))⟩
  · rintro ⟨hn, hchildren⟩ m hm
    rcases mem_preorder.1 hm with rfl | ⟨c, hc, hm⟩
    · exact hn
    · exact hchildren c hc m hm

/-- Every node of the tree has the shape of its kind. -/
def AllShaped (language : Language) (n : Node) : Prop := ∀ m ∈ n.preorder, m.HasShape language

theorem allShaped_iff {language : Language} {n : Node} :
    n.AllShaped language ↔ n.HasShape language ∧ ∀ c ∈ n.children, c.AllShaped language :=
  forall_mem_preorder_iff

theorem allShaped_identifier (language : Language) (name : String) (span : Span) :
    (leaf .identifier (some name) span).AllShaped language := by
  refine allShaped_iff.2 ⟨⟨rfl, rfl, rfl⟩, fun c hc => ?_⟩
  cases hc

end Node

namespace Kind

/-- Nodes of the kind can have a body. -/
def mayHaveBody : Kind → Bool
  | .method | .constructor | .function | .property | .enum | .initializer | .variable => true
  | _ => false

/-- Nodes of the kind are named by a name of their own. -/
def isNamed (kind : Kind) : Bool :=
  kind.hasIdentifierChild || kind == .variable || kind == .parameter

/-- Nodes of the kind can have parameters. -/
def hasParameters : Kind → Bool
  | .method | .constructor | .function | .property | .class => true
  | _ => false

/-- Nodes of the kind can have members. -/
def hasMembers : Kind → Bool
  | .class | .interface | .struct => true
  | _ => false

/-- Nodes of the kind are lists of variables. -/
def isVariableList (kind : Kind) : Bool := kind == .field || kind == .declaration

end Kind

/-- A draft with a name: its children are the identifier, where the kind has
one, then parameters and then members. -/
structure Draft.Declared (kind : Kind) (word : String) (span : Span) (ps ms : List Node)
    (d : Draft) : Prop where
  isNamed : kind.isNamed = true
  name : d.name = some word
  children : d.children =
    (if kind.hasIdentifierChild then [.leaf .identifier (some word) span] else []) ++ (ps ++ ms)
  parameters : ∀ p ∈ ps, p.kind = .parameter
  members : ∀ m ∈ ms, Production.classMember.accepts m.kind = true
  noParameters : kind.hasParameters = false → ps = []
  noMembers : kind.hasMembers = false → ms = []

/-- What a draft holds so far, apart from its body. -/
inductive Stage
  | nothing
  | named
  | parameters
  | members
  | declarators
  deriving DecidableEq, Repr

namespace Stage

/-- The draft of a node of some kind is at a stage. -/
def Describes (kind : Kind) : Stage → Draft → Prop
  | .nothing, d => d.name = none ∧ d.children = []
  | .named, d => ∃ word span, d.Declared kind word span [] []
  | .parameters, d => ∃ word span ps, d.Declared kind word span ps []
  | .members, d => ∃ word span ps ms, d.Declared kind word span ps ms
  | .declarators, d =>
    kind.isVariableList = true ∧ d.name = none ∧ d.children ≠ [] ∧
      ∀ c ∈ d.children, c.kind = .variable

/-- The stage after a child, if the child may come there. -/
def afterChild (kind : Kind) (stage : Stage) (child : Kind) : Option Stage :=
  match stage with
  | .nothing => if kind.isVariableList ∧ child = .variable then some .declarators else none
  | .declarators => if child = .variable then some .declarators else none
  | .named | .parameters =>
    if kind.hasParameters ∧ child = .parameter then some .parameters
    else if kind.hasMembers ∧ Production.classMember.accepts child then some .members
    else none
  | .members =>
    if kind.hasMembers ∧ Production.classMember.accepts child then some .members else none

end Stage

namespace Draft.Declared

variable {kind : Kind} {word : String} {span : Span} {ps ms : List Node} {d : Draft} {n : Node}

theorem addParameter (h : d.Declared kind word span ps []) (hkind : kind.hasParameters = true)
    (hn : n.kind = .parameter) : (d.addChild n).Declared kind word span (ps ++ [n]) [] where
  isNamed := h.isNamed
  name := h.name
  children := by simp [addChild, h.children]
  parameters := by
    intro p hp
    rcases List.mem_append.1 hp with hp | hp
    · exact h.parameters p hp
    · rwa [List.mem_singleton.1 hp]
  members := h.members
  noParameters := by simp [hkind]
  noMembers := h.noMembers

theorem addMember (h : d.Declared kind word span ps ms) (hkind : kind.hasMembers = true)
    (hn : Production.classMember.accepts n.kind = true) :
    (d.addChild n).Declared kind word span ps (ms ++ [n]) where
  isNamed := h.isNamed
  name := h.name
  children := by simp [addChild, h.children]
  parameters := h.parameters
  members := by
    intro m hm
    rcases List.mem_append.1 hm with hm | hm
    · exact h.members m hm
    · rwa [List.mem_singleton.1 hm]
  noParameters := h.noParameters
  noMembers := by simp [hkind]

theorem finalName (h : d.Declared kind word span ps ms) : d.finalName kind = some word := by
  rw [Draft.finalName, h.name]

theorem declares (h : d.Declared kind word span ps ms) (hkind : kind.hasIdentifierChild = true)
    (s : Span) : (d.finish kind s).Declares (ps ++ ms) := by
  refine ⟨.leaf .identifier (some word) span, ?_, rfl, h.finalName.symm, ?_⟩
  · simp only [Draft.finish, h.children, hkind]
    rfl
  · simp only [Draft.finish, h.finalName]
    rfl

theorem children_eq_nil (h : d.Declared kind word span ps ms)
    (hid : kind.hasIdentifierChild = false) (hps : kind.hasParameters = false)
    (hms : kind.hasMembers = false) : d.children = [] := by
  rw [h.children, hid, h.noParameters hps, h.noMembers hms]
  rfl

end Draft.Declared

/-- A list of variables is named after the first. -/
theorem Draft.finalName_variables {kind : Kind} {d : Draft} {v : Node} {vs : List Node}
    (hkind : kind.isVariableList = true) (hname : d.name = none) (hvs : d.children = v :: vs)
    (hv : v.name.isSome = true) : d.finalName kind = v.name := by
  obtain ⟨word, hword⟩ := Option.isSome_iff_exists.1 hv
  rw [Kind.isVariableList] at hkind
  simp [Draft.finalName, hname, hkind, hvs, hword]

namespace Stage

variable {kind : Kind} {stage stage' : Stage} {d : Draft} {n : Node}

theorem describes_addChild (h : stage.Describes kind d)
    (hstage : stage.afterChild kind n.kind = some stage') :
    stage'.Describes kind (d.addChild n) := by
  have hparameter : ∀ {word span ps}, d.Declared kind word span ps [] →
      kind.hasParameters ∧ n.kind = .parameter → parameters.Describes kind (d.addChild n) :=
    fun hd ⟨hkind, hn⟩ => ⟨_, _, _, hd.addParameter hkind hn⟩
  have hmember : ∀ {word span ps ms}, d.Declared kind word span ps ms →
      kind.hasMembers ∧ Production.classMember.accepts n.kind →
      members.Describes kind (d.addChild n) :=
    fun hd ⟨hkind, hn⟩ => ⟨_, _, _, _, hd.addMember hkind hn⟩
  -- Behind the name and behind parameters the same may come.
  have hbehind : ∀ {word span ps}, d.Declared kind word span ps [] →
      afterChild kind .parameters n.kind = some stage' → stage'.Describes kind (d.addChild n) := by
    intro word span ps hd hafter
    rw [afterChild] at hafter
    split at hafter
    · next hn =>
        cases hafter
        exact hparameter hd hn
    · split at hafter <;> cases hafter
      next hn => exact hmember hd hn
  cases stage with
  | nothing =>
      rw [afterChild] at hstage
      split at hstage <;> cases hstage
      next hn =>
        obtain ⟨hname, hchildren⟩ := h
        refine ⟨hn.1, hname, by simp [Draft.addChild], ?_⟩
        simp [Draft.addChild, hchildren, hn.2]
  | declarators =>
      rw [afterChild] at hstage
      split at hstage <;> cases hstage
      next hn =>
        obtain ⟨hkind, hname, -, hall⟩ := h
        refine ⟨hkind, hname, by simp [Draft.addChild], ?_⟩
        intro c hc
        rcases List.mem_append.1 hc with hc | hc
        · exact hall c hc
        · rwa [List.mem_singleton.1 hc]
  | named =>
      obtain ⟨word, span, hd⟩ := h
      exact hbehind hd hstage
  | parameters =>
      obtain ⟨word, span, ps, hd⟩ := h
      exact hbehind hd hstage
  | members =>
      obtain ⟨word, span, ps, ms, hd⟩ := h
      rw [afterChild] at hstage
      split at hstage <;> cases hstage
      next hn => exact hmember hd hn

/-- The first name leads from the empty draft to a named one. -/
theorem describes_addName (h : nothing.Describes kind d) (hkind : kind.isNamed = true)
    (word : String) (span : Span) : named.Describes kind (d.addName kind word span) := by
  obtain ⟨hname, hchildren⟩ := h
  refine ⟨word, span, hkind, ?_, ?_, by simp, by simp, fun _ => rfl, fun _ => rfl⟩
  · simp [Draft.addName, hname]
  · cases hid : kind.hasIdentifierChild <;>
      simp [Draft.addName, Draft.addChild, hname, hchildren, hid]

theorem Describes.congr {d' : Draft} (h : stage.Describes kind d) (hname : d'.name = d.name)
    (hchildren : d'.children = d.children) : stage.Describes kind d' := by
  have hdeclared : ∀ {word span ps ms}, d.Declared kind word span ps ms →
      d'.Declared kind word span ps ms := fun hd =>
    ⟨hd.isNamed, hname.trans hd.name, hchildren.trans hd.children, hd.parameters, hd.members,
      hd.noParameters, hd.noMembers⟩
  cases stage with
  | nothing | declarators =>
      simp only [Describes] at h ⊢
      rwa [hname, hchildren]
  | named => exact h.imp fun _ => .imp fun _ => hdeclared
  | parameters => exact h.imp fun _ => .imp fun _ => .imp fun _ => hdeclared
  | members => exact h.imp fun _ => .imp fun _ => .imp fun _ => .imp fun _ => hdeclared

/-- A draft with contents is declared, unless it is a list of variables. -/
theorem Describes.declared (h : stage.Describes kind d) (hstage : stage ≠ nothing)
    (hkind : kind.isVariableList = false) : ∃ word span ps ms, d.Declared kind word span ps ms := by
  cases stage with
  | nothing => exact absurd rfl hstage
  | named => obtain ⟨word, span, hd⟩ := h; exact ⟨word, span, [], [], hd⟩
  | parameters => obtain ⟨word, span, ps, hd⟩ := h; exact ⟨word, span, ps, [], hd⟩
  | members => exact h
  | declarators => rw [h.1] at hkind; cases hkind

/-- A list of variables is named after the first, if variables have names. -/
theorem Describes.finalName_declarators {v : Node} {vs : List Node}
    (h : declarators.Describes kind d)
    (hnamed : ∀ c ∈ d.children, c.kind = .variable → c.name.isSome = true)
    (hvs : d.children = v :: vs) : d.finalName kind = v.name := by
  obtain ⟨hkind, hname, -, hall⟩ := h
  have hmem : v ∈ d.children := hvs ▸ List.mem_cons_self
  exact d.finalName_variables hkind hname hvs (hnamed v hmem (hall v hmem))

end Stage

/-- How far a draft has come. -/
structure Progress where
  stage : Stage
  hasBody : Bool
  deriving DecidableEq, Repr

namespace Progress

/-- Nothing has been contributed. -/
def start : Progress := ⟨.nothing, false⟩

/-- The contributions that a draft of a kind has a place for. -/
def tracker (kind : Kind) : Tracker Progress
  | p, .child child => (p.stage.afterChild kind child).map fun stage => { p with stage := stage }
  | p, .name =>
    if kind.isNamed ∧ p.stage = .nothing then some { p with stage := .named } else none
  | p, .fallback => some p
  | p, .body => if kind.mayHaveBody then some { p with hasBody := true } else none

/-- A node is complete. Parameters in C need no name. -/
def isDone (language : Language) (kind : Kind) (p : Progress) : Bool :=
  match kind with
  | .field => p.stage == .declarators
  | .declaration => p.stage == .declarators || p.stage == .nothing
  | .initializer => p.stage == .nothing && p.hasBody
  | .enum => p.stage != .nothing && p.hasBody
  | .parameter => p.stage != .nothing || language == .c
  | .identifier => false
  | _ => p.stage != .nothing

/-- The draft of a node of some kind has come this far. -/
structure Describes (kind : Kind) (p : Progress) (d : Draft) : Prop where
  stage : p.stage.Describes kind d
  body : d.body.isSome = p.hasBody
  mayHaveBody : p.hasBody = true → kind.mayHaveBody = true

variable {kind : Kind} {p p' : Progress} {d : Draft}

theorem describes_empty (kind : Kind) : start.Describes kind .empty :=
  ⟨⟨rfl, rfl⟩, rfl, fun h => by cases h⟩

theorem describes_addChild {n : Node} (h : p.Describes kind d)
    (hp : tracker kind p (.child n.kind) = some p') : p'.Describes kind (d.addChild n) := by
  obtain ⟨stage, hstage, rfl⟩ := Option.map_eq_some_iff.1 hp
  exact ⟨Stage.describes_addChild h.stage hstage, h.body, h.mayHaveBody⟩

theorem describes_addName (h : p.Describes kind d) (hp : tracker kind p .name = some p')
    (word : String) (span : Span) : p'.Describes kind (d.addName kind word span) := by
  rw [tracker] at hp
  split at hp <;> cases hp
  next hkind =>
    have hstage := h.stage
    rw [hkind.2] at hstage
    refine ⟨Stage.describes_addName hstage hkind.1 word span, ?_, h.mayHaveBody⟩
    rw [← h.body, Draft.addName, hstage.1]
    dsimp only
    split <;> rfl

theorem describes_addFallback (h : p.Describes kind d) (hp : tracker kind p .fallback = some p')
    (word : String) : p'.Describes kind (d.addFallback word) := by
  cases hp
  exact ⟨h.stage.congr rfl rfl, h.body, h.mayHaveBody⟩

theorem describes_addBody (h : p.Describes kind d) (hp : tracker kind p .body = some p')
    (span : Span) : p'.Describes kind (d.addBody span) := by
  rw [tracker] at hp
  split at hp <;> cases hp
  next hkind => exact ⟨h.stage.congr rfl rfl, rfl, fun _ => hkind⟩

theorem Describes.body_eq_none (h : p.Describes kind d) (hkind : kind.mayHaveBody = false) :
    d.body = none := by
  have hbody := h.body
  cases hp : p.hasBody with
  | false =>
      rw [hp, Option.isSome_eq_false_iff, Option.isNone_iff_eq_none] at hbody
      exact hbody
  | true =>
      rw [h.mayHaveBody hp] at hkind
      cases hkind

/-- A complete draft makes a node that has the shape of its kind. -/
theorem Describes.hasShape {language : Language} (h : p.Describes kind d)
    (hdone : p.isDone language kind = true)
    (hnamed : ∀ c ∈ d.children, c.kind = .variable → c.name.isSome = true) (s : Span) :
    (d.finish kind s).HasShape language := by
  have hdeclared : kind.isVariableList = false → (p.stage != .nothing) = true →
      ∃ word span ps ms, d.Declared kind word span ps ms :=
    fun hkind hstage => h.stage.declared (by simpa using hstage) hkind
  have hbody := h.body
  have hstage := h.stage
  cases kind with
  | method | constructor | function | property =>
      obtain ⟨word, span, ps, ms, hd⟩ := hdeclared rfl hdone
      have hms := hd.noMembers rfl
      subst hms
      exact ⟨ps, by simpa using hd.declares rfl s, hd.parameters⟩
  | «class» =>
      obtain ⟨word, span, ps, ms, hd⟩ := hdeclared rfl hdone
      exact ⟨ps, ms, hd.declares rfl s, hd.parameters, hd.members, h.body_eq_none rfl⟩
  | interface | struct =>
      obtain ⟨word, span, ps, ms, hd⟩ := hdeclared rfl hdone
      have hps := hd.noParameters rfl
      subst hps
      exact ⟨ms, hd.declares rfl s, hd.members, h.body_eq_none rfl⟩
  | enum =>
      rw [isDone, Bool.and_eq_true] at hdone
      obtain ⟨word, span, ps, ms, hd⟩ := hdeclared rfl hdone.1
      have hps := hd.noParameters rfl
      have hms := hd.noMembers rfl
      subst hps hms
      exact ⟨hd.declares rfl s, hbody.trans hdone.2⟩
  | field =>
      rw [isDone, beq_iff_eq] at hdone
      rw [hdone] at hstage
      obtain ⟨v, vs, hvs⟩ := List.exists_cons_of_ne_nil hstage.2.2.1
      exact ⟨v, vs, hvs, hstage.2.2.2, hstage.finalName_declarators hnamed hvs, h.body_eq_none rfl⟩
  | declaration =>
      rw [isDone, Bool.or_eq_true, beq_iff_eq, beq_iff_eq] at hdone
      rcases hdone with hdone | hdone
      · rw [hdone] at hstage
        exact ⟨hstage.2.2.2, fun v vs hvs => hstage.finalName_declarators hnamed hvs,
          h.body_eq_none rfl⟩
      · rw [hdone] at hstage
        have hnil : (d.finish .declaration s).children = [] := hstage.2
        refine ⟨by simp [hnil], fun v vs hvs => ?_, h.body_eq_none rfl⟩
        rw [hnil] at hvs
        cases hvs
  | initializer =>
      rw [isDone, Bool.and_eq_true, beq_iff_eq] at hdone
      rw [hdone.1] at hstage
      refine ⟨hstage.2, ?_, hbody.trans hdone.2⟩
      simp only [Draft.finish, Draft.finalName, hstage.1]
      rfl
  | «variable» =>
      obtain ⟨word, span, ps, ms, hd⟩ := hdeclared rfl hdone
      exact ⟨hd.children_eq_nil rfl rfl rfl, by simp [Draft.finish, hd.finalName]⟩
  | parameter =>
      refine ⟨?_, h.body_eq_none rfl, fun hlanguage => ?_⟩
      · by_cases hnothing : p.stage = .nothing
        · rw [hnothing] at hstage
          exact hstage.2
        · obtain ⟨word, span, ps, ms, hd⟩ := hstage.declared hnothing rfl
          exact hd.children_eq_nil rfl rfl rfl
      · rw [isDone, Bool.or_eq_true, beq_iff_eq] at hdone
        obtain ⟨word, span, ps, ms, hd⟩ := hdeclared rfl (hdone.resolve_right hlanguage)
        simp [Draft.finish, hd.finalName]
  | identifier => cases hdone

end Progress

namespace SnippetGrammar

variable {R : Type} {g : SnippetGrammar R}

/-- Records lead a draft as far as their contributions are read to. -/
theorem contribute_describes (total : Nat) {kind : Kind} {f : Forest R} {p p' : Progress}
    {d : Draft} (h : p.Describes kind d)
    (hp : (g.contributions f).foldlM (Progress.tracker kind) p = some p') :
    p'.Describes kind (g.contribute total kind f d) := by
  induction f generalizing p p' d with
  | nil => cases hp; exact h
  | cons r before after inner next ihInner ihNext =>
      rw [contributions, List.foldlM_append] at hp
      obtain ⟨p₁, hp₁, hnext⟩ := Option.bind_eq_some_iff.1 hp
      rw [contribute]
      refine ihNext ?_ hnext
      -- One contribution is read in one step, those of a rule without a role in several.
      have hone : ∀ {c}, [c].foldlM (Progress.tracker kind) p = some p₁ →
          Progress.tracker kind p c = some p₁ := fun hc => by simpa using hc
      cases hrole : g.role r with
      | node k => rw [hrole] at hp₁; exact Progress.describes_addChild h (hone hp₁)
      | name => rw [hrole] at hp₁; exact Progress.describes_addName h (hone hp₁) _ _
      | fallbackName => rw [hrole] at hp₁; exact Progress.describes_addFallback h (hone hp₁) _
      | body => rw [hrole] at hp₁; exact Progress.describes_addBody h (hone hp₁) _
      | transparent => rw [hrole] at hp₁; exact ihInner h hp₁
      | hidden => rw [hrole] at hp₁; cases hp₁; exact h

/-- A record of a node is complete: what the records inside it contribute is
read to the end. -/
def WellMade (g : SnippetGrammar R) (language : Language) (r : R) (_ _ : List Char)
    (inner : Forest R) : Prop :=
  ∀ kind, g.role r = .node kind → ∃ p,
    (g.contributions inner).foldlM (Progress.tracker kind) .start = some p ∧
      p.isDone language kind = true

/-- The node of a well-made record has the shape of its kind, and so has every
node below it if its children have. -/
theorem nodeOf_allShaped {language : Language} {total : Nat} {kind : Kind} {r : R}
    {before after : List Char} {inner : Forest R}
    (hr : g.WellMade language r before after inner) (hrole : g.role r = .node kind)
    (hchildren : ∀ c ∈ (g.contribute total kind inner .empty).children, c.AllShaped language) :
    (g.nodeOf total kind before after inner).AllShaped language := by
  obtain ⟨p, hp, hdone⟩ := hr kind hrole
  have hdescribes := contribute_describes total (Progress.describes_empty kind) hp
  refine Node.allShaped_iff.2 ⟨hdescribes.hasShape hdone (fun c hc hkind => ?_) _, hchildren⟩
  have hc := (Node.allShaped_iff.1 (hchildren c hc)).1
  rw [Node.HasShape, hkind] at hc
  exact hc.2

/-- Well-made records contribute children of the right shape, at any depth. -/
theorem contribute_allShaped {language : Language} {total : Nat} {kind : Kind} {f : Forest R}
    {d : Draft} (hf : f.All (g.WellMade language))
    (hd : ∀ c ∈ d.children, c.AllShaped language) :
    ∀ c ∈ (g.contribute total kind f d).children, c.AllShaped language := by
  induction f generalizing kind d with
  | nil => exact hd
  | cons r before after inner next ihInner ihNext =>
      obtain ⟨hr, hinner, hnext⟩ := hf
      rw [contribute]
      refine ihNext hnext ?_
      have hadd : ∀ {n}, n.AllShaped language → ∀ c ∈ (d.addChild n).children,
          c.AllShaped language := by
        intro n hn c hc
        rcases List.mem_append.1 hc with hc | hc
        · exact hd c hc
        · rwa [List.mem_singleton.1 hc]
      cases hrole : g.role r with
      | node k =>
          exact hadd (nodeOf_allShaped hr hrole
            (ihInner hinner fun c hc => nomatch hc))
      | name =>
          dsimp only
          rw [Draft.addName]
          split
          · exact hd
          · dsimp only
            split
            · exact hadd (Node.allShaped_identifier language _ _)
            · exact hd
      | fallbackName => exact hd
      | body => exact hd
      | transparent => exact ihInner hinner hd
      | hidden => exact hd

/-- Every node of the tree that is made from well-made records has the shape of
its kind. -/
theorem root_allShaped {language : Language} {total : Nat} {f : Forest R} {n : Node}
    (hf : f.All (g.WellMade language)) (h : g.root? total f = some n) : n.AllShaped language := by
  induction f with
  | nil => cases h
  | cons r before after inner next ihInner ihNext =>
      obtain ⟨hr, hinner, hnext⟩ := hf
      rw [root?] at h
      cases hrole : g.role r with
      | node kind =>
          rw [hrole] at h
          cases h
          exact nodeOf_allShaped hr hrole
            (contribute_allShaped hinner fun c hc => nomatch hc)
      | transparent =>
          rw [hrole] at h
          rcases Option.or_eq_some_iff.1 h with h | ⟨-, h⟩
          · exact ihInner hinner h
          · exact ihNext hnext h
      | name | fallbackName | body | hidden =>
          rw [hrole] at h
          exact ihNext hnext h

end SnippetGrammar

end FeatureTree
