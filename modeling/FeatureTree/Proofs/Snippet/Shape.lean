import FeatureTree.Proofs.Language.Summaries
import FeatureTree.Proofs.Snippet.Parse

/-!
# The shape of parsed snippets

Every node of a parsed tree has the shape of its kind, at any depth. The
default constraints ask no more of a root than its shape gives, with a single
exception: a declaration without variables has a name only if its type is
tagged.
-/

namespace FeatureTree

section Parsed

variable {text : String} {t : Target} {strict : Bool} {n : Node}

theorem SnippetGrammar.read_allShaped {R : Type} [BEq R] {g : SnippetGrammar R}
    {language : Language} {summary : R → Summary} (hg : ∀ r, g.fits language summary r = true)
    {input : List Char} {production : Production} {boundary : Boundary}
    (h : g.read language input production boundary = .ok n) : n.AllShaped language := by
  obtain ⟨entry, rest, f, -, hparse, hroot, -⟩ := read_eq_ok_iff.1 h
  exact root_allShaped (run_wellMade hg hparse) hroot

theorem parseSnippet_allShaped (h : parseSnippet text t strict = .ok n) :
    n.AllShaped t.language := by
  obtain ⟨-, hparse, -⟩ := parseSnippet_eq_ok_iff.1 h
  obtain ⟨language, production⟩ := t
  cases language with
  | java => exact SnippetGrammar.read_allShaped Java.fits_summary hparse
  | csharp => exact SnippetGrammar.read_allShaped CSharp.fits_summary hparse
  | c => exact SnippetGrammar.read_allShaped C.fits_summary hparse

/-- Every node of a parsed tree has the shape of its kind. -/
theorem parseSnippet_hasShape (h : parseSnippet text t strict = .ok n) :
    ∀ m ∈ n.preorder, m.HasShape t.language :=
  parseSnippet_allShaped h

/-- The parameter of a method comes after its identifier. -/
theorem parseSnippet_hasShape_method :
    let n : Node := ⟨.method, some "f",
      [.leaf .identifier (some "f") ⟨2, 3⟩, .leaf .parameter (some "x") ⟨4, 7⟩], ⟨0, 9⟩, none⟩
    parseSnippet "A f(B x);" ⟨.java, .method⟩ true = .ok n ∧
      ∀ m ∈ n.preorder, m.HasShape .java := by
  intro n
  have h : parseSnippet "A f(B x);" ⟨.java, .method⟩ true = .ok n :=
    Outcome.eq_ok_of_toOption (by decide +kernel)
  exact ⟨h, parseSnippet_hasShape h⟩

end Parsed

/-! ## The default constraints -/

namespace Constraint

variable {n : Node}

theorem violation?_rootKindIn {production : Production}
    (h : production.accepts n.kind = true) :
    (rootKindIn (Kind.all.filter production.accepts)).violation? n = none := by
  rw [violation?, if_pos]
  exact List.contains_iff_mem.2 (List.mem_filter.2 ⟨n.kind.mem_all, h⟩)

theorem violation?_requireName (h : n.name.isSome = true) :
    requireName.violation? n = none := by
  obtain ⟨name, hname⟩ := Option.isSome_iff_exists.1 h
  rw [violation?, hname]

/-- The identifier is the only child of its kind if what comes after it is of
other kinds. -/
theorem violation?_exactlyOneChild {others : List Node} (h : n.Declares others)
    (hothers : ∀ c ∈ others, c.kind ≠ .identifier) :
    (exactlyOneChild .identifier).violation? n = none := by
  obtain ⟨i, hchildren, hi, -, -⟩ := h
  have hnone : others.filter (·.kind == .identifier) = [] :=
    List.filter_eq_nil_iff.2 fun c hc => by simpa using hothers c hc
  have hone : n.childrenOfKind .identifier = [i] := by
    rw [Node.childrenOfKind, hchildren, List.filter_cons_of_pos (by rw [hi]; rfl), hnone]
  rw [violation?, hone]

theorem violation?_childCount {v : Node} {vs : List Node} {kind : Kind}
    (hchildren : n.children = v :: vs) (hv : v.kind = kind) :
    (childCount kind 1 none).violation? n = none := by
  have hcount : 1 ≤ (n.childrenOfKind kind).length := by
    rw [Node.childrenOfKind, hchildren, List.filter_cons_of_pos (by simp [hv])]
    exact Nat.le_add_left 1 _
  rw [violation?]
  simp [within, hcount]

end Constraint

namespace Node

variable {language : Language} {n : Node}

/-- Nodes with an identifier among their children have it in front, and nothing
else of its kind. -/
theorem HasShape.declares (h : n.HasShape language) (hkind : n.kind.hasIdentifierChild = true) :
    ∃ others, n.Declares others ∧ ∀ c ∈ others, c.kind ≠ .identifier := by
  have hparameter : ∀ {ps : List Node}, (∀ p ∈ ps, p.kind = .parameter) →
      ∀ p ∈ ps, p.kind ≠ .identifier := by
    intro ps hps p hp
    rw [hps p hp]
    decide
  have hmember : ∀ {ms : List Node}, (∀ m ∈ ms, Production.classMember.accepts m.kind = true) →
      ∀ m ∈ ms, m.kind ≠ .identifier := by
    intro ms hms m hm heq
    have := hms m hm
    rw [heq] at this
    cases this
  rw [HasShape] at h
  cases hk : n.kind with
  | method | constructor | function | property =>
      rw [hk] at h
      obtain ⟨ps, hdeclares, hps⟩ := h
      exact ⟨ps, hdeclares, hparameter hps⟩
  | «class» =>
      rw [hk] at h
      obtain ⟨ps, ms, hdeclares, hps, hms, -⟩ := h
      refine ⟨ps ++ ms, hdeclares, fun c hc => ?_⟩
      exact (List.mem_append.1 hc).elim (hparameter hps c) (hmember hms c)
  | interface | struct =>
      rw [hk] at h
      obtain ⟨ms, hdeclares, hms, -⟩ := h
      exact ⟨ms, hdeclares, hmember hms⟩
  | enum =>
      rw [hk] at h
      exact ⟨[], h.1, fun c hc => absurd hc List.not_mem_nil⟩
  | field | declaration | initializer | «variable» | identifier | parameter =>
      rw [hk] at hkind
      cases hkind

theorem Declares.isSome_name {others : List Node} (h : n.Declares others) :
    n.name.isSome = true := by
  obtain ⟨_, -, -, -, hname⟩ := h
  exact hname

theorem AllShaped.isSome_name {c : Node} (h : n.AllShaped language) (hc : c ∈ n.children)
    (hkind : c.kind = .variable) : c.name.isSome = true := by
  have hshape := (allShaped_iff.1 ((allShaped_iff.1 h).2 c hc)).1
  rw [HasShape, hkind] at hshape
  exact hshape.2

/-- A variable among the children would have given its name to the declaration. -/
theorem AllShaped.children_eq_nil_of_unnamed (h : n.AllShaped language)
    (hkind : n.kind = .declaration) (hname : n.name = none) : n.children = [] := by
  have hshape := (allShaped_iff.1 h).1
  rw [HasShape, hkind] at hshape
  obtain ⟨hall, hfirst, -⟩ := hshape
  cases hchildren : n.children with
  | nil => rfl
  | cons v vs =>
      have hmem : v ∈ n.children := hchildren ▸ List.mem_cons_self
      have hv := h.isSome_name hmem (hall v hmem)
      rw [← hfirst v vs hchildren, hname] at hv
      cases hv

end Node

section Validation

variable {V : Type} [Validator V] {n : Node}

/-- A root with an identifier in front passes what is asked of it. -/
theorem findSome?_declares {language : Language} {production : Production}
    (h : n.HasShape language) (hkind : production.accepts n.kind = true)
    (hid : n.kind.hasIdentifierChild = true) :
    [Constraint.rootKindIn (Kind.all.filter production.accepts), .exactlyOneChild .identifier,
      .requireName].findSome? (·.violation? n) = none := by
  obtain ⟨others, hothers, hne⟩ := h.declares hid
  simp [Constraint.violation?_rootKindIn hkind, Constraint.violation?_exactlyOneChild hothers hne,
    Constraint.violation?_requireName hothers.isSome_name]

/-- Which default constraint is violated by a tree that has the right shape:
none, unless it is a declaration with neither variables nor a name. -/
theorem violation?_forProduction {language : Language} {production : Production}
    (h : n.AllShaped language) (hkind : production.accepts n.kind = true) :
    (ConstraintSet.forProduction production : ConstraintSet V).violation? n =
      if production = .declaration ∧ n.children = [] ∧ n.name = none then
        some ⟨"declaration has no name", n.span⟩
      else none := by
  have hroot := Constraint.violation?_rootKindIn hkind
  have hshape := (Node.allShaped_iff.1 h).1
  simp only [ConstraintSet.violation?, ConstraintSet.forProduction, ConstraintSet.ofList,
    List.findSome?_nil, Option.or_none]
  cases production with
  | classMember | externalDeclaration => simp [Constraint.defaults, hroot]
  | method | constructor | function | property =>
      have hid : n.kind.hasIdentifierChild = true := by rw [beq_iff_eq.1 hkind]; rfl
      exact findSome?_declares hshape hkind hid
  | type =>
      have hid : n.kind.hasIdentifierChild = true := by
        cases hk : n.kind <;> rw [hk] at hkind <;> first | rfl | cases hkind
      exact findSome?_declares hshape hkind hid
  | field =>
      rw [Node.HasShape, beq_iff_eq.1 hkind] at hshape
      obtain ⟨v, vs, hchildren, hall, hname, -⟩ := hshape
      have hmem : v ∈ n.children := hchildren ▸ List.mem_cons_self
      have hv := h.isSome_name hmem (hall v hmem)
      simp [Constraint.defaults, hroot, Constraint.violation?_childCount hchildren (hall v hmem),
        Constraint.violation?_requireName (hname ▸ hv)]
  | declaration =>
      have hk := beq_iff_eq.1 hkind
      simp only [Constraint.defaults, List.findSome?_cons, hroot, List.findSome?_nil]
      cases hn : n.name with
      | some name => simp [Constraint.violation?, hn]
      | none =>
          have hchildren := h.children_eq_nil_of_unnamed hk hn
          rw [if_pos ⟨trivial, hchildren, rfl⟩]
          simp only [Constraint.violation?, hn, hk]
          rfl

/-- A parsed snippet satisfies the default constraints of its production. The
one exception is a declaration with neither variables nor a tag. -/
theorem parseSnippet_validate {text : String} {t : Target} {strict : Bool}
    (h : parseSnippet text t strict = .ok n) :
    (ConstraintSet.forProduction t.production : ConstraintSet V).validate n =
      if t.production = .declaration ∧ n.children = [] ∧ n.name = none then
        .error ⟨"declaration has no name", n.span⟩
      else .ok () := by
  have hkind := (parseSnippet_eq_ok_iff.1 h).2.2
  rw [ConstraintSet.validate, violation?_forProduction (parseSnippet_allShaped h) hkind]
  by_cases hexception : t.production = .declaration ∧ n.children = [] ∧ n.name = none
  · rw [if_pos hexception, if_pos hexception]
  · rw [if_neg hexception, if_neg hexception]

/-- The exception: an enum without a tag and without variables. -/
theorem parseSnippet_validate_enum :
    parseSnippet "enum\x7b\x7d;" ⟨.c, .declaration⟩ true =
        .ok (.leaf .declaration none ⟨0, 7⟩) ∧
      (ConstraintSet.forProduction .declaration : ConstraintSet Empty).validate
          (.leaf .declaration none ⟨0, 7⟩) =
        .error ⟨"declaration has no name", ⟨0, 7⟩⟩ := by
  have h : parseSnippet "enum\x7b\x7d;" ⟨.c, .declaration⟩ true =
      .ok (.leaf .declaration none ⟨0, 7⟩) := Outcome.eq_ok_of_toOption (by decide +kernel)
  exact ⟨h, parseSnippet_validate h⟩

end Validation

end FeatureTree
