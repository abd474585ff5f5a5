import FeatureTree.Proofs.Node.Walk
import FeatureTree.Session.Callers

/-!
# What a set of constraints accepts

Each constraint has a reading that says nothing of how it is checked (`Constraint.Holds`), and
where it does not hold, a place that is to blame (`Constraint.Blames`). A set accepts a tree
if all of its members do, and otherwise reports the first one that does not
(`ConstraintSet.validate_members`). So the order of members decides what is reported, and
never whether anything is.

Validators are compared as objects. That two of them are the same object says that they
answer alike, and nothing more is asked of their equality.
-/

namespace FeatureTree

namespace Constraint

/-- What a constraint asks of a tree. -/
def Holds (root : Node) : Constraint → Prop
  | .rootKindIn kinds => root.kind ∈ kinds
  | .exactlyOneChild kind => root.children.countP (·.kind == kind) = 1
  | .childCount kind min max =>
    min ≤ root.children.countP (·.kind == kind) ∧
      ∀ bound ∈ max, root.children.countP (·.kind == kind) ≤ bound
  | .forbidKind kind => ∀ n, root.Below n → n.kind ≠ kind
  | .signatureOnly => root.body = none
  | .requireBody => root.body ≠ none
  | .requireName => root.name ≠ none

/-- Where a tree violates a constraint. -/
inductive Blames (root : Node) : Constraint → Span → Prop
  | rootKindIn (kinds : List Kind) : Blames root (.rootKindIn kinds) root.span
  | noChild {kind : Kind} (h : root.children.filter (·.kind == kind) = []) :
      Blames root (.exactlyOneChild kind) root.span
  | secondChild {kind : Kind} {first second : Node} {more : List Node}
      (h : root.children.filter (·.kind == kind) = first :: second :: more) :
      Blames root (.exactlyOneChild kind) second.span
  | childCount (kind : Kind) (min : Nat) (max : Option Nat) :
      Blames root (.childCount kind min max) root.span
  | firstBelow {found : Node} {before after : List Node}
      (h : root.preorder = root :: (before ++ found :: after))
      (hbefore : ∀ n ∈ before, n.kind ≠ found.kind) :
      Blames root (.forbidKind found.kind) found.span
  | body {body : Span} (h : root.body = some body) : Blames root .signatureOnly body
  | requireBody : Blames root .requireBody root.span
  | requireName : Blames root .requireName root.span

variable {root : Node} {c : Constraint} {violation : Violation}

theorem countP_eq_length (root : Node) (kind : Kind) :
    root.children.countP (·.kind == kind) = (root.childrenOfKind kind).length :=
  List.countP_eq_length_filter

theorem within_iff {count min : Nat} {max : Option Nat} :
    within count min max = true ↔ min ≤ count ∧ ∀ bound ∈ max, count ≤ bound := by
  cases max <;> simp [within]

/-- A constraint is violated where it does not hold. -/
theorem violation?_eq_none_iff : c.violation? root = none ↔ c.Holds root := by
  cases c with
  | rootKindIn kinds =>
      rw [violation?, Holds, ← List.contains_iff_mem]
      cases kinds.contains root.kind <;> simp
  | exactlyOneChild kind =>
      rw [violation?, Holds, countP_eq_length]
      rcases root.childrenOfKind kind with _ | ⟨first, _ | ⟨second, more⟩⟩ <;> simp
  | childCount kind min max =>
      rw [violation?, Holds, countP_eq_length, ← within_iff]
      cases within (root.childrenOfKind kind).length min max <;> simp
  | forbidKind kind =>
      rw [violation?, Holds, Option.map_eq_none_iff, Node.findKind?_eq, List.find?_eq_none]
      simp only [Node.mem_preorderAll_children, beq_iff_eq, ne_eq]
  | signatureOnly =>
      rw [violation?, Holds, Option.map_eq_none_iff]
  | requireBody =>
      rw [violation?, Holds]
      cases root.body <;> simp
  | requireName =>
      rw [violation?, Holds]
      cases root.name <;> simp

/-- The violation of a constraint is at the place that is to blame. -/
theorem blames_of_violation? (h : c.violation? root = some violation) :
    c.Blames root violation.span := by
  cases c with
  | rootKindIn kinds =>
      rw [violation?] at h
      split at h
      · cases h
      · cases h
        exact .rootKindIn kinds
  | exactlyOneChild kind =>
      rw [violation?] at h
      split at h
      · next hnone =>
          cases h
          exact .noChild hnone
      · cases h
      · next hmore =>
          cases h
          exact .secondChild hmore
  | childCount kind min max =>
      simp only [violation?] at h
      split at h
      · cases h
      · cases h
        exact .childCount kind min max
  | forbidKind kind =>
      rw [violation?, Option.map_eq_some_iff] at h
      obtain ⟨found, hfound, rfl⟩ := h
      rw [Node.findKind?_eq, List.find?_eq_some_iff_append] at hfound
      obtain ⟨hkind, before, after, hsplit, hbefore⟩ := hfound
      obtain rfl := eq_of_beq hkind
      refine .firstBelow (by rw [Node.preorder_eq, hsplit]) fun n hn => ?_
      simpa using hbefore n hn
  | signatureOnly =>
      rw [violation?, Option.map_eq_some_iff] at h
      obtain ⟨body, hbody, rfl⟩ := h
      exact .body hbody
  | requireBody =>
      rw [violation?] at h
      split at h
      · cases h
      · cases h
        exact .requireBody
  | requireName =>
      rw [violation?] at h
      split at h
      · cases h
      · cases h
        exact .requireName

end Constraint

namespace ConstraintSet

variable {V : Type} [Validator V]

/-- How a tree violates a member of a set, a constraint or a validator, if it does. -/
def memberViolation? (root : Node) : Constraint ⊕ V → Option Violation
  | .inl c => c.violation? root
  | .inr v => Validator.violation? v root

/-- The members of a set in the order in which they are checked. -/
def members (set : ConstraintSet V) : List (Constraint ⊕ V) :=
  set.constraints.map .inl ++ set.custom.map .inr

variable {set other : ConstraintSet V} {root : Node} {violation : Violation}

theorem violation?_eq_findSome? (set : ConstraintSet V) (root : Node) :
    set.violation? root = set.members.findSome? (memberViolation? root) := by
  rw [members, List.findSome?_append, List.findSome?_map, List.findSome?_map]
  rfl

theorem validate_eq_ok : set.validate root = .ok () ↔ set.violation? root = none := by
  rw [validate]
  cases set.violation? root <;> simp

theorem validate_eq_error :
    set.validate root = .error violation ↔ set.violation? root = some violation := by
  rw [validate]
  cases set.violation? root <;> simp

theorem validate_eq_ok_iff :
    set.validate root = .ok () ↔
      (∀ c ∈ set.constraints, c.Holds root) ∧
        ∀ v ∈ set.custom, Validator.violation? v root = none := by
  rw [validate_eq_ok, violation?, Option.or_eq_none_iff, List.findSome?_eq_none_iff,
    List.findSome?_eq_none_iff]
  simp only [Constraint.violation?_eq_none_iff]

theorem validate_eq_error_iff :
    set.validate root = .error violation ↔
      ∃ before member after, set.members = before ++ member :: after ∧
        (∀ m ∈ before, memberViolation? root m = none) ∧
        memberViolation? root member = some violation := by
  rw [validate_eq_error, violation?_eq_findSome?, List.findSome?_eq_some_iff]
  constructor
  · rintro ⟨before, member, after, hsplit, hmember, hbefore⟩
    exact ⟨before, member, after, hsplit, hbefore, hmember⟩
  · rintro ⟨before, member, after, hsplit, hbefore, hmember⟩
    exact ⟨before, member, after, hsplit, hmember, hbefore⟩

/-- Validators that are the same one by one give the same first violation. -/
theorem findSome?_custom_eq [BEq V]
    (hsame : ∀ v w : V, (v == w) = true → Validator.violation? v = Validator.violation? w)
    {vs ws : List V} (hlength : vs.length = ws.length)
    (hall : (vs.zip ws).all (fun (v, w) => v == w) = true) :
    vs.findSome? (Validator.violation? · root) = ws.findSome? (Validator.violation? · root) := by
  induction vs generalizing ws with
  | nil =>
      cases ws with
      | nil => rfl
      | cons w ws => cases hlength
  | cons v vs ih =>
      cases ws with
      | nil => cases hlength
      | cons w ws =>
          rw [List.zip_cons_cons, List.all_cons, Bool.and_eq_true_iff] at hall
          obtain ⟨hv, hvs⟩ := hall
          rw [List.findSome?_cons, List.findSome?_cons, hsame v w hv, ih (Nat.succ.inj hlength) hvs]

/-- Equal sets have the same violation. -/
theorem violation?_of_beq [BEq V]
    (hsame : ∀ v w : V, (v == w) = true → Validator.violation? v = Validator.violation? w)
    (h : (set == other) = true) : set.violation? root = other.violation? root := by
  have hparts : ConstraintSet.beq set other = true := h
  rw [ConstraintSet.beq, Bool.and_eq_true_iff, Bool.and_eq_true_iff] at hparts
  obtain ⟨⟨hconstraints, hlength⟩, hcustom⟩ := hparts
  rw [violation?, violation?, eq_of_beq hconstraints,
    findSome?_custom_eq hsame (eq_of_beq hlength) hcustom]

/-- A set accepts a tree if every constraint holds and every validator accepts, whatever the
order of the members and however often they are there. Otherwise it reports what the first
member that rejects the tree does: of a constraint, a violation at the place that is to
blame. Sets that compare as equal answer alike. -/
theorem validate_members [BEq V]
    (hsame : ∀ v w : V, (v == w) = true → Validator.violation? v = Validator.violation? w)
    (set : ConstraintSet V) (root : Node) :
    (set.validate root = .ok () ↔
      (∀ c ∈ set.constraints, c.Holds root) ∧
        ∀ v ∈ set.custom, Validator.violation? v root = none) ∧
    (∀ other : ConstraintSet V, (∀ c, c ∈ other.constraints ↔ c ∈ set.constraints) →
      (∀ v, v ∈ other.custom ↔ v ∈ set.custom) →
      (other.validate root = .ok () ↔ set.validate root = .ok ())) ∧
    (∀ violation, set.validate root = .error violation ↔
      ∃ before member after, set.members = before ++ member :: after ∧
        (∀ m ∈ before, memberViolation? root m = none) ∧
        memberViolation? root member = some violation) ∧
    (∀ c violation, memberViolation? (V := V) root (.inl c) = some violation →
      c.Blames root violation.span) ∧
    ∀ other : ConstraintSet V, (set == other) = true → other.validate root = set.validate root := by
  refine ⟨validate_eq_ok_iff, fun other hconstraints hcustom => ?_,
    fun violation => validate_eq_error_iff, fun c violation => Constraint.blames_of_violation?,
    fun other heq => ?_⟩
  · simp only [validate_eq_ok_iff, hconstraints, hcustom]
  · rw [validate, validate, violation?_of_beq hsame heq]

/-- The name is reserved too, but the field two levels down comes first. -/
theorem validate_members_field :
    let root : Node := ⟨.class, some "A",
      [.leaf .identifier (some "A") ⟨6, 7⟩,
        ⟨.class, some "B", [.leaf .field (some "x") ⟨18, 24⟩], ⟨8, 26⟩, none⟩], ⟨0, 28⟩, none⟩
    let set : ConstraintSet ReservedName := ⟨[.requireName, .forbidKind .field], [⟨"A"⟩]⟩
    (∀ v w : ReservedName, (v == w) = true → Validator.violation? v = Validator.violation? w) ∧
      set.validate root = .error ⟨"field is not allowed inside a class", ⟨18, 24⟩⟩ ∧
      Constraint.Blames root (.forbidKind .field) ⟨18, 24⟩ ∧
      (set == ⟨[.requireName, .forbidKind .field], [⟨"A"⟩]⟩) = true := by
  intro root set
  have hsame : ∀ v w : ReservedName, (v == w) = true →
      Validator.violation? v = Validator.violation? w := fun v w h => by rw [eq_of_beq h]
  obtain ⟨-, -, herror, hblames, -⟩ := validate_members hsame set root
  have hfield : memberViolation? (V := ReservedName) root (.inl (.forbidKind .field)) =
      some ⟨"field is not allowed inside a class", ⟨18, 24⟩⟩ := by decide +kernel
  refine ⟨hsame, (herror _).2 ⟨[.inl .requireName], _, [.inr ⟨"A"⟩], rfl, ?_, hfield⟩,
    hblames _ _ hfield, rfl⟩
  exact List.forall_mem_singleton.2 rfl

end ConstraintSet

end FeatureTree
