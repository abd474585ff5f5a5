import FeatureTree.Proofs.Traversal.Roundtrip

/-!
# Reading a canonical text again

The canonical text of a plan that was read can be read again, but it does not
say how the operands of a chain were grouped: they come back grouped to the
left. So the plan that comes back need not be the same. What is the same is the
plan with each chain of operands in one row, which is all there is to a chain.

A row forgets the grouping and nothing else: two predicates with the same rows
are the same once they are grouped to the left (`flatten_eq_iff`). So the canonical
texts of two plans that were read are equal exactly if their rows are
(`Plan.toString_eq_iff`).
-/

namespace FeatureTree.Traversal

/-- A predicate where the operands of a chain stand in one row. -/
inductive Chain
  | position (n : Nat)
  | has (asked : Attribute)
  | compare (asked : Attribute) (comparison : Comparison) (value : String)
  | all (operands : List Chain)
  | any (operands : List Chain)

namespace Chain

/-- What is joined by `and`, in one row. -/
def conjuncts : Chain → List Chain
  | all operands => operands
  | c => [c]

/-- What is joined by `or`, in one row. -/
def disjuncts : Chain → List Chain
  | any operands => operands
  | c => [c]

/-- All of some operands, which are no chain if there is but one. -/
def allOf : List Chain → Chain
  | [c] => c
  | operands => .all operands

/-- Any of some operands, which are no chain if there is but one. -/
def anyOf : List Chain → Chain
  | [c] => c
  | operands => .any operands

end Chain

namespace Predicate

variable {p q : Predicate}

/-- The predicate with the operands of each chain in one row. -/
def flatten : Predicate → Chain
  | .position n => .position n
  | .has asked => .has asked
  | .compare asked comparison value => .compare asked comparison value
  | .and left right => .all (left.flatten.conjuncts ++ right.flatten.conjuncts)
  | .or left right => .any (left.flatten.disjuncts ++ right.flatten.disjuncts)

theorem flatten_and (left right : Predicate) :
    (and left right).flatten = .all (left.flatten.conjuncts ++ right.flatten.conjuncts) := rfl

theorem flatten_or (left right : Predicate) :
    (or left right).flatten = .any (left.flatten.disjuncts ++ right.flatten.disjuncts) := rfl

theorem flatten_andThen (left right : Predicate) :
    (left.andThen right).flatten = (and left right).flatten := by
  induction right with
  | and a b iha _ =>
      rw [andThen, flatten_and, iha, flatten_and, flatten_and, flatten_and]
      simp [Chain.conjuncts]
  | or | position | has | compare => rfl

theorem flatten_orElse (left right : Predicate) :
    (left.orElse right).flatten = (or left right).flatten := by
  induction right with
  | or a b iha _ =>
      rw [orElse, flatten_or, iha, flatten_or, flatten_or, flatten_or]
      simp [Chain.disjuncts]
  | and | position | has | compare => rfl

/-- Grouping to the left moves no operand into another row. -/
theorem flatten_regroup (p : Predicate) : p.regroup.flatten = p.flatten := by
  induction p with
  | and left right ihl ihr => rw [regroup, flatten_andThen, flatten_and, flatten_and, ihl, ihr]
  | or left right ihl ihr => rw [regroup, flatten_orElse, flatten_or, flatten_or, ihl, ihr]
  | position | has | compare => rfl

/-! ## What rows keep

The row of a chain has at least two operands. So a row of one operand is that
operand, and a predicate is known from its row of conjuncts, or of disjuncts. -/

theorem conjuncts_ne_nil (p : Predicate) : p.flatten.conjuncts ≠ [] := by
  induction p with
  | and left right ihl _ => exact List.append_ne_nil_of_left_ne_nil ihl _
  | or | position | has | compare => exact List.cons_ne_nil _ _

theorem disjuncts_ne_nil (p : Predicate) : p.flatten.disjuncts ≠ [] := by
  induction p with
  | or left right ihl _ => exact List.append_ne_nil_of_left_ne_nil ihl _
  | and | position | has | compare => exact List.cons_ne_nil _ _

theorem allOf_conjuncts (p : Predicate) : Chain.allOf p.flatten.conjuncts = p.flatten := by
  cases p with
  | and left right =>
      obtain ⟨c, cs, hl⟩ := List.exists_cons_of_ne_nil (conjuncts_ne_nil left)
      obtain ⟨d, ds, hr⟩ := List.exists_cons_of_ne_nil (conjuncts_ne_nil right)
      rw [flatten_and, Chain.conjuncts, hl, hr]
      cases cs <;> rfl
  | or | position | has | compare => rfl

theorem anyOf_disjuncts (p : Predicate) : Chain.anyOf p.flatten.disjuncts = p.flatten := by
  cases p with
  | or left right =>
      obtain ⟨c, cs, hl⟩ := List.exists_cons_of_ne_nil (disjuncts_ne_nil left)
      obtain ⟨d, ds, hr⟩ := List.exists_cons_of_ne_nil (disjuncts_ne_nil right)
      rw [flatten_or, Chain.disjuncts, hl, hr]
      cases cs <;> rfl
  | and | position | has | compare => rfl

theorem conjuncts_of_not_and (h : p.isAnd = false) : p.flatten.conjuncts = [p.flatten] := by
  cases p with
  | and => cases h
  | or | position | has | compare => rfl

theorem disjuncts_of_not_or (h : p.isOr = false) : p.flatten.disjuncts = [p.flatten] := by
  cases p with
  | or => cases h
  | and | position | has | compare => rfl

/-- Among predicates that are grouped to the left, rows tell all of them apart. -/
theorem eq_of_flatten_eq (hp : p.Grouped) (hq : q.Grouped) (h : p.flatten = q.flatten) :
    p = q := by
  induction p generalizing q with
  | and a b iha ihb =>
      cases q with
      | and a' b' =>
          obtain ⟨hb, hpa, hpb⟩ := forall_parts_and.1 hp
          obtain ⟨hb', hqa, hqb⟩ := forall_parts_and.1 hq
          rw [flatten_and, flatten_and, conjuncts_of_not_and hb, conjuncts_of_not_and hb'] at h
          -- The last operand of the row is the right one, as it is no chain of the same kind.
          obtain ⟨hleft, hright⟩ := List.append_inj' (Chain.all.inj h) rfl
          have hrows := congrArg Chain.allOf hleft
          rw [allOf_conjuncts, allOf_conjuncts] at hrows
          rw [iha hpa hqa hrows, ihb hpb hqb (List.singleton_inj.1 hright)]
      | or | position | has | compare => cases h
  | or a b iha ihb =>
      cases q with
      | or a' b' =>
          obtain ⟨hb, hpa, hpb⟩ := forall_parts_or.1 hp
          obtain ⟨hb', hqa, hqb⟩ := forall_parts_or.1 hq
          rw [flatten_or, flatten_or, disjuncts_of_not_or hb, disjuncts_of_not_or hb'] at h
          obtain ⟨hleft, hright⟩ := List.append_inj' (Chain.any.inj h) rfl
          have hrows := congrArg Chain.anyOf hleft
          rw [anyOf_disjuncts, anyOf_disjuncts] at hrows
          rw [iha hpa hqa hrows, ihb hpb hqb (List.singleton_inj.1 hright)]
      | and | position | has | compare => cases h
  | position | has | compare =>
      cases q <;> cases h
      rfl

/-- Rows say all but how the operands are grouped. -/
theorem flatten_eq_iff : p.flatten = q.flatten ↔ p.regroup = q.regroup := by
  constructor
  · intro h
    rw [← flatten_regroup p, ← flatten_regroup q] at h
    exact eq_of_flatten_eq (grouped_regroup p) (grouped_regroup q) h
  · intro h
    rw [← flatten_regroup p, h, flatten_regroup]

end Predicate

/-- Two functions that tell the same elements apart tell the same lists apart. -/
theorem map_eq_map_iff_of_iff {α β γ : Type} {f : α → β} {g : α → γ}
    (h : ∀ a b, f a = f b ↔ g a = g b) (as bs : List α) :
    as.map f = bs.map f ↔ as.map g = bs.map g := by
  induction as generalizing bs with
  | nil => simp [eq_comm]
  | cons a as ih =>
      cases bs with
      | nil => simp
      | cons b bs => simp [h, ih]

namespace Plan

variable {p q : Plan}

/-- The plan with the operands of each chain in one row. -/
def flatten (p : Plan) : Anchor × List (Axis × NodeTest × List Chain) :=
  (p.anchor, p.steps.map fun s => (s.axis, s.test, s.predicates.map (·.flatten)))

theorem flatten_regroup (p : Plan) : p.regroup.flatten = p.flatten := by
  simp [flatten, regroup, Function.comp_def, Predicate.flatten_regroup]

/-- The canonical text of a plan that was read can be read again. The plan that
comes back has the same text, and it is the same plan up to the grouping of the
operands of its chains. -/
theorem ofString_canonical {text : String} (h : ofString text = .ok p) :
    ∃ q, ofString p.toString = .ok q ∧ q.toString = p.toString ∧ q.flatten = p.flatten :=
  ⟨p.regroup, ofString_toString_regroup h, toString_regroup p, flatten_regroup p⟩

theorem ofString_eq_ok_of_toOption {text : String} (h : (ofString text).toOption = some p) :
    ofString text = .ok p := by
  cases hread : ofString text with
  | error fault => rw [hread] at h; cases h
  | ok plan => rw [hread] at h; cases h; rfl

/-- A chain of each kind comes back grouped in another way. -/
theorem ofString_canonical_chains :
    let operands : Predicate := .and (.position 1) (.and (.has .kind) (.position 2))
    let p : Plan := ⟨.root, [⟨.descendant, .kind .method,
      [.or (.has .name) (.or operands (.has .kind))]⟩]⟩
    ofString "//method[@name or ((1 and (@kind and 2)) or @kind)]" = .ok p ∧
      ∃ q, ofString p.toString = .ok q ∧ q.toString = p.toString ∧ q.flatten = p.flatten := by
  intro operands p
  have h : ofString "//method[@name or ((1 and (@kind and 2)) or @kind)]" = .ok p :=
    ofString_eq_ok_of_toOption (by decide +kernel)
  exact ⟨h, ofString_canonical h⟩

theorem flatten_eq_iff : p.flatten = q.flatten ↔ p.regroup = q.regroup := by
  have hpredicates (ps qs : List Predicate) :
      ps.map (·.flatten) = qs.map (·.flatten) ↔ ps.map (·.regroup) = qs.map (·.regroup) :=
    map_eq_map_iff_of_iff (fun _ _ => Predicate.flatten_eq_iff) ps qs
  obtain ⟨anchor, steps⟩ := p
  obtain ⟨anchor', steps'⟩ := q
  rw [flatten, flatten, regroup, regroup, Prod.mk.injEq, Plan.mk.injEq]
  refine and_congr Iff.rfl (map_eq_map_iff_of_iff (fun s t => ?_) steps steps')
  rw [Prod.mk.injEq, Prod.mk.injEq, Step.mk.injEq, hpredicates]

/-- Plans that were read have the same canonical text exactly if they are the same up to the
grouping of the operands of their chains. -/
theorem toString_eq_iff {text text' : String} (hp : ofString text = .ok p)
    (hq : ofString text' = .ok q) : p.toString = q.toString ↔ p.flatten = q.flatten := by
  rw [flatten_eq_iff]
  constructor
  · intro h
    have hback := ofString_toString_regroup hp
    rw [h, ofString_toString_regroup hq] at hback
    injection hback with hsame
    exact hsame.symm
  · intro h
    rw [← toString_regroup p, h, toString_regroup]

end Plan

end FeatureTree.Traversal
