import FeatureTree.Traversal.Plan
import FeatureTree.Value

/-!
# Canonical plans

The canonical text of a plan loses what it does not write: how a row of operands
is grouped. `Plan.IsCanonical` collects the conditions under which nothing is
lost, one for each thing that a text cannot say.

Each condition is on the parts of a predicate, one by one. Some are about what
can be read at all (`Predicate.IsReadable`), the others about how operands are
grouped (`Predicate.IsGrouped`). The latter can always be met without a change
to the text: `regroup` moves the operands to the left.
-/

namespace FeatureTree.Traversal

namespace Predicate

/-- A predicate and all that it is made of. -/
def parts : Predicate → List Predicate
  | .and left right => .and left right :: (left.parts ++ right.parts)
  | .or left right => .or left right :: (left.parts ++ right.parts)
  | p => [p]

/-- The predicate is an `and`. -/
def isAnd : Predicate → Bool
  | .and _ _ => true
  | _ => false

/-- The text of a predicate can be read, as far as its outermost part goes:
positions start at one and fit into 64 bits, one of the quotes is free to put
around a text, and `@kind` is compared with a kind. -/
def IsReadable : Predicate → Prop
  | .position n => 1 ≤ n ∧ n ≤ Value.maxNat
  | .compare asked _ value =>
    ¬ ('\'' ∈ value.toList ∧ '"' ∈ value.toList) ∧
      (asked = .kind → (Kind.ofName? value).isSome = true)
  | _ => True

/-- The operands of the outermost part are grouped to the left. -/
def IsGrouped : Predicate → Prop
  | .and _ right => right.isAnd = false
  | .or _ right => right.isOr = false
  | _ => True

/-- All parts can be read. -/
def Readable (p : Predicate) : Prop := ∀ q ∈ p.parts, q.IsReadable

/-- All parts are grouped to the left. -/
def Grouped (p : Predicate) : Prop := ∀ q ∈ p.parts, q.IsGrouped

section Parts

variable {P : Predicate → Prop} {left right : Predicate}

theorem forall_parts_and :
    (∀ q ∈ (and left right).parts, P q) ↔
      P (.and left right) ∧ (∀ q ∈ left.parts, P q) ∧ ∀ q ∈ right.parts, P q := by
  rw [parts, List.forall_mem_cons, List.forall_mem_append]

theorem forall_parts_or :
    (∀ q ∈ (or left right).parts, P q) ↔
      P (.or left right) ∧ (∀ q ∈ left.parts, P q) ∧ ∀ q ∈ right.parts, P q := by
  rw [parts, List.forall_mem_cons, List.forall_mem_append]

end Parts

/-! ## Grouping to the left -/

/-- One predicate and another, where the operands of the latter come one after
the other. -/
def andThen (left : Predicate) : Predicate → Predicate
  | .and a b => .and (left.andThen a) b
  | right => .and left right

/-- One predicate or another, where the operands of the latter come one after
the other. -/
def orElse (left : Predicate) : Predicate → Predicate
  | .or a b => .or (left.orElse a) b
  | right => .or left right

/-- The predicate with all operands grouped to the left. -/
def regroup : Predicate → Predicate
  | .and left right => left.regroup.andThen right.regroup
  | .or left right => left.regroup.orElse right.regroup
  | p => p

theorem isOr_andThen (left right : Predicate) : (left.andThen right).isOr = false := by
  cases right <;> rfl

theorem isOr_orElse (left right : Predicate) : (left.orElse right).isOr = true := by
  cases right <;> rfl

theorem isOr_regroup (p : Predicate) : p.regroup.isOr = p.isOr := by
  cases p with
  | and left right => exact isOr_andThen _ _
  | or left right => exact isOr_orElse _ _
  | position | has | compare => rfl

/-- The text of an operand of `and`. -/
def operandText (p : Predicate) : String := parenthesized p.isOr p.toString

theorem toString_and (left right : Predicate) :
    (and left right).toString = left.operandText ++ " and " ++ right.operandText := rfl

theorem operandText_of_not_or {p : Predicate} (h : p.isOr = false) :
    p.operandText = p.toString := by
  rw [operandText, h]
  rfl

theorem toString_andThen (left right : Predicate) :
    (left.andThen right).toString = (and left right).toString := by
  induction right with
  | and a b iha _ =>
      rw [andThen, toString_and, operandText_of_not_or (isOr_andThen left a), iha, toString_and,
        toString_and, operandText_of_not_or (p := .and a b) rfl, toString_and]
      simp only [String.append_assoc]
  | or | position | has | compare => rfl

theorem toString_orElse (left right : Predicate) :
    (left.orElse right).toString = (or left right).toString := by
  induction right with
  | or a b iha _ =>
      rw [orElse, Predicate.toString, iha]
      simp only [Predicate.toString, String.append_assoc]
  | and | position | has | compare => rfl

/-- Grouping cannot be seen in the text. -/
theorem toString_regroup (p : Predicate) : p.regroup.toString = p.toString := by
  induction p with
  | and left right ihl ihr =>
      rw [regroup, toString_andThen, toString_and, toString_and, operandText, operandText, ihl,
        ihr, isOr_regroup, isOr_regroup]
      rfl
  | or left right ihl ihr =>
      rw [regroup, toString_orElse, Predicate.toString, Predicate.toString, ihl, ihr]
  | position | has | compare => rfl

theorem grouped_andThen {left right : Predicate} (hl : left.Grouped) (hr : right.Grouped) :
    (left.andThen right).Grouped := by
  induction right with
  | and a b iha _ =>
      obtain ⟨hgrouped, ha, hb⟩ := forall_parts_and.1 hr
      exact forall_parts_and.2 ⟨hgrouped, iha ha, hb⟩
  | or | position | has | compare => exact forall_parts_and.2 ⟨rfl, hl, hr⟩

theorem grouped_orElse {left right : Predicate} (hl : left.Grouped) (hr : right.Grouped) :
    (left.orElse right).Grouped := by
  induction right with
  | or a b iha _ =>
      obtain ⟨hgrouped, ha, hb⟩ := forall_parts_or.1 hr
      exact forall_parts_or.2 ⟨hgrouped, iha ha, hb⟩
  | and | position | has | compare => exact forall_parts_or.2 ⟨rfl, hl, hr⟩

theorem grouped_regroup (p : Predicate) : p.regroup.Grouped := by
  induction p with
  | and left right ihl ihr => exact grouped_andThen ihl ihr
  | or left right ihl ihr => exact grouped_orElse ihl ihr
  | position | has | compare =>
      intro q hq
      rw [List.mem_singleton.1 hq]
      trivial

theorem readable_andThen {left right : Predicate} (hl : left.Readable) (hr : right.Readable) :
    (left.andThen right).Readable := by
  induction right with
  | and a b iha _ =>
      obtain ⟨-, ha, hb⟩ := forall_parts_and.1 hr
      exact forall_parts_and.2 ⟨trivial, iha ha, hb⟩
  | or | position | has | compare => exact forall_parts_and.2 ⟨trivial, hl, hr⟩

theorem readable_orElse {left right : Predicate} (hl : left.Readable) (hr : right.Readable) :
    (left.orElse right).Readable := by
  induction right with
  | or a b iha _ =>
      obtain ⟨-, ha, hb⟩ := forall_parts_or.1 hr
      exact forall_parts_or.2 ⟨trivial, iha ha, hb⟩
  | and | position | has | compare => exact forall_parts_or.2 ⟨trivial, hl, hr⟩

theorem readable_regroup {p : Predicate} (h : p.Readable) : p.regroup.Readable := by
  induction p with
  | and left right ihl ihr =>
      obtain ⟨-, hl, hr⟩ := forall_parts_and.1 h
      exact readable_andThen (ihl hl) (ihr hr)
  | or left right ihl ihr =>
      obtain ⟨-, hl, hr⟩ := forall_parts_or.1 h
      exact readable_orElse (ihl hl) (ihr hr)
  | position | has | compare => exact h

end Predicate

/-! ## Plans -/

namespace Plan

/-- All predicates of a plan and all that they are made of. -/
def parts (p : Plan) : List Predicate := p.steps.flatMap fun s => s.predicates.flatMap (·.parts)

/-- All positions fit into 64 bits. -/
def Fits (p : Plan) : Prop := ∀ n, .position n ∈ p.parts → n ≤ Value.maxNat

/-- The text of the plan says all there is to the plan. -/
structure IsCanonical (p : Plan) : Prop where
  steps : p.steps ≠ []
  positions : ∀ n, .position n ∈ p.parts → 1 ≤ n
  quotes : ∀ asked comparison value, .compare asked comparison value ∈ p.parts →
    ¬ ('\'' ∈ value.toList ∧ '"' ∈ value.toList)
  kinds : ∀ comparison value, .compare .kind comparison value ∈ p.parts →
    ∃ kind : Kind, kind.name = value
  ands : ∀ a b c, .and a (.and b c) ∉ p.parts
  ors : ∀ a b c, .or a (.or b c) ∉ p.parts

/-- The text of the plan can be read. -/
def Readable (p : Plan) : Prop := p.steps ≠ [] ∧ ∀ s ∈ p.steps, ∀ q ∈ s.predicates, q.Readable

/-- The predicates of the plan are grouped to the left. -/
def Grouped (p : Plan) : Prop := ∀ s ∈ p.steps, ∀ q ∈ s.predicates, q.Grouped

theorem ofName?_isSome_iff {word : String} :
    (Kind.ofName? word).isSome = true ↔ ∃ kind : Kind, kind.name = word := by
  rw [Kind.ofName?, List.find?_isSome]
  constructor
  · rintro ⟨kind, -, hname⟩
    exact ⟨kind, beq_iff_eq.1 hname⟩
  · rintro ⟨kind, hname⟩
    refine ⟨kind, ?_, beq_iff_eq.2 hname⟩
    cases kind <;> decide

theorem forall_parts {P : Predicate → Prop} {p : Plan} :
    (∀ q ∈ p.parts, P q) ↔ ∀ s ∈ p.steps, ∀ q ∈ s.predicates, ∀ r ∈ q.parts, P r := by
  simp only [parts, List.mem_flatMap, forall_exists_index, and_imp]
  constructor
  · exact fun h s hs q hq r hr => h r s hs q hq hr
  · exact fun h r s hs q hq hr => h s hs q hq r hr

/-- The conditions are those of reading and of grouping. -/
theorem isCanonical_iff {p : Plan} :
    p.IsCanonical ∧ p.Fits ↔ p.Readable ∧ p.Grouped := by
  rw [Readable, Grouped]
  simp only [Predicate.Readable, Predicate.Grouped, ← forall_parts]
  constructor
  · rintro ⟨⟨hsteps, hpositions, hquotes, hkinds, hands, hors⟩, hfits⟩
    refine ⟨⟨hsteps, fun q hq => ?_⟩, fun q hq => ?_⟩
    · cases q with
      | position n => exact ⟨hpositions n hq, hfits n hq⟩
      | compare asked comparison value =>
          refine ⟨hquotes asked comparison value hq, ?_⟩
          rintro rfl
          exact ofName?_isSome_iff.2 (hkinds comparison value hq)
      | has | and | or => trivial
    · cases q with
      | and left right =>
          cases right with
          | and b c => exact absurd hq (hands left b c)
          | or | position | has | compare => rfl
      | or left right =>
          cases right with
          | or b c => exact absurd hq (hors left b c)
          | and | position | has | compare => rfl
      | position | has | compare => trivial
  · rintro ⟨⟨hsteps, hreadable⟩, hgrouped⟩
    refine ⟨⟨hsteps, fun n hn => (hreadable _ hn).1, fun _ _ _ h => (hreadable _ h).1,
      fun _ _ h => ofName?_isSome_iff.1 ((hreadable _ h).2 rfl), fun _ _ _ h => ?_,
      fun _ _ _ h => ?_⟩, fun n hn => (hreadable _ hn).2⟩
    · cases hgrouped _ h
    · cases hgrouped _ h

/-- The plan with the operands of all predicates grouped to the left. -/
def regroup (p : Plan) : Plan :=
  ⟨p.anchor, p.steps.map fun s => { s with predicates := s.predicates.map (·.regroup) }⟩

theorem toString_regroup (p : Plan) : p.regroup.toString = p.toString := by
  have hstep : ∀ s : Step,
      ({ s with predicates := s.predicates.map (·.regroup) } : Step).toString = s.toString := by
    intro s
    rw [Step.toString, Step.toString, List.map_map]
    congr 3
    funext q
    simp only [Function.comp, Predicate.toString_regroup]
  rw [Plan.toString, Plan.toString, regroup, List.map_map]
  congr 3
  funext s
  exact hstep s

theorem grouped_regroup (p : Plan) : p.regroup.Grouped := by
  intro s hs q hq
  obtain ⟨s', -, rfl⟩ := List.mem_map.1 hs
  obtain ⟨q', -, rfl⟩ := List.mem_map.1 hq
  exact Predicate.grouped_regroup q'

theorem readable_regroup {p : Plan} (h : p.Readable) : p.regroup.Readable := by
  refine ⟨fun hsteps => h.1 (List.map_eq_nil_iff.1 hsteps), fun s hs q hq => ?_⟩
  obtain ⟨s', hs', rfl⟩ := List.mem_map.1 hs
  obtain ⟨q', hq', rfl⟩ := List.mem_map.1 hq
  exact Predicate.readable_regroup (h.2 s' hs' q' hq')

end Plan

end FeatureTree.Traversal
