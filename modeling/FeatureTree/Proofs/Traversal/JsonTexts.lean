import FeatureTree.Proofs.Traversal.Values
import FeatureTree.Proofs.Value.Reader

/-!
# Plans that go out as JSON texts and come back

A plan goes out on one line or over several (`Plan.jsonTexts`), and comes back through any reader
of JSON texts. All that stands in the way is the depth: such a reader enters only so many levels,
and a plan takes two of them for every predicate that joins two others (`ofJson?_nested_iff`). A
plan that comes out of some text is within the limit, so it comes back from its own texts,
whatever that text looked like.
-/

namespace FeatureTree.Traversal

open Value (JsonReader)

namespace Predicate

variable {p : Predicate}

theorem numbersIn_toValue (h : p.Fits) : p.toValue.NumbersIn (· ≤ Value.maxNat) := by
  induction p with
  | position n => exact ⟨fits_position.1 h, trivial⟩
  | has asked => exact ⟨trivial, trivial⟩
  | compare asked comparison value => exact ⟨⟨trivial, trivial, trivial, trivial⟩, trivial⟩
  | and left right ihl ihr =>
      obtain ⟨hl, hr⟩ := fits_and.1 h
      exact ⟨⟨ihl hl, ihr hr, trivial⟩, trivial⟩
  | or left right ihl ihr =>
      obtain ⟨hl, hr⟩ := fits_or.1 h
      exact ⟨⟨ihl hl, ihr hr, trivial⟩, trivial⟩

end Predicate

theorem NodeTest.numbersIn_toValue (test : NodeTest) {P : Nat → Prop} :
    test.toValue.NumbersIn P := by
  cases test with
  | any => trivial
  | kind k => exact ⟨trivial, trivial⟩

theorem Step.numbersIn_toValue {s : Step} (h : s.Fits) :
    s.toValue.NumbersIn (· ≤ Value.maxNat) := by
  obtain ⟨axis, test, ps⟩ := s
  have htest := test.numbersIn_toValue (P := (· ≤ Value.maxNat))
  cases ps with
  | nil => exact ⟨trivial, htest, trivial⟩
  | cons p ps =>
      refine ⟨trivial, htest, Value.itemsIn_iff.2 ?_, trivial⟩
      rw [List.forall_mem_map]
      exact fun q hq => Predicate.numbersIn_toValue (h q hq)

namespace Plan

variable {p : Plan} {json : JsonReader} {levels : Nat} {text : String}

theorem numbersIn_toValue (h : p.Fits) : p.toValue.NumbersIn (· ≤ Value.maxNat) := by
  refine ⟨trivial, Value.itemsIn_iff.2 ?_, trivial⟩
  rw [List.forall_mem_map]
  exact fun s hs => Step.numbersIn_toValue (fits_iff.1 h s hs)

/-- The plan of a JSON text, which is read with so many levels. -/
def ofJson? (json : JsonReader) (levels : Nat) (text : String) : Option Plan :=
  (json.read text).bind (read? (.text levels))

/-- The JSON texts of a plan: on one line, and over several. -/
def jsonTexts (p : Plan) : List String := [p.toValue.compact, p.toValue.pretty]

theorem read_jsonText (json : JsonReader) (h : p.Fits) (ht : text ∈ p.jsonTexts) :
    json.read text = some p.toValue := by
  have hnumbers := numbersIn_toValue h
  refine json.read_of_spells _ _ hnumbers ?_
  obtain rfl | ht := List.mem_cons.1 ht
  · exact Value.spells_compact _ hnumbers
  · obtain rfl := List.mem_singleton.1 ht
    exact Value.spells_pretty _ hnumbers

theorem ofJson?_jsonText_iff (ht : text ∈ p.jsonTexts) :
    ofJson? json levels text = some p ↔ p.Fits ∧ p.toValue.depth ≤ levels := by
  constructor
  · intro h
    obtain ⟨v, -, hv⟩ := Option.bind_eq_some_iff.1 h
    exact comesBack_of_read? hv
  · intro h
    rw [ofJson?, read_jsonText json h.1 ht]
    exact read?_toValue h

end Plan

/-! ## How deep a plan may be -/

/-- Predicates joined so many times, one inside the other. -/
def Predicate.nested : Nat → Predicate
  | 0 => .position 0
  | n + 1 => .and (nested n) (.position 0)

theorem Predicate.fits_nested (n : Nat) : (nested n).Fits := by
  induction n with
  | zero => exact fits_position.2 (Nat.zero_le _)
  | succ n ih => exact fits_and.2 ⟨ih, fits_position.2 (Nat.zero_le _)⟩

theorem Predicate.depth_nested (n : Nat) : (nested n).toValue.depth = 2 * n + 1 := by
  induction n with
  | zero => rfl
  | succ n ih =>
      have hposition : (position 0).toValue.depth = 1 := rfl
      rw [nested, depth_and, ih, hposition]
      omega

/-- The plan with nested predicates on its only step. -/
def Plan.nested (n : Nat) : Plan := ⟨.context, [⟨.self, .any, [.nested n]⟩]⟩

theorem Plan.depth_nested (n : Nat) : (nested n).toValue.depth = 2 * n + 5 := by
  have hpredicate := Predicate.depth_nested n
  simp [nested, toValue, Step.toValue, NodeTest.toValue, Value.depth, Value.depthItems,
    Value.depthEntries, hpredicate]

/-- With the levels that a reader enters unless it is told otherwise, predicates come back that
are joined sixty-one times one inside the other, and no more. -/
theorem Plan.ofJson?_nested_iff {json : JsonReader} {n : Nat} {text : String}
    (ht : text ∈ (nested n).jsonTexts) :
    ofJson? json Origin.defaultLevels text = some (nested n) ↔ n ≤ 61 := by
  have hfits : (nested n).Fits := by
    simpa [fits_iff, nested, Step.Fits] using Predicate.fits_nested n
  rw [ofJson?_jsonText_iff ht, depth_nested, Origin.defaultLevels]
  exact ⟨fun h => by omega, fun h => ⟨hfits, by omega⟩⟩

end FeatureTree.Traversal
