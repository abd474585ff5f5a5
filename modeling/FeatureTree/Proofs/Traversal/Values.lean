import FeatureTree.Proofs.Traversal.Canonical
import FeatureTree.Proofs.Traversal.Derivation
import FeatureTree.Traversal.Value

/-!
# Plans that go out as values and come back

All that a value cannot say of a plan is a position of more than 64 bits, and all that a reader
may not be able to follow is the depth. A plan within both comes back as it was
(`Plan.read?_toValue`), and since nothing that is read is beyond either, so does every plan that
was read (`Plan.comesBack_of_read?`), whatever it was read from: a value may have the parts of a
plan in another order or form than the one that goes out.
-/

namespace FeatureTree

namespace Value

variable {α : Type} {read : Value → Option α}

theorem readAll?_map {write : α → Value} {as : List α} (h : ∀ a ∈ as, read (write a) = some a) :
    readAll? read (as.map write) = some as := by
  induction as with
  | nil => rfl
  | cons a as ih =>
      obtain ⟨ha, has⟩ := List.forall_mem_cons.1 h
      rw [List.map_cons, readAll?, ha, ih has]
      rfl

/-- What holds of all results of a reader holds of those that it reads from a list. -/
theorem forall_mem_of_readAll? {P : α → Prop} (h : ∀ v a, read v = some a → P a)
    {vs : List Value} {as : List α} (hs : readAll? read vs = some as) : ∀ a ∈ as, P a := by
  induction vs generalizing as with
  | nil =>
      cases hs
      exact nofun
  | cons v vs ih =>
      obtain ⟨a, ha, hrest⟩ := Option.bind_eq_some_iff.1 hs
      obtain ⟨as', has, heq⟩ := Option.bind_eq_some_iff.1 hrest
      cases heq
      exact List.forall_mem_cons.2 ⟨h v a ha, ih has⟩

theorem asNat?_nat {n : Nat} (h : n ≤ maxNat) : (nat n).asNat? = some n := if_pos h

theorem le_of_asNat? {v : Value} {n : Nat} (h : v.asNat? = some n) : n ≤ maxNat := by
  cases v with
  | nat m =>
      rw [asNat?] at h
      split at h
      · next hle =>
          cases h
          exact hle
      · cases h
  | _ => cases h

end Value

namespace Traversal

/-! ## Levels -/

namespace Origin

/-- So many levels may be entered. -/
def Admits : Origin → Nat → Prop
  | tree, _ => True
  | text levels, depth => depth ≤ levels

variable {o o' : Origin} {d e : Nat}

theorem admits_zero : o.Admits 0 := by
  cases o with
  | tree => trivial
  | text levels => exact Nat.zero_le levels

theorem admits_max : o.Admits (max d e) ↔ o.Admits d ∧ o.Admits e := by
  cases o with
  | tree => exact ⟨fun _ => ⟨trivial, trivial⟩, fun _ => trivial⟩
  | text levels => exact Nat.max_le

/-- One more level is admitted where a list or map may be entered and the others are admitted
inside. -/
theorem admits_succ_iff : o.Admits (d + 1) ↔ ∃ o', o.enter? = some o' ∧ o'.Admits d := by
  cases o with
  | tree => exact ⟨fun _ => ⟨tree, rfl, trivial⟩, fun _ => trivial⟩
  | text levels =>
      cases levels with
      | zero => exact ⟨nofun, nofun⟩
      | succ levels =>
          refine ⟨fun h => ⟨text levels, rfl, Nat.le_of_succ_le_succ h⟩, ?_⟩
          rintro ⟨o', h, hd⟩
          cases h
          exact Nat.succ_le_succ hd

theorem admits_succ (h : o.enter? = some o') (hd : o'.Admits d) : o.Admits (d + 1) :=
  admits_succ_iff.2 ⟨o', h, hd⟩

theorem admits_depthItems {vs : List Value} :
    o.Admits (Value.depthItems vs) ↔ ∀ v ∈ vs, o.Admits v.depth := by
  induction vs with
  | nil => exact ⟨fun _ => nofun, fun _ => admits_zero⟩
  | cons v vs ih => rw [Value.depthItems, admits_max, ih, List.forall_mem_cons]

end Origin

open Origin (admits_zero admits_max admits_succ_iff admits_succ admits_depthItems)

/-! ## Names -/

section Names

variable (o : Origin)

theorem Anchor.read?_name (anchor : Anchor) : read? o (.text anchor.name) = some anchor := by
  cases anchor <;> rfl

theorem Axis.read?_name (axis : Axis) : read? o (.text axis.name) = some axis :=
  axis_ofName?_iff.2 rfl

theorem Attribute.read?_word (asked : Attribute) : read? o (.text asked.word) = some asked :=
  attribute_ofWord?_iff.2 rfl

theorem Comparison.read?_name (comparison : Comparison) :
    read? o (.text comparison.name) = some comparison := by
  cases comparison <;> rfl

end Names

variable {o : Origin}

namespace NodeTest

theorem read?_toValue {test : NodeTest} (h : o.Admits test.toValue.depth) :
    read? o test.toValue = some test := by
  cases test with
  | any => rfl
  | kind k =>
      obtain ⟨o', ho, -⟩ := admits_succ_iff.1 h
      show o.enter?.bind _ = _
      rw [ho]
      show (Kind.ofName? k.name).map NodeTest.kind = _
      rw [kind_ofName?_iff.2 rfl]
      rfl

theorem admits_of_read? {v : Value} {test : NodeTest} (h : read? o v = some test) :
    o.Admits test.toValue.depth := by
  cases test with
  | any => exact admits_zero
  | kind k =>
      rw [read?.eq_def] at h
      split at h
      · obtain ⟨o', ho, -⟩ := Option.bind_eq_some_iff.1 h
        exact admits_succ ho admits_zero
      · split at h <;> cases h

end NodeTest

/-! ## Predicates -/

namespace Predicate

/-- All positions in the predicate fit into 64 bits. -/
def Fits (p : Predicate) : Prop := ∀ n, .position n ∈ p.parts → n ≤ Value.maxNat

/-- What it takes to come back: the positions fit, and the levels are admitted. -/
def ComesBack (o : Origin) (p : Predicate) : Prop := p.Fits ∧ o.Admits p.toValue.depth

variable {p left right : Predicate}

theorem fits_and : (and left right).Fits ↔ left.Fits ∧ right.Fits := by
  simp [Fits, parts, or_imp, forall_and]

theorem fits_or : (or left right).Fits ↔ left.Fits ∧ right.Fits := by
  simp [Fits, parts, or_imp, forall_and]

theorem fits_position {n : Nat} : (position n).Fits ↔ n ≤ Value.maxNat := by
  simp [Fits, parts]

theorem fits_has (asked : Attribute) : (has asked).Fits := by simp [Fits, parts]

theorem fits_compare (asked : Attribute) (comparison : Comparison) (value : String) :
    (compare asked comparison value).Fits := by simp [Fits, parts]

theorem depth_and : (and left right).toValue.depth =
    max left.toValue.depth right.toValue.depth + 2 := by
  simp [toValue, Value.depth, Value.depthItems, Value.depthEntries]

theorem depth_or : (or left right).toValue.depth =
    max left.toValue.depth right.toValue.depth + 2 := by
  simp [toValue, Value.depth, Value.depthItems, Value.depthEntries]

/-- What joins two predicates is read two levels further in. -/
theorem comesBack_iff_of_two (hfits : p.Fits ↔ left.Fits ∧ right.Fits)
    (hdepth : p.toValue.depth = max left.toValue.depth right.toValue.depth + 2) :
    ComesBack o p ↔ ∃ o' o'', o.enter? = some o' ∧ o'.enter? = some o'' ∧
      ComesBack o'' left ∧ ComesBack o'' right := by
  simp only [ComesBack, hfits, hdepth, admits_succ_iff, admits_max]
  constructor
  · rintro ⟨⟨hl, hr⟩, o', ho, o'', ho', hdl, hdr⟩
    exact ⟨o', o'', ho, ho', ⟨hl, hdl⟩, hr, hdr⟩
  · rintro ⟨o', o'', ho, ho', ⟨hl, hdl⟩, hr, hdr⟩
    exact ⟨⟨hl, hr⟩, o', ho, o'', ho', hdl, hdr⟩

theorem comesBack_and : ComesBack o (and left right) ↔
    ∃ o' o'', o.enter? = some o' ∧ o'.enter? = some o'' ∧ ComesBack o'' left ∧
      ComesBack o'' right := comesBack_iff_of_two fits_and depth_and

theorem comesBack_or : ComesBack o (or left right) ↔
    ∃ o' o'', o.enter? = some o' ∧ o'.enter? = some o'' ∧ ComesBack o'' left ∧
      ComesBack o'' right := comesBack_iff_of_two fits_or depth_or

theorem readCompare?_names (o : Origin) (asked : Attribute) (comparison : Comparison)
    (value : String) :
    readCompare? o (.text asked.word) (.text comparison.name) (.text value) =
      some (.compare asked comparison value) := by
  rw [readCompare?, Attribute.read?_word, Comparison.read?_name]
  rfl

theorem read?_toValue (h : p.ComesBack o) : read? o p.toValue = some p := by
  induction p generalizing o with
  | position n =>
      obtain ⟨hn, hdepth⟩ := h
      obtain ⟨o', ho, -⟩ := admits_succ_iff.1 hdepth
      rw [toValue, read?, ho, Value.asNat?_nat (fits_position.1 hn)]
      rfl
  | has asked =>
      obtain ⟨o', ho, -⟩ := admits_succ_iff.1 h.2
      rw [toValue, read?, ho]
      show (Attribute.read? o' _).map _ = _
      rw [Attribute.read?_word]
      rfl
  | compare asked comparison value =>
      obtain ⟨o', ho, hdepth⟩ := admits_succ_iff.1 h.2
      obtain ⟨o'', ho', -⟩ := admits_succ_iff.1 (admits_max.1 hdepth).1
      rw [toValue, read?, ho]
      show o'.enter?.bind _ = _
      rw [ho']
      -- each of the three names stands once, so either way of looking it up finds it
      cases o'' <;> exact readCompare?_names _ asked comparison value
  | and left right ihl ihr =>
      obtain ⟨o', o'', ho, ho', hl, hr⟩ := comesBack_and.1 h
      simp [toValue, read?, ho, ho', ihl hl, ihr hr]
  | or left right ihl ihr =>
      obtain ⟨o', o'', ho, ho', hl, hr⟩ := comesBack_or.1 h
      simp [toValue, read?, ho, ho', ihl hl, ihr hr]

theorem comesBack_of_readCompare? {o' o'' : Origin} (ho : o.enter? = some o')
    (ho' : o'.enter? = some o'') {asked comparison value : Value}
    (h : readCompare? o'' asked comparison value = some p) : p.ComesBack o := by
  obtain ⟨asked', -, h⟩ := Option.bind_eq_some_iff.1 h
  obtain ⟨comparison', -, h⟩ := Option.bind_eq_some_iff.1 h
  obtain ⟨value', -, h⟩ := Option.bind_eq_some_iff.1 h
  cases h
  exact ⟨fits_compare asked' comparison' value', admits_succ ho (admits_succ ho' admits_zero)⟩

/-- By induction on the value, along the cases of the reader. Whatever form a value has, it is
not entered less deep than what is written. -/
theorem comesBack_of_read? {v : Value} (h : read? o v = some p) : p.ComesBack o := by
  induction o, v using read?.induct generalizing p with
  | case1 o v =>
      rw [read?] at h
      obtain ⟨o', ho, h⟩ := Option.bind_eq_some_iff.1 h
      obtain ⟨n, hn, rfl⟩ := Option.map_eq_some_iff.1 h
      exact ⟨fits_position.2 (Value.le_of_asNat? hn), admits_succ ho admits_zero⟩
  | case2 o v =>
      rw [read?] at h
      obtain ⟨o', ho, h⟩ := Option.bind_eq_some_iff.1 h
      obtain ⟨asked, -, rfl⟩ := Option.map_eq_some_iff.1 h
      exact ⟨fits_has asked, admits_succ ho admits_zero⟩
  | case3 o asked comparison value =>
      rw [read?] at h
      obtain ⟨o', ho, h⟩ := Option.bind_eq_some_iff.1 h
      obtain ⟨o'', ho', h⟩ := Option.bind_eq_some_iff.1 h
      exact comesBack_of_readCompare? ho ho' h
  | case4 o entries =>
      rw [read?] at h
      obtain ⟨o', ho, h⟩ := Option.bind_eq_some_iff.1 h
      obtain ⟨o'', ho', h⟩ := Option.bind_eq_some_iff.1 h
      obtain ⟨_, -, h⟩ := Option.bind_eq_some_iff.1 h
      obtain ⟨_, -, h⟩ := Option.bind_eq_some_iff.1 h
      obtain ⟨_, -, h⟩ := Option.bind_eq_some_iff.1 h
      exact comesBack_of_readCompare? ho ho' h
  | case5 o left right ihl ihr =>
      rw [read?] at h
      obtain ⟨o', ho, h⟩ := Option.bind_eq_some_iff.1 h
      obtain ⟨o'', ho', h⟩ := Option.bind_eq_some_iff.1 h
      obtain ⟨l, hl, h⟩ := Option.bind_eq_some_iff.1 h
      obtain ⟨r, hr, heq⟩ := Option.bind_eq_some_iff.1 h
      cases heq
      exact comesBack_and.2 ⟨o', o'', ho, ho', ihl o'' hl, ihr o'' hr⟩
  | case6 o left right ihl ihr =>
      rw [read?] at h
      obtain ⟨o', ho, h⟩ := Option.bind_eq_some_iff.1 h
      obtain ⟨o'', ho', h⟩ := Option.bind_eq_some_iff.1 h
      obtain ⟨l, hl, h⟩ := Option.bind_eq_some_iff.1 h
      obtain ⟨r, hr, heq⟩ := Option.bind_eq_some_iff.1 h
      cases heq
      exact comesBack_or.2 ⟨o', o'', ho, ho', ihl o'' hl, ihr o'' hr⟩
  | case7 v o h₁ h₂ h₃ h₄ h₅ h₆ =>
      rw [read?] at h
      · cases h
      all_goals assumption

/-- A list of predicates comes back as they do, one level further in. -/
def AllComeBack (o : Origin) (ps : List Predicate) : Prop :=
  (∀ p ∈ ps, p.Fits) ∧ o.Admits (Value.list (ps.map toValue)).depth

theorem allComeBack_iff {ps : List Predicate} :
    AllComeBack o ps ↔ ∃ o', o.enter? = some o' ∧ ∀ p ∈ ps, p.ComesBack o' := by
  rw [AllComeBack, Value.depth, admits_succ_iff]
  simp only [admits_depthItems, List.forall_mem_map, ComesBack]
  constructor
  · rintro ⟨hfits, o', ho, hdepth⟩
    exact ⟨o', ho, fun p hp => ⟨hfits p hp, hdepth p hp⟩⟩
  · rintro ⟨o', ho, h⟩
    exact ⟨fun p hp => (h p hp).1, o', ho, fun p hp => (h p hp).2⟩

theorem readList?_toValue {ps : List Predicate} (h : AllComeBack o ps) :
    readList? o (.list (ps.map toValue)) = some ps := by
  obtain ⟨o', ho, hps⟩ := allComeBack_iff.1 h
  show o.enter?.bind _ = _
  rw [ho]
  exact Value.readAll?_map fun p hp => read?_toValue (hps p hp)

theorem allComeBack_of_readList? {v : Value} {ps : List Predicate}
    (h : readList? o v = some ps) : AllComeBack o ps := by
  obtain ⟨vs, -, h⟩ := Option.bind_eq_some_iff.1 h
  obtain ⟨o', ho, hvs⟩ := Option.bind_eq_some_iff.1 h
  exact allComeBack_iff.2
    ⟨o', ho, Value.forall_mem_of_readAll? (fun _ _ => comesBack_of_read?) hvs⟩

end Predicate

/-! ## Steps -/

namespace Step

/-- All positions in the predicates of the step fit into 64 bits. -/
def Fits (s : Step) : Prop := ∀ p ∈ s.predicates, p.Fits

/-- What it takes to come back: the positions fit, and the levels are admitted. -/
def ComesBack (o : Origin) (s : Step) : Prop := s.Fits ∧ o.Admits s.toValue.depth

variable {s : Step}

/-- The parts of a step come back one level further in. Predicates that are left out have no
level. -/
theorem comesBack_iff {axis : Axis} {test : NodeTest} {ps : List Predicate} :
    ComesBack o ⟨axis, test, ps⟩ ↔
      ∃ o', o.enter? = some o' ∧ o'.Admits test.toValue.depth ∧
        (ps = [] ∨ Predicate.AllComeBack o' ps) := by
  cases ps with
  | nil =>
      have hdepth : (toValue ⟨axis, test, []⟩).depth = test.toValue.depth + 1 := by
        simp [toValue, Value.depth, Value.depthEntries]
      rw [ComesBack, hdepth, admits_succ_iff]
      exact ⟨fun ⟨_, o', ho, h⟩ => ⟨o', ho, h, .inl rfl⟩, fun ⟨o', ho, h, _⟩ => ⟨nofun, o', ho, h⟩⟩
  | cons p ps =>
      have hdepth : (toValue ⟨axis, test, p :: ps⟩).depth =
          max test.toValue.depth (Value.list ((p :: ps).map Predicate.toValue)).depth + 1 := by
        simp [toValue, Value.depth, Value.depthEntries]
      rw [ComesBack, hdepth, admits_succ_iff]
      simp only [admits_max]
      constructor
      · rintro ⟨hfits, o', ho, htest, hps⟩
        exact ⟨o', ho, htest, .inr ⟨hfits, hps⟩⟩
      · rintro ⟨o', ho, htest, hnil | ⟨hfits, hps⟩⟩
        · cases hnil
        · exact ⟨hfits, o', ho, htest, hps⟩

theorem read?_toValue (h : s.ComesBack o) : read? o s.toValue = some s := by
  obtain ⟨axis, test, ps⟩ := s
  obtain ⟨o', ho, htest, hps⟩ := comesBack_iff.1 h
  -- either way of looking a name up finds the parts, each of which stands once
  cases ps with
  | nil =>
      have hread : readParts? o' (.text axis.name) test.toValue none = some ⟨axis, test, []⟩ := by
        rw [readParts?, Axis.read?_name, NodeTest.read?_toValue htest]
        rfl
      show o.enter?.bind _ = _
      rw [ho]
      cases o' <;> exact hread
  | cons p ps =>
      have hlist := Predicate.readList?_toValue (hps.resolve_left (List.cons_ne_nil p ps))
      have hread : readParts? o' (.text axis.name) test.toValue
          (some (.list ((p :: ps).map Predicate.toValue))) = some ⟨axis, test, p :: ps⟩ := by
        rw [readParts?, Axis.read?_name, NodeTest.read?_toValue htest]
        show (Predicate.readList? o' _).bind _ = _
        rw [hlist]
        rfl
      show o.enter?.bind _ = _
      rw [ho]
      cases o' <;> exact hread

theorem comesBack_of_readParts? {o' : Origin} (ho : o.enter? = some o') {axis test : Value}
    {predicates : Option Value} (h : readParts? o' axis test predicates = some s) :
    s.ComesBack o := by
  obtain ⟨axis', -, h⟩ := Option.bind_eq_some_iff.1 h
  obtain ⟨test', htest, h⟩ := Option.bind_eq_some_iff.1 h
  have htest' := NodeTest.admits_of_read? htest
  cases predicates with
  | none =>
      cases h
      exact comesBack_iff.2 ⟨o', ho, htest', .inl rfl⟩
  | some v =>
      obtain ⟨ps, hps, heq⟩ := Option.bind_eq_some_iff.1 h
      cases heq
      exact comesBack_iff.2 ⟨o', ho, htest', .inr (Predicate.allComeBack_of_readList? hps)⟩

theorem comesBack_of_read? {v : Value} (h : read? o v = some s) : s.ComesBack o := by
  rw [read?.eq_def] at h
  split at h
  · obtain ⟨o', ho, h⟩ := Option.bind_eq_some_iff.1 h
    obtain ⟨_, -, h⟩ := Option.bind_eq_some_iff.1 h
    obtain ⟨_, -, h⟩ := Option.bind_eq_some_iff.1 h
    obtain ⟨_, -, h⟩ := Option.bind_eq_some_iff.1 h
    exact comesBack_of_readParts? ho h
  · obtain ⟨o', ho, h⟩ := Option.bind_eq_some_iff.1 h
    exact comesBack_of_readParts? ho h
  · obtain ⟨o', ho, h⟩ := Option.bind_eq_some_iff.1 h
    exact comesBack_of_readParts? ho h
  · cases h

end Step

/-! ## Plans -/

namespace Plan

variable {p : Plan}

theorem fits_iff : p.Fits ↔ ∀ s ∈ p.steps, s.Fits := by
  simp only [Fits, parts, List.mem_flatMap, Step.Fits, Predicate.Fits]
  constructor
  · exact fun h s hs q hq n hn => h n ⟨s, hs, q, hq, hn⟩
  · rintro h n ⟨s, hs, q, hq, hn⟩
    exact h s hs q hq n hn

/-- The steps of a plan come back two levels further in. -/
theorem comesBack_iff :
    p.Fits ∧ o.Admits p.toValue.depth ↔
      ∃ o' o'', o.enter? = some o' ∧ o'.enter? = some o'' ∧ ∀ s ∈ p.steps, s.ComesBack o'' := by
  have hdepth : p.toValue.depth = Value.depthItems (p.steps.map Step.toValue) + 2 := by
    simp [toValue, Value.depth, Value.depthEntries]
  rw [hdepth, fits_iff, admits_succ_iff]
  simp only [admits_succ_iff, admits_depthItems, List.forall_mem_map, Step.ComesBack]
  constructor
  · rintro ⟨hfits, o', ho, o'', ho', hsteps⟩
    exact ⟨o', o'', ho, ho', fun s hs => ⟨hfits s hs, hsteps s hs⟩⟩
  · rintro ⟨o', o'', ho, ho', h⟩
    exact ⟨fun s hs => (h s hs).1, o', ho, o'', ho', fun s hs => (h s hs).2⟩

theorem read?_toValue (h : p.Fits ∧ o.Admits p.toValue.depth) : read? o p.toValue = some p := by
  obtain ⟨anchor, steps⟩ := p
  obtain ⟨o', o'', ho, ho', hsteps⟩ := comesBack_iff.1 h
  have hread : readParts? o' (.text anchor.name) (.list (steps.map Step.toValue)) =
      some ⟨anchor, steps⟩ := by
    rw [readParts?, Anchor.read?_name]
    show o'.enter?.bind _ = _
    rw [ho']
    show (Value.readAll? (Step.read? o'') (steps.map Step.toValue)).bind _ = _
    rw [Value.readAll?_map fun s hs => Step.read?_toValue (hsteps s hs)]
    rfl
  show o.enter?.bind _ = _
  rw [ho]
  cases o' <;> exact hread

theorem comesBack_of_readParts? {o' : Origin} (ho : o.enter? = some o') {anchor steps : Value}
    (h : readParts? o' anchor steps = some p) : p.Fits ∧ o.Admits p.toValue.depth := by
  obtain ⟨_, -, h⟩ := Option.bind_eq_some_iff.1 h
  obtain ⟨vs, -, h⟩ := Option.bind_eq_some_iff.1 h
  obtain ⟨o'', ho', h⟩ := Option.bind_eq_some_iff.1 h
  obtain ⟨ss, hss, heq⟩ := Option.bind_eq_some_iff.1 h
  cases heq
  exact comesBack_iff.2 ⟨o', o'', ho, ho',
    Value.forall_mem_of_readAll? (fun _ _ => Step.comesBack_of_read?) hss⟩

theorem comesBack_of_read? {v : Value} (h : read? o v = some p) :
    p.Fits ∧ o.Admits p.toValue.depth := by
  rw [read?.eq_def] at h
  split at h
  · obtain ⟨o', ho, h⟩ := Option.bind_eq_some_iff.1 h
    obtain ⟨_, -, h⟩ := Option.bind_eq_some_iff.1 h
    obtain ⟨_, -, h⟩ := Option.bind_eq_some_iff.1 h
    exact comesBack_of_readParts? ho h
  · obtain ⟨o', ho, h⟩ := Option.bind_eq_some_iff.1 h
    exact comesBack_of_readParts? ho h
  · cases h

end Plan

end Traversal

end FeatureTree
