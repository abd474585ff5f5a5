import FeatureTree.Proofs.Traversal.Derivation
import FeatureTree.Proofs.Traversal.Range

/-!
# Expressions and the meaning of their words

An expression can be well formed and still stand for no plan: a word may name no kind of node
or no attribute, or a position may be out of range. `Written` is the grammar of `Derives`
without these conditions, and says what a derivation stands for, if for anything. Which
tokens have a meaning to miss, and what is wrong if they do, is a matter of each token and of
what it stands for (`Word.fault?`). A row of tokens derives something with a meaning exactly
if it derives that in the grammar with the conditions (`Plan.derives_iff_written`).
-/

namespace FeatureTree.Traversal

/-! ## Words -/

/-- A token of an expression, and what it stands for. -/
inductive Word
  /-- A sign, the name of an axis, or a word that joins operands. -/
  | fixed (token : Token)
  /-- A name of the nodes that a step looks for. -/
  | kind (name : String)
  | attribute (name : String)
  | position (digits : String)
  /-- A text, and the name of the attribute that it is compared with. -/
  | value (name text : String)

namespace Word

/-- The token of a word. -/
def token : Word → Token
  | .fixed token => token
  | .kind name | .attribute name => .name name
  | .position digits => .digits digits
  | .value _ text => .literal text

/-- What is wrong with the meaning of a word, if anything is. -/
def fault? : Word → Option Fault
  | .fixed _ => none
  | .kind name => if ∃ k ∈ Kind.all, k.name = name then none else some (.unknownKind name)
  | .attribute name =>
    if name = "name" ∨ name = "kind" then none else some (.unknownAttribute name)
  | .position digits =>
    if 2 ^ 64 ≤ Nat.ofDigitChars 10 digits.toList 0 then some .positionTooLarge
    else if Nat.ofDigitChars 10 digits.toList 0 = 0 then some .positionZero
    else none
  | .value name text =>
    if name = "kind" ∧ ¬ ∃ k ∈ Kind.all, k.name = text then some (.unknownKind text)
    else none

end Word

/-- The tokens of words. -/
def tokensOf (ws : List Word) : List Token := ws.map Word.token

/-- Nothing is wrong with any of the words. -/
def AllMeant (ws : List Word) : Prop := ∀ w ∈ ws, w.fault? = none

/-! ## The grammar -/

/-- The position that digits stand for. -/
def positionOf? (digits : String) : Option Predicate :=
  if 1 ≤ Nat.ofDigitChars 10 digits.toList 0 ∧ Nat.ofDigitChars 10 digits.toList 0 < 2 ^ 64 then
    some (.position (Nat.ofDigitChars 10 digits.toList 0))
  else none

/-- The comparison of an attribute with a text. -/
def compared? (comparison : Comparison) (text : String) (asked : Attribute) : Option Predicate :=
  if asked = .kind ∧ Kind.ofName? text = none then none
  else some (.compare asked comparison text)

/-- The words of a predicate, and what it says, if it says anything. -/
inductive Predicate.Written : Level → List Word → Option Predicate → Prop
  | position (digits : String) : Written .atom [.position digits] (positionOf? digits)
  | has (name : String) :
      Written .atom [.fixed (.sign "@"), .attribute name] ((Attribute.ofWord? name).map .has)
  | compare (name : String) (comparison : Comparison) (text : String) :
      Written .atom
        [.fixed (.sign "@"), .attribute name, .fixed (.sign comparison.symbol), .value name text]
        ((Attribute.ofWord? name).bind (compared? comparison text))
  | group {ws : List Word} {v : Option Predicate} (h : Written .or ws v) :
      Written .atom (.fixed (.sign "(") :: (ws ++ [.fixed (.sign ")")])) v
  | atom {ws : List Word} {v : Option Predicate} (h : Written .atom ws v) : Written .and ws v
  | and {ws us : List Word} {v w : Option Predicate} (hleft : Written .and ws v)
      (hright : Written .atom us w) :
      Written .and (ws ++ .fixed (.name "and") :: us) (v.bind fun p => w.map (.and p))
  | ands {ws : List Word} {v : Option Predicate} (h : Written .and ws v) : Written .or ws v
  | or {ws us : List Word} {v w : Option Predicate} (hleft : Written .or ws v)
      (hright : Written .and us w) :
      Written .or (ws ++ .fixed (.name "or") :: us) (v.bind fun p => w.map (.or p))

/-- The words of predicates, each in its brackets. -/
inductive WrittenPredicates : List Word → Option (List Predicate) → Prop
  | nil : WrittenPredicates [] (some [])
  | cons {ws us : List Word} {v : Option Predicate} {vs : Option (List Predicate)}
      (h : Predicate.Written .or ws v) (hrest : WrittenPredicates us vs) :
      WrittenPredicates (.fixed (.sign "[") :: (ws ++ .fixed (.sign "]") :: us))
        (v.bind fun p => vs.map (p :: ·))

/-- The word of a test. -/
inductive WrittenTest : Word → Option NodeTest → Prop
  | any : WrittenTest (.fixed (.sign "*")) (some .any)
  | kind (name : String) : WrittenTest (.kind name) ((Kind.ofName? name).map .kind)

/-- The words of a step, and whether they say its axis. -/
inductive Step.Written : List Word → Option Step → Bool → Prop
  | parent : Written [.fixed (.sign "..")] (some (.plain .parent .any)) true
  | self : Written [.fixed (.sign ".")] (some (.plain .self .any)) true
  | along (axis : Axis) {test : Word} {v : Option NodeTest} {ws : List Word}
      {vs : Option (List Predicate)} (ht : WrittenTest test v) (h : WrittenPredicates ws vs) :
      Written (.fixed (.name axis.name) :: .fixed (.sign "::") :: test :: ws)
        (v.bind fun test => vs.map (⟨axis, test, ·⟩)) true
  | child {test : Word} {v : Option NodeTest} {ws : List Word} {vs : Option (List Predicate)}
      (ht : WrittenTest test v) (h : WrittenPredicates ws vs) :
      Written (test :: ws) (v.bind fun test => vs.map (⟨.child, test, ·⟩)) false

/-- The words of a path, where the first step comes after `//` if `deep` says so. -/
inductive WrittenPath : Bool → List Word → Option (List Step) → Prop
  | last {deep : Bool} {ws : List Word} {v : Option Step} {explicit : Bool}
      (h : Step.Written ws v explicit) :
      WrittenPath deep ws (v.map (expandStep deep · explicit))
  | more {deep deep' : Bool} {ws us : List Word} {v : Option Step} {explicit : Bool}
      {vs : Option (List Step)} (h : Step.Written ws v explicit)
      (hrest : WrittenPath deep' us vs) :
      WrittenPath deep (ws ++ .fixed (separatorToken deep') :: us)
        (v.bind fun s => vs.map (expandStep deep s explicit ++ ·))

/-- The words of an expression, and the plan that it stands for, if it stands for one. -/
inductive Plan.Written : List Word → Option Plan → Prop
  | context {ws : List Word} {v : Option (List Step)} (h : WrittenPath false ws v) :
      Written ws (v.map (⟨.context, ·⟩))
  | root {deep : Bool} {ws : List Word} {v : Option (List Step)} (h : WrittenPath deep ws v) :
      Written (.fixed (separatorToken deep) :: ws) (v.map (⟨.root, ·⟩))

/-! ## What has a meaning is derived -/

section Derived

variable {ts : List Token} {ws : List Word} {deep : Bool}

@[simp] theorem tokensOf_nil : tokensOf [] = [] := rfl

@[simp] theorem tokensOf_cons (w : Word) (ws : List Word) :
    tokensOf (w :: ws) = w.token :: tokensOf ws := rfl

@[simp] theorem tokensOf_append (ws us : List Word) :
    tokensOf (ws ++ us) = tokensOf ws ++ tokensOf us := List.map_append

@[simp] theorem Word.token_fixed (token : Token) : (Word.fixed token).token = token := rfl

/-- Two parts stand for something together if each of them does. -/
theorem exists_of_bind_map {α β γ : Type} {v : Option α} {w : Option β} {f : α → β → γ} {c : γ}
    (h : (v.bind fun a => w.map (f a)) = some c) :
    ∃ a b, v = some a ∧ w = some b ∧ f a b = c := by
  obtain ⟨a, ha, hmap⟩ := Option.bind_eq_some_iff.1 h
  obtain ⟨b, hb, hc⟩ := Option.map_eq_some_iff.1 hmap
  exact ⟨a, b, ha, hb, hc⟩

theorem Kind.ofName?_eq_none_iff {name : String} :
    Kind.ofName? name = none ↔ ¬ ∃ k ∈ Kind.all, k.name = name := by
  rw [Kind.ofName?, List.find?_eq_none]
  simp

theorem compared?_eq_some_iff {comparison : Comparison} {text : String} {asked : Attribute}
    {p : Predicate} :
    compared? comparison text asked = some p ↔
      (asked = .kind → ∃ k : Kind, k.name = text) ∧ p = .compare asked comparison text := by
  have hnone : Kind.ofName? text = none ↔ ¬ ∃ k : Kind, k.name = text := by
    simp only [Option.eq_none_iff_forall_ne_some, ne_eq, kind_ofName?_iff, not_exists]
  rw [compared?]
  split
  · next h => exact ⟨nofun, fun hp => absurd (hp.1 h.1) (hnone.1 h.2)⟩
  · next h =>
      have hkind : asked = .kind → ∃ k : Kind, k.name = text := fun hasked =>
        Classical.not_not.1 fun hno => h ⟨hasked, hnone.2 hno⟩
      rw [Option.some.injEq, eq_comm, and_iff_right hkind]

theorem Predicate.derives_of_written {level : Level} {v : Option Predicate}
    (h : Written level ws v) : ∀ p, v = some p → p.Derives level (tokensOf ws) := by
  induction h with
  | position digits =>
      intro p hp
      rw [positionOf?] at hp
      split at hp
      · next hrange => cases hp; exact .position hrange.1 hrange.2
      · cases hp
  | has name =>
      intro p hp
      obtain ⟨asked, hasked, rfl⟩ := Option.map_eq_some_iff.1 hp
      rw [← attribute_ofWord?_iff.1 hasked]
      exact .has asked
  | compare name comparison text =>
      intro p hp
      obtain ⟨asked, hasked, hcompared⟩ := Option.bind_eq_some_iff.1 hp
      obtain ⟨hkind, rfl⟩ := compared?_eq_some_iff.1 hcompared
      rw [← attribute_ofWord?_iff.1 hasked]
      exact .compare hkind
  | group _ ih =>
      intro p hp
      simpa using Derives.group (ih p hp)
  | atom _ ih => exact fun p hp => .atom (ih p hp)
  | and _ _ ihl ihr =>
      intro p hp
      obtain ⟨q, r, hq, hr, rfl⟩ := exists_of_bind_map hp
      simpa using Derives.and (ihl q hq) (ihr r hr)
  | ands _ ih => exact fun p hp => .ands (ih p hp)
  | or _ _ ihl ihr =>
      intro p hp
      obtain ⟨q, r, hq, hr, rfl⟩ := exists_of_bind_map hp
      simpa using Derives.or (ihl q hq) (ihr r hr)

theorem Predicate.written_of_derives {level : Level} {p : Predicate} (h : p.Derives level ts) :
    ∃ ws, tokensOf ws = ts ∧ Written level ws (some p) := by
  induction h with
  | @position text hpos hmax =>
      have h := Written.position text
      rw [positionOf?, if_pos ⟨hpos, hmax⟩] at h
      exact ⟨_, rfl, h⟩
  | has asked =>
      have h := Written.has asked.word
      rw [attribute_ofWord?_iff.2 rfl] at h
      exact ⟨_, rfl, h⟩
  | @compare asked comparison value hkind =>
      have h := Written.compare asked.word comparison value
      rw [attribute_ofWord?_iff.2 rfl, Option.bind_some,
        compared?_eq_some_iff.2 ⟨hkind, rfl⟩] at h
      exact ⟨_, rfl, h⟩
  | group _ ih =>
      obtain ⟨ws, rfl, h⟩ := ih
      exact ⟨_, by simp, .group h⟩
  | atom _ ih =>
      obtain ⟨ws, rfl, h⟩ := ih
      exact ⟨ws, rfl, .atom h⟩
  | and _ _ ihl ihr =>
      obtain ⟨ws, rfl, h⟩ := ihl
      obtain ⟨us, rfl, h'⟩ := ihr
      exact ⟨_, by simp, .and h h'⟩
  | ands _ ih =>
      obtain ⟨ws, rfl, h⟩ := ih
      exact ⟨ws, rfl, .ands h⟩
  | or _ _ ihl ihr =>
      obtain ⟨ws, rfl, h⟩ := ihl
      obtain ⟨us, rfl, h'⟩ := ihr
      exact ⟨_, by simp, .or h h'⟩

theorem derives_of_writtenPredicates {v : Option (List Predicate)} (h : WrittenPredicates ws v) :
    ∀ ps, v = some ps → DerivesPredicates (tokensOf ws) ps := by
  induction h with
  | nil =>
      rintro ps ⟨⟩
      exact .nil
  | cons h _ ih =>
      intro ps hps
      obtain ⟨p, qs, hp, hqs, rfl⟩ := exists_of_bind_map hps
      simpa using DerivesPredicates.cons (Predicate.derives_of_written h p hp) (ih qs hqs)

theorem writtenPredicates_of_derives {ps : List Predicate} (h : DerivesPredicates ts ps) :
    ∃ ws, tokensOf ws = ts ∧ WrittenPredicates ws (some ps) := by
  induction h with
  | nil => exact ⟨[], rfl, .nil⟩
  | cons h _ ih =>
      obtain ⟨ws, rfl, hp⟩ := Predicate.written_of_derives h
      obtain ⟨us, rfl, hps⟩ := ih
      exact ⟨_, by simp, .cons hp hps⟩

theorem token_of_writtenTest {w : Word} {v : Option NodeTest} (h : WrittenTest w v) :
    ∀ test, v = some test → w.token = test.token := by
  cases h with
  | any =>
      rintro test ⟨⟩
      rfl
  | kind name =>
      intro test htest
      obtain ⟨k, hk, rfl⟩ := Option.map_eq_some_iff.1 htest
      rw [NodeTest.token, kind_ofName?_iff.1 hk, Word.token]

theorem writtenTest_token (test : NodeTest) :
    ∃ w : Word, w.token = test.token ∧ WrittenTest w (some test) := by
  cases test with
  | any => exact ⟨_, rfl, .any⟩
  | kind k =>
      have h := WrittenTest.kind k.name
      rw [kind_ofName?_iff.2 rfl] at h
      exact ⟨_, rfl, h⟩

/-- What a test and the predicates behind it stand for. -/
theorem found_of_written {test : Word} {v : Option NodeTest} {vs : Option (List Predicate)}
    {axis : Axis} {s : Step} (ht : WrittenTest test v) (h : WrittenPredicates ws vs)
    (hs : (v.bind fun test => vs.map (Step.mk axis test ·)) = some s) :
    ∃ found ps, test.token = NodeTest.token found ∧ DerivesPredicates (tokensOf ws) ps ∧
      s = ⟨axis, found, ps⟩ := by
  obtain ⟨found, ps, hfound, hps, rfl⟩ := exists_of_bind_map hs
  exact ⟨found, ps, token_of_writtenTest ht found hfound,
    derives_of_writtenPredicates h ps hps, rfl⟩

theorem Step.derives_of_written {v : Option Step} {explicit : Bool} (h : Written ws v explicit) :
    ∀ s, v = some s → s.Derives (tokensOf ws) explicit := by
  cases h with
  | parent =>
      rintro s ⟨⟩
      exact .parent
  | self =>
      rintro s ⟨⟩
      exact .self
  | along axis ht h =>
      intro s hs
      obtain ⟨test, ps, htoken, hps, rfl⟩ := found_of_written ht h hs
      simp only [tokensOf_cons, Word.token_fixed, htoken]
      exact .along axis test hps
  | child ht h =>
      intro s hs
      obtain ⟨test, ps, htoken, hps, rfl⟩ := found_of_written ht h hs
      rw [tokensOf_cons, htoken]
      exact .child test hps

theorem Step.written_of_derives {s : Step} {explicit : Bool} (h : s.Derives ts explicit) :
    ∃ ws, tokensOf ws = ts ∧ Written ws (some s) explicit := by
  cases h with
  | parent => exact ⟨_, rfl, .parent⟩
  | self => exact ⟨_, rfl, .self⟩
  | along axis test h =>
      obtain ⟨w, hw, htest⟩ := writtenTest_token test
      obtain ⟨ws, rfl, hps⟩ := writtenPredicates_of_derives h
      exact ⟨_, by simp [hw], .along axis htest hps⟩
  | child test h =>
      obtain ⟨w, hw, htest⟩ := writtenTest_token test
      obtain ⟨ws, rfl, hps⟩ := writtenPredicates_of_derives h
      exact ⟨_, by simp [hw], .child htest hps⟩

theorem derivesSteps_expandStep {step : Step} {explicit : Bool} (h : step.Derives ts explicit)
    (deep : Bool) : DerivesSteps deep ts (expandStep deep step explicit) := by
  cases deep with
  | false => exact .near h
  | true =>
      cases explicit with
      | false => exact .deep h
      | true => exact .deepNamed h

theorem exists_step_of_derives {ss : List Step} (h : DerivesSteps deep ts ss) :
    ∃ step explicit, step.Derives ts explicit ∧ expandStep deep step explicit = ss := by
  cases h with
  | near h => exact ⟨_, _, h, rfl⟩
  | deepNamed h => exact ⟨_, _, h, rfl⟩
  | deep h => exact ⟨_, _, h, rfl⟩

theorem derives_of_writtenPath {v : Option (List Step)} (h : WrittenPath deep ws v) :
    ∀ ss, v = some ss → DerivesPath deep (tokensOf ws) ss := by
  induction h with
  | last h =>
      intro ss hss
      obtain ⟨s, hs, rfl⟩ := Option.map_eq_some_iff.1 hss
      exact .last (derivesSteps_expandStep (Step.derives_of_written h s hs) _)
  | more h _ ih =>
      intro ss hss
      obtain ⟨s, rest, hs, hrest, rfl⟩ := exists_of_bind_map hss
      have hsteps := derivesSteps_expandStep (Step.derives_of_written h s hs)
      simpa using DerivesPath.more (hsteps _) (ih rest hrest)

theorem writtenPath_of_derives {ss : List Step} (h : DerivesPath deep ts ss) :
    ∃ ws, tokensOf ws = ts ∧ WrittenPath deep ws (some ss) := by
  induction h with
  | last h =>
      obtain ⟨s, explicit, hs, rfl⟩ := exists_step_of_derives h
      obtain ⟨ws, rfl, hws⟩ := Step.written_of_derives hs
      exact ⟨ws, rfl, .last hws⟩
  | more h _ ih =>
      obtain ⟨s, explicit, hs, rfl⟩ := exists_step_of_derives h
      obtain ⟨ws, rfl, hws⟩ := Step.written_of_derives hs
      obtain ⟨us, rfl, hus⟩ := ih
      exact ⟨_, by simp, .more hws hus⟩

/-- Tokens derive a plan exactly if they can be taken for words that stand for it. -/
theorem Plan.derives_iff_written {plan : Plan} :
    plan.Derives ts ↔ ∃ ws, tokensOf ws = ts ∧ Written ws (some plan) := by
  constructor
  · rintro (h | h)
    · obtain ⟨ws, rfl, hws⟩ := writtenPath_of_derives h
      exact ⟨ws, rfl, .context hws⟩
    · obtain ⟨ws, rfl, hws⟩ := writtenPath_of_derives h
      exact ⟨_, rfl, .root hws⟩
  · rintro ⟨ws, rfl, h⟩
    generalize hv : some plan = v at h
    cases h with
    | context h =>
        obtain ⟨ss, hss, rfl⟩ := Option.map_eq_some_iff.1 hv.symm
        exact .context (derives_of_writtenPath h ss hss)
    | root h =>
        obtain ⟨ss, hss, rfl⟩ := Option.map_eq_some_iff.1 hv.symm
        exact .root (derives_of_writtenPath h ss hss)

end Derived

end FeatureTree.Traversal
