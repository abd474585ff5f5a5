import FeatureTree.Proofs.Adapter.Stages
import FeatureTree.Session.Basic

/-!
# Settings over a run

The settings of an adapter are what was set last, and what was never set is as it was when
the adapter was built. To replace constraints a session puts an entry in front of those that
there are, and to find them it looks for the first entry of the target; so no other entry is
ever in the way, neither an older one nor one of another target
(`constraintsFor_withConstraints`).

A run is made of turns. What a turn does to the adapter is said once (`Adapter.after`), the
settings after a run follow by induction, and so do the answers, which depend on the settings
at their turn alone (`Settings.reply`).
-/

namespace FeatureTree

variable {V : Type}

/-! ## Turns -/

/-- What can be done with an adapter. -/
inductive Turn (V : Type)
  /-- A request to change a setting or to read something, with the files as they are then. -/
  | request (files : FileSystem) (request : Request V)
  /-- Read what is left of a stream, without checking its shape. -/
  | readStream (stream : Stream) (target : Target) (strict : Bool)
  | askStrict
  | askConstraints (target : Target)

/-- What a turn is answered with. -/
inductive Reply (V : Type)
  | done
  | outcome (outcome : Outcome)
  | strict (strict : Bool)
  | constraints (set : ConstraintSet V)

namespace Turn

/-- The strictness that is set. -/
def strict? : Turn V → Option Bool
  | .request _ (.setStrict strict) => some strict
  | _ => none

/-- The constraints that are given for a target. -/
def given? (target : Target) : Turn V → Option (ConstraintSet V)
  | .request _ (.setConstraints other set) => if other = target then some set else none
  | _ => none

/-- The turn changes a setting. -/
def isSetting : Turn V → Bool
  | .request _ (.setStrict _) | .request _ (.setConstraints _ _) => true
  | _ => false

end Turn

namespace Session

variable [Validator V]

/-- Takes a turn. -/
def take (s : Session V) : Turn V → Reply V × Session V
  | .request files request =>
    match s.step files request with
    | (some outcome, next) => (.outcome outcome, next)
    | (none, next) => (.done, next)
  | .readStream stream target strict =>
    let attempt := (s.adapter.parseStream stream target strict).1
    (.outcome attempt.outcome, s.note attempt)
  | .askStrict => (.strict s.adapter.strict, s)
  | .askConstraints target => (.constraints (s.adapter.constraintsFor target), s)

/-- Takes turns, one after the other. -/
def takeAll (s : Session V) : List (Turn V) → List (Reply V) × Session V
  | [] => ([], s)
  | turn :: turns =>
    let (reply, next) := s.take turn
    let (replies, last) := takeAll next turns
    (reply :: replies, last)

end Session

/-! ## What was set last -/

/-- The last result of a function that is none for some elements of a list. -/
def last? {α β : Type} (f : α → Option β) (as : List α) : Option β := (as.filterMap f).getLast?

section Last

variable {α β : Type} {f : α → Option β}

theorem last?_cons (a : α) (as : List α) : last? f (a :: as) = (last? f as).or (f a) := by
  rw [last?, last?, List.filterMap_cons]
  cases f a with
  | none => rw [Option.or_none]
  | some b =>
      rw [List.getLast?_cons]
      cases (as.filterMap f).getLast? <;> rfl

theorem last?_filter {p : α → Bool} (h : ∀ a, (f a).isSome → p a = true) (as : List α) :
    last? f (as.filter p) = last? f as := by
  induction as with
  | nil => rfl
  | cons a as ih =>
      cases hp : p a with
      | true => rw [List.filter_cons_of_pos hp, last?_cons, last?_cons, ih]
      | false =>
          have hnone : f a = none := by
            cases hf : f a with
            | none => rfl
            | some b => rw [h a (by rw [hf]; rfl)] at hp; cases hp
          rw [List.filter_cons_of_neg (by simp [hp]), ih, last?_cons, hnone, Option.or_none]

end Last

namespace Settings

/-- The constraints that the settings give for a target. -/
def configured? (c : Settings V) (target : Target) : Option (ConstraintSet V) :=
  last? (fun (other, set) => if other = target then some set else none) c.targets

/-- The strictness after some turns: the one set last, or else that of the settings. -/
def strictAfter (c : Settings V) (turns : List (Turn V)) : Bool :=
  (last? Turn.strict? turns).getD c.strict

/-- The constraints of a target after some turns: those given last, or else those of the
settings, or else the default ones. -/
def constraintsAfter (c : Settings V) (turns : List (Turn V)) (target : Target) :
    ConstraintSet V :=
  ((last? (Turn.given? target) turns).or (c.configured? target)).getD
    (.forProduction target.production)

/-- What a turn is answered with that comes after some others. -/
def reply [Validator V] (c : Settings V) (before : List (Turn V)) : Turn V → Reply V
  | .request _ (.setStrict _) | .request _ (.setConstraints _ _) => .done
  | .request files (.parse snippet constraints) =>
    .outcome ((Adapter.default.withStrict (c.strictAfter before)).parse files snippet
      (some (constraints.getD (c.constraintsAfter before snippet.target)))).outcome
  | .request _ (.parseText text target strict) =>
    .outcome ((Adapter.default : Adapter V).parseText text target strict).outcome
  | .readStream stream target strict =>
    .outcome ((Adapter.default : Adapter V).parseStream stream target strict).1.outcome
  | .askStrict => .strict (c.strictAfter before)
  | .askConstraints target => .constraints (c.constraintsAfter before target)

end Settings

/-! ## Adapters -/

namespace Adapter

variable {a : Adapter V}

/-- The adapter after a turn. -/
def after (a : Adapter V) : Turn V → Adapter V
  | .request _ (.setStrict strict) => a.withStrict strict
  | .request _ (.setConstraints target set) => a.withConstraints target set
  | _ => a

theorem constraintsFor_withConstraints (a : Adapter V) (target other : Target)
    (set : ConstraintSet V) :
    (a.withConstraints target set).constraintsFor other =
      if target = other then set else a.constraintsFor other := by
  rw [constraintsFor, withConstraints, List.find?_cons]
  by_cases h : target = other
  · rw [if_pos h, beq_iff_eq.2 h]
  · rw [if_neg h, beq_eq_false_iff_ne.2 h]
    rfl

theorem after_eq_self {turn : Turn V} (h : turn.isSetting = false) : a.after turn = a := by
  cases turn with
  | request files request =>
      cases request with
      | setStrict | setConstraints => cases h
      | parse | parseText => rfl
  | readStream | askStrict | askConstraints => rfl

theorem registry_after (a : Adapter V) (turn : Turn V) : (a.after turn).registry = a.registry := by
  unfold after
  split <;> rfl

theorem strict_after (a : Adapter V) (turn : Turn V) :
    (a.after turn).strict = turn.strict?.getD a.strict := by
  cases turn with
  | request files request => cases request <;> rfl
  | readStream | askStrict | askConstraints => rfl

theorem constraintsFor_after (a : Adapter V) (turn : Turn V) (target : Target) :
    (a.after turn).constraintsFor target = (turn.given? target).getD (a.constraintsFor target) := by
  cases turn with
  | request files request =>
      cases request with
      | setConstraints other set =>
          rw [after, constraintsFor_withConstraints, Turn.given?]
          split <;> rfl
      | setStrict | parse | parseText => rfl
  | readStream | askStrict | askConstraints => rfl

variable (turns : List (Turn V))

theorem registry_foldl (a : Adapter V) : (turns.foldl after a).registry = a.registry := by
  induction turns generalizing a with
  | nil => rfl
  | cons turn turns ih => rw [List.foldl_cons, ih, registry_after]

theorem strict_foldl (a : Adapter V) :
    (turns.foldl after a).strict = (last? Turn.strict? turns).getD a.strict := by
  induction turns generalizing a with
  | nil => rfl
  | cons turn turns ih => rw [List.foldl_cons, ih, strict_after, last?_cons, Option.getD_or]

theorem constraintsFor_foldl (a : Adapter V) (target : Target) :
    (turns.foldl after a).constraintsFor target =
      (last? (Turn.given? target) turns).getD (a.constraintsFor target) := by
  induction turns generalizing a with
  | nil => rfl
  | cons turn turns ih =>
      rw [List.foldl_cons, ih, constraintsFor_after, last?_cons, Option.getD_or]

/-- Turns that change no setting may be left out. -/
theorem foldl_filter (a : Adapter V) :
    (turns.filter Turn.isSetting).foldl after a = turns.foldl after a := by
  induction turns generalizing a with
  | nil => rfl
  | cons turn turns ih =>
      cases h : turn.isSetting with
      | true => rw [List.filter_cons_of_pos h, List.foldl_cons, List.foldl_cons, ih]
      | false => rw [List.filter_cons_of_neg (by simp [h]), List.foldl_cons, after_eq_self h, ih]

/-- Constraints for some targets, given one after the other. -/
theorem foldl_withConstraints (sets : List (Target × ConstraintSet V)) (a : Adapter V) :
    let b := sets.foldl (fun a (target, set) => a.withConstraints target set) a
    b.registry = a.registry ∧ b.strict = a.strict ∧
      ∀ target, b.constraintsFor target =
        (last? (fun (other, set) => if other = target then some set else none) sets).getD
          (a.constraintsFor target) := by
  induction sets generalizing a with
  | nil => exact ⟨rfl, rfl, fun _ => rfl⟩
  | cons entry sets ih =>
      obtain ⟨other, set⟩ := entry
      obtain ⟨hregistry, hstrict, hconstraints⟩ := ih (a.withConstraints other set)
      refine ⟨hregistry, hstrict, fun target => (hconstraints target).trans ?_⟩
      rw [constraintsFor_withConstraints, last?_cons, Option.getD_or]
      show _ = Option.getD _ (Option.getD (if other = target then some set else none) _)
      split <;> rfl

theorem registry_ofSettings (c : Settings V) : (ofSettings c).registry = .bundled :=
  (foldl_withConstraints c.targets _).1

theorem strict_ofSettings (c : Settings V) : (ofSettings c).strict = c.strict :=
  (foldl_withConstraints c.targets _).2.1

theorem constraintsFor_ofSettings (c : Settings V) (target : Target) :
    (ofSettings c).constraintsFor target =
      (c.configured? target).getD (.forProduction target.production) :=
  (foldl_withConstraints c.targets _).2.2 target

/-- Of two entries for a target the second one counts. -/
example (first second : ConstraintSet V) :
    (ofSettings ⟨true, [(⟨.java, .field⟩, first), (⟨.java, .field⟩, second)]⟩).constraintsFor
      ⟨.java, .field⟩ = second := rfl

variable [Validator V]

/-- What is read depends on the engines, the strictness, and the constraints of the target. -/
theorem parse_congr {b : Adapter V} (files : FileSystem) (snippet : Snippet)
    (constraints : Option (ConstraintSet V)) {set : ConstraintSet V}
    (hregistry : a.registry = b.registry) (hstrict : a.strict = b.strict)
    (hset : constraints.getD (a.constraintsFor snippet.target) = set) :
    a.parse files snippet constraints = b.parse files snippet (some set) := by
  have hof : a.constraintsOf snippet constraints = b.constraintsOf snippet (some set) := hset
  rw [parse_eq, parse_eq, hregistry, hstrict, hof]

end Adapter

/-! ## Runs -/

namespace Session

variable [Validator V] (s : Session V)

theorem adapter_take (turn : Turn V) : (s.take turn).2.adapter = s.adapter.after turn := by
  cases turn with
  | request files request => cases request <;> rfl
  | readStream | askStrict | askConstraints => rfl

theorem adapter_takeAll (turns : List (Turn V)) :
    (s.takeAll turns).2.adapter = turns.foldl Adapter.after s.adapter := by
  induction turns generalizing s with
  | nil => rfl
  | cons turn turns ih =>
      show ((s.take turn).2.takeAll turns).2.adapter = _
      rw [ih, adapter_take, List.foldl_cons]

theorem length_takeAll (turns : List (Turn V)) : (s.takeAll turns).1.length = turns.length := by
  induction turns generalizing s with
  | nil => rfl
  | cons turn turns ih => exact congrArg (· + 1) (ih (s.take turn).2)

theorem replies_append (before after : List (Turn V)) :
    (s.takeAll (before ++ after)).1 =
      (s.takeAll before).1 ++ ((s.takeAll before).2.takeAll after).1 := by
  induction before generalizing s with
  | nil => rfl
  | cons turn before ih => exact congrArg ((s.take turn).1 :: ·) (ih (s.take turn).2)

/-- A turn is answered by the settings that there are. -/
theorem reply_take {c : Settings V} {before : List (Turn V)}
    (hregistry : s.adapter.registry = .bundled) (hstrict : s.adapter.strict = c.strictAfter before)
    (hconstraints : ∀ target, s.adapter.constraintsFor target = c.constraintsAfter before target)
    (turn : Turn V) : (s.take turn).1 = c.reply before turn := by
  cases turn with
  | request files request =>
      cases request with
      | setStrict | setConstraints => rfl
      | parse snippet constraints =>
          let same : Adapter V := Adapter.default.withStrict (c.strictAfter before)
          have hparse := Adapter.parse_congr (b := same) files snippet constraints hregistry
            hstrict rfl
          show Reply.outcome (s.adapter.parse files snippet constraints).outcome = _
          rw [hparse, hconstraints]
          rfl
      | parseText text target strict =>
          show Reply.outcome (s.adapter.parseText text target strict).outcome = _
          rw [Adapter.parseText, Adapter.parseStream, hregistry]
          rfl
  | readStream stream target strict =>
      show Reply.outcome (s.adapter.parseStream stream target strict).1.outcome = _
      rw [Adapter.parseStream, hregistry]
      rfl
  | askStrict => exact congrArg Reply.strict hstrict
  | askConstraints target => exact congrArg Reply.constraints (hconstraints target)

/-- After any turns, an adapter that was built from some settings has the strictness that was
set last and the constraints that were given last for each target, or else those of the
settings, or else the default ones. What was done to other targets does not matter to a
target, and turns that change no setting do not matter at all. A snippet is read without
constraints as it is with those of its target, and every turn is answered as the settings at
the time say. -/
theorem takeAll_ofSettings (c : Settings V) (before after : List (Turn V)) (turn : Turn V) :
    let s := start (Adapter.ofSettings c)
    let a := (s.takeAll before).2.adapter
    a.strict = c.strictAfter before ∧
      (∀ target, a.constraintsFor target = c.constraintsAfter before target) ∧
      (∀ target, a.constraintsFor target =
        (s.takeAll (before.filter fun t => (t.given? target).isSome)).2.adapter.constraintsFor
          target) ∧
      a = (s.takeAll (before.filter Turn.isSetting)).2.adapter ∧
      (∀ files snippet, a.parse files snippet none =
        a.parse files snippet (some (a.constraintsFor snippet.target))) ∧
      (s.takeAll (before ++ turn :: after)).1[before.length]? = some (c.reply before turn) := by
  intro s a
  have ha : a = before.foldl Adapter.after (Adapter.ofSettings c) := s.adapter_takeAll before
  have hregistry : a.registry = .bundled := by
    rw [ha, Adapter.registry_foldl, Adapter.registry_ofSettings]
  have hstrict : a.strict = c.strictAfter before := by
    rw [ha, Adapter.strict_foldl, Settings.strictAfter, Adapter.strict_ofSettings]
  have hconstraints (turns : List (Turn V)) (target : Target) :
      (s.takeAll turns).2.adapter.constraintsFor target = c.constraintsAfter turns target := by
    rw [adapter_takeAll, Adapter.constraintsFor_foldl, Settings.constraintsAfter, Option.getD_or]
    exact congrArg _ (Adapter.constraintsFor_ofSettings c target)
  refine ⟨hstrict, hconstraints before, fun target => ?_, ?_, fun files snippet => ?_, ?_⟩
  · rw [hconstraints, hconstraints, Settings.constraintsAfter, Settings.constraintsAfter,
      last?_filter fun _ => id]
  · rw [adapter_takeAll, Adapter.foldl_filter]
    exact ha
  · exact Adapter.parse_congr files snippet none rfl rfl rfl
  · rw [replies_append, List.getElem?_append_right (Nat.le_of_eq (length_takeAll s before)),
      length_takeAll, Nat.sub_self]
    exact congrArg some (reply_take _ hregistry hstrict (hconstraints before) turn)

/-- A configuration that names a target twice, of which the last entry counts. A field is read
under it, and again when other constraints have been given, for its target and for another one. -/
theorem takeAll_ofSettings_twice :
    let field : Target := ⟨.java, .field⟩
    let config : Config := ⟨true, [⟨field, [.forbidKind .variable]⟩, ⟨field, [.requireName]⟩]⟩
    let files : FileSystem := ⟨fun _ => .error .notFound, fun _ => none⟩
    let read : Turn Empty := .request files (.parse ⟨.inline "a" "int x; y", field⟩ none)
    let lenient : Turn Empty := .request files (.setStrict false)
    let given (target : Target) : Turn Empty :=
      .request files (.setConstraints target (.ofList [.forbidKind .variable]))
    let turns := [lenient, read, given ⟨.java, .method⟩, given field]
    let s := start (Adapter.ofConfig config)
    let replies := (s.takeAll (turns ++ [read])).1
    (s.takeAll turns).2.adapter.strict = false ∧
      (∀ target, (s.takeAll turns).2.adapter.constraintsFor target =
        if target = field ∨ target = ⟨.java, .method⟩ then .ofList [.forbidKind .variable]
        else .forProduction target.production) ∧
      replies[1]? = some (.outcome (.ok
        ⟨.field, some "x", [⟨.variable, some "x", [], ⟨4, 5⟩, none⟩], ⟨0, 6⟩, none⟩)) ∧
      replies[4]? = some (.outcome (.error (.constraint ⟨"a", "int x; y"⟩
        ⟨"variable is not allowed inside a field", ⟨4, 5⟩⟩))) := by
  intro field config files read lenient given turns s replies
  obtain ⟨hstrict, hconstraints, -, -, -, hlast⟩ :=
    takeAll_ofSettings config.settings turns [] read
  obtain ⟨-, -, -, -, -, hfirst⟩ := takeAll_ofSettings config.settings [lenient]
    [given ⟨.java, .method⟩, given field, read] read
  refine ⟨hstrict, fun target => (hconstraints target).trans ?_, hfirst.trans ?_, hlast.trans ?_⟩
  · by_cases hfield : target = field
    · subst hfield
      rfl
    · by_cases hmethod : target = ⟨.java, .method⟩
      · subst hmethod
        rfl
      · have hgiven : last? (Turn.given? target) turns = none := by
          simp [last?, turns, given, lenient, read, Turn.given?, Ne.symm hfield, Ne.symm hmethod]
        have hconfigured : (config.settings : Settings Empty).configured? target = none := by
          simp [Settings.configured?, last?, Config.settings, config, Ne.symm hfield]
        rw [Settings.constraintsAfter, hgiven, hconfigured, if_neg (not_or.2 ⟨hfield, hmethod⟩)]
        rfl
  · exact congrArg (some <| Reply.outcome ·) (Outcome.eq_ok_of_toOption (by decide +kernel))
  · exact congrArg (some <| Reply.outcome ·)
      (Outcome.eq_error_of_rejection? (by decide +kernel))

end Session

end FeatureTree
