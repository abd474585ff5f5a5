import FeatureTree.Proofs.Snippet.Parse

/-!
# The stages of a call

A snippet is read in four stages: its target is looked up, its text is opened, the engine
answers with a root of the right kind, and the shape of the tree is checked. What each stage
objects to can be said without the others: the first two look at the request only, and the
last two at the engine's answer, which there is none of without an engine and a text. The
call ends with the first objection (`parse_eq_error_iff`), and where there is none, with the
tree that the engine has answered (`parse_eq_ok_iff`).

The name of a source is in an error and decides nothing (`verdict_named`).
-/

namespace FeatureTree

/-- The text of a snippet, where files are those of a file system. -/
def Content.read (files : FileSystem) : Content → Except ReadError String
  | .inline _ text => .ok text
  | .file path => files.readText path

theorem Stream.ofContent_eq (files : FileSystem) (content : Content) :
    ofContent files content =
      match content.read files with
      | .ok text => .ok (ofText content.name text)
      | .error reason => .error (.sourceUnavailable content.name reason) := by
  cases content with
  | inline name text => rfl
  | file path =>
      rw [ofContent, Content.read]
      cases files.readText path <;> rfl

/-- The rejection where its source has another name. -/
def Rejection.named (name : String) : Rejection → Rejection
  | sourceUnavailable _ reason => .sourceUnavailable name reason
  | grammar source target fault span => .grammar { source with name } target fault span
  | traversal source fault span => .traversal { source with name } fault span
  | constraint source violation => .constraint { source with name } violation
  | unsupported target => .unsupported target

/-- The outcome where the source has another name. -/
def Outcome.named (name : String) (o : Outcome) : Outcome := o.mapError (·.named name)

variable {V : Type} [Validator V]

section Answers

variable {source : Source} {target : Target} {set : ConstraintSet V}
  {answer : Except SyntaxError Node} {r : Rejection} {n : Node}

/-- Why an engine's answer is no result of the production, if it is none. -/
def malformed? (source : Source) (target : Target) : Except SyntaxError Node → Option Rejection
  | .error e => some (.grammar source target (.unread e) e.span)
  | .ok n =>
    if target.production.accepts n.kind then none
    else some (.grammar source target (.wrongRoot n.kind) n.span)

/-- Why the tree that an engine has answered is not of an allowed shape, if there is a tree
and it is not. -/
def disallowed? (source : Source) (set : ConstraintSet V) :
    Except SyntaxError Node → Option Rejection
  | .error _ => none
  | .ok n => (set.violation? n).map (.constraint source)

/-- What becomes of an engine's answer. -/
def verdict (source : Source) (target : Target) (set : ConstraintSet V) :
    Except SyntaxError Node → Outcome
  | .error e => .error (.grammar source target (.unread e) e.span)
  | .ok n =>
    if target.production.accepts n.kind then Adapter.checkShape set source n
    else .error (.grammar source target (.wrongRoot n.kind) n.span)

theorem checkShape_eq_ok_iff {m : Node} :
    Adapter.checkShape set source m = .ok n ↔ m = n ∧ set.validate n = .ok () := by
  rw [Adapter.checkShape]
  cases h : set.violation? m with
  | none =>
      constructor
      · rintro ⟨⟩
        exact ⟨rfl, by rw [ConstraintSet.validate, h]⟩
      · rintro ⟨rfl, -⟩
        rfl
  | some violation =>
      constructor
      · rintro ⟨⟩
      · rintro ⟨rfl, hvalid⟩
        rw [ConstraintSet.validate, h] at hvalid
        cases hvalid

theorem checkShape_eq_error_iff {m : Node} :
    Adapter.checkShape set source m = .error r ↔
      (set.violation? m).map (.constraint source) = some r := by
  rw [Adapter.checkShape]
  cases set.violation? m with
  | none => exact ⟨nofun, nofun⟩
  | some violation => exact ⟨fun h => by cases h; rfl, fun h => by cases h; rfl⟩

/-- An answer is rejected for the root before it is rejected for the shape. -/
theorem verdict_eq_error_iff :
    verdict source target set answer = .error r ↔
      (malformed? source target answer).or (disallowed? source set answer) = some r := by
  cases answer with
  | error e => exact ⟨fun h => by cases h; rfl, fun h => by cases h; rfl⟩
  | ok n =>
      rw [verdict, malformed?, disallowed?]
      by_cases hkind : target.production.accepts n.kind = true
      · rw [if_pos hkind, if_pos hkind, Option.none_or, checkShape_eq_error_iff]
      · rw [if_neg hkind, if_neg hkind, Option.some_or]
        exact ⟨fun h => by cases h; rfl, fun h => by cases h; rfl⟩

/-- A tree is the result if it is of an accepted kind and an allowed shape. -/
theorem verdict_eq_ok_iff :
    verdict source target set answer = .ok n ↔
      answer = .ok n ∧ target.production.accepts n.kind = true ∧ set.validate n = .ok () := by
  cases answer with
  | error e => exact ⟨nofun, nofun⟩
  | ok m =>
      rw [verdict]
      by_cases hkind : target.production.accepts m.kind = true
      · rw [if_pos hkind, checkShape_eq_ok_iff]
        constructor
        · rintro ⟨rfl, hvalid⟩
          exact ⟨rfl, hkind, hvalid⟩
        · rintro ⟨⟨⟩, -, hvalid⟩
          exact ⟨rfl, hvalid⟩
      · rw [if_neg hkind]
        constructor
        · exact nofun
        · rintro ⟨⟨⟩, hm, -⟩
          exact absurd hm hkind

theorem verdict_named (name : String) (source : Source) (target : Target) (set : ConstraintSet V)
    (answer : Except SyntaxError Node) :
    verdict { source with name } target set answer =
      Outcome.named name (verdict source target set answer) := by
  cases answer with
  | error e => rfl
  | ok n =>
      rw [verdict, verdict]
      by_cases hkind : target.production.accepts n.kind = true
      · rw [if_pos hkind, if_pos hkind, Adapter.checkShape, Adapter.checkShape]
        cases set.violation? n <;> rfl
      · rw [if_neg hkind, if_neg hkind]
        rfl

end Answers

namespace Adapter

variable (a : Adapter V) (files : FileSystem) (snippet : Snippet)
  (constraints : Option (ConstraintSet V))

/-- The answer of the engine for a snippet, if there are an engine and a text. -/
def answer? : Option (Except SyntaxError Node) :=
  match a.registry.engine? snippet.target, snippet.content.read files with
  | some engine, .ok text =>
    some (engine.parse text snippet.target.production (.ofStrict a.strict))
  | _, _ => none

/-- The text of a snippet, for diagnostics. -/
def sourceOf : Source :=
  ⟨snippet.content.name, (snippet.content.read files).toOption.getD ""⟩

/-- The constraints that count for a snippet. -/
def constraintsOf : ConstraintSet V := constraints.getD (a.constraintsFor snippet.target)

/-- What each stage of a call objects to, in the order of the stages. -/
def objections : List (Option Rejection) :=
  [if a.registry.contains snippet.target then none else some (.unsupported snippet.target),
    match snippet.content.read files with
    | .ok _ => none
    | .error reason => some (.sourceUnavailable snippet.content.name reason),
    (a.answer? files snippet).bind (malformed? (sourceOf files snippet) snippet.target),
    (a.answer? files snippet).bind
      (disallowed? (sourceOf files snippet) (a.constraintsOf snippet constraints))]

/-- One call: an engine is built only where there are an engine and a text. -/
theorem parse_eq :
    a.parse files snippet constraints =
      match a.registry.engine? snippet.target, snippet.content.read files with
      | none, _ => ⟨.error (.unsupported snippet.target), none⟩
      | some _, .error reason => ⟨.error (.sourceUnavailable snippet.content.name reason), none⟩
      | some engine, .ok text =>
        ⟨verdict ⟨snippet.content.name, text⟩ snippet.target (a.constraintsOf snippet constraints)
          (engine.parse text snippet.target.production (.ofStrict a.strict)), some engine⟩ := by
  rw [parse, Registry.contains, Stream.ofContent_eq]
  cases hengine : a.registry.engine? snippet.target with
  | none => rfl
  | some engine =>
      cases snippet.content.read files with
      | error reason => rfl
      | ok text =>
          have hattempt : (a.parseStream (.ofText snippet.content.name text) snippet.target
              a.strict).1 =
              ⟨readWith engine (.ofText snippet.content.name text) snippet.target a.strict,
                some engine⟩ := by
            rw [parseStream, hengine]
          simp only [Option.isSome_some, if_true, hattempt, Stream.source_ofText]
          rw [readWith_ofText]
          cases engine.parse text snippet.target.production (.ofStrict a.strict) with
          | error e => rfl
          | ok n =>
              rw [verdict]
              by_cases hkind : snippet.target.production.accepts n.kind = true
              · simp only [hkind, if_true]
                rfl
              · simp only [hkind]
                rfl

theorem findSome?_id_cons {α : Type} (o : Option α) (os : List (Option α)) :
    (o :: os).findSome? id = o.or (os.findSome? id) := by
  cases o <;> rfl

/-- A call ends with the first objection, in the order of the stages. -/
theorem parse_eq_error_iff (r : Rejection) :
    (a.parse files snippet constraints).outcome = .error r ↔
      (a.objections files snippet constraints).findSome? id = some r := by
  rw [parse_eq, objections, answer?, sourceOf, Registry.contains]
  cases a.registry.engine? snippet.target with
  | none => exact ⟨fun h => by cases h; rfl, fun h => by cases h; rfl⟩
  | some engine =>
      cases snippet.content.read files with
      | error reason => exact ⟨fun h => by cases h; rfl, fun h => by cases h; rfl⟩
      | ok text =>
          simp only [Option.isSome_some, if_true, Option.bind_some, findSome?_id_cons,
            Option.none_or]
          rw [verdict_eq_error_iff, List.findSome?_nil, Option.or_none]
          rfl

/-- A call succeeds exactly where the engine answers with a tree of an accepted kind and an
allowed shape, and with that tree. -/
theorem parse_eq_ok_iff (n : Node) :
    (a.parse files snippet constraints).outcome = .ok n ↔
      a.answer? files snippet = some (.ok n) ∧ snippet.target.production.accepts n.kind = true ∧
        (a.constraintsOf snippet constraints).validate n = .ok () := by
  rw [parse_eq, answer?]
  cases a.registry.engine? snippet.target with
  | none => exact ⟨nofun, nofun⟩
  | some engine =>
      cases snippet.content.read files with
      | error reason => exact ⟨nofun, nofun⟩
      | ok text =>
          simp only [Option.some.injEq]
          exact verdict_eq_ok_iff

end Adapter

end FeatureTree
