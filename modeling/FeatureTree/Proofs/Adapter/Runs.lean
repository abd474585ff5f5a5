import FeatureTree.Proofs.Adapter.Stages
import FeatureTree.Session.Basic

/-!
# Runs of calls

An adapter keeps nothing from one call to the next but the engines that it has built, and
only for the count. So what holds of one call holds of every call in a run, whatever came
before (`Session.run_calls`), although files change between calls, and engines, which are
built anew for each call, may answer each time otherwise.
-/

namespace FeatureTree

variable {V : Type}

/-- A call to read something. -/
inductive Call (V : Type)
  | parse (snippet : Snippet) (constraints : Option (ConstraintSet V))
  | parseText (text : String) (target : Target) (strict : Bool)

/-- The request that a call makes of a session. -/
def Call.request : Call V → Request V
  | .parse snippet constraints => .parse snippet constraints
  | .parseText text target strict => .parseText text target strict

/-- The adapter with other engines. -/
def Adapter.over (a : Adapter V) (registry : Registry) : Adapter V := { a with registry }

/-- A call, the files as they are then, and the engines that can be built for it. -/
structure Event (V : Type) where
  files : FileSystem
  registry : Registry
  call : Call V

namespace Event

/-- An engine is built: there is one for the target, and a text that it is given. -/
def builds (e : Event V) : Bool :=
  match e.call with
  | .parse snippet _ =>
    e.registry.contains snippet.target && (snippet.content.read e.files).toOption.isSome
  | .parseText _ target _ => e.registry.contains target

/-- What comes of the call with the settings of an adapter. -/
def attempt [Validator V] (a : Adapter V) (e : Event V) : Attempt :=
  match e.call with
  | .parse snippet constraints => (a.over e.registry).parse e.files snippet constraints
  | .parseText text target strict => (a.over e.registry).parseText text target strict

theorem isSome_engine_attempt [Validator V] (a : Adapter V) (e : Event V) :
    (e.attempt a).engine.isSome = e.builds := by
  obtain ⟨files, registry, call⟩ := e
  cases call with
  | parse snippet constraints =>
      show ((a.over registry).parse files snippet constraints).engine.isSome =
        (registry.contains snippet.target && (snippet.content.read files).toOption.isSome)
      rw [Adapter.parse_eq, Registry.contains, show (a.over registry).registry = registry from rfl]
      cases registry.engine? snippet.target <;> cases snippet.content.read files <;> rfl
  | parseText text target strict =>
      show ((a.over registry).parseText text target strict).engine.isSome =
        registry.contains target
      rw [Adapter.parseText, Adapter.parseStream, Registry.contains,
        show (a.over registry).registry = registry from rfl]
      cases registry.engine? target <;> rfl

/-- A text in a file is read as it is inline by an engine that answers alike. -/
theorem attempt_file [Validator V] {e e' : Event V} {name path text : String} {target : Target}
    {constraints : Option (ConstraintSet V)} (a : Adapter V)
    (halike : (e'.registry.engine? target).map Engine.parse =
      (e.registry.engine? target).map Engine.parse)
    (hcall : e.call = .parse ⟨.inline name text, target⟩ constraints)
    (hcall' : e'.call = .parse ⟨.file path, target⟩ constraints)
    (hread : e'.files.readText path = .ok text) :
    (e'.attempt a).outcome = Outcome.named path (e.attempt a).outcome := by
  have hfile : (Content.file path).read e'.files = .ok text := hread
  have hinline : (Content.inline name text).read e.files = .ok text := rfl
  rw [attempt, attempt, hcall, hcall']
  simp only [Adapter.parse_eq, hfile, hinline]
  rw [show (a.over e'.registry).registry = e'.registry from rfl,
    show (a.over e.registry).registry = e.registry from rfl]
  cases hengine : e.registry.engine? target with
  | none =>
      rw [hengine] at halike
      rw [Option.map_eq_none_iff.1 halike]
      rfl
  | some engine =>
      rw [hengine] at halike
      obtain ⟨engine', hengine', hparse⟩ := Option.map_eq_some_iff.1 halike
      rw [hengine']
      simp only
      rw [hparse]
      exact verdict_named path ⟨name, text⟩ target _ _

end Event

namespace Session

variable [Validator V]

/-- Answers calls one after the other. -/
def run (s : Session V) : List (Event V) → List (Option Outcome) × Session V
  | [] => ([], s)
  | e :: events =>
    let (answer, next) :=
      step e.files { s with adapter := s.adapter.over e.registry } e.call.request
    let (answers, last) := run next events
    (answer :: answers, last)

/-- A call changes no settings, and the engine that it builds is noted. -/
theorem step_call (s : Session V) (e : Event V) :
    step e.files { s with adapter := s.adapter.over e.registry } e.call.request =
      (some (e.attempt s.adapter).outcome,
        ⟨s.adapter.over e.registry, (e.attempt s.adapter).engine.toList ++ s.engines⟩) := by
  obtain ⟨files, registry, call⟩ := e
  cases call <;> rfl

/-- In a run every call is answered as it is on its own. -/
theorem run_eq (s : Session V) (events : List (Event V)) :
    (s.run events).1 = events.map (fun e => some (e.attempt s.adapter).outcome) ∧
      (s.run events).2.engines.length = s.engines.length + events.countP Event.builds := by
  induction events generalizing s with
  | nil => exact ⟨rfl, rfl⟩
  | cons e events ih =>
      obtain ⟨hanswers, hengines⟩ :=
        ih ⟨s.adapter.over e.registry, (e.attempt s.adapter).engine.toList ++ s.engines⟩
      rw [run, step_call]
      refine ⟨congrArg _ hanswers, hengines.trans ?_⟩
      rw [List.length_append, List.countP_cons, ← Event.isSome_engine_attempt s.adapter e]
      cases (e.attempt s.adapter).engine with
      | none => exact congrArg (· + _) (Nat.zero_add _)
      | some engine =>
          simp only [Option.toList_some, List.length_singleton, Option.isSome_some, if_true]
          omega

/-- In every run of calls an engine is built for each call for which there are an engine and
a text, and for no other. Whatever the calls before it have come to, a call that checks the
shape ends with the first objection of its stages, or where the engine answers with a tree
that is of an accepted kind and an allowed shape, with this tree. If the engines answer alike
throughout, it does not matter to anything but the name in an error whether a text is
inline or in a file. -/
theorem run_calls (s : Session V) (events : List (Event V)) :
    (s.run events).2.engines.length = s.engines.length + events.countP Event.builds ∧
    (s.run events).1 = events.map (fun e => some (e.attempt s.adapter).outcome) ∧
    (∀ e ∈ events, ∀ snippet constraints, e.call = .parse snippet constraints →
      let a := s.adapter.over e.registry
      (∀ r, (e.attempt s.adapter).outcome = .error r ↔
        (a.objections e.files snippet constraints).findSome? id = some r) ∧
      (∀ n, (e.attempt s.adapter).outcome = .ok n ↔
        a.answer? e.files snippet = some (.ok n) ∧
          snippet.target.production.accepts n.kind = true ∧
          (a.constraintsOf snippet constraints).validate n = .ok ())) ∧
    (∀ answers : Target → Option (String → Production → Boundary → Except SyntaxError Node),
      (∀ e ∈ events, ∀ target, (e.registry.engine? target).map Engine.parse = answers target) →
      ∀ e ∈ events, ∀ e' ∈ events, ∀ name path text target constraints,
        e.call = .parse ⟨.inline name text, target⟩ constraints →
        e'.call = .parse ⟨.file path, target⟩ constraints → e'.files.readText path = .ok text →
          (e'.attempt s.adapter).outcome = Outcome.named path (e.attempt s.adapter).outcome) := by
  obtain ⟨hanswers, hengines⟩ := s.run_eq events
  refine ⟨hengines, hanswers, fun e _ snippet constraints hcall => ?_,
    fun answers halike e he e' he' name path text target constraints hcall hcall' hread => ?_⟩
  · rw [Event.attempt, hcall]
    exact ⟨Adapter.parse_eq_error_iff _ _ _ _, Adapter.parse_eq_ok_iff _ _ _ _⟩
  · exact Event.attempt_file s.adapter ((halike e' he' target).trans (halike e he target).symm)
      hcall hcall' hread

/-- A missing file, and a text that is read inline and from a file. -/
theorem run_calls_missing :
    let target : Target := ⟨.java, .field⟩
    let files : FileSystem :=
      ⟨fun path => if path = "A.java" then .ok "int x;" else .error .notFound, fun _ => none⟩
    let missing : Event Empty := ⟨files, .bundled, .parse ⟨.file "B.java", target⟩ none⟩
    let inline : Event Empty := ⟨files, .bundled, .parse ⟨.inline "a" "int x;", target⟩ none⟩
    let present : Event Empty := ⟨files, .bundled, .parse ⟨.file "A.java", target⟩ none⟩
    let s : Session Empty := start .default
    (s.run [missing, inline, present]).2.engines.length = 2 ∧
      (missing.attempt s.adapter).outcome = .error (.sourceUnavailable "B.java" .notFound) ∧
      (present.attempt s.adapter).outcome =
        Outcome.named "A.java" (inline.attempt s.adapter).outcome := by
  intro target files missing inline present s
  obtain ⟨hengines, -, hends, halike⟩ := run_calls s [missing, inline, present]
  refine ⟨hengines.trans (by decide +kernel), ?_, ?_⟩
  · obtain ⟨herror, -⟩ := hends missing (by simp) ⟨.file "B.java", target⟩ none rfl
    exact (herror _).2 (by decide +kernel)
  · refine halike (fun t => (Registry.bundled.engine? t).map Engine.parse) ?_ inline (by simp)
      present (by simp) "a" "A.java" "int x;" target none rfl rfl rfl
    have hregistry : ∀ e ∈ [missing, inline, present], e.registry = .bundled := by
      simp [missing, inline, present]
    intro e he t
    rw [hregistry e he]

end Session

end FeatureTree
