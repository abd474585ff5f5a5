import FeatureTree.Proofs.Adapter.Settings
import FeatureTree.Session.Callers
import Mathlib.Data.List.Sort
import Mathlib.Data.Prod.Lex
import Mathlib.Data.String.Basic

/-!
# Registrations

A registry is kept in order by every registration: a new target goes to its place, and for a
target that is there only the engine changes (`pairwise_insertEntry`). So what is listed depends
on which targets have been registered and on nothing else, neither their order nor how often,
because there is one way only to put distinct targets in order. Which engine is found for a
target depends on the registrations for this target alone, and of these on the last one.

The bundled registry is itself a run of registrations, so all of this holds on top of it.
-/

namespace FeatureTree

namespace Target

/-- The names of a target, in the order of words: the language first. -/
def names (t : Target) : String ×ₗ String := toLex (t.language.name, t.production.name)

theorem names_injective {s t : Target} (h : s.names = t.names) : s = t := by
  obtain ⟨hlanguage, hproduction⟩ := Prod.mk.inj (toLex.injective h)
  cases s
  cases t
  cases Language.name_injective hlanguage
  cases Production.name_injective hproduction
  rfl

theorem before_iff {s t : Target} : s.before t = true ↔ s.names < t.names := by
  simp [before, names, Prod.Lex.toLex_lt_toLex]

end Target

namespace Registry

/-! ## One registration -/

section Insert

variable {target t : Target} {engine : Engine} {entries : List (Target × Engine)}

theorem mem_insertEntry :
    t ∈ (insertEntry target engine entries).map (·.1) ↔
      t = target ∨ t ∈ entries.map (·.1) := by
  induction entries with
  | nil => simp [insertEntry]
  | cons entry rest ih =>
      obtain ⟨s, e⟩ := entry
      rw [insertEntry]
      split
      · next heq => simp [heq]
      · split
        · simp
        · simp only [List.map_cons, List.mem_cons, ih]
          exact or_left_comm

/-- A registration keeps the targets in order. -/
theorem pairwise_insertEntry (h : (entries.map (·.1)).Pairwise (·.names < ·.names)) :
    ((insertEntry target engine entries).map (·.1)).Pairwise (·.names < ·.names) := by
  induction entries with
  | nil => exact List.pairwise_singleton _ _
  | cons entry rest ih =>
      obtain ⟨s, e⟩ := entry
      obtain ⟨hs, hrest⟩ := List.pairwise_cons.1 h
      rw [insertEntry]
      split
      · next heq =>
          -- only the engine changes
          rw [← heq]
          exact h
      · next hne =>
          split
          · next hbefore =>
              have hlt := Target.before_iff.1 hbefore
              refine List.pairwise_cons.2 ⟨?_, h⟩
              intro t ht
              rcases List.mem_cons.1 ht with rfl | ht
              · exact hlt
              · exact hlt.trans (hs t ht)
          · next hbefore =>
              -- the order is total, so the new target belongs behind this one
              have hle : s.names ≤ target.names :=
                not_lt.1 fun hlt => hbefore (Target.before_iff.2 hlt)
              have hlt := lt_of_le_of_ne hle fun heq => hne (Target.names_injective heq)
              refine List.pairwise_cons.2 ⟨?_, ih hrest⟩
              intro t ht
              rcases mem_insertEntry.1 ht with rfl | ht
              · exact hlt
              · exact hs t ht

end Insert

/-- There is an engine for the targets that are listed. -/
theorem contains_iff {r : Registry} {t : Target} : r.contains t = true ↔ t ∈ r.targets := by
  simp [contains, engine?, targets]

end Registry

/-! ## Runs of registrations -/

/-- An engine that is registered for a target. -/
structure Registration where
  target : Target
  engine : Engine

/-- The engine, if it is registered for a target. -/
def Registration.engineFor? (target : Target) (c : Registration) : Option Engine :=
  if c.target = target then some c.engine else none

theorem Registration.isSome_engineFor? {target : Target} {c : Registration} :
    (c.engineFor? target).isSome = true ↔ c.target = target := by
  rw [engineFor?]
  split <;> simp_all

namespace Registry

/-- The registry after some registrations, one after the other. -/
def registerAll (r : Registry) (calls : List Registration) : Registry :=
  calls.foldl (fun r c => r.register c.target c.engine) r

variable (calls : List Registration)

theorem pairwise_registerAll {r : Registry} (h : r.targets.Pairwise (·.names < ·.names)) :
    (r.registerAll calls).targets.Pairwise (·.names < ·.names) := by
  induction calls generalizing r with
  | nil => exact h
  | cons c calls ih => exact ih (pairwise_insertEntry h)

theorem mem_registerAll (r : Registry) (t : Target) :
    t ∈ (r.registerAll calls).targets ↔ t ∈ r.targets ∨ ∃ c ∈ calls, c.target = t := by
  induction calls generalizing r with
  | nil => simp [registerAll]
  | cons c calls ih =>
      have hstep : t ∈ (r.register c.target c.engine).targets ↔ t = c.target ∨ t ∈ r.targets :=
        mem_insertEntry
      refine (ih (r.register c.target c.engine)).trans ?_
      rw [hstep, List.exists_mem_cons_iff, eq_comm (a := t), or_assoc, or_left_comm]

theorem engine?_registerAll (r : Registry) (t : Target) :
    (r.registerAll calls).engine? t =
      (last? (Registration.engineFor? t) calls).or (r.engine? t) := by
  induction calls generalizing r with
  | nil => rfl
  | cons c calls ih =>
      refine (ih (r.register c.target c.engine)).trans ?_
      rw [engine?_register, last?_cons, Option.or_assoc, Registration.engineFor?]
      split <;> rfl

/-! ## The registries that runs start from -/

/-- What a run of registrations starts from. -/
inductive Base
  | empty
  | bundled

namespace Base

/-- The registry that a run starts from. -/
def registry : Base → Registry
  | .empty => .empty
  | .bundled => .bundled

/-- There is an engine for the target from the start. -/
def includes : Base → Target → Bool
  | .empty, _ => false
  | .bundled, t => t.isSupported

/-- The engine that there is for a target from the start. -/
def engine? (base : Base) (t : Target) : Option Engine :=
  if base.includes t then some (.bundled t.language) else none

end Base

/-- The bundled engines have been registered one after the other. -/
theorem bundled_eq_registerAll :
    bundled = empty.registerAll (bundledTargets.map fun t => ⟨t, .bundled t.language⟩) := by
  rw [bundled, registerAll, List.foldl_map]

namespace Base

variable (base : Base)

theorem pairwise_targets : base.registry.targets.Pairwise (·.names < ·.names) := by
  cases base with
  | empty => exact .nil
  | bundled =>
      rw [registry, bundled_eq_registerAll]
      exact pairwise_registerAll _ .nil

theorem engine?_registry (t : Target) : base.registry.engine? t = base.engine? t := by
  cases base with
  | empty => rfl
  | bundled => exact engine?_bundled t

theorem mem_targets {t : Target} : t ∈ base.registry.targets ↔ base.includes t = true := by
  rw [← contains_iff, contains, engine?_registry, engine?]
  cases base.includes t <;> simp

variable (calls : List Registration)

theorem pairwise_registerAll :
    (base.registry.registerAll calls).targets.Pairwise (·.names < ·.names) :=
  Registry.pairwise_registerAll calls base.pairwise_targets

theorem mem_registerAll (t : Target) :
    t ∈ (base.registry.registerAll calls).targets ↔
      base.includes t = true ∨ ∃ c ∈ calls, c.target = t := by
  rw [Registry.mem_registerAll, mem_targets]

theorem engine?_registerAll (t : Target) :
    (base.registry.registerAll calls).engine? t =
      (last? (Registration.engineFor? t) calls).or (base.engine? t) := by
  rw [Registry.engine?_registerAll, engine?_registry]

end Base

/-- After any registrations, on top of no engines or of the bundled ones, the targets are
listed in the order of their names, each of them once: those that have been registered, and
those that there were. In another order the same registrations give the same list. There is an
engine exactly for the targets that are listed. It is the one registered last for the target, or
else the bundled one, and registrations for other targets do not matter to it. -/
theorem registerAll_targets (base : Base) (calls : List Registration) :
    let r := base.registry.registerAll calls
    r.targets.Pairwise (·.names < ·.names) ∧
      (∀ t, t ∈ r.targets ↔ base.includes t = true ∨ ∃ c ∈ calls, c.target = t) ∧
      (∀ calls' : List Registration, calls'.Perm calls →
        (base.registry.registerAll calls').targets = r.targets) ∧
      (∀ t, r.contains t = true ↔ t ∈ r.targets) ∧
      (∀ t, r.engine? t = (last? (Registration.engineFor? t) calls).or (base.engine? t)) ∧
      (∀ t, r.engine? t =
        (base.registry.registerAll (calls.filter (·.target = t))).engine? t) := by
  intro r
  have hsorted := base.pairwise_registerAll
  refine ⟨hsorted calls, base.mem_registerAll calls, ?_, fun t => contains_iff,
    base.engine?_registerAll calls, ?_⟩
  · -- there is one way only to put the same targets in order
    intro calls' hperm
    refine (hsorted calls').eq_of_mem_iff (hsorted calls) fun t => ?_
    rw [Base.mem_registerAll, Base.mem_registerAll]
    simp only [hperm.mem_iff]
  · intro t
    rw [Base.engine?_registerAll, Base.engine?_registerAll, last?_filter]
    intro c hc
    exact decide_eq_true (Registration.isSome_engineFor?.1 hc)

/-- A target that its language does not have, registered twice, with another one between. -/
theorem registerAll_targets_twice :
    let target : Target := ⟨.c, .method⟩
    let calls : List Registration := [⟨target, .bundled .java⟩,
      ⟨⟨.csharp, .field⟩, .bundled .csharp⟩, ⟨target, (Engine.bundled .csharp).supply⟩]
    let r := (Base.registry .empty).registerAll calls
    calls.reverse.Perm calls ∧
      ((Base.registry .empty).registerAll calls.reverse).targets = r.targets ∧
      r.engine? target = some (Engine.bundled .csharp).supply := by
  intro target calls r
  obtain ⟨-, -, hperm, -, hlast, -⟩ := registerAll_targets .empty calls
  have hreverse : calls.reverse.Perm calls := List.reverse_perm calls
  exact ⟨hreverse, hperm _ hreverse, hlast target⟩

end Registry

end FeatureTree
