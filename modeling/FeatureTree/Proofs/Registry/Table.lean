import FeatureTree.Proofs.Registry.Registrations

/-!
# A registry without an order

A table from targets to engines has no order of its own, so listing its targets sorts the keys,
which come in whatever order the table has them. A registry is such a table kept in order: the
two find the same engines through any registrations (`Keeps.register`), and since distinct
targets can be put in order in one way only, they also list the same (`Keeps.sorted_keys`).
-/

namespace FeatureTree

instance : Hashable Target := ⟨fun t => hash (t.language.name, t.production.name)⟩

/-- Engines under their targets, in no order. -/
structure Table where
  engines : Std.HashMap Target Engine

namespace Table

/-- The table without engines. -/
def empty : Table := ⟨∅⟩

/-- Registers an engine for a target, instead of the one before. -/
def register (table : Table) (target : Target) (engine : Engine) : Table :=
  ⟨table.engines.insert target engine⟩

/-- The engine for a target. -/
def engine? (table : Table) (target : Target) : Option Engine := table.engines[target]?

/-- There is an engine for the target. -/
def contains (table : Table) (target : Target) : Bool := table.engines.contains target

/-- Targets, sorted by their names. -/
def sorted (targets : List Target) : List Target :=
  targets.mergeSort fun s t => decide (s.names ≤ t.names)

/-- The targets that have an engine, in order. -/
def targets (table : Table) : List Target := sorted table.engines.keys

/-- The table after some registrations, one after the other. -/
def registerAll (table : Table) (calls : List Registration) : Table :=
  calls.foldl (fun table c => table.register c.target c.engine) table

/-- The table that a run of registrations starts from. -/
def ofBase : Registry.Base → Table
  | .empty => empty
  | .bundled =>
    Registry.bundledTargets.foldl (fun table t => table.register t (.bundled t.language)) empty

/-! ## Sorted keys -/

theorem pairwise_sorted {targets : List Target} (h : targets.Nodup) :
    (sorted targets).Pairwise (·.names < ·.names) := by
  have hle : (sorted targets).Pairwise fun s t => decide (s.names ≤ t.names) = true :=
    List.pairwise_mergeSort
      (fun r s t hrs hst => decide_eq_true ((of_decide_eq_true hrs).trans (of_decide_eq_true hst)))
      (fun s t => by simpa using le_total s.names t.names) targets
  have hne : (sorted targets).Nodup := (List.mergeSort_perm targets _).nodup_iff.2 h
  exact (hle.and hne).imp fun ⟨hst, hne⟩ =>
    lt_of_le_of_ne (of_decide_eq_true hst) fun heq => hne (Target.names_injective heq)

theorem nodup_keys (table : Table) : table.engines.keys.Nodup :=
  table.engines.distinct_keys.imp fun h heq => by simp [heq] at h

/-! ## Tables and registries -/

/-- A registry keeps what is in a table, in order. -/
structure Keeps (r : Registry) (table : Table) : Prop where
  engines : ∀ t, table.engine? t = r.engine? t
  ordered : r.targets.Pairwise (·.names < ·.names)

theorem keeps_empty : Keeps .empty .empty := ⟨fun _ => Std.HashMap.getElem?_empty, .nil⟩

namespace Keeps

variable {r : Registry} {table : Table} (h : Keeps r table)

include h

theorem contains (t : Target) : table.contains t = r.contains t := by
  rw [Table.contains, Registry.contains, ← h.engines t]
  exact Std.HashMap.contains_eq_isSome_getElem?

/-- One registration. -/
theorem register (target : Target) (engine : Engine) :
    Keeps (r.register target engine) (table.register target engine) where
  engines t := by
    rw [Registry.engine?_register, ← h.engines t]
    exact Std.HashMap.getElem?_insert.trans (by simp [Table.engine?])
  ordered := Registry.pairwise_insertEntry h.ordered

/-- Any registrations, one after the other. -/
theorem registerAll (calls : List Registration) :
    Keeps (r.registerAll calls) (table.registerAll calls) := by
  induction calls generalizing r table with
  | nil => exact h
  | cons c calls ih => exact ih (h.register c.target c.engine)

/-- The keys of a table come in some order, and sorted they are the targets of the registry. -/
theorem sorted_keys {keys : List Target} (hkeys : keys.Perm table.engines.keys) :
    sorted keys = r.targets := by
  refine (pairwise_sorted (hkeys.nodup_iff.2 table.nodup_keys)).eq_of_mem_iff h.ordered fun t => ?_
  rw [sorted, List.mem_mergeSort, hkeys.mem_iff, Std.HashMap.mem_keys, ← Registry.contains_iff,
    ← h.contains t]
  exact Std.HashMap.mem_iff_contains

end Keeps

theorem keeps_ofBase (base : Registry.Base) : Keeps base.registry (ofBase base) := by
  cases base with
  | empty => exact keeps_empty
  | bundled =>
      have hrun := keeps_empty.registerAll
        (Registry.bundledTargets.map fun t => ⟨t, .bundled t.language⟩)
      rw [← Registry.bundled_eq_registerAll, Table.registerAll, List.foldl_map] at hrun
      exact hrun

/-- A table lists the same targets as a registry after the same registrations, and finds the same
engines, whatever order its keys come in. -/
theorem registerAll_eq (base : Registry.Base) (calls : List Registration) :
    let table := (ofBase base).registerAll calls
    let r := base.registry.registerAll calls
    (∀ keys : List Target, keys.Perm table.engines.keys → sorted keys = r.targets) ∧
      table.targets = r.targets ∧ (∀ t, table.contains t = r.contains t) ∧
        ∀ t, table.engine? t = r.engine? t := by
  intro table r
  have h : Keeps r table := (keeps_ofBase base).registerAll calls
  exact ⟨fun keys => h.sorted_keys, h.sorted_keys (.refl _), h.contains, h.engines⟩

end Table

end FeatureTree
