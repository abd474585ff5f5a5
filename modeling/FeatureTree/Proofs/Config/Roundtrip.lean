import FeatureTree.Config.Load
import FeatureTree.Proofs.Yaml.Nodes
import FeatureTree.Proofs.Yaml.Views

/-!
# Configurations read back from their texts

All names that occur in a configuration are words, so it is a plain value, and
its text has the node of that value. Each part of the node is read as what it
was made from. Numbers are the only parts that need a condition: they are read
with 64 bits.
-/

namespace FeatureTree

open Yaml (Reader IsWord IsPlain ArePlain nodeOf)
open Yaml.Node

/-! ## Names are words -/

theorem Kind.isWord (k : Kind) : IsWord k.name := by
  cases k <;> decide

theorem Language.isWord (l : Language) : IsWord l.name := by
  cases l <;> decide

theorem Production.isWord (p : Production) : IsWord p.name := by
  cases p <;> decide

theorem arePlain_map {α : Type} {make : α → Value} :
    (as : List α) → (∀ a ∈ as, IsPlain (make a)) → ArePlain (as.map make)
  | [], _ => trivial
  | a :: as, h =>
      ⟨h a List.mem_cons_self, arePlain_map as fun b hb => h b (List.mem_cons_of_mem a hb)⟩

namespace Constraint

/-- All bounds are numbers of 64 bits. -/
def Fits : Constraint → Prop
  | .childCount _ min max => min ≤ Value.maxNat ∧ ∀ m ∈ max, m ≤ Value.maxNat
  | _ => True

/-- The parameters of `child-count` as a value. -/
def countValue (kind : Kind) (min : Nat) (max : Option Nat) : Value :=
  .map ([("kind", .text kind.name), ("min", .nat min)] ++
    match max with
    | some m => [("max", .nat m)]
    | none => [])

theorem isPlain_countValue (kind : Kind) (min : Nat) (max : Option Nat) :
    IsPlain (countValue kind min max) := by
  have hmin : IsWord "min" ∧ "min".toList.length ≤ Yaml.KeyStart.maxLength := by decide
  cases max with
  | none => exact ⟨by decide, by decide, kind.isWord, hmin.1, hmin.2, trivial, trivial⟩
  | some m =>
      exact ⟨by decide, by decide, kind.isWord, hmin.1, hmin.2, trivial, by decide, by decide,
        trivial, trivial⟩

theorem isPlain_toValue (c : Constraint) : IsPlain c.toValue := by
  cases c with
  | rootKindIn kinds =>
      exact ⟨by decide, by decide, arePlain_map kinds fun k _ => k.isWord, trivial⟩
  | exactlyOneChild kind => exact ⟨by decide, by decide, kind.isWord, trivial⟩
  | forbidKind kind => exact ⟨by decide, by decide, kind.isWord, trivial⟩
  | childCount kind min max =>
      exact ⟨by decide, by decide, isPlain_countValue kind min max, trivial⟩
  | signatureOnly => exact (by decide : IsWord "signature-only")
  | requireBody => exact (by decide : IsWord "require-body")
  | requireName => exact (by decide : IsWord "require-name")

theorem kindOfNode_name (k : Kind) : kindOfNode (nodeOf (.text k.name)) = pure k :=
  asNameOrEntry_text k.ofName?_name

theorem childCountOfNode_countValue {kind : Kind} {min : Nat} {max : Option Nat}
    (h : (Constraint.childCount kind min max).Fits) :
    childCountOfNode (nodeOf (countValue kind min max)) = pure (.childCount kind min max) := by
  obtain ⟨hmin, hmax⟩ := h
  cases max with
  | none =>
      rw [childCountOfNode, countValue, asMap_nodeOf, pure_bind]
      simp [Value.unique?, Reader.need, kindOfNode_name, asNat_nodeOf hmin]
  | some m =>
      rw [childCountOfNode, countValue, asMap_nodeOf, pure_bind]
      simp [Value.unique?, Reader.need, kindOfNode_name, asNat_nodeOf hmin,
        asNat?_nodeOf (hmax m rfl)]

/-- A constraint is read as it was written. -/
theorem ofNode_toValue {c : Constraint} (h : c.Fits) : ofNode (nodeOf c.toValue) = pure c := by
  cases c with
  | rootKindIn kinds =>
      have hkinds := Reader.mapM_map_eq_pure kinds fun k _ => kindOfNode_name k
      rw [toValue, ofNode, asNameOrEntry_map, ofEntry, asList_nodeOf, pure_bind, List.map_map]
      exact congrArg (rootKindIn <$> ·) hkinds
  | exactlyOneChild kind =>
      rw [toValue, ofNode, asNameOrEntry_map]
      simp [ofEntry, kindOfNode_name]
  | forbidKind kind =>
      rw [toValue, ofNode, asNameOrEntry_map]
      simp [ofEntry, kindOfNode_name]
  | childCount kind min max =>
      have hcount := childCountOfNode_countValue h
      exact (asNameOrEntry_map "child-count" (countValue kind min max)).trans hcount
  | signatureOnly => exact asNameOrEntry_text rfl
  | requireBody => exact asNameOrEntry_text rfl
  | requireName => exact asNameOrEntry_text rfl

end Constraint

namespace TargetConfig

theorem isPlain_toValue (t : TargetConfig) : IsPlain t.toValue := by
  have hconstraints := arePlain_map t.constraints fun c _ => c.isPlain_toValue
  exact ⟨by decide, by decide, t.target.language.isWord, by decide, by decide,
    t.target.production.isWord, by decide, by decide, hconstraints, trivial⟩

/-- A target is read as it was written. -/
theorem ofNode_toValue {t : TargetConfig} (h : ∀ c ∈ t.constraints, c.Fits) :
    ofNode (nodeOf t.toValue) = pure t := by
  have hlanguage := asName_nodeOf t.target.language.ofName?_name
  have hproduction := asName_nodeOf t.target.production.ofName?_name
  have hconstraints := Reader.mapM_map_eq_pure t.constraints
    fun c hc => Constraint.ofNode_toValue (h c hc)
  rw [ofNode, toValue, asMap_nodeOf, pure_bind]
  simp [Value.unique?, Reader.need, hlanguage, hproduction, Constraint.listToValue, asList_nodeOf,
    Function.comp_def, hconstraints]

end TargetConfig

namespace Config

/-- All bounds are numbers of 64 bits. -/
def Fits (c : Config) : Prop := ∀ t ∈ c.targets, ∀ k ∈ t.constraints, k.Fits

theorem isPlain_toValue (c : Config) : IsPlain c.toValue := by
  have htargets := arePlain_map c.targets fun t _ => t.isPlain_toValue
  exact ⟨by decide, by decide, trivial, by decide, by decide, htargets, trivial⟩

/-- A configuration is read as it was written. -/
theorem ofNode_toValue {c : Config} (h : c.Fits) : ofNode (nodeOf c.toValue) = pure c := by
  have htargets := Reader.mapM_map_eq_pure c.targets
    fun t ht => TargetConfig.ofNode_toValue (h t ht)
  rw [ofNode, toValue, asMap_nodeOf, pure_bind]
  simp [Value.unique?, Reader.need, asBool_nodeOf, asList_nodeOf, Function.comp_def, htargets]

theorem ofYaml?_toYaml {c : Config} (h : c.Fits) : ofYaml? c.toYaml = some c := by
  rw [ofYaml?, toYaml, ofText?_print c.isPlain_toValue]
  simp only [Option.bind_eq_bind, Option.bind_some]
  rw [Reader.ofRoot, ofNode_toValue h]
  rfl

theorem load_toYaml {c : Config} (h : c.Fits) {files : FileSystem} {path : String}
    (hfile : files.readText path = .ok c.toYaml) :
    (c.unsupported? = none → load files path = .ok c) ∧
      ∀ target, c.unsupported? = some target →
        load files path = .error (.unsupportedTarget target) := by
  rw [load, hfile]
  simp only [ofYaml?_toYaml h]
  constructor
  · intro hnone
    rw [hnone]
  · intro target hsome
    rw [hsome]

/-- The text of a configuration is read as the configuration. It is loaded from a file with that
text if all its targets exist, and otherwise the first target that does not is reported. -/
theorem load_of_toYaml (c : Config) (h : c.Fits) :
    ofYaml? c.toYaml = some c ∧
      ∀ (files : FileSystem) (path : String), files.readText path = .ok c.toYaml →
        ((∀ t ∈ c.targets, t.target.isSupported = true) → load files path = .ok c) ∧
        ∀ (before after : List TargetConfig) (t : TargetConfig),
          c.targets = before ++ t :: after → (∀ u ∈ before, u.target.isSupported = true) →
          t.target.isSupported = false →
          load files path = .error (.unsupportedTarget t.target) := by
  refine ⟨ofYaml?_toYaml h, fun files path hfile => ⟨fun hall => ?_, ?_⟩⟩
  · refine (load_toYaml h hfile).1 ?_
    rw [unsupported?, List.find?_eq_none]
    intro target htarget
    obtain ⟨t, ht, rfl⟩ := List.mem_map.1 htarget
    simp [hall t ht]
  · intro before after t htargets hbefore ht
    refine (load_toYaml h hfile).2 t.target ?_
    rw [unsupported?, htargets, List.map_append, List.find?_append, List.find?_eq_none.2]
    · simp [ht]
    · intro target htarget
      obtain ⟨u, hu, rfl⟩ := List.mem_map.1 htarget
      simp [hbefore u hu]

/-- Two targets with constraints of every form, among them kinds that are none, bounds of 64 bits
and no upper bound. -/
def everyForm : List TargetConfig :=
  [⟨⟨.java, .classMember⟩, [.rootKindIn [], .rootKindIn [.method, .class],
      .exactlyOneChild .identifier, .childCount .parameter 0 (some Value.maxNat),
      .childCount .variable Value.maxNat none, .forbidKind .initializer, .signatureOnly,
      .requireBody, .requireName]⟩,
    ⟨⟨.c, .function⟩, []⟩]

/-- A file in which every path has the text of a configuration. -/
def filesOf (c : Config) : FileSystem := ⟨fun _ => .ok c.toYaml, fun _ => none⟩

theorem load_of_toYaml_everyForm :
    (Fits ⟨false, everyForm⟩ ∧ ofYaml? (toYaml ⟨false, everyForm⟩) = some ⟨false, everyForm⟩ ∧
      load (filesOf ⟨false, everyForm⟩) "adapter.yaml" = .ok ⟨false, everyForm⟩) ∧
    load (filesOf ⟨true, everyForm ++ [⟨⟨.java, .property⟩, [.requireName]⟩, ⟨⟨.c, .method⟩, []⟩]⟩)
      "adapter.yaml" = .error (.unsupportedTarget ⟨.java, .property⟩) := by
  have hfits : Fits ⟨false, everyForm⟩ := by
    simp [Fits, everyForm, Constraint.Fits]
  have hmore : Fits ⟨true, everyForm ++
      [⟨⟨.java, .property⟩, [.requireName]⟩, ⟨⟨.c, .method⟩, []⟩]⟩ := by
    simp [Fits, everyForm, Constraint.Fits]
  obtain ⟨hread, hload⟩ := load_of_toYaml _ hfits
  have hreport := ((load_of_toYaml _ hmore).2 (filesOf _) "adapter.yaml" rfl).2 everyForm
    [⟨⟨.c, .method⟩, []⟩] ⟨⟨.java, .property⟩, [.requireName]⟩ rfl
  exact ⟨⟨hfits, hread, (hload _ _ rfl).1 (by decide)⟩, hreport (by decide) rfl⟩

end Config

end FeatureTree
