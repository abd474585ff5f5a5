import FeatureTree.Proofs.Text.Lines
import FeatureTree.Proofs.Yaml.Plain
import FeatureTree.Yaml.Node.View

/-!
# What the node of a plain value is read as

The node of a text is read as the text, that of a list as the nodes of its
items, and so on. No alias is followed on the way. A number is read as what it
is if it has 64 bits.
-/

namespace FeatureTree.Yaml

theorem nodesOf_eq_map (vs : List Value) : nodesOf vs = vs.map nodeOf := by
  induction vs with
  | nil => rfl
  | cons v vs ih => rw [nodesOf, ih, List.map_cons]

theorem entryNodesOf_eq_map (es : List (String × Value)) :
    entryNodesOf es = es.map fun e => (.scalar .none .plain e.1, nodeOf e.2) := by
  induction es with
  | nil => rfl
  | cons e es ih => rw [entryNodesOf, ih, List.map_cons]

namespace Reader

/-- What is made from parts is read as the parts, if each of them is. -/
theorem mapM_map_eq_pure {α β : Type} {make : α → β} {read : β → Reader α} :
    (as : List α) → (∀ a ∈ as, read (make a) = pure a) → (as.map make).mapM read = pure as
  | [], _ => by rw [List.map_nil, List.mapM_nil]
  | a :: as, h => by
    rw [List.map_cons, List.mapM_cons, h a List.mem_cons_self, pure_bind,
      mapM_map_eq_pure as fun b hb => h b (List.mem_cons_of_mem a hb), pure_bind]

end Reader

namespace Node

theorem asList_nodeOf (vs : List Value) : (nodeOf (.list vs)).asList = pure (vs.map nodeOf) := by
  simp [asList, follow, nodeOf, nodesOf_eq_map]

theorem asMap_nodeOf (es : List (String × Value)) :
    (nodeOf (.map es)).asMap = pure (es.map fun e => (e.1, nodeOf e.2)) := by
  have hentries : entryNodesOf es = (es.map fun e => (e.1, nodeOf e.2)).map
      fun e => (.scalar .none .plain e.1, e.2) := by
    rw [entryNodesOf_eq_map, List.map_map]
    rfl
  rw [nodeOf, hentries]
  simp only [asMap, follow, pure_bind]
  exact Reader.mapM_map_eq_pure _ fun e _ => by simp [asText, follow]

theorem asBool_nodeOf (b : Bool) : (nodeOf (.bool b)).asBool = pure b := by
  cases b <;> simp [asBool, asPlain, follow, nodeOf, scalarText]

/-! ## Numbers -/

theorem numberIn?_digits {digits : List Char} (h : ∀ c ∈ digits, c.isDigit = true)
    (hne : digits ≠ []) : numberIn? 10 digits = some (Nat.ofDigitChars 10 digits 0) := by
  have hdigit : ∀ c, c.isDigit = true → digit? c = some (c.toNat - 48) ∧ c.toNat - 48 < 10 := by
    intro c hc
    refine ⟨by rw [digit?, if_pos hc], ?_⟩
    have hcodes : '0'.val.toNat = 48 ∧ '9'.val.toNat = 57 := by decide
    simp only [Char.isDigit, Bool.and_eq_true, decide_eq_true_eq, ge_iff_le,
      UInt32.le_iff_toNat_le] at hc
    rw [Char.toNat]
    omega
  have hfold : ∀ n, digits.foldlM (fun n c => do
      let d ← digit? c
      if d < 10 then some (10 * n + d) else none) n = some (Nat.ofDigitChars 10 digits n) := by
    clear hne
    induction digits with
    | nil => exact fun n => rfl
    | cons c digits ih =>
        intro n
        obtain ⟨hd, hlt⟩ := hdigit c (h c List.mem_cons_self)
        rw [List.foldlM_cons, hd, Nat.ofDigitChars_cons]
        simp only [Option.bind_eq_bind, Option.bind_some, if_pos hlt]
        exact ih (fun c hc => h c (List.mem_cons_of_mem _ hc)) _
  rw [numberIn?, if_neg (by simpa using hne), hfold]

theorem natural?_toString {n : Nat} (h : n ≤ Value.maxNat) :
    natural? (toString n).toList = some n := by
  have hdigits : ∀ c ∈ Nat.toDigits 10 n, c.isDigit = true :=
    fun c hc => Nat.isDigit_of_mem_toDigits (by decide) (by decide) hc
  have hne := Nat.toDigits_ne_nil (n := n) (b := 10)
  have hnumber : numberIn? 10 (Nat.toDigits 10 n) = some n := by
    rw [numberIn?_digits hdigits hne, Nat.ofDigitChars_ten_toDigits]
  have hhead := @Text.head_toDigits n
  rw [Nat.toString_eq_repr, Nat.toList_repr]
  by_cases hzero : n = 0
  · subst hzero
    rfl
  obtain ⟨c, s, hcs⟩ := List.exists_cons_of_ne_nil hne
  rw [hcs] at hnumber hhead ⊢
  have hplus : c ≠ '+' := by
    rintro rfl
    have hdigit := hdigits '+' (by rw [hcs]; exact List.mem_cons_self)
    cases hdigit
  have hfirst : c ≠ '0' := by
    rintro rfl
    exact hhead (Nat.pos_of_ne_zero hzero) rfl
  rw [natural?]
  · rw [hnumber]
    simp [h]
  all_goals simp [hplus, hfirst]

theorem asNat_nodeOf {n : Nat} (h : n ≤ Value.maxNat) : (nodeOf (.nat n)).asNat = pure n := by
  have hplain : (nodeOf (.nat n)).asPlain "int" = pure (toString n) := by
    simp [asPlain, follow, nodeOf, scalarText]
  rw [asNat, hplain, pure_bind, natural?_toString h]
  rfl

theorem asNat?_nodeOf {n : Nat} (h : n ≤ Value.maxNat) :
    (nodeOf (.nat n)).asNat? = pure (some n) := by
  -- what means nothing is no number
  have hnone : ∀ text ∈ ["", "null", "Null", "NULL", "~"], natural? text.toList = none := by
    decide
  have hne : toString n ∉ ["", "null", "Null", "NULL", "~"] := by
    intro hmem
    have hnumber := natural?_toString h
    rw [hnone _ hmem] at hnumber
    cases hnumber
  have hnumber := asNat_nodeOf h
  simp only [nodeOf, scalarText, Marks.none] at hnumber ⊢
  generalize toString n = text at hne hnumber ⊢
  simp only [List.mem_cons, not_or] at hne
  simp [asNat?, follow, isNullText, hne, hnumber]

/-! ## Names -/

section Names

variable {α : Type} {name : String → Option α} {entry : String → Node → Reader α}

theorem asName_nodeOf {text : String} {a : α} (h : name text = some a) :
    (nodeOf (.text text)).asName name = pure a := by
  simp [asName, follow, nodeOf, scalarText, Marks.none, Reader.need, h]

theorem asNameOrEntry_text {text : String} {a : α} (h : name text = some a) :
    (nodeOf (.text text)).asNameOrEntry name entry = pure a := by
  simp [asNameOrEntry, follow, nodeOf, scalarText, Marks.none, Reader.need, h]

theorem asNameOrEntry_map (key : String) (v : Value) :
    (nodeOf (.map [(key, v)])).asNameOrEntry name entry = entry key (nodeOf v) := by
  simp [asNameOrEntry, follow, nodeOf, entryNodesOf, Marks.none, asText]

end Names

end Node

end FeatureTree.Yaml
