import FeatureTree.Node.Value
import Mathlib.Data.List.Forall2

/-!
# What a value says of a tree

A tree is only ever written as a value, never read from one, so nothing but the entries
themselves says that they are enough. They are: each part of a node has an entry of its own or
is known from the absence of one, and what an entry holds says all of its part
(`Value.Faithful`). The order of the entries is not used: values are compared name by name
(`Value.Same`), as the objects of JSON are.
-/

namespace FeatureTree

/-! ## Values that are the same -/

namespace Value

/-- The values are the same as JSON. Lists are compared item by item and maps name by name,
whatever the order of the entries; of two entries for a name the first one counts. -/
inductive Same : Value → Value → Prop
  | null : Same .null .null
  | bool (b : Bool) : Same (.bool b) (.bool b)
  | nat (n : Nat) : Same (.nat n) (.nat n)
  | number (digits : String) : Same (.number digits) (.number digits)
  | text (s : String) : Same (.text s) (.text s)
  | list {vs ws : List Value} (h : List.Forall₂ Same vs ws) : Same (.list vs) (.list ws)
  | map {es fs : List (String × Value)}
      (h : ∀ name, Option.Rel Same (es.lookup name) (fs.lookup name)) : Same (.map es) (.map fs)

/-- The value under a name. -/
def at? (name : String) : Value → Option Value
  | .map entries => entries.lookup name
  | _ => none

theorem Same.at? {v w : Value} (h : v.Same w) (name : String) :
    Option.Rel Same (v.at? name) (w.at? name) := by
  cases h with
  | map h => exact h name
  | null | bool | nat | number | text | list => exact .none

mutual

theorem Same.refl : (v : Value) → v.Same v
  | .null => .null
  | .bool b => .bool b
  | .nat n => .nat n
  | .number digits => .number digits
  | .text s => .text s
  | .list items => .list (forall₂_same_refl items)
  | .map entries => .map (rel_lookup_refl entries)

theorem forall₂_same_refl : (vs : List Value) → List.Forall₂ Same vs vs
  | [] => .nil
  | v :: vs => .cons (Same.refl v) (forall₂_same_refl vs)

theorem rel_lookup_refl : (es : List (String × Value)) → (name : String) →
    Option.Rel Same (es.lookup name) (es.lookup name)
  | [], _ => .none
  | (key, v) :: es, name => by
      rw [List.lookup_cons]
      cases name == key with
      | true => exact .some (Same.refl v)
      | false => exact rel_lookup_refl es name

end

/-- What is written in this way is known from its value. -/
def Faithful {α : Type} (write : α → Value) : Prop :=
  ∀ ⦃a b⦄, (write a).Same (write b) → a = b

theorem faithful_nat : Faithful .nat := by
  rintro n m ⟨⟩
  rfl

theorem faithful_text : Faithful .text := by
  rintro s t ⟨⟩
  rfl

/-- Where nothing is written for what is missing, it is known to be missing. -/
theorem Faithful.option {α : Type} {write : α → Value} (h : Faithful write) {a b : Option α}
    (hab : Option.Rel Same (a.map write) (b.map write)) : a = b := by
  cases a with
  | none =>
      cases b with
      | none => rfl
      | some b => cases hab
  | some a =>
      cases b with
      | none => cases hab
      | some b => exact congrArg some (h (Option.rel_some_some.1 hab))

end Value

open Value (Same Faithful)

theorem Kind.faithful : Faithful fun k : Kind => .text k.name :=
  fun _ _ h => name_injective (Value.faithful_text h)

theorem Span.faithful : Faithful Span.toValue := by
  rintro ⟨start, stop⟩ ⟨start', stop'⟩ h
  have hstart : Same (.nat start) (.nat start') := Option.rel_some_some.1 (h.at? "start")
  have hstop : Same (.nat stop) (.nat stop') := Option.rel_some_some.1 (h.at? "end")
  rw [Value.faithful_nat hstart, Value.faithful_nat hstop]

namespace Node

/-! ## The entries of a node -/

/-- The entries of the map that a node is written as. -/
def entries (n : Node) : List (String × Value) :=
  [("kind", .text n.kind.name)] ++ entry? "name" .text n.name ++
    childrenEntry (toValues n.children) ++ [("span", n.span.toValue)] ++
    entry? "body" Span.toValue n.body

theorem toValue_eq (n : Node) : n.toValue = .map n.entries := by
  cases n
  rw [toValue, entries]

theorem lookup_optional {α : Type} (name key : String) (toValue : α → Value) (a : Option α) :
    (List.lookup key <| entry? name toValue a) = if key == name then a.map toValue else none := by
  cases a with
  | none => cases key == name <;> rfl
  | some a =>
      show List.lookup key [(name, toValue a)] = _
      rw [List.lookup_cons]
      cases key == name <;> rfl

theorem lookup_childrenEntry {key : String} (h : (key == "children") = false) (vs : List Value) :
    (childrenEntry vs).lookup key = none := by
  cases vs with
  | nil => rfl
  | cons v vs =>
      show List.lookup key [("children", Value.list (v :: vs))] = none
      rw [List.lookup_cons, h, List.lookup_nil]

section Entries

variable (n : Node)

theorem at?_kind : n.toValue.at? "kind" = some (.text n.kind.name) := by
  simp [toValue_eq, Value.at?, entries]

theorem at?_name : n.toValue.at? "name" = n.name.map .text := by
  simp [toValue_eq, Value.at?, entries, List.lookup_append, List.lookup_cons, lookup_optional,
    lookup_childrenEntry]

theorem at?_children :
    n.toValue.at? "children" = (childrenEntry (toValues n.children)).lookup "children" := by
  simp [toValue_eq, Value.at?, entries, List.lookup_append, List.lookup_cons, lookup_optional]

theorem at?_span : n.toValue.at? "span" = some n.span.toValue := by
  simp [toValue_eq, Value.at?, entries, List.lookup_append, List.lookup_cons, lookup_optional,
    lookup_childrenEntry]

theorem at?_body : n.toValue.at? "body" = n.body.map Span.toValue := by
  simp [toValue_eq, Value.at?, entries, List.lookup_append, List.lookup_cons, lookup_optional,
    lookup_childrenEntry]

theorem at?_children_eq_none : n.toValue.at? "children" = none ↔ n.children = [] := by
  rw [at?_children]
  cases n.children with
  | nil => exact iff_of_true rfl rfl
  | cons c cs => exact iff_of_false (Option.some_ne_none _) (List.cons_ne_nil c cs)

end Entries

/-! ## Trees -/

/-- Lists of children are the same where their entries are. -/
theorem forall₂_of_childrenEntry {vs ws : List Value}
    (h : Option.Rel Same ((childrenEntry vs).lookup "children")
      ((childrenEntry ws).lookup "children")) : List.Forall₂ Same vs ws := by
  cases vs with
  | nil =>
      cases ws with
      | nil => exact .nil
      | cons w ws => cases h
  | cons v vs =>
      cases ws with
      | nil => cases h
      | cons w ws =>
          obtain ⟨hlist⟩ := h
          cases hlist with
          | list hitems => exact hitems

mutual

/-- Trees with the same value are equal, part by part. -/
theorem eq_of_same : (n m : Node) → n.toValue.Same m.toValue → n = m
  | ⟨kind, name, children, span, body⟩, ⟨kind', name', children', span', body'⟩, h => by
      -- each part is read off its own entry, whatever the order of the entries
      have hkind := h.at? "kind"
      have hname := h.at? "name"
      have hchildren := h.at? "children"
      have hspan := h.at? "span"
      have hbody := h.at? "body"
      rw [at?_kind, at?_kind, Option.rel_some_some] at hkind
      rw [at?_name, at?_name] at hname
      rw [at?_children, at?_children] at hchildren
      rw [at?_span, at?_span, Option.rel_some_some] at hspan
      rw [at?_body, at?_body] at hbody
      rw [Node.mk.injEq]
      exact ⟨Kind.faithful hkind, Value.faithful_text.option hname,
        eq_of_forall₂_same children children' (forall₂_of_childrenEntry hchildren),
        Span.faithful hspan, Span.faithful.option hbody⟩

/-- Lists of trees with the same values are equal, tree by tree. -/
theorem eq_of_forall₂_same : (ns ms : List Node) →
    List.Forall₂ Same (toValues ns) (toValues ms) → ns = ms
  | [], [], _ => rfl
  | [], _ :: _, h | _ :: _, [], h => nomatch h
  | n :: ns, m :: ms, .cons h hs => congrArg₂ _ (eq_of_same n m h) (eq_of_forall₂_same ns ms hs)

end

/-- The value of a tree tells it from every other tree, although a name, children and a body
that it does not have are left out. -/
theorem same_toValue_iff (n m : Node) :
    (n.toValue.Same m.toValue ↔ n = m) ∧
      (n.toValue.at? "name" = none ↔ n.name = none) ∧
      (n.toValue.at? "children" = none ↔ n.children = []) ∧
      (n.toValue.at? "body" = none ↔ n.body = none) := by
  refine ⟨⟨eq_of_same n m, ?_⟩, ?_, n.at?_children_eq_none, ?_⟩
  · rintro rfl
    exact Same.refl _
  · rw [at?_name, Option.map_eq_none_iff]
  · rw [at?_body, Option.map_eq_none_iff]

end Node

end FeatureTree
