/-!
# What a match records

Matching a rule records where it matched and which rules matched inside it.
A forest is a sequence of such records: the rule of the first one, the text in
front of which it was tried and the text that it left, the records inside it,
and the sequence of those after it.
-/

namespace FeatureTree

/-- The records of a sequence of rules that matched one after the other. -/
inductive Forest (R : Type)
  | nil
  | cons (rule : R) (before after : List Char) (inner next : Forest R)

namespace Forest

variable {R : Type}

/-- One sequence of records after another. -/
def append : Forest R → Forest R → Forest R
  | .nil, f => f
  | .cons rule before after inner next, f => .cons rule before after inner (next.append f)

instance : Append (Forest R) := ⟨append⟩

@[simp] theorem nil_append (f : Forest R) : nil ++ f = f := rfl

@[simp] theorem cons_append (rule : R) (before after : List Char) (inner next f : Forest R) :
    cons rule before after inner next ++ f = cons rule before after inner (next ++ f) := rfl

@[simp] theorem append_nil (f : Forest R) : f ++ nil = f := by
  induction f with
  | nil => rfl
  | cons rule before after inner next _ ih => simp [ih]

theorem append_assoc (f g h : Forest R) : f ++ g ++ h = f ++ (g ++ h) := by
  induction f with
  | nil => rfl
  | cons rule before after inner next _ ih => simp [ih]

/-- The piece of text between what stood before a match and what stands after
it. -/
def taken (before after : List Char) : List Char :=
  before.take (before.length - after.length)

theorem taken_append (piece after : List Char) : taken (piece ++ after) after = piece := by
  simp [taken]

end Forest

end FeatureTree
