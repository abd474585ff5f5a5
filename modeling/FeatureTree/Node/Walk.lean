import FeatureTree.Node.Basic

/-!
# Walking a tree

A walk visits a node and then everything below it, parents before children
and children in order. It keeps the nodes still to be visited on a stack: the
next node comes off the top, and its children go on top in reverse, so that
the first of them is the next one.

`preorder` says the same by recursion over the tree.
-/

namespace FeatureTree.Node

mutual

/-- Number of nodes in the tree. -/
def size : Node → Nat
  | ⟨_, _, children, _, _⟩ => 1 + sizeAll children

/-- Number of nodes in a list of trees. -/
def sizeAll : List Node → Nat
  | [] => 0
  | n :: ns => size n + sizeAll ns

end

mutual

/-- The node and all its descendants, parents before children. -/
def preorder : Node → List Node
  | ⟨kind, name, children, span, body⟩ =>
    ⟨kind, name, children, span, body⟩ :: preorderAll children

/-- The nodes of a list of trees, one tree after the other. -/
def preorderAll : List Node → List Node
  | [] => []
  | n :: ns => preorder n ++ preorderAll ns

end

theorem size_eq (n : Node) : n.size = 1 + sizeAll n.children := by
  cases n; rfl

@[simp] theorem sizeAll_append (ns ms : List Node) :
    sizeAll (ns ++ ms) = sizeAll ns + sizeAll ms := by
  induction ns with
  | nil => simp [sizeAll]
  | cons n ns ih => simp [sizeAll, ih, Nat.add_assoc]

@[simp] theorem sizeAll_reverse (ns : List Node) : sizeAll ns.reverse = sizeAll ns := by
  induction ns with
  | nil => rfl
  | cons n ns ih => simp [sizeAll, ih, Nat.add_comm]

/-- A walk under way: the nodes still to be visited. The next one is on top of
the stack, which is its end. -/
structure Walk where
  stack : Array Node

namespace Walk

/-- Visits the next node. Its children come before all that was waiting. -/
def next? (w : Walk) : Option (Node × Walk) :=
  match w.stack.back? with
  | none => none
  | some n => some (n, ⟨w.stack.pop ++ n.children.reverse⟩)

/-- A step takes the node on top off the stack and puts its children there. -/
theorem next?_eq_some_iff {w v : Walk} {n : Node} :
    w.next? = some (n, v) ↔
      ∃ waiting : Array Node, w.stack = waiting.push n ∧ v = ⟨waiting ++ n.children.reverse⟩ := by
  rw [next?]
  cases hback : w.stack.back? with
  | none => simp [Array.back?_eq_none_iff.1 hback]
  | some m =>
      obtain ⟨waiting, hstack⟩ := Array.back?_eq_some_iff.1 hback
      rw [hstack, Array.pop_push]
      constructor
      · intro h
        cases h
        exact ⟨waiting, rfl, rfl⟩
      · rintro ⟨waiting', heq, rfl⟩
        obtain ⟨rfl, rfl⟩ := Array.push_eq_push.1 heq
        rfl

/-- Number of nodes that the walk still visits. -/
def size (w : Walk) : Nat := sizeAll w.stack.toList

theorem size_lt_of_next? {w v : Walk} {n : Node} (h : w.next? = some (n, v)) :
    v.size < w.size := by
  obtain ⟨waiting, hstack, rfl⟩ := next?_eq_some_iff.1 h
  simp only [size, hstack, Array.toList_appendList, Array.toList_push, sizeAll_append, sizeAll_reverse,
    sizeAll, size_eq n]
  omega

/-- All nodes that the walk still visits, in order. -/
def toList (w : Walk) : List Node :=
  match _ : w.next? with
  | none => []
  | some (n, v) => n :: v.toList
termination_by w.size
decreasing_by exact size_lt_of_next? ‹_›

theorem toList_done {w : Walk} (h : w.next? = none) : w.toList = [] := by
  rw [toList]
  split
  · rfl
  · next hnext => rw [h] at hnext; cases hnext

theorem toList_step {w v : Walk} {n : Node} (h : w.next? = some (n, v)) :
    w.toList = n :: v.toList := by
  rw [toList]
  split
  · next hnext => rw [h] at hnext; cases hnext
  · next hnext => rw [h] at hnext; cases hnext; rfl

end Walk

/-- A walk over the node and all its descendants. -/
def walk (n : Node) : Walk := ⟨#[n]⟩

/-- The first descendant of a kind, not counting the node itself. -/
def findKind? (n : Node) (kind : Kind) : Option Node :=
  (n.walk.toList.drop 1).find? (·.kind == kind)

end FeatureTree.Node
