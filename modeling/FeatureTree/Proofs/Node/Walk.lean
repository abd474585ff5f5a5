import FeatureTree.Proofs.Node.Order

/-!
# What a search comes by

A search by kind goes through the nodes below the root in the order of recursion, parents
before children. These are the nodes that can be reached from the root through children, at
any depth (`Node.Below`), so a search finds nothing only where none of them is of the kind.
-/

namespace FeatureTree.Node

/-- The second node lies below the first one, at any depth. -/
inductive Below : Node → Node → Prop
  | child {n c : Node} (h : c ∈ n.children) : Below n c
  | deeper {n c m : Node} (h : c ∈ n.children) (hm : Below c m) : Below n m

theorem findKind?_eq (n : Node) (kind : Kind) :
    n.findKind? kind = (preorderAll n.children).find? (·.kind == kind) := by
  rw [findKind?, toList_walk, preorder_eq, List.drop_one, List.tail_cons]

/-- What holds of a node if it holds of its children holds of every node. -/
@[elab_as_elim]
theorem induction {P : Node → Prop} (step : ∀ n, (∀ c ∈ n.children, P c) → P n) (n : Node) : P n :=
  step n fun c _ => induction step c
termination_by n
decreasing_by
  next hc =>
    obtain ⟨kind, name, children, span, body⟩ := n
    have hlt := List.sizeOf_lt_of_mem hc
    simp only [Node.mk.sizeOf_spec] at hlt ⊢
    omega

theorem below_of_mem {n m : Node} (h : m ∈ preorderAll n.children) : n.Below m := by
  induction n using Node.induction with
  | step n ih =>
      obtain ⟨c, hc, hm⟩ := mem_preorderAll.1 h
      rw [preorder_eq, List.mem_cons] at hm
      rcases hm with rfl | hm
      · exact .child hc
      · exact .deeper hc (ih c hc hm)

theorem mem_of_below {n m : Node} (h : n.Below m) : m ∈ preorderAll n.children := by
  induction h with
  | child hc => exact mem_preorderAll.2 ⟨_, hc, self_mem_preorder _⟩
  | deeper hc _ ih =>
      refine mem_preorderAll.2 ⟨_, hc, ?_⟩
      rw [preorder_eq]
      exact List.mem_cons_of_mem _ ih

/-- Recursion over the children of a node comes by the nodes that lie below it. -/
theorem mem_preorderAll_children {n m : Node} : m ∈ preorderAll n.children ↔ n.Below m :=
  ⟨below_of_mem, mem_of_below⟩

end FeatureTree.Node
