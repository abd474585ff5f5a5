import FeatureTree.Proofs.Node.Walk

/-!
# Where a walk comes by

Two nodes of a tree can be equal, so a node is told by its place: the numbers of the children
to go to from the root. In the order of words, a place comes before those below it, and what is
below one child comes before what is below the next. This is the order in which a walk comes by
(`pairwise_visits`): so it comes by each place of the tree, once, and by no other.

`visits` says the same as `preorder`, with the places.
-/

namespace FeatureTree.Node

/-- The node at a place. -/
def at? : Node → List Nat → Option Node
  | n, [] => some n
  | n, i :: place => n.children[i]?.bind (·.at? place)

theorem at?_cons_eq_some_iff {n m : Node} {i : Nat} {place : List Nat} :
    n.at? (i :: place) = some m ↔ ∃ c, n.children[i]? = some c ∧ c.at? place = some m := by
  rw [at?, Option.bind_eq_some_iff]

mutual

/-- The places of a tree and what stands there, parents before children. -/
def visits : Node → List (List Nat × Node)
  | ⟨kind, name, children, span, body⟩ =>
    ([], ⟨kind, name, children, span, body⟩) :: visitsFrom 0 children

/-- The same for some children of a node, the first of which has a number. -/
def visitsFrom (i : Nat) : List Node → List (List Nat × Node)
  | [] => []
  | c :: cs => (visits c).map (fun (place, m) => (i :: place, m)) ++ visitsFrom (i + 1) cs

end

variable {n m : Node} {cs : List Node} {i : Nat} {place : List Nat}

theorem visits_eq (n : Node) : n.visits = ([], n) :: visitsFrom 0 n.children := by
  cases n
  rw [visits]

/-! ## Each place once, in order -/

theorem map_snd_visitsFrom (ih : ∀ c ∈ cs, c.visits.map (·.2) = c.preorder) (i : Nat) :
    (visitsFrom i cs).map (·.2) = preorderAll cs := by
  induction cs generalizing i with
  | nil => rfl
  | cons c cs ihs =>
      obtain ⟨hc, hcs⟩ := List.forall_mem_cons.1 ih
      rw [visitsFrom, preorderAll, List.map_append, List.map_map, ihs hcs, ← hc]
      rfl

/-- The nodes that are visited are those of the recursion. -/
theorem map_snd_visits (n : Node) : n.visits.map (·.2) = n.preorder := by
  induction n using Node.induction with
  | step n ih => rw [visits_eq, preorder_eq, List.map_cons, map_snd_visitsFrom ih]

theorem mem_visitsFrom_iff :
    (place, m) ∈ visitsFrom i cs ↔
      ∃ j c rest, cs[j]? = some c ∧ place = (i + j) :: rest ∧ (rest, m) ∈ c.visits := by
  induction cs generalizing i with
  | nil => simp [visitsFrom]
  | cons c cs ih =>
      rw [visitsFrom, List.mem_append, List.mem_map, ih]
      constructor
      · rintro (⟨⟨rest, _⟩, hmem, heq⟩ | ⟨j, d, rest, hd, rfl, hmem⟩)
        · cases heq
          exact ⟨0, c, rest, rfl, rfl, hmem⟩
        · exact ⟨j + 1, d, rest, hd, by rw [Nat.add_right_comm, Nat.add_assoc], hmem⟩
      · rintro ⟨_ | j, d, rest, hd, rfl, hmem⟩
        · cases hd
          exact .inl ⟨(rest, m), hmem, rfl⟩
        · exact .inr ⟨j, d, rest, hd, by rw [Nat.add_right_comm, Nat.add_assoc], hmem⟩

/-- What is visited is what stands at the places of the tree. -/
theorem mem_visits_iff : (place, m) ∈ n.visits ↔ n.at? place = some m := by
  induction place generalizing n with
  | nil =>
      rw [visits_eq, List.mem_cons, mem_visitsFrom_iff]
      constructor
      · rintro (hroot | ⟨_, _, _, -, heq, -⟩)
        · cases hroot
          rfl
        · cases heq
      · rintro ⟨⟩
        exact .inl rfl
  | cons i place ih =>
      rw [visits_eq, List.mem_cons, mem_visitsFrom_iff, at?_cons_eq_some_iff]
      constructor
      · rintro (hroot | ⟨j, c, rest, hc, heq, hmem⟩)
        · cases hroot
        · rw [Nat.zero_add] at heq
          cases heq
          exact ⟨c, hc, ih.1 hmem⟩
      · rintro ⟨c, hc, hat⟩
        exact .inr ⟨i, c, place, hc, by rw [Nat.zero_add], ih.2 hat⟩

theorem pairwise_visitsFrom (ih : ∀ c ∈ cs, c.visits.Pairwise (·.1 < ·.1)) (i : Nat) :
    (visitsFrom i cs).Pairwise (·.1 < ·.1) := by
  induction cs generalizing i with
  | nil => exact .nil
  | cons c cs ihs =>
      obtain ⟨hc, hcs⟩ := List.forall_mem_cons.1 ih
      rw [visitsFrom, List.pairwise_append, List.pairwise_map]
      refine ⟨hc.imp fun hlt => List.cons_lt_cons_iff.2 (.inr ⟨rfl, hlt⟩), ihs hcs (i + 1), ?_⟩
      rintro ⟨_, _⟩ hfirst ⟨place, m⟩ hlater
      obtain ⟨⟨rest, _⟩, -, heq⟩ := List.mem_map.1 hfirst
      obtain ⟨j, d, rest', -, rfl, -⟩ := mem_visitsFrom_iff.1 hlater
      cases heq
      exact List.cons_lt_cons_iff.2 (.inl (by omega))

/-- Places are visited in the order of words. -/
theorem pairwise_visits (n : Node) : n.visits.Pairwise (·.1 < ·.1) := by
  induction n using Node.induction with
  | step n ih =>
      rw [visits_eq, List.pairwise_cons]
      refine ⟨?_, pairwise_visitsFrom ih 0⟩
      rintro ⟨place, m⟩ hmem
      obtain ⟨j, c, rest, -, rfl, -⟩ := mem_visitsFrom_iff.1 hmem
      exact List.nil_lt_cons _ rest

theorem mem_preorder_of_at? (h : n.at? place = some m) : m ∈ n.preorder := by
  rw [← map_snd_visits]
  exact List.mem_map.2 ⟨(place, m), mem_visits_iff.2 h, rfl⟩

/-! ## Walks and searches -/

theorem preorderAll_eq_flatMap (ns : List Node) : preorderAll ns = ns.flatMap preorder := by
  induction ns with
  | nil => rfl
  | cons n ns ih => rw [preorderAll, ih, List.flatMap_cons]

/-- A walk comes by the root, and then by all that the walks over its children come by, one
after the other. It visits what stands at the places of the tree, each place once and in
order. A search finds the first node of a kind behind the root of the walk, and nothing
only if no node below the root is of the kind. -/
theorem walk_visits (n : Node) :
    n.walk.toList = n :: n.children.flatMap (·.walk.toList) ∧
      (∃ visits : List (List Nat × Node), visits.map (·.2) = n.walk.toList ∧
        visits.Pairwise (·.1 < ·.1) ∧ ∀ place m, (place, m) ∈ visits ↔ n.at? place = some m) ∧
      ∀ kind,
        (∀ m, n.findKind? kind = some m ↔ m.kind = kind ∧
          ∃ before after, n.walk.toList = n :: (before ++ m :: after) ∧
            ∀ k ∈ before, k.kind ≠ kind) ∧
        (n.findKind? kind = none ↔ ∀ m, n.Below m → m.kind ≠ kind) := by
  have hwalk : n.walk.toList = n :: preorderAll n.children := by rw [toList_walk, preorder_eq]
  have hwalks : (fun c : Node => c.walk.toList) = preorder := funext toList_walk
  refine ⟨?_, ⟨n.visits, ?_, pairwise_visits n, fun place m => mem_visits_iff⟩, fun kind => ⟨?_, ?_⟩⟩
  · rw [hwalk, hwalks, preorderAll_eq_flatMap]
  · rw [map_snd_visits, toList_walk]
  · intro m
    rw [findKind?_eq, List.find?_eq_some_iff_append, hwalk]
    simp
  · rw [findKind?_eq, List.find?_eq_none]
    simp [mem_preorderAll_children]

end FeatureTree.Node
