import FeatureTree.Node.Spans
import FeatureTree.Proofs.Node.Places

/-!
# What the check of spans settles

The check compares a child with its neighbour only. If no span stops in front of its own start,
a child that does not start before its neighbour stops does not start before any earlier child
stops, so neighbours settle all pairs (`childFault?_eq_none_iff`). What is left for one node is
that it encloses its body and its children (`Encloses`), and the check passes exactly where
every node of the tree does (`spanFault?_eq_none_iff`).

Then spans nest as nodes do: a node lies within each node above it, and nodes in the trees of
two siblings are apart because the siblings are.
-/

namespace FeatureTree

namespace Span

/-- The span lies within another one. -/
def Within (s other : Span) : Prop := other.start ≤ s.start ∧ s.stop ≤ other.stop

/-- One of the spans stops no later than the other one starts. -/
def Apart (s other : Span) : Prop := s.stop ≤ other.start ∨ other.stop ≤ s.start

variable {r s t u : Span}

theorem contains_iff : s.contains t = true ↔ t.Within s := by
  simp [contains, Within]

theorem Within.refl (s : Span) : s.Within s := ⟨Nat.le_refl _, Nat.le_refl _⟩

theorem Within.trans (h : r.Within s) (h' : s.Within t) : r.Within t :=
  ⟨Nat.le_trans h'.1 h.1, Nat.le_trans h.2 h'.2⟩

theorem Apart.mono (h : s.Apart t) (hr : r.Within s) (hu : u.Within t) : r.Apart u :=
  h.imp (fun hle => Nat.le_trans hr.2 (Nat.le_trans hle hu.1))
    fun hle => Nat.le_trans hu.2 (Nat.le_trans hle hr.1)

end Span

namespace Node

/-- The body and the children lie within the node, and no child starts before an earlier one
stops. -/
structure Encloses (n : Node) : Prop where
  body : ∀ b ∈ n.body, b.Within n.span
  children : ∀ c ∈ n.children, c.span.Within n.span
  siblings : n.children.Pairwise fun c d => c.span.stop ≤ d.span.start

variable {n m k : Node} {kind : Kind} {span : Span} {earliest i j : Nat} {c d : Node} {cs : List Node}
  {p q : List Nat}

/-! ## One node -/

theorem childFault?_cons_eq_none_iff :
    childFault? kind span earliest (c :: cs) = none ↔
      c.span.Within span ∧ earliest ≤ c.span.start ∧ c.spanFault? = none ∧
        childFault? kind span c.span.stop cs = none := by
  rw [childFault?, ← Span.contains_iff, ← Nat.not_lt]
  cases span.contains c.span with
  | false => simp
  | true =>
      by_cases hlt : c.span.start < earliest
      · simp [hlt]
      · cases c.spanFault? <;> simp [hlt]

/-- To compare neighbours is to compare all siblings. -/
theorem childFault?_eq_none_iff (hcs : ∀ c ∈ cs, c.span.start ≤ c.span.stop) :
    childFault? kind span earliest cs = none ↔
      (∀ c ∈ cs, c.span.Within span ∧ earliest ≤ c.span.start ∧ c.spanFault? = none) ∧
        cs.Pairwise fun c d => c.span.stop ≤ d.span.start := by
  induction cs generalizing earliest with
  | nil => simp [childFault?]
  | cons c cs ih =>
      obtain ⟨hc, hrest⟩ := List.forall_mem_cons.1 hcs
      rw [childFault?_cons_eq_none_iff, ih hrest, List.forall_mem_cons, List.pairwise_cons]
      constructor
      · rintro ⟨hwithin, hstart, hfault, hall, hpairs⟩
        refine ⟨⟨⟨hwithin, hstart, hfault⟩, fun d hd => ?_⟩, fun d hd => (hall d hd).2.1, hpairs⟩
        obtain ⟨hd, hbehind, hfault⟩ := hall d hd
        exact ⟨hd, Nat.le_trans hstart (Nat.le_trans hc hbehind), hfault⟩
      · rintro ⟨⟨⟨hwithin, hstart, hfault⟩, hall⟩, hbehind, hpairs⟩
        exact ⟨hwithin, hstart, hfault,
          fun d hd => ⟨(hall d hd).1, hbehind d hd, (hall d hd).2.2⟩, hpairs⟩

/-- The check of a tree is one of its root and the checks of the trees below. -/
theorem spanFault?_eq_none_step (hn : ∀ c ∈ n.children, c.span.start ≤ c.span.stop) :
    n.spanFault? = none ↔ n.Encloses ∧ ∀ c ∈ n.children, c.spanFault? = none := by
  have hbody : n.spanFault? = none ↔ (∀ b ∈ n.body, b.Within n.span) ∧
      childFault? n.kind n.span n.span.start n.children = none := by
    obtain ⟨kind, name, children, span, _ | b⟩ := n
    · simp [spanFault?]
    · rw [spanFault?]
      by_cases hb : span.contains b = true <;> simp [hb, ← Span.contains_iff]
  rw [hbody, childFault?_eq_none_iff hn]
  constructor
  · rintro ⟨hb, hall, hpairs⟩
    exact ⟨⟨hb, fun c hc => (hall c hc).1, hpairs⟩, fun c hc => (hall c hc).2.2⟩
  · rintro ⟨⟨hb, hwithin, hpairs⟩, hfault⟩
    exact ⟨hb, fun c hc => ⟨hwithin c hc, (hwithin c hc).1, hfault c hc⟩, hpairs⟩

/-! ## The tree -/

/-- The check passes where every node encloses what is in it. -/
theorem spanFault?_eq_none_iff (hn : ∀ m ∈ n.preorder, m.span.start ≤ m.span.stop) :
    n.spanFault? = none ↔ ∀ m ∈ n.preorder, m.Encloses := by
  induction n using Node.induction with
  | step n ih =>
      obtain ⟨-, hbelow⟩ := forall_mem_preorder_iff.1 hn
      have hchildren : ∀ c ∈ n.children, c.span.start ≤ c.span.stop := fun c hc =>
        hbelow c hc c c.self_mem_preorder
      rw [spanFault?_eq_none_step hchildren, forall_mem_preorder_iff]
      exact and_congr_right fun _ => forall₂_congr fun c hc => ih c hc (hbelow c hc)

/-- Where every node encloses what is in it, nothing of a tree runs out of its root. -/
theorem within_of_encloses (h : ∀ m ∈ n.preorder, m.Encloses) :
    ∀ m ∈ n.preorder, m.span.Within n.span := by
  induction n using Node.induction with
  | step n ih =>
      obtain ⟨hn, hbelow⟩ := forall_mem_preorder_iff.1 h
      refine forall_mem_preorder_iff.2 ⟨.refl n.span, fun c hc m hm => ?_⟩
      exact (ih c hc (hbelow c hc) m hm).trans (hn.children c hc)

theorem apart_of_siblings (h : n.Encloses) (hc : n.children[i]? = some c)
    (hd : n.children[j]? = some d) (hij : i ≠ j) : c.span.Apart d.span := by
  obtain ⟨hi, rfl⟩ := List.getElem?_eq_some_iff.1 hc
  obtain ⟨hj, rfl⟩ := List.getElem?_eq_some_iff.1 hd
  rcases Nat.lt_or_gt_of_ne hij with hlt | hlt
  · exact .inl (List.pairwise_iff_getElem.1 h.siblings i j hi hj hlt)
  · exact .inr (List.pairwise_iff_getElem.1 h.siblings j i hj hi hlt)

/-- Where every node encloses what is in it, nodes at places that do not lead to each other
are apart. -/
theorem apart_of_encloses (h : ∀ m ∈ n.preorder, m.Encloses) (hp : n.at? p = some m)
    (hq : n.at? q = some k) (hpq : ¬ p <+: q) (hqp : ¬ q <+: p) : m.span.Apart k.span := by
  induction p generalizing n q with
  | nil => exact absurd List.nil_prefix hpq
  | cons i p ih =>
      cases q with
      | nil => exact absurd List.nil_prefix hqp
      | cons j q =>
          obtain ⟨hn, hbelow⟩ := forall_mem_preorder_iff.1 h
          obtain ⟨c, hc, hm⟩ := at?_cons_eq_some_iff.1 hp
          obtain ⟨d, hd, hk⟩ := at?_cons_eq_some_iff.1 hq
          have hcmem := List.mem_of_getElem? hc
          have hdmem := List.mem_of_getElem? hd
          by_cases hij : i = j
          · -- Both places lead to the same child, and part below it.
            subst hij
            obtain rfl : c = d := Option.some.inj (hc.symm.trans hd)
            exact ih (hbelow c hcmem) hm hk (fun h => hpq (List.cons_prefix_cons.2 ⟨rfl, h⟩))
              fun h => hqp (List.cons_prefix_cons.2 ⟨rfl, h⟩)
          · exact (apart_of_siblings hn hc hd hij).mono
              (within_of_encloses (hbelow c hcmem) m (mem_preorder_of_at? hm))
              (within_of_encloses (hbelow d hdmem) k (mem_preorder_of_at? hk))

/-- If no node stops in front of its start, the check of spans passes exactly where every node
of the tree encloses what is in it: body and children lie within the node, and of any two
siblings the earlier one stops no later than the later one starts. Then all nodes below the root
lie within it, and two nodes of which neither is above the other are apart. -/
theorem checkSpans_eq_ok_iff (n : Node) (hn : ∀ m ∈ n.preorder, m.span.start ≤ m.span.stop) :
    (n.checkSpans = .ok () ↔ ∀ m ∈ n.preorder, m.Encloses) ∧
      (n.checkSpans = .ok () →
        (∀ m, n.Below m → m.span.Within n.span) ∧
        ∀ p q m k, n.at? p = some m → n.at? q = some k → ¬ p <+: q → ¬ q <+: p →
          m.span.Apart k.span) := by
  have hiff : n.checkSpans = .ok () ↔ ∀ m ∈ n.preorder, m.Encloses := by
    rw [← spanFault?_eq_none_iff hn, checkSpans]
    cases n.spanFault? <;> simp
  refine ⟨hiff, fun hok => ?_⟩
  have hall := hiff.1 hok
  refine ⟨fun m hm => within_of_encloses hall m ?_, fun p q m k hp hq hpq hqp =>
    apart_of_encloses hall hp hq hpq hqp⟩
  rw [preorder_eq]
  exact List.mem_cons_of_mem n (mem_of_below hm)

/-- A child that covers nothing stands between two others, at the offset where both end. -/
theorem checkSpans_eq_ok_iff_touching :
    let n : Node := ⟨.class, some "C",
      [⟨.field, some "a", [.leaf .variable (some "a") ⟨6, 7⟩], ⟨2, 8⟩, none⟩,
        .leaf .field none ⟨8, 8⟩, .leaf .field (some "b") ⟨8, 14⟩], ⟨0, 16⟩, some ⟨1, 16⟩⟩
    (∀ m ∈ n.preorder, m.span.start ≤ m.span.stop) ∧ n.checkSpans = .ok () ∧
      (∀ m ∈ n.preorder, m.Encloses) ∧ (∀ m, n.Below m → m.span.Within n.span) ∧
      ∀ m k, n.at? [0, 0] = some m → n.at? [1] = some k → m.span.Apart k.span := by
  intro n
  have hn : ∀ m ∈ n.preorder, m.span.start ≤ m.span.stop := by decide
  have hok : n.checkSpans = .ok () := rfl
  obtain ⟨hiff, hnested⟩ := checkSpans_eq_ok_iff n hn
  obtain ⟨hwithin, hapart⟩ := hnested hok
  exact ⟨hn, hok, hiff.1 hok, hwithin,
    fun m k hm hk => hapart [0, 0] [1] m k hm hk (by decide) (by decide)⟩

end Node

end FeatureTree
