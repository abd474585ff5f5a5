import FeatureTree.Proofs.Node.Order

/-!
# What the check of spans can find

In a tree whose nodes are in order the check has only one thing left to find: a
body or a child that runs past its node (`runsPast_of_checkSpans`).
-/

namespace FeatureTree.Node

/-- The fault is that the body or a child of the node runs past it. -/
def RunsPast (n : Node) (fault : SpanFault) : Prop :=
  (∃ b ∈ n.body, n.span.stop < b.stop ∧ fault = .bodyEscapes n.kind b n.span) ∨
    ∃ c ∈ n.children, n.span.stop < c.span.stop ∧
      fault = .childEscapes n.kind c.kind c.span n.span

variable {text : List Char} {fault : SpanFault}

theorem stop_lt_of_not_contains {s other : Span} (hstart : s.start ≤ other.start)
    (h : s.contains other = false) : s.stop < other.stop := by
  rw [Span.contains, decide_eq_true hstart, Bool.true_and, decide_eq_false_iff_not] at h
  exact Nat.lt_of_not_le h

mutual

theorem runsPast_of_spanFault? : ∀ n : Node, (∀ m ∈ n.preorder, m.Ordered text) →
    n.spanFault? = some fault → ∃ m ∈ n.preorder, m.RunsPast fault
  | ⟨kind, name, children, span, body⟩, hordered, h => by
      have hself := self_mem_preorder ⟨kind, name, children, span, body⟩
      have hn := hordered _ hself
      have hchildren : childFault? kind span span.start children = some fault →
          ∃ m ∈ preorder ⟨kind, name, children, span, body⟩, m.RunsPast fault := by
        intro hchild
        obtain ⟨c, hc, hstop, rfl⟩ | ⟨c, hc, m, hm, hpast⟩ :=
          runsPast_of_childFault? children kind span span.start hn.children hn.children hn.siblings
            (fun c hc m hm => hordered m (mem_preorder.2 (.inr ⟨c, hc, hm⟩))) hchild
        · exact ⟨_, hself, .inr ⟨c, hc, hstop, rfl⟩⟩
        · exact ⟨m, mem_preorder.2 (.inr ⟨c, hc, hm⟩), hpast⟩
      cases body with
      | none => exact hchildren h
      | some b =>
          rw [spanFault?] at h
          split at h
          · exact hchildren h
          · next hcontains =>
              cases h
              have hb := (hn.body b rfl).2
              exact ⟨_, hself, .inl ⟨b, rfl,
                stop_lt_of_not_contains hb (by simpa using hcontains), rfl⟩⟩

theorem runsPast_of_childFault? : ∀ (cs : List Node) (kind : Kind) (span : Span) (earliest : Nat),
    (∀ c ∈ cs, span.start ≤ c.span.start) → (∀ c ∈ cs, earliest ≤ c.span.start) →
    cs.Pairwise (fun c d => c.span.stop ≤ d.span.start) →
    (∀ c ∈ cs, ∀ m ∈ c.preorder, m.Ordered text) →
    childFault? kind span earliest cs = some fault →
      (∃ c ∈ cs, span.stop < c.span.stop ∧
        fault = .childEscapes kind c.kind c.span span) ∨
      ∃ c ∈ cs, ∃ m ∈ c.preorder, m.RunsPast fault
  | [], _, _, _, _, _, _, _, h => by cases h
  | c :: cs, kind, span, earliest, hstart, hearliest, hsiblings, hordered, h => by
      have hmem : c ∈ c :: cs := List.mem_cons_self
      obtain ⟨hnext, hrest⟩ := List.pairwise_cons.1 hsiblings
      rw [childFault?] at h
      split at h
      · next hcontains =>
          cases h
          exact .inl ⟨c, hmem,
            stop_lt_of_not_contains (hstart c hmem) (by simpa using hcontains), rfl⟩
      · split at h
        · next hlt => exact absurd (hearliest c hmem) (Nat.not_le_of_lt hlt)
        · split at h
          · next hfault =>
              cases h
              obtain ⟨m, hm, hpast⟩ := runsPast_of_spanFault? c (hordered c hmem) hfault
              exact .inr ⟨c, hmem, m, hm, hpast⟩
          · have htail := runsPast_of_childFault? cs kind span c.span.stop
              (fun d hd => hstart d (List.mem_cons_of_mem c hd)) hnext hrest
              (fun d hd => hordered d (List.mem_cons_of_mem c hd)) h
            exact htail.imp (fun ⟨d, hd, hpast⟩ => ⟨d, List.mem_cons_of_mem c hd, hpast⟩)
              fun ⟨d, hd, hpast⟩ => ⟨d, List.mem_cons_of_mem c hd, hpast⟩

end

/-- If the nodes of a tree are in order, what the check of its spans finds is a
body or a child that runs past its node. -/
theorem runsPast_of_checkSpans {n : Node} (hordered : ∀ m ∈ n.preorder, m.Ordered text)
    (h : n.checkSpans = .error fault) : ∃ m ∈ n.preorder, m.RunsPast fault := by
  rw [checkSpans] at h
  split at h
  · next hfault =>
      cases h
      exact runsPast_of_spanFault? n hordered hfault
  · cases h

end FeatureTree.Node
