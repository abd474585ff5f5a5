import FeatureTree.Proofs.Exchange.Declarators
import FeatureTree.Proofs.Node.Contents
import FeatureTree.Proofs.Node.Order

/-!
# The variables of a node

What a node says of its variables is what the records say inside it: the names, and the
texts of the initializers without blanks and comments at their ends (`variables_nodeOf`).
-/

namespace FeatureTree

/-- The variables among the children of a node, by name and initializer. -/
def Node.variables (n : Node) (text : List Char) : List (Option String × Option (List Char)) :=
  (n.childrenOfKind .variable).map fun v => (v.name, v.body.bind (·.slice? text))

/-- The character at an offset is not in the span. -/
def Span.Excludes (b : Span) (offset : Nat) : Prop := offset < b.start ∨ b.stop ≤ offset

instance (b : Span) (offset : Nat) : Decidable (b.Excludes offset) :=
  inferInstanceAs (Decidable (_ ∨ _))

namespace Exchange

/-- The end of an initializer with this span is seen with either piece: trimming cuts its text at
the same place, and a boundary that stands behind it is one in front of the new piece as well. -/
structure KeepsEnd (x : Exchange) (t : Trivia) (boundary? : List Char → Option (List Char))
    (p : List Char) (b : Span) : Prop where
  trimmed : ∀ u w r, p = u ++ w → Text.byteLength u = b.start → b.stop ≤ Text.byteLength p →
    r <+: x.behind → Text.byteLength (u ++ t.trim (w ++ (x.old ++ r))) = b.stop →
      t.trim (w ++ (x.new ++ r)) = t.trim (w ++ (x.old ++ r))
  bounded : ∀ u tail y, p = u ++ (tail ++ y) → Text.byteLength u = b.stop →
    t.isTrivia tail = true → (boundary? (x.source y)).isSome = true →
      (boundary? (x.target y)).isSome = true

variable {x : Exchange} {t : Trivia} {boundary? : List Char → Option (List Char)} {p : List Char}
  {b : Span}

/-- There are finitely many places to look at. -/
theorem keepsEnd_iff : x.KeepsEnd t boundary? p b ↔
    (∀ i < p.length + 1, ∀ j < x.behind.length + 1, Text.byteLength (p.take i) = b.start ∧
      b.stop ≤ Text.byteLength p ∧
        Text.byteLength (p.take i ++ t.trim (p.drop i ++ (x.old ++ x.behind.take j))) = b.stop →
          t.trim (p.drop i ++ (x.new ++ x.behind.take j)) =
            t.trim (p.drop i ++ (x.old ++ x.behind.take j))) ∧
    (∀ i < p.length + 1, ∀ j < p.length + 1, Text.byteLength (p.take i) = b.stop ∧
      t.isTrivia ((p.drop i).take j) = true ∧
        (boundary? (x.source ((p.drop i).drop j))).isSome = true →
          (boundary? (x.target ((p.drop i).drop j))).isSome = true) := by
  constructor
  · intro h
    refine ⟨fun i _ j _ ⟨hi, hstop, hcut⟩ => ?_, fun i _ j _ ⟨hi, htail, hsome⟩ => ?_⟩
    · exact h.trimmed _ _ _ (List.take_append_drop i p).symm hi hstop (List.take_prefix j x.behind)
        hcut
    · refine h.bounded _ _ _ ?_ hi htail hsome
      rw [List.take_append_drop, List.take_append_drop]
  · rintro ⟨htrimmed, hbounded⟩
    constructor
    · rintro u w r rfl hu hstop ⟨v, hv⟩ hcut
      have hi := htrimmed u.length (by rw [List.length_append]; omega) r.length
        (by rw [← hv, List.length_append]; omega)
      rw [List.take_left, List.drop_left, ← hv, List.take_left] at hi
      exact hi ⟨hu, hstop, hcut⟩
    · rintro u tail y rfl hu htail hsome
      have hi := hbounded u.length (by rw [List.length_append]; omega) tail.length
        (by simp only [List.length_append]; omega)
      rw [List.take_left, List.drop_left, List.take_left, List.drop_left] at hi
      exact hi ⟨hu, htail, hsome⟩

instance : Decidable (x.KeepsEnd t boundary? p b) := decidable_of_iff _ keepsEnd_iff.symm

end Exchange

namespace SnippetGrammar

variable {R : Type} {g : SnippetGrammar R} {x : Exchange} {boundary : R} {total : Nat} {kind : Kind}
  {f inner : Forest R} {d : Draft} {s t text before after p : List Char} {single : Char → Bool}

theorem contribute_name : (g.contribute total kind f d).name =
    d.name.or ((g.names f).head?.map String.ofList) := by
  induction f generalizing d with
  | nil => rw [contribute, names]; cases d.name <;> rfl
  | cons r before after inner next ihInner ihNext =>
      rw [contribute, ihNext, names]
      cases hrole : g.role r with
      | name =>
          rw [Draft.addName]
          cases hname : d.name with
          | none => rfl
          | some name => simp [hname]
      | transparent =>
          rw [ihInner]
          cases g.names inner <;> cases d.name <;> rfl
      | node _ | fallbackName | body | hidden => rfl

theorem contribute_body : (g.contribute total kind f d).body =
    d.body.or ((g.bodies f).head?.map fun m => g.spanOf total m.1 m.2) := by
  induction f generalizing d with
  | nil => rw [contribute, bodies]; cases d.body <;> rfl
  | cons r before after inner next ihInner ihNext =>
      rw [contribute, ihNext, bodies]
      cases hrole : g.role r with
      | body => cases hbody : d.body <;> simp [Draft.addBody, hbody]
      | transparent =>
          rw [ihInner]
          cases g.bodies inner <;> cases d.body <;> rfl
      | name =>
          have hsame : ∀ (w : String) (b : Span), (d.addName kind w b).body = d.body := by
            intro w b
            rw [Draft.addName]
            cases d.name with
            | some _ => rfl
            | none => dsimp only; split <;> rfl
          simp only [hsame, List.nil_append]
      | node _ | fallbackName | hidden => rfl

theorem declared_eq : g.declared f = g.nodesOf .variable f := by
  induction f with
  | nil => rfl
  | cons r before after inner next ihInner ihNext =>
      rw [declared, nodesOf, ihNext]
      congr 1
      cases hrole : g.role r with
      | node k => cases k <;> rfl
      | transparent => exact ihInner
      | name | fallbackName | body | hidden => rfl

theorem contribute_variables :
    (g.contribute total kind f d).children.filter (·.kind == .variable) =
      d.children.filter (·.kind == .variable) ++
        (g.declared f).map fun m => g.nodeOf total .variable m.1 m.2.1 m.2.2 := by
  rw [declared_eq]
  exact contribute_nodesOf (by decide)

theorem within_bodies (hf : f.Within s t) {m : List Char × List Char} (hm : m ∈ g.bodies f) :
    m.1 <:+ s ∧ m.2 <:+ m.1 := by
  induction f generalizing s t with
  | nil => cases hm
  | cons r before after inner next ihInner ihNext =>
      obtain ⟨hbefore, hinner, hnext⟩ := hf
      rw [bodies, List.mem_append] at hm
      rcases hm with hm | hm
      · cases hrole : g.role r with
        | body =>
            rw [hrole] at hm
            obtain rfl := List.mem_singleton.1 hm
            exact ⟨hbefore, hinner.suffix⟩
        | transparent =>
            rw [hrole] at hm
            obtain ⟨hfirst, hsecond⟩ := ihInner hinner hm
            exact ⟨hfirst.trans hbefore, hsecond⟩
        | node _ | name | fallbackName | hidden => rw [hrole] at hm; cases hm
      · obtain ⟨hfirst, hsecond⟩ := ihNext hnext hm
        exact ⟨hfirst.trans (hinner.suffix.trans hbefore), hsecond⟩

theorem within_declared (hf : f.Within s t) {m : List Char × List Char × Forest R}
    (hm : m ∈ g.declared f) : m.1 <:+ s ∧ m.2.2.Within m.1 m.2.1 := by
  rw [declared_eq] at hm
  exact within_nodesOf hf hm

/-- The text of a span is that of the match. -/
theorem slice?_spanOf (hbefore : before <:+ text) (hafter : after <:+ before) :
    (g.spanOf (Text.byteLength text) before after).slice? text =
      some (g.textOf (before, after)) := by
  obtain ⟨pre, rfl⟩ := hbefore
  obtain ⟨piece, rfl⟩ := hafter
  obtain ⟨tail, htail, -⟩ := g.trivia.trim_append piece
  have htext : pre ++ (piece ++ after) = pre ++ g.trivia.trim piece ++ (tail ++ after) := by
    conv => lhs; rw [htail]
    simp only [List.append_assoc]
  rw [spanOf_eq, htext, Span.slice?_append, textOf, Forest.taken_append]

/-- The first name that is recorded names the node. -/
theorem name_nodeOf (hkind : (kind == .field || kind == .declaration) = false) :
    (g.nodeOf total kind before after inner).name = (g.names inner).head?.map String.ofList := by
  show Draft.finalName _ _ = _
  rw [Draft.finalName, contribute_name, hkind]
  cases g.names inner <;> rfl

/-- The first implementation text that is recorded is the body. -/
theorem body_nodeOf (hinner : inner.Within before after) (hbefore : before <:+ text) :
    (g.nodeOf (Text.byteLength text) kind before after inner).body.bind (·.slice? text) =
      (g.bodies inner).head?.map g.textOf := by
  have hbody : (g.nodeOf (Text.byteLength text) kind before after inner).body =
      (g.bodies inner).head?.map fun m => g.spanOf (Text.byteLength text) m.1 m.2 := contribute_body
  rw [hbody]
  cases hbodies : g.bodies inner with
  | nil => rfl
  | cons m ms =>
      obtain ⟨hfirst, hsecond⟩ := within_bodies hinner (m := m) (by rw [hbodies]; simp)
      exact slice?_spanOf (hfirst.trans hbefore) hsecond

/-- The name and the initializer of the node of a variable. -/
theorem view_nodeOf (hinner : inner.Within before after) (hbefore : before <:+ text) :
    ((g.nodeOf (Text.byteLength text) .variable before after inner).name,
      (g.nodeOf (Text.byteLength text) .variable before after inner).body.bind (·.slice? text)) =
      ((g.view inner).1.map String.ofList, (g.view inner).2) := by
  rw [name_nodeOf rfl, body_nodeOf hinner hbefore, view]

/-- The variables of a node are those of the records inside it. -/
theorem variables_nodeOf (hinner : inner.Within before after) (hbefore : before <:+ text) :
    (g.nodeOf (Text.byteLength text) kind before after inner).variables text =
      (g.views inner).map fun v => (v.1.map String.ofList, v.2) := by
  rw [Node.variables, Node.childrenOfKind, views, List.map_map]
  show List.map _ (List.filter _ (g.contribute _ _ _ _).children) = _
  rw [contribute_variables, List.map_append, List.map_map]
  refine List.map_congr_left fun m hm => ?_
  obtain ⟨hfirst, hsecond⟩ := within_declared hinner hm
  exact view_nodeOf hsecond (hfirst.trans hbefore)

variable {pre piece before' after' : List Char} {boundary? : List Char → Option (List Char)}

/-- A separator or a boundary behind an initializer stands there with the new piece as well. -/
theorem atEnd_of_keepsEnd (hx : g.Exchanges x single) (hsemicolon : single ';' = true)
    (hsource : pre ++ (piece ++ after) = x.source p)
    (hends : x.KeepsEnd g.trivia (g.leaves (.rule boundary)) p
      ⟨Text.byteLength pre, Text.byteLength (pre ++ g.trivia.trim piece)⟩)
    (hrest : x.Rest after after') (hend : g.AtEnd boundary after) : g.AtEnd boundary after' := by
  cases hrest with
  | behind _ => exact hend
  | @front y hy =>
      rcases hend with ⟨u, hu⟩ | hboundary
      · have hrest : x.Rest (';' :: u) (x.target y) := hu ▸ .front hy
        obtain ⟨z, hz, -⟩ := hx.head hrest hsemicolon
        exact .inl ⟨z, hz⟩
      · obtain ⟨tail, htail, htrivia⟩ := g.trivia.trim_append piece
        refine .inr (hends.bounded (pre ++ g.trivia.trim piece) tail y ?_ rfl htrivia hboundary)
        rw [← List.append_assoc] at hsource
        rw [← Exchange.append_source hsource]
        conv => lhs; rw [htail]
        simp only [List.append_assoc]

/-- The text of an initializer in which the blank is not is the same with the new piece. -/
theorem textOf_of_keepsEnd (hx : g.Exchanges x single)
    (hsource : pre ++ (piece ++ after) = x.source p)
    (houtside : Span.Excludes ⟨Text.byteLength pre, Text.byteLength (pre ++ g.trivia.trim piece)⟩
      (Text.byteLength p))
    (hends : x.KeepsEnd g.trivia boundary? p
      ⟨Text.byteLength pre, Text.byteLength (pre ++ g.trivia.trim piece)⟩)
    (hs : x.Rest (piece ++ after) before') (ht : x.Rest after after') :
    g.textOf (piece ++ after, after) = g.textOf (before', after') := by
  rw [textOf, Forest.taken_append]
  generalize hfront : piece ++ after = text at hs hsource
  cases hs with
  | behind hu =>
      subst hfront
      rw [ht.eq_of_behind hx.old_ne ((List.suffix_append piece after).trans hu), textOf,
        Forest.taken_append]
  | @front y hy =>
      have hp := Exchange.append_source hsource
      cases ht with
      | @front z hz =>
          obtain rfl := Exchange.append_source hfront
          rw [textOf, Exchange.target, Exchange.target, List.append_assoc, Forest.taken_append]
      | behind hu =>
          -- The initializer reaches over the blank, which is then one of those at its end.
          obtain ⟨r, hr⟩ := hu
          have hpiece : piece = y ++ (x.old ++ r) := by
            rw [Exchange.source, ← hr] at hfront
            simp only [← List.append_assoc] at hfront ⊢
            exact List.append_cancel_right hfront
          have htarget : x.target y = (y ++ (x.new ++ r)) ++ after := by
            rw [Exchange.target, ← hr]
            simp only [List.append_assoc]
          rw [htarget, textOf, Forest.taken_append, hpiece]
          refine (hends.trimmed pre y r hp.symm rfl ?_ ⟨after, hr⟩ (by rw [hpiece])).symm
          refine houtside.resolve_left fun hlt => ?_
          rw [← hp, Text.byteLength_append] at hlt
          exact absurd hlt (Nat.not_lt.2 (Nat.le_add_right _ _))

/-- An initializer is kept if the blank is not in it and its end is seen. -/
theorem keeps_of_keepsEnd (hx : g.Exchanges x single) (hsemicolon : single ';' = true)
    (hbefore : before <:+ x.source p) (hafter : after <:+ before)
    (houtside : (g.spanOf (Text.byteLength (x.source p)) before after).Excludes (Text.byteLength p))
    (hends : x.KeepsEnd g.trivia (g.leaves (.rule boundary)) p
      (g.spanOf (Text.byteLength (x.source p)) before after)) :
    g.Keeps x boundary (before, after) := by
  obtain ⟨pre, hpre⟩ := hbefore
  obtain ⟨piece, rfl⟩ := hafter
  rw [← hpre, spanOf_eq] at houtside hends
  exact ⟨fun _ hrest hend => atEnd_of_keepsEnd hx hsemicolon hpre hends hrest hend,
    fun _ _ hs ht => textOf_of_keepsEnd hx hpre houtside hends hs ht⟩

/-- All initializers are kept if the variables of the node say so. -/
theorem keepsAll_of_variables (hx : g.Exchanges x single) (hsemicolon : single ';' = true)
    (hinner : inner.Within before after) (hbefore : before <:+ x.source p)
    (h : ∀ v ∈ (g.nodeOf (Text.byteLength (x.source p)) kind before after inner).childrenOfKind
      .variable, ∀ b ∈ v.body, b.Excludes (Text.byteLength p) ∧
        x.KeepsEnd g.trivia (g.leaves (.rule boundary)) p b) :
    g.KeepsAll x boundary inner := by
  intro d hd m hm
  obtain ⟨hfirst, hsecond⟩ := within_declared hinner hd
  obtain ⟨hbefore', hafter'⟩ := within_bodies hsecond (List.mem_of_mem_head? hm)
  have hvariable : g.nodeOf (Text.byteLength (x.source p)) .variable d.1 d.2.1 d.2.2 ∈
      (g.nodeOf (Text.byteLength (x.source p)) kind before after inner).childrenOfKind
        .variable := by
    show _ ∈ List.filter _ (g.contribute _ _ _ _).children
    rw [contribute_variables]
    exact List.mem_append_right _ (List.mem_map_of_mem hd)
  have hbody : (g.nodeOf (Text.byteLength (x.source p)) .variable d.1 d.2.1 d.2.2).body =
      some (g.spanOf (Text.byteLength (x.source p)) m.1 m.2) := by
    show (g.contribute _ _ _ _).body = _
    rw [contribute_body, hm]
    rfl
  obtain ⟨houtside, hends⟩ := h _ hvariable _ hbody
  exact keeps_of_keepsEnd hx hsemicolon (hbefore'.trans (hfirst.trans hbefore)) hafter' houtside
    hends

end SnippetGrammar

end FeatureTree
