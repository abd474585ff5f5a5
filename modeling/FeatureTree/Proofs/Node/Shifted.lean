import FeatureTree.Node.Walk

/-!
# Trees further on in a text

Where a text is the end of a longer one, its offsets grow by the length of what stands in
front. A span that is moved by that length covers the same piece of the longer text, or
none in both; so do all spans of a tree that is moved.
-/

namespace FeatureTree

theorem Text.cut_shifted (n : Nat) (a s : List Char) :
    cut (n + byteLength a) (a ++ s) = (cut n s).map fun (x, y) => (a ++ x, y) := by
  induction a with
  | nil =>
      rw [byteLength_nil, Nat.add_zero, List.nil_append]
      exact Option.map_id'.symm
  | cons c a ih =>
      have hc := c.utf8Size_pos
      obtain ⟨m, hm⟩ : ∃ m, n + byteLength (c :: a) = m + 1 :=
        ⟨n + byteLength (c :: a) - 1, by rw [byteLength_cons]; omega⟩
      rw [byteLength_cons] at hm
      have hrest : m + 1 - c.utf8Size = n + byteLength a := by omega
      rw [byteLength_cons, hm, List.cons_append, cut, if_pos (by omega), hrest, ih, Option.map_map]
      rfl

/-- A moved span covers in a text what the span covers in the end of it. -/
theorem Span.slice?_shifted (span : Span) (a s : List Char) :
    (span.shifted (Text.byteLength a)).slice? (a ++ s) = span.slice? s := by
  rw [slice?, slice?, shifted, Text.cut_shifted]
  cases Text.cut span.stop s with
  | none => rfl
  | some found =>
      obtain ⟨upTo, _⟩ := found
      by_cases hle : span.start ≤ span.stop
      · have hshifted : span.start + Text.byteLength a ≤ span.stop + Text.byteLength a := by omega
        simp only [Option.map_some, Option.bind_eq_bind, Option.bind_some, if_pos hle,
          if_pos hshifted]
        rw [Text.cut_shifted, Option.bind_map]
        rfl
      · have hshifted : ¬ span.start + Text.byteLength a ≤ span.stop + Text.byteLength a := by
          omega
        simp only [Option.map_some, Option.bind_eq_bind, Option.bind_some, if_neg hle,
          if_neg hshifted]

/-- A span that covers something of a text is moved in words as it is without them, if words can
count the bytes of the longer text. -/
theorem Span.shiftedInWords_of_slice? {span : Span} {a s piece : List Char}
    (hslice : span.slice? s = some piece) (hlength : Text.byteLength (a ++ s) < wordSize) :
    span.shiftedInWords (Text.byteLength a) = span.shifted (Text.byteLength a) := by
  obtain ⟨⟨upTo, rest⟩, hcut, hpiece⟩ := Option.bind_eq_some_iff.1 hslice
  obtain ⟨rfl, hstop⟩ := Text.cut_eq_some_iff.1 hcut
  simp only [Text.byteLength_append] at hlength
  by_cases hle : span.start ≤ span.stop
  · exact shiftedInWords_eq_iff.2 ⟨by omega, by omega⟩
  · exact absurd hpiece (by simp [hle])

namespace Node

/-- What the nodes of a tree and their bodies cover of a text, in order. -/
def pieces (source : List Char) (n : Node) :
    List (Option (List Char) × Option (Option (List Char))) :=
  n.preorder.map fun m => (m.span.slice? source, m.body.map (·.slice? source))

mutual

theorem preorder_shifted (k : Nat) :
    ∀ n : Node, (n.shifted k).preorder = n.preorder.map (·.shifted k)
  | ⟨kind, name, children, span, body⟩ => by
      rw [shifted, preorder, preorder, preorderAll_shifted k children, List.map_cons, shifted]

theorem preorderAll_shifted (k : Nat) :
    ∀ ns : List Node, preorderAll (shiftedAll k ns) = (preorderAll ns).map (·.shifted k)
  | [] => rfl
  | n :: ns => by
      rw [shiftedAll, preorderAll, preorderAll, preorder_shifted k n, preorderAll_shifted k ns,
        List.map_append]

end

/-- A moved tree covers in a text what the tree covers in the end of it. -/
theorem pieces_shifted (n : Node) (a s : List Char) :
    (n.shifted (Text.byteLength a)).pieces (a ++ s) = n.pieces s := by
  rw [pieces, preorder_shifted, List.map_map]
  refine List.map_congr_left fun m _ => ?_
  obtain ⟨kind, name, children, span, body⟩ := m
  have hbody : (body.map (·.shifted (Text.byteLength a))).map (·.slice? (a ++ s)) =
      body.map (·.slice? s) := by
    rw [Option.map_map]
    exact congrFun (congrArg _ (funext fun b => b.slice?_shifted a s)) _
  rw [Function.comp_apply, shifted, Span.slice?_shifted, hbody]

end Node

end FeatureTree
