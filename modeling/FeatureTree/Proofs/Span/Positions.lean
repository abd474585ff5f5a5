import FeatureTree.Span
import Mathlib.Data.List.Induction
import Mathlib.Data.Prod.Lex

/-!
# Lines and columns

Line and column of an offset are what one gets to by going through the text in front of it from
the first line and column: the end of a line leads to the front of the next line, any other
character to the next column (`foldl_advance`). Every character leads forward in the order of
lines first and columns then (`lt_advance`), whatever the line was like before it. So a later
offset has a later position, and no two offsets have the same one.
-/

namespace FeatureTree

/-- The text in front of an offset where a character begins is a first part of the text. -/
theorem Text.exists_front {source : String} {offset : Nat}
    (h : (String.Pos.Raw.mk offset).IsValid source) :
    ∃ before after, source.toList = before ++ after ∧ byteLength before = offset := by
  obtain ⟨before, after, rfl, hoffset⟩ := String.Pos.Raw.isValid_iff_exists_append.1 h
  refine ⟨before.toList, after.toList, String.toList_append, ?_⟩
  rw [byteLength_eq, String.ofList_toList]
  exact (congrArg String.Pos.Raw.byteIdx hoffset).symm

namespace Span

/-- The line and column behind a character that stands at a line and column. -/
def advance (position : Nat × Nat) (c : Char) : Nat × Nat :=
  if c = '\n' then (position.1 + 1, 1) else (position.1, position.2 + 1)

theorem lt_advance (position : Nat × Nat) (c : Char) :
    toLex position < toLex (advance position c) := by
  rw [Prod.Lex.toLex_lt_toLex, advance]
  split
  · exact .inl (Nat.lt_succ_self position.1)
  · exact .inr ⟨rfl, Nat.lt_succ_self position.2⟩

theorem le_foldl_advance (position : Nat × Nat) (s : List Char) :
    toLex position ≤ toLex (s.foldl advance position) := by
  induction s generalizing position with
  | nil => exact le_rfl
  | cons c s ih => exact (lt_advance position c).le.trans (ih (advance position c))

theorem lt_foldl_advance (position : Nat × Nat) {s : List Char} (hs : s ≠ []) :
    toLex position < toLex (s.foldl advance position) := by
  obtain ⟨c, s, rfl⟩ := List.exists_cons_of_ne_nil hs
  exact (lt_advance position c).trans_le (le_foldl_advance (advance position c) s)

/-- To count ends of lines, and characters behind the last one, is to go through the text. -/
theorem foldl_advance (before : List Char) :
    before.foldl advance (1, 1) =
      (before.count '\n' + 1, (before.reverse.takeWhile (· != '\n')).length + 1) := by
  induction before using List.reverseRecOn with
  | nil => rfl
  | append_singleton before c ih =>
      rw [List.foldl_append, ih, List.foldl_cons, List.foldl_nil, advance, List.reverse_append,
        List.count_append]
      by_cases hc : c = '\n' <;> simp [hc]

variable {source : String} {s t : Span} {before after : List Char}

theorem lineCol_eq_foldl {text : List Char} (htext : text = before ++ after)
    (hstart : Text.byteLength before = s.start) :
    s.lineCol text = before.foldl advance (1, 1) := by
  rw [foldl_advance, lineCol, textBefore, htext, ← hstart, Text.cut_append]

theorem lineCol_lt (hs : (String.Pos.Raw.mk s.start).IsValid source)
    (ht : (String.Pos.Raw.mk t.start).IsValid source) (hlt : s.start < t.start) :
    toLex (s.lineCol source.toList) < toLex (t.lineCol source.toList) := by
  obtain ⟨a, a', ha, hstart⟩ := Text.exists_front hs
  obtain ⟨b, b', hb, hstart'⟩ := Text.exists_front ht
  obtain ⟨between, rfl, -⟩ | ⟨between, rfl, -⟩ := List.append_eq_append_iff.1 (ha.symm.trans hb)
  · have hne : between ≠ [] := by
      rintro rfl
      rw [List.append_nil] at hstart'
      omega
    rw [lineCol_eq_foldl ha hstart, lineCol_eq_foldl hb hstart', List.foldl_append]
    exact lt_foldl_advance _ hne
  · rw [Text.byteLength_append] at hstart
    omega

/-- Of two spans that start where characters begin or the text ends, one has the smaller line
and column exactly if it starts first, and both have the same only if they start at one
offset. Lines and columns are counted from one. -/
theorem lineCol_order (source : String) :
    (∀ s t : Span, (String.Pos.Raw.mk s.start).IsValid source →
      (String.Pos.Raw.mk t.start).IsValid source →
        (toLex (s.lineCol source.toList) < toLex (t.lineCol source.toList) ↔
          s.start < t.start) ∧
        (s.lineCol source.toList = t.lineCol source.toList ↔ s.start = t.start)) ∧
      ∀ s : Span, 1 ≤ (s.lineCol source.toList).1 ∧ 1 ≤ (s.lineCol source.toList).2 := by
  refine ⟨fun s t hs ht => ?_, fun s => ⟨Nat.le_add_left 1 _, Nat.le_add_left 1 _⟩⟩
  rcases Nat.lt_trichotomy s.start t.start with hlt | heq | hgt
  · have hpos := lineCol_lt hs ht hlt
    exact ⟨iff_of_true hpos hlt, iff_of_false (fun h => hpos.ne (congrArg toLex h)) hlt.ne⟩
  · have hpos : s.lineCol source.toList = t.lineCol source.toList := by
      rw [lineCol, lineCol, textBefore, textBefore, heq]
    exact ⟨iff_of_false (hpos ▸ lt_irrefl _) heq.not_lt, iff_of_true hpos heq⟩
  · have hpos := lineCol_lt ht hs hgt
    exact ⟨iff_of_false hpos.not_gt hgt.not_gt,
      iff_of_false (fun h => hpos.ne' (congrArg toLex h)) hgt.ne'⟩

/-- An end of a line and a character of two bytes stand between the two offsets. -/
theorem lineCol_order_umlaut :
    (String.Pos.Raw.mk 1).IsValid "a\nä;" ∧ (String.Pos.Raw.mk 4).IsValid "a\nä;" ∧
      Span.lineCol ⟨1, 1⟩ "a\nä;".toList = (1, 2) ∧ Span.lineCol ⟨4, 5⟩ "a\nä;".toList = (2, 2) ∧
      toLex (Span.lineCol ⟨1, 1⟩ "a\nä;".toList) < toLex (Span.lineCol ⟨4, 5⟩ "a\nä;".toList) := by
  have hfirst : (String.Pos.Raw.mk 1).IsValid "a\nä;" :=
    String.Pos.Raw.isValid_iff_exists_append.2 ⟨"a", "\nä;", rfl, rfl⟩
  have hsecond : (String.Pos.Raw.mk 4).IsValid "a\nä;" :=
    String.Pos.Raw.isValid_iff_exists_append.2 ⟨"a\nä", ";", rfl, rfl⟩
  refine ⟨hfirst, hsecond, by decide, by decide, ?_⟩
  exact (((lineCol_order "a\nä;").1 ⟨1, 1⟩ ⟨4, 5⟩ hfirst hsecond).1).2 (by decide)

end Span

end FeatureTree
