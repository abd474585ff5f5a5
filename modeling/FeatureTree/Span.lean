import FeatureTree.Text

/-!
# Spans

A span is a range of bytes of a text, from its start up to and without its
stop. It cuts a piece out of the text only where both ends lie between
characters; line and column of its start count from one.
-/

namespace FeatureTree

/-- The bytes from `start` up to and without `stop`. -/
structure Span where
  start : Nat
  stop : Nat
  deriving DecidableEq, Repr

namespace Span

/-- Number of bytes in the span. -/
def length (s : Span) : Nat := s.stop - s.start

/-- The span covers no byte. -/
def isEmpty (s : Span) : Bool := s.start == s.stop

/-- The span moved to the right. -/
def shifted (offset : Nat) (s : Span) : Span := ⟨s.start + offset, s.stop + offset⟩

/-- How many numbers a word of 64 bits has. -/
def wordSize : Nat := 18446744073709551616

/-- The span moved to the right in words, where the largest one is followed by zero. -/
def shiftedInWords (offset : Nat) (s : Span) : Span :=
  ⟨(s.start + offset) % wordSize, (s.stop + offset) % wordSize⟩

/-- A span that words have room for is moved as it would be without them. -/
theorem shiftedInWords_eq_iff {offset : Nat} {s : Span} :
    s.shiftedInWords offset = s.shifted offset ↔
      s.start + offset < wordSize ∧ s.stop + offset < wordSize := by
  have hpos : 0 < wordSize := by decide
  simp only [shiftedInWords, shifted, Span.mk.injEq, Nat.mod_eq_iff_lt (Nat.ne_of_gt hpos)]

/-- The other span lies within this one. -/
def contains (s other : Span) : Bool := s.start ≤ other.start && other.stop ≤ s.stop

/-- The piece of text that the span covers, if it fits the text and splits no
character. -/
def slice? (s : Span) (source : List Char) : Option (List Char) := do
  let (upTo, _) ← Text.cut s.stop source
  if s.start ≤ s.stop then
    let (_, piece) ← Text.cut s.start upTo
    return piece
  else none

/-- The text in front of the span, or the whole text if the span starts where
no character does. -/
def textBefore (s : Span) (source : List Char) : List Char :=
  match Text.cut s.start source with
  | some (before, _) => before
  | none => source

/-- Line and column of the span's start, both counted from one; columns count
characters. -/
def lineCol (s : Span) (source : List Char) : Nat × Nat :=
  let before := s.textBefore source
  (before.count '\n' + 1, (before.reverse.takeWhile (· != '\n')).length + 1)

/-- Written as `start..stop`. -/
protected def toString (s : Span) : String := s!"{s.start}..{s.stop}"

instance : ToString Span := ⟨Span.toString⟩

end Span

end FeatureTree
