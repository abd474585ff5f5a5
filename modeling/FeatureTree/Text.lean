/-!
# Text measured in bytes

Positions in a snippet are byte offsets into its UTF-8 encoding, while every
reader in this library works on the list of characters. This module relates
the two: the byte length of a text, and the cut at a byte offset, which exists
exactly where a character begins or the text ends.
-/

namespace FeatureTree.Text

/-- Number of bytes that a text takes in UTF-8. -/
def byteLength : List Char → Nat
  | [] => 0
  | c :: s => c.utf8Size + byteLength s

@[simp] theorem byteLength_nil : byteLength [] = 0 := rfl

@[simp] theorem byteLength_cons (c : Char) (s : List Char) :
    byteLength (c :: s) = c.utf8Size + byteLength s := rfl

@[simp] theorem byteLength_append (s t : List Char) :
    byteLength (s ++ t) = byteLength s + byteLength t := by
  induction s with
  | nil => simp
  | cons c s ih => simp [ih, Nat.add_assoc]

/-- The length in bytes is that of the encoding. -/
theorem byteLength_eq (s : List Char) : byteLength s = (String.ofList s).utf8ByteSize := by
  induction s with
  | nil => rfl
  | cons c s ih =>
      rw [byteLength_cons, ih, ← List.singleton_append, String.ofList_append,
        String.utf8ByteSize_append, ← String.singleton_eq_ofList, String.utf8ByteSize_singleton]

/-- Cuts a text at a byte offset. There is no cut past the end of the text or
inside a character. -/
def cut : Nat → List Char → Option (List Char × List Char)
  | 0, s => some ([], s)
  | _ + 1, [] => none
  | n + 1, c :: s =>
    if c.utf8Size ≤ n + 1 then
      (cut (n + 1 - c.utf8Size) s).map fun (before, after) => (c :: before, after)
    else none

/-- There is a cut between any two pieces of a text. -/
@[simp] theorem cut_append (a b : List Char) : cut (byteLength a) (a ++ b) = some (a, b) := by
  induction a with
  | nil => cases b <;> simp [cut]
  | cons c a ih =>
    have hc := c.utf8Size_pos
    obtain ⟨n, hn⟩ : ∃ n, byteLength (c :: a) = n + 1 :=
      ⟨c.utf8Size + byteLength a - 1, by simp; omega⟩
    rw [hn, List.cons_append, cut, if_pos (by simp at hn; omega),
      show n + 1 - c.utf8Size = byteLength a by simp at hn; omega, ih]
    rfl

/-- A cut divides the text at its byte offset. -/
theorem cut_eq_some_iff {n : Nat} {s a b : List Char} :
    cut n s = some (a, b) ↔ s = a ++ b ∧ byteLength a = n := by
  refine ⟨fun h => ?_, fun ⟨hs, hn⟩ => by rw [hs, ← hn, cut_append]⟩
  induction s generalizing n a b with
  | nil => cases n <;> simp_all [cut]
  | cons c s ih =>
    cases n with
    | zero => simp_all [cut]
    | succ n =>
      rw [cut] at h
      split at h
      · obtain ⟨⟨a', b'⟩, hcut, heq⟩ := Option.map_eq_some_iff.1 h
        obtain ⟨rfl, rfl⟩ := Prod.mk.inj heq
        obtain ⟨rfl, hlen⟩ := ih hcut
        exact ⟨rfl, by simp; omega⟩
      · exact absurd h (by simp)

/-- What follows a word at the front of a text. -/
def after? : List Char → List Char → Option (List Char)
  | [], s => some s
  | _ :: _, [] => none
  | w :: ws, c :: s => if w = c then after? ws s else none

/-- A word is found exactly at the front. -/
theorem after?_eq_some_iff {word s rest : List Char} :
    after? word s = some rest ↔ s = word ++ rest := by
  induction word generalizing s with
  | nil => simp [after?, eq_comm]
  | cons w ws ih =>
    cases s with
    | nil => simp [after?]
    | cons c s =>
      by_cases h : w = c
      · simp [after?, h, ih]
      · simp [after?, h, Ne.symm h]

/-- White space in the sense of Unicode: the characters with the property
`White_Space`. -/
def isSpace (c : Char) : Bool :=
  ('\t' ≤ c && c ≤ '\r') || c == ' ' || c == '\u0085' || c == '\u00a0' || c == '\u1680' ||
    ('\u2000' ≤ c && c ≤ '\u200a') || c == '\u2028' || c == '\u2029' || c == '\u202f' ||
    c == '\u205f' || c == '\u3000'

/-- The text without the white space at its end. -/
def trimEnd (s : List Char) : List Char :=
  (s.reverse.dropWhile isSpace).reverse

end FeatureTree.Text
