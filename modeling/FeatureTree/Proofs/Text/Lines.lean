import FeatureTree.Text
import Mathlib.Algebra.GroupWithZero.Nat

/-!
# Digits and ends of lines

A number is written without a zero in front. What a text takes on a screen is told by its ends
of lines, which are counted part by part; the digits of a number have none.
-/

namespace FeatureTree.Text

/-- Only zero is written with a zero in front. -/
theorem head_toDigits {n : Nat} (h : 0 < n) : (Nat.toDigits 10 n).head? ≠ some '0' := by
  induction n using Nat.strongRecOn with
  | ind n ih =>
      rw [Nat.toDigits_eq_if (by decide)]
      split
      · next hlt =>
          have hdigit : ∀ d < 10, 0 < d → [Nat.digitChar d].head? ≠ some '0' := by decide
          exact hdigit n hlt h
      · next hle =>
          obtain ⟨c, s, hcs⟩ := List.exists_cons_of_ne_nil
            (Nat.toDigits_ne_nil (n := n / 10) (b := 10))
          have hhead := ih (n / 10) (by omega) (by omega)
          rw [hcs] at hhead ⊢
          exact hhead

/-- The number of line ends in a text. -/
def lineEnds (s : String) : Nat := s.toList.count '\n'

@[simp] theorem lineEnds_empty : lineEnds "" = 0 := rfl

@[simp] theorem lineEnds_append (s t : String) : lineEnds (s ++ t) = lineEnds s + lineEnds t := by
  rw [lineEnds, String.toList_append, List.count_append]
  rfl

theorem lineEnds_eq_zero_iff {s : String} : lineEnds s = 0 ↔ '\n' ∉ s.toList :=
  List.count_eq_zero

@[simp] theorem lineEnds_repr (n : Nat) : lineEnds n.repr = 0 := by
  rw [lineEnds_eq_zero_iff]
  intro h
  have hdigit := Nat.isDigit_of_mem_toDigits (b := 10) (by decide) (by decide)
    (show '\n' ∈ Nat.toDigits 10 n by simpa [Nat.repr] using h)
  cases hdigit

/-- Lines that are whole and without line ends of their own are as many as the line ends. -/
theorem lineEnds_join_lines (lines : List String) :
    lineEnds (String.join (lines.map (· ++ "\n"))) = lines.length + (lines.map lineEnds).sum := by
  induction lines with
  | nil => rfl
  | cons l ls ih =>
      rw [List.map_cons, String.join_cons, lineEnds_append, ih, lineEnds_append, List.length_cons,
        List.map_cons, List.sum_cons]
      show lineEnds l + 1 + _ = _
      omega

end FeatureTree.Text
