import FeatureTree.Proofs.Yaml.Plain

/-!
# Printed values can be read

A text with a character that may not occur in it has no tokens at all. The text
of a plain value holds no such character.
-/

namespace FeatureTree.Yaml

/-- A text without characters that may not occur. -/
def Readable (text : String) : Prop := text.toList.all isPrintable = true

instance (text : String) : Decidable (Readable text) := instDecidableEqBool ..

theorem Readable.append {a b : String} (ha : Readable a) (hb : Readable b) : Readable (a ++ b) := by
  rw [Readable, String.toList_append, List.all_append, ha, hb]
  rfl

theorem isPrintable_of_isWordChar {c : Char} (h : isWordChar c = true) : isPrintable c = true := by
  have hrange : ' ' ≤ c ∧ c ≤ '~' := by
    unfold isWordChar Char.isAlphanum Char.isAlpha Char.isUpper Char.isLower Char.isDigit at h
    simp only [Bool.or_eq_true, Bool.and_eq_true, decide_eq_true_eq, beq_iff_eq, ge_iff_le] at h
    have hcodes : ' '.val.toNat = 32 ∧ '0'.val.toNat = 48 ∧ '9'.val.toNat = 57 ∧
        'A'.val.toNat = 65 ∧ 'Z'.val.toNat = 90 ∧ 'a'.val.toNat = 97 ∧ 'z'.val.toNat = 122 ∧
        '~'.val.toNat = 126 := by decide
    rcases h with (h | rfl) | rfl
    · simp only [Char.le_def, UInt32.le_iff_toNat_le] at h ⊢
      omega
    · decide
    · decide
  simp [isPrintable, hrange]

theorem IsWord.readable {text : String} (h : IsWord text) : Readable text := by
  refine List.all_eq_true.2 fun c hc => ?_
  exact isPrintable_of_isWordChar (List.all_eq_true.1 h.2 c hc)

theorem readable_scalarText {v : Value} (h : IsPlain v) : Readable (scalarText v) := by
  cases v with
  | null => decide
  | bool b => cases b <;> decide
  | nat n => exact (isWord_toString n).readable
  | number text => exact IsWord.readable h
  | text text => exact IsWord.readable h
  | list items => simp [Readable, scalarText, isPrintable]
  | map entries => simp [Readable, scalarText, isPrintable]

theorem readable_margin (column : Nat) : Readable (margin column) := by
  refine List.all_eq_true.2 fun c hc => ?_
  rw [margin, String.toList_ofList] at hc
  rw [List.eq_of_mem_replicate hc]
  rfl

theorem readable_inline {v : Value} (h : IsPlain v) :
    Readable (scalarText v ++ "\n") ∧ Readable (" " ++ scalarText v ++ "\n") := by
  have hline : Readable "\n" := by decide
  have hblank : Readable " " := by decide
  have htext := readable_scalarText h
  exact ⟨htext.append hline, (hblank.append htext).append hline⟩

mutual

theorem readable_print : (v : Value) → IsPlain v → ∀ column,
    Readable (printAt column v) ∧ Readable (printUnder column v)
  | .list (v :: vs), h, column => by
    have hdash : Readable "- " := by decide
    have hline : Readable "\n" := by decide
    have hitems := (hdash.append (readable_print v h.1 (column + 2)).1).append
      (readable_printItems vs h.2 column)
    refine ⟨hitems, ?_⟩
    have hall := (hline.append (readable_margin column)).append hitems
    simpa [printUnder, String.append_assoc] using hall
  | .map ((k, v) :: es), h, column => by
    have hcolon : Readable ":" := by decide
    have hline : Readable "\n" := by decide
    obtain ⟨hk, -, hplain, hplains⟩ := h
    have hentries : ∀ column, Readable (printAt column (.map ((k, v) :: es))) := by
      intro column
      exact ((hk.readable.append hcolon).append (readable_print v hplain column).2).append
        (readable_printEntries es hplains column)
    refine ⟨hentries column, ?_⟩
    have hall := (hline.append (readable_margin (column + 2))).append (hentries (column + 2))
    simpa [printAt, printUnder, String.append_assoc] using hall
  | .list [], h, _ => readable_inline h
  | .map [], h, _ => readable_inline h
  | .null, h, _ => readable_inline h
  | .bool _, h, _ => readable_inline h
  | .nat _, h, _ => readable_inline h
  | .number _, h, _ => readable_inline h
  | .text _, h, _ => readable_inline h

theorem readable_printItems : (vs : List Value) → ArePlain vs → ∀ column,
    Readable (printItems column vs)
  | [], _, _ => rfl
  | v :: vs, h, column =>
    (((readable_margin column).append (by decide)).append
      (readable_print v h.1 (column + 2)).1).append (readable_printItems vs h.2 column)

theorem readable_printEntries : (es : List (String × Value)) → ArePlainEntries es → ∀ column,
    Readable (printEntries column es)
  | [], _, _ => rfl
  | (_, v) :: es, h, column =>
    ((((readable_margin column).append h.1.readable).append (by decide)).append
      (readable_print v h.2.2.1 column).2).append (readable_printEntries es h.2.2.2 column)

end

end FeatureTree.Yaml
