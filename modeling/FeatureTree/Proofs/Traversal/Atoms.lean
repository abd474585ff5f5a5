import FeatureTree.Proofs.Traversal.Canonical
import FeatureTree.Proofs.Traversal.Tokens

/-!
# Operands of canonical texts

Positions, tests of attributes and comparisons, each matched as an operand of
`and` and read back as what it was printed from. What may follow an operand in a
canonical text is a bracket or a word that joins it to another operand; all of
these stop its last token.
-/

namespace FeatureTree.Traversal

variable {t : List Char}

/-- A bracket closes the predicate here. -/
def Closes (t : List Char) : Prop := ∃ u, t = ']' :: u ∨ t = ')' :: u

/-- What follows the operands of `and`. -/
def AfterAnds (t : List Char) : Prop := Closes t ∨ ∃ u, t = ' ' :: 'o' :: 'r' :: ' ' :: u

/-- What follows an operand of `and`. -/
def AfterAtom (t : List Char) : Prop :=
  AfterAnds t ∨ ∃ u, t = ' ' :: 'a' :: 'n' :: 'd' :: ' ' :: u

theorem Closes.skip (ht : Closes t) : trivia.skip t = t := by
  obtain ⟨u, rfl | rfl⟩ := ht
  · exact skip_ink rfl u
  · exact skip_ink rfl u

theorem AfterAtom.stopsName (ht : AfterAtom t) : StopsName t := by
  obtain (⟨u, rfl | rfl⟩ | ⟨u, rfl⟩) | ⟨u, rfl⟩ := ht <;> intro c hc <;> cases hc <;> rfl

theorem AfterAtom.noDigit (ht : AfterAtom t) : ∀ c ∈ t.head?, c.isDigit = false := by
  obtain (⟨u, rfl | rfl⟩ | ⟨u, rfl⟩) | ⟨u, rfl⟩ := ht <;> intro c hc <;> cases hc <;> rfl

theorem matchExpr_comparator_none {c : Char} (hnot : c ≠ '!') (heq : c ≠ '=') (s : List Char) :
    grammar.matchExpr (.rule .comparator) .spaced (c :: s) = none := by
  have hnotEqual := matchExpr_rule_none (r := .notEqual) rfl
    (Grammar.matchExpr_text_ne hnot ['='] s)
  have hequal := matchExpr_rule_none (r := .equal) rfl (Grammar.matchExpr_text_ne heq [] s)
  exact matchExpr_rule_none rfl ((Grammar.matchExpr_right hnotEqual).trans hequal)

theorem AfterAtom.noComparator (ht : AfterAtom t) :
    grammar.matchExpr (.rule .comparator) .spaced (grammar.between .spaced t) = none := by
  show grammar.matchExpr _ _ (trivia.skip t) = none
  obtain (⟨u, rfl | rfl⟩ | ⟨u, rfl⟩) | ⟨u, rfl⟩ := ht
  · rw [skip_ink rfl]
    exact matchExpr_comparator_none (by decide) (by decide) u
  · rw [skip_ink rfl]
    exact matchExpr_comparator_none (by decide) (by decide) u
  · rw [skip_space_ink rfl]
    exact matchExpr_comparator_none (by decide) (by decide) _
  · rw [skip_space_ink rfl]
    exact matchExpr_comparator_none (by decide) (by decide) _

/-! ## Texts -/

namespace Predicate

/-- The characters of the canonical text. -/
def text (p : Predicate) : List Char := p.toString.toList

/-- The characters of the text as an operand of `and`. -/
def operand (p : Predicate) : List Char := p.operandText.toList

theorem text_position (n : Nat) : (position n).text = (toString n).toList := rfl

theorem text_has (asked : Attribute) : (has asked).text = '@' :: asked.word.toList := by
  rw [text, Predicate.toString, String.toList_append]
  rfl

theorem text_compare (asked : Attribute) (comparison : Comparison) (value : String) :
    (compare asked comparison value).text =
      '@' :: (asked.word.toList ++ (comparison.symbol.toList ++
        ((quoteOf value).toList ++ (value.toList ++ (quoteOf value).toList)))) := by
  rw [text, Predicate.toString]
  simp only [String.toList_append, List.append_assoc]
  rfl

theorem text_and (left right : Predicate) :
    (and left right).text =
      left.operand ++ ' ' :: 'a' :: 'n' :: 'd' :: ' ' :: right.operand := by
  rw [text, toString_and, String.toList_append, String.toList_append, List.append_assoc]
  rfl

theorem text_or (left right : Predicate) :
    (or left right).text = left.text ++ ' ' :: 'o' :: 'r' :: ' ' :: right.text := by
  rw [text, Predicate.toString, String.toList_append, String.toList_append, List.append_assoc]
  rfl

theorem operand_of_not_or {p : Predicate} (h : p.isOr = false) : p.operand = p.text := by
  rw [operand, operandText_of_not_or h, text]

theorem operand_of_or {p : Predicate} (h : p.isOr = true) :
    p.operand = '(' :: (p.text ++ [')']) := by
  rw [operand, operandText, h, parenthesized, if_pos rfl, String.toList_append,
    String.toList_append]
  rfl

end Predicate

theorem isInk_of_isDigit {c : Char} (h : c.isDigit = true) : isInk c = true := by
  rw [isInk]
  cases hblank : c == ' ' || c == '\t' || c == '\r' || c == '\n' with
  | false => rfl
  | true =>
      simp only [Bool.or_eq_true, beq_iff_eq] at hblank
      rcases hblank with ((rfl | rfl) | rfl) | rfl <;> cases h

namespace Predicate

/-- Predicates do not begin with a blank. -/
theorem text_head (p : Predicate) : ∃ c s, p.text = c :: s ∧ isInk c = true := by
  induction p with
  | position n =>
      rw [text_position, Nat.toString_eq_repr, Nat.toList_repr]
      obtain ⟨c, s, hcs⟩ := List.exists_cons_of_ne_nil (Nat.toDigits_ne_nil (n := n) (b := 10))
      have hc : c.isDigit = true :=
        Nat.isDigit_of_mem_toDigits (by decide) (by decide) (hcs ▸ List.mem_cons_self)
      exact ⟨c, s, hcs, isInk_of_isDigit hc⟩
  | has asked => exact ⟨_, _, text_has asked, rfl⟩
  | compare asked comparison value => exact ⟨_, _, text_compare asked comparison value, rfl⟩
  | and left right ihl _ =>
      rw [text_and]
      by_cases h : left.isOr = true
      · rw [operand_of_or h]
        exact ⟨_, _, rfl, rfl⟩
      · rw [operand_of_not_or (by simpa using h)]
        obtain ⟨c, s, hcs, hc⟩ := ihl
        exact ⟨c, _, by rw [hcs]; rfl, hc⟩
  | or left right ihl _ =>
      obtain ⟨c, s, hcs, hc⟩ := ihl
      exact ⟨c, _, by rw [text_or, hcs]; rfl, hc⟩

theorem between_text (p : Predicate) (t : List Char) :
    grammar.between .spaced (p.text ++ t) = p.text ++ t := by
  obtain ⟨c, s, hcs, hc⟩ := p.text_head
  rw [hcs]
  exact between_ink hc _

theorem between_operand (p : Predicate) (t : List Char) :
    grammar.between .spaced (p.operand ++ t) = p.operand ++ t := by
  by_cases h : p.isOr = true
  · rw [operand_of_or h]
    exact between_ink rfl _
  · rw [operand_of_not_or (by simpa using h)]
    exact p.between_text t

end Predicate

/-! ## Operands -/

/-- The predicate is matched as one operand of `and`, and read back. -/
def AtomMatches (p : Predicate) : Prop :=
  ∀ t, AfterAtom t → ∃ inner,
    grammar.matchExpr (.rule .atom) .spaced (p.operand ++ t) =
        some (t, .cons .atom (p.operand ++ t) t inner .nil) ∧
      ∀ total atom, readAtom total atom inner = .ok p

theorem matchExpr_position_none {c : Char} (hc : c.isDigit = false) (s : List Char) :
    grammar.matchExpr (.rule .position) .spaced (c :: s) = none := by
  refine matchExpr_token_none rfl (Grammar.matchExpr_both_none ?_)
  rw [matchExpr_char, hc]
  rfl

section Alternatives

variable {s : List Char} {f : Forest Rule}

theorem atom_position (h : grammar.matchExpr (.rule .position) .spaced s = some (t, f)) :
    grammar.matchExpr (.rule .atom) .spaced s = some (t, .cons .atom s t f .nil) :=
  matchExpr_rule rfl (Grammar.matchExpr_left h)

theorem atom_comparison {c : Char} (hc : c.isDigit = false)
    (h : grammar.matchExpr (.rule .comparison) .spaced (c :: s) = some (t, f)) :
    grammar.matchExpr (.rule .atom) .spaced (c :: s) =
      some (t, .cons .atom (c :: s) t f .nil) := by
  refine matchExpr_rule rfl ?_
  exact (Grammar.matchExpr_right (matchExpr_position_none hc s)).trans (Grammar.matchExpr_left h)

theorem atom_attributeTest {c : Char} (hc : c.isDigit = false)
    (hcomparison : grammar.matchExpr (.rule .comparison) .spaced (c :: s) = none)
    (h : grammar.matchExpr (.rule .attributeTest) .spaced (c :: s) = some (t, f)) :
    grammar.matchExpr (.rule .atom) .spaced (c :: s) =
      some (t, .cons .atom (c :: s) t f .nil) := by
  refine matchExpr_rule rfl ?_
  exact (Grammar.matchExpr_right (matchExpr_position_none hc s)).trans
    ((Grammar.matchExpr_right hcomparison).trans (Grammar.matchExpr_left h))

end Alternatives

theorem atomMatches_position {n : Nat} (h : (Predicate.position n).IsReadable) :
    AtomMatches (.position n) := by
  intro t ht
  refine ⟨_, atom_position (match_position n ht.noDigit), fun total atom => ?_⟩
  have hmax : ¬ Value.maxNat < n := Nat.not_lt.2 h.2
  have hzero : n ≠ 0 := Nat.pos_iff_ne_zero.1 h.1
  simp only [readAtom, readPosition, Forest.taken_append, numberOf_toString, if_neg hmax,
    if_neg hzero]

theorem readAttribute_word (total : Nat) (asked : Attribute) (t : List Char) :
    readAttribute total (asked.word.toList ++ t) t = .ok asked := by
  rw [readAttribute, wordOf, Forest.taken_append, String.ofList_toList]
  cases asked <;> rfl

theorem between_word (asked : Attribute) (t : List Char) :
    grammar.between .spaced (asked.word.toList ++ t) = asked.word.toList ++ t := by
  cases asked <;> exact between_ink rfl _

theorem matchExpr_asked (asked : Attribute) {t u : List Char} {b : Expr Rule} {f : Forest Rule}
    (ht : StopsName t)
    (hb : grammar.matchExpr b .spaced (grammar.between .spaced t) = some (u, f)) :
    grammar.matchExpr (.both (.text ['@']) (.both (.rule .attributeName) b)) .spaced
        ('@' :: (asked.word.toList ++ t)) =
      some (u, .cons .attributeName (asked.word.toList ++ t) t .nil .nil ++ f) := by
  refine Grammar.matchExpr_both (f := .nil) (matchExpr_sign '@' _) ?_
  rw [between_word]
  exact Grammar.matchExpr_both (match_attributeName asked ht) hb

theorem atomMatches_has (asked : Attribute) : AtomMatches (.has asked) := by
  intro t ht
  have htext : (Predicate.has asked).operand ++ t = '@' :: (asked.word.toList ++ t) := by
    rw [Predicate.operand_of_not_or rfl, Predicate.text_has]
    rfl
  -- The match of a comparison breaks off behind the name.
  have hcomparison : grammar.matchExpr (.rule .comparison) .spaced
      ('@' :: (asked.word.toList ++ t)) = none := by
    refine matchExpr_rule_none rfl ?_
    refine Grammar.matchExpr_both_none_right (matchExpr_sign '@' _) ?_
    rw [between_word]
    refine Grammar.matchExpr_both_none_right (match_attributeName asked ht.stopsName) ?_
    exact Grammar.matchExpr_both_none ht.noComparator
  have htest : grammar.matchExpr (.rule .attributeTest) .spaced ('@' :: (asked.word.toList ++ t)) =
      some (t, .cons .attributeTest ('@' :: (asked.word.toList ++ t)) t
        (.cons .attributeName (asked.word.toList ++ t) t .nil .nil) .nil) := by
    refine matchExpr_rule rfl ?_
    refine Grammar.matchExpr_both (f := .nil) (matchExpr_sign '@' _) ?_
    rw [between_word]
    exact match_attributeName asked ht.stopsName
  rw [htext]
  refine ⟨_, atom_attributeTest rfl hcomparison htest, fun total atom => ?_⟩
  rw [readAtom, readHas, readAttribute_word]
  rfl

theorem between_symbol (comparison : Comparison) (t : List Char) :
    grammar.between .spaced (comparison.symbol.toList ++ t) = comparison.symbol.toList ++ t := by
  cases comparison <;> exact between_ink rfl _

theorem between_quote (value : String) (t : List Char) :
    grammar.between .spaced ((Predicate.quoteOf value).toList ++ t) =
      (Predicate.quoteOf value).toList ++ t := by
  rw [Predicate.quoteOf]
  split <;> exact between_ink rfl _

theorem stopsName_symbol (comparison : Comparison) (t : List Char) :
    StopsName (comparison.symbol.toList ++ t) := by
  cases comparison <;> intro c hc <;> cases hc <;> rfl

theorem wordOf_symbol (comparison : Comparison) (t : List Char) :
    (if wordOf (comparison.symbol.toList ++ t) t == "!=" then Comparison.notEqual else .equal) =
      comparison := by
  rw [wordOf, Forest.taken_append, String.ofList_toList]
  cases comparison <;> rfl

theorem wordOf_append (w t : List Char) : wordOf (w ++ t) t = String.ofList w := by
  rw [wordOf, Forest.taken_append]

/-- A comparison is read from its attribute, its comparator and its literal. -/
theorem readComparison_eq (total : Nat) (atom : Span) (a b c d lBefore lAfter : List Char)
    (i j inside : Forest Rule) :
    readComparison total atom (.cons .attributeName a b i
      (.cons .comparator c d j (.cons .literal lBefore lAfter inside .nil))) = (do
        let asked ← readAttribute total a b
        if asked == .kind && (Kind.ofName? (insideOf inside)).isNone then
          .error (.unknownKind (insideOf inside), spanOf total lBefore lAfter)
        else .ok (.compare asked (if wordOf c d == "!=" then .notEqual else .equal)
          (insideOf inside))) := by
  rw [readComparison, readParts]
  cases readAttribute total a b <;> rfl

/-- A comparison is read back from its words. -/
theorem readComparison_words {asked : Attribute} {value : String}
    (hkind : asked = .kind → (Kind.ofName? value).isSome = true) (comparison : Comparison)
    (total : Nat) (atom : Span) (a b q lBefore lAfter : List Char) (r : Rule)
    (i j k m : Forest Rule) :
    readComparison total atom (.cons .attributeName (asked.word.toList ++ a) a i
      (.cons .comparator (comparison.symbol.toList ++ b) b j
        (.cons .literal lBefore lAfter (.cons r (value.toList ++ q) q k m) .nil))) =
      .ok (.compare asked comparison value) := by
  have hfound : (asked == .kind && (Kind.ofName? value).isNone) = false := by
    cases asked with
    | name => rfl
    | kind => rw [Option.isNone_eq_false_iff.2 (hkind rfl)]; rfl
  have hword : wordOf (value.toList ++ q) q = value := by
    rw [wordOf_append, String.ofList_toList]
  rw [readComparison_eq, readAttribute_word, wordOf_symbol, insideOf, hword]
  show (if (asked == .kind && (Kind.ofName? value).isNone) = true then _ else _) = _
  rw [hfound]
  rfl

theorem atomMatches_compare {asked : Attribute} {comparison : Comparison} {value : String}
    (h : (Predicate.compare asked comparison value).IsReadable) :
    AtomMatches (.compare asked comparison value) := by
  intro t _
  obtain ⟨hquotes, hkind⟩ := h
  obtain ⟨r, hliteral⟩ := match_literal hquotes t
  generalize hq : (Predicate.quoteOf value).toList = q at hliteral
  have hbetween : grammar.between .spaced (q ++ (value.toList ++ (q ++ t))) =
      q ++ (value.toList ++ (q ++ t)) := hq ▸ between_quote value _
  rw [← hbetween] at hliteral
  obtain ⟨i, hcomparator⟩ := match_comparator comparison (q ++ (value.toList ++ (q ++ t)))
  have hright := Grammar.matchExpr_both hcomparator hliteral
  rw [← between_symbol comparison] at hright
  have hbody := matchExpr_asked asked (stopsName_symbol comparison _) hright
  have htext : (Predicate.compare asked comparison value).operand ++ t =
      '@' :: (asked.word.toList ++ (comparison.symbol.toList ++
        (q ++ (value.toList ++ (q ++ t))))) := by
    rw [Predicate.operand_of_not_or rfl, Predicate.text_compare, hq]
    simp only [List.cons_append, List.append_assoc]
  rw [htext]
  refine ⟨_, atom_comparison rfl (matchExpr_rule rfl hbody), fun total atom => ?_⟩
  rw [between_symbol, Forest.cons_append, Forest.cons_append, Forest.nil_append, Forest.nil_append,
    readAtom]
  exact readComparison_words hkind comparison total atom _ _ _ _ _ r _ _ _ _

end FeatureTree.Traversal
