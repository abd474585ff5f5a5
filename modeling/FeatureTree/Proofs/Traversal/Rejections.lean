import FeatureTree.Proofs.Grammar.Failure
import FeatureTree.Proofs.Traversal.Derived

/-!
# Rejected expressions

An expression is rejected in one of two ways. Either it is not matched, and the rejection
points at the furthest place that a rule came to. Or it is matched; then its words are
written as the grammar says (`reads_of_parse`), and the rejection points at the first word
with a fault (`FirstFault`). The readers are prepared for matches that the grammar never
makes (`Fault.isGuard`), and no rejection comes from there, because no word has such a fault.
-/

namespace FeatureTree.Traversal

/-- The faults of matches that the grammar does not make. -/
def Fault.isGuard : Fault → Bool
  | .emptyExpression | .emptyStep | .unknownAxis _ | .emptyPredicate | .incompleteComparison
  | .missingAttribute | .unsupportedPredicate => true
  | .mismatch _ | .unknownKind _ | .unknownAttribute _ | .positionZero | .positionTooLarge => false

/-- The fault of the first word of an expression that has one, and the span of the token
of that word. -/
inductive FirstFault (text : List Char) (ws : List Word) : Fault → Span → Prop
  | intro {front back : List Word} {word : Word} {fault : Fault}
      {before piece after : List Char} (hws : ws = front ++ word :: back)
      (hfront : AllMeant front) (hfault : word.fault? = some fault)
      (htext : text = before ++ piece ++ after)
      (hbefore : Lexes text (tokensOf front) (piece ++ after))
      (hpiece : word.token.Spells piece) (hlongest : Longest piece after)
      (hafter : Lexes after (tokensOf back) []) :
      FirstFault text ws fault ⟨Text.byteLength before, Text.byteLength (before ++ piece)⟩

variable {text s t u : List Char} {ts : List Token} {ws : List Word} {fault : Fault} {span : Span}

theorem Word.isGuard_of_fault? {word : Word} (h : word.fault? = some fault) :
    fault.isGuard = false := by
  unfold fault? at h
  split at h
  · cases h
  · split at h
    · cases h
    · cases h
      rfl
  · split at h
    · cases h
    · cases h
      rfl
  · split at h
    · cases h
      rfl
    · split at h
      · cases h
        rfl
      · cases h
  · split at h
    · cases h
      rfl
    · cases h

theorem Lexes.suffix (h : Lexes s ts t) : t <:+ s := by
  induction h with
  | nil s => exact List.suffix_refl s
  | blank _ _ ih => exact ih.trans (List.suffix_cons _ _)
  | token _ _ _ ih => exact ih.trans (List.suffix_append _ _)

/-- A reader of a whole text that rejects it rejects its first word with a fault. -/
theorem Answers.firstFault {α : Type} {v : Option α}
    (h : Answers text [] ws v (Text.byteLength text) (.error (fault, span))) :
    FirstFault text ws fault span := by
  cases h with
  | @error front back word _ piece after hv hws hfront hfault hbefore hpiece hlongest hafter =>
      obtain ⟨before, rfl⟩ := hbefore.suffix
      have hspan : spanOf (Text.byteLength (before ++ (piece ++ after))) (piece ++ after) after =
          ⟨Text.byteLength before, Text.byteLength (before ++ piece)⟩ := by
        simp only [spanOf, Text.byteLength_append, Span.mk.injEq]
        omega
      rw [hspan]
      exact .intro hws hfront hfault (List.append_assoc _ _ _).symm hbefore hpiece hlongest hafter

theorem FirstFault.liesIn (h : FirstFault text ws fault span) : span.LiesIn text := by
  cases h with
  | @intro front back word _ before piece after _ _ _ htext _ _ _ _ =>
      have hpiece : piece ++ after <:+ text := ⟨before, by rw [htext, List.append_assoc]⟩
      have hspan := Span.liesIn_of_suffix hpiece (List.suffix_append piece after)
      rwa [htext, Text.offset_append, List.append_assoc, Text.offset_append,
        ← List.append_assoc, ← htext] at hspan

theorem FirstFault.lexes (h : FirstFault text ws fault span) : Lexes text (tokensOf ws) [] := by
  cases h with
  | intro hws _ _ _ hbefore hpiece hlongest hafter =>
      rw [hws, tokensOf_append]
      exact hbefore.append (.token hpiece hlongest hafter)

theorem FirstFault.isGuard_eq (h : FirstFault text ws fault span) : fault.isGuard = false := by
  cases h with
  | intro _ _ hfault => exact Word.isGuard_of_fault? hfault

/-- An expression that is rejected is not matched, or its words are written as the grammar
says and one of them has a fault. -/
theorem read_eq_error (h : read s = .error (fault, span)) :
    (∃ report, fault = .mismatch report ∧ span.LiesIn s) ∨
      ∃ ws v, Plan.Written ws v ∧ FirstFault s ws fault span := by
  rw [read] at h
  split at h
  · next t f hparse =>
      obtain ⟨ws, v, hws, hreads⟩ := reads_of_parse hparse
      have hanswer := hreads.answers (Text.byteLength s)
      rw [h] at hanswer
      exact .inr ⟨ws, v, hws, hanswer.firstFault⟩
  · cases h
    obtain ⟨rest, hrest, hoffset⟩ := Grammar.mismatch_offset ranked Rule.label .expression s
    have hspan := Span.liesIn_of_suffix hrest (List.suffix_refl rest)
    rw [← hoffset] at hspan
    exact .inl ⟨_, rfl, hspan⟩

namespace Plan

theorem ofString_eq_ok {expression : String} {plan : Plan} (h : read expression.toList = .ok plan) :
    ofString expression = .ok plan := by
  rw [ofString, h]

theorem ofString_eq_error {expression : String}
    (h : read expression.toList = .error (fault, span)) :
    ofString expression = .error (.traversal ⟨"<traversal>", expression⟩ fault span) := by
  rw [ofString, h]
  rfl

/-- All rejections are of one kind, point between two characters of the expression, and come
from no guard. If the words of an expression are written as the grammar says, then nothing
is wrong with any of them and the expression is accepted, or the rejection is about the
first word with a fault, and points at its token. -/
theorem ofString_rejections (expression : String) :
    (∀ rejection, ofString expression = .error rejection → ∃ fault span,
      rejection = .traversal ⟨"<traversal>", expression⟩ fault span ∧
        span.LiesIn expression.toList ∧ fault.isGuard = false) ∧
    ∀ ws v, Written ws v → Lexes expression.toList (tokensOf ws) [] →
      (AllMeant ws ∧ ∃ plan, v = some plan ∧ ofString expression = .ok plan) ∨
        ∃ fault span, FirstFault expression.toList ws fault span ∧
          ofString expression = .error (.traversal ⟨"<traversal>", expression⟩ fault span) := by
  constructor
  · intro rejection h
    rw [ofString] at h
    split at h
    · cases h
    · next fault span hread =>
        cases h
        refine ⟨fault, span, rfl, ?_⟩
        rcases read_eq_error hread with ⟨report, rfl, hspan⟩ | ⟨ws, v, -, hfirst⟩
        · exact ⟨hspan, rfl⟩
        · exact ⟨hfirst.liesIn, hfirst.isGuard_eq⟩
  · intro ws v hws hlexes
    obtain ⟨f, hparse, hreads⟩ := parse_of_written hws hlexes
    have hread : read expression.toList = readPlan (Text.byteLength expression.toList) f := by
      rw [read, hparse]
    have hanswer := hreads.answers (Text.byteLength expression.toList)
    rw [← hread] at hanswer
    cases hresult : read expression.toList with
    | ok plan =>
        rw [hresult] at hanswer
        cases hanswer with
        | ok hmeant hv => exact .inl ⟨hmeant, plan, hv, ofString_eq_ok hresult⟩
    | error e =>
        obtain ⟨fault, span⟩ := e
        rw [hresult] at hanswer
        exact .inr ⟨fault, span, hanswer.firstFault, ofString_eq_error hresult⟩

/-- The attribute is not known, and neither are the position and the kind behind it. -/
theorem ofString_rejections_attribute :
    let expression := "method[(@size or 0)]/widget"
    let rejection := Rejection.traversal ⟨"<traversal>", expression⟩ (.unknownAttribute "size")
      ⟨9, 13⟩
    ofString expression = .error rejection ∧ Span.LiesIn expression.toList ⟨9, 13⟩ ∧
      ∃ ws, FirstFault expression.toList ws (.unknownAttribute "size") ⟨9, 13⟩ := by
  intro expression rejection
  have hread : read expression.toList = .error (.unknownAttribute "size", ⟨9, 13⟩) := by
    have hfault : (match read expression.toList with
      | .ok _ => none
      | .error e => some e) = some (.unknownAttribute "size", ⟨9, 13⟩) := by decide +kernel
    cases hresult : read expression.toList with
    | ok _ => rw [hresult] at hfault; cases hfault
    | error e => rw [hresult] at hfault; rw [Option.some.inj hfault]
  have hresult : ofString expression = .error rejection := ofString_eq_error hread
  obtain ⟨hall, hwritten⟩ := ofString_rejections expression
  obtain ⟨fault, span, hsame, hspan, -⟩ := hall rejection hresult
  obtain ⟨-, rfl, rfl⟩ := Rejection.traversal.inj hsame
  refine ⟨hresult, hspan, ?_⟩
  rcases read_eq_error hread with ⟨_, hmismatch, -⟩ | ⟨ws, v, hws, hfirst⟩
  · cases hmismatch
  rcases hwritten ws v hws hfirst.lexes with ⟨-, plan, -, hok⟩ | ⟨fault, span, hfirst, heq⟩
  · cases hok.symm.trans hresult
  · obtain ⟨-, rfl, rfl⟩ := Rejection.traversal.inj (Except.error.inj (heq.symm.trans hresult))
    exact ⟨ws, hfirst⟩

end Plan

end FeatureTree.Traversal
