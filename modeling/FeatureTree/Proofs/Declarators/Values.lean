import FeatureTree.Proofs.Exchange.Initializers
import FeatureTree.Proofs.Grammar.Spelled

/-!
# The text of an initializer

An initializer is taken piece by piece: a group between brackets as a whole, other characters
one by one. In front of each piece the boundary is asked whether the next declarator begins
there, and it says so at a comma only. So a text with balanced brackets and without commas and
semicolons outside of them is passed over, whatever follows it (`leaves_pieces`), and the
initializer ends at the first end behind the text (`isInitializer`).

Pieces could be literals too, so one must not begin in the text. Without quotes and slashes in it
that takes a prefix at its end and a quote behind that, or the rest of a prefix (`IsCalm`).
-/

namespace FeatureTree

open scoped Tokens

/-- Text in which each bracket is closed by its counterpart. Unless it stands inside of brackets,
there are commas and semicolons in brackets only. -/
inductive Balanced : Bool → List Char → Prop
  | nil {inside : Bool} : Balanced inside []
  | char {inside : Bool} {c : Char} {w : List Char} (hc : isPlain c = true)
      (hfree : inside = true ∨ c ∉ [',', ';']) (hw : Balanced inside w) : Balanced inside (c :: w)
  | group {inside : Bool} {v w : List Char} (b : Bracket) (hv : Balanced true v)
      (hw : Balanced inside w) : Balanced inside (b.opener :: (v ++ b.closer :: w))

namespace Balanced

variable {inside : Bool} {v w : List Char}

theorem append (hv : Balanced inside v) (hw : Balanced inside w) : Balanced inside (v ++ w) := by
  induction hv with
  | nil => exact hw
  | char hc hfree _ ih => exact .char hc hfree (ih hw)
  | group b hv _ _ ih =>
      rw [List.cons_append, List.append_assoc]
      exact .group b hv (ih hw)

theorem of_plain (h : ∀ c ∈ w, isPlain c = true ∧ (inside = true ∨ c ∉ [',', ';'])) :
    Balanced inside w := by
  induction w with
  | nil => exact .nil
  | cons c w ih =>
      obtain ⟨⟨hplain, hfree⟩, hw⟩ := List.forall_mem_cons.1 h
      exact .char hplain hfree (ih hw)

end Balanced

/-- Characters of a class are plain if neither brackets nor quotes are in the class. -/
theorem isPlain_of_class (p : Char → Bool) {c : Char}
    (h : ∀ d ∈ ['(', ')', '[', ']', '\x7b', '\x7d', '"', '\''], p d = false) (hc : p c = true) :
    isPlain c = true := by
  have hnot := Grammar.not_mem_of_class p h hc
  simp only [List.mem_cons, List.not_mem_nil, or_false, not_or] at hnot
  have hopener : Bracket.ofOpener? c = none := by
    refine List.find?_eq_none.2 fun b _ => ?_
    cases b <;> simp [Bracket.opener, hnot]
  have hcloser : Bracket.ofCloser? c = none := by
    refine List.find?_eq_none.2 fun b _ => ?_
    cases b <;> simp [Bracket.closer, hnot]
  simp [isPlain, isQuote, hopener, hcloser, hnot]

/-- No quote and no slash is in the text. -/
def IsClear (w : List Char) : Prop := ∀ c ∈ w, c ∉ ['"', '\'', '/']

/-- In front of a text that begins so no prefix of a literal goes on, nor the literal. -/
def IsCalm (s : List Char) : Prop := ∀ c ∈ s.head?, c ∉ ['"', '\'', '8', '$', '@']

theorem isCalm_closer (b : Bracket) (s : List Char) : IsCalm (b.closer :: s) := by
  rintro _ ⟨⟩
  cases b <;> decide

/-- The text of an initializer: there are no quotes, slashes, number signs and backslashes in it,
no blanks around it, and no commas and semicolons outside of brackets. -/
structure IsValue (v : List Char) : Prop where
  balanced : Balanced false v
  clear : ∀ c ∈ v, c ∉ ['"', '\'', '/', '#', '\\']
  ne_nil : v ≠ []
  head : ∀ c ∈ v.head?, Text.isBlank c = false
  last : ∀ c ∈ v.getLast?, Text.isBlank c = false

/-- The text of an initializer, with the proof that it is one. -/
abbrev InitialValue := { v : List Char // IsValue v }

theorem IsValue.isToken {v : List Char} (hv : IsValue v) : Grammar.IsToken v := by
  obtain ⟨c, w, rfl⟩ := List.exists_cons_of_ne_nil hv.ne_nil
  refine ⟨c, w, rfl, hv.head c rfl, fun hmem => ?_⟩
  exact hv.clear c List.mem_cons_self (List.mem_append_right ['"', '\''] hmem)

theorem IsValue.isClear {v : List Char} (hv : IsValue v) : IsClear v :=
  fun c hc hmem => hv.clear c hc (List.mem_append_left ['#', '\\'] hmem)

namespace SnippetGrammar

open Grammar

variable {R : Type} {g : SnippetGrammar R} {group : Bracket → R} {piece boundary initPiece : R}
  {literals : List R} {inside : Bool} {e : Expr R} {c : Char} {s t v w gap : List Char}

/-- The signs that no literal and no comment begins with. -/
def quietSigns : List Char := Text.spaces ++ [',', '=', '*', ')', ']', '\x7d']

/-- The initializers of a grammar: pieces of balanced text up to a semicolon or a comma in front
of another declarator. -/
structure ReadsValues (g : SnippetGrammar R) (group : Bracket → R) (piece : R) (literals : List R)
    (boundary initPiece : R) : Prop extends g.Balances group piece literals where
  literal : ∀ {w s}, w ≠ [] → IsClear w → IsCalm s → g.firstLiteral? literals (w ++ s) = none
  signs_begin : ∀ r ∈ literals, ∀ c ∈ quietSigns, g.firsts 1 r c = false
  boundary_begins : ∀ {c} s, c ≠ ',' → g.leaves (.rule boundary) (c :: s) = none
  layout_initPiece : g.layout initPiece = .token
  body_initPiece : g.body initPiece = g.body piece
  consumes_initPiece : g.consuming initPiece = true

/-- An initializer goes on over the text and ends where it does from behind that, and the text is
trimmed already. -/
structure IsInitializer (g : SnippetGrammar R) (boundary initPiece : R) (v : List Char) : Prop where
  isToken : IsToken v
  clear : ∀ c ∈ v, c ∉ ['/', '#', '\\']
  last : ∀ c ∈ v.getLast?, Text.isBlank c = false
  leaves : ∀ s, IsCalm s → g.leaves (.star (initializerRound boundary initPiece)) (v ++ s) =
    g.leaves (.star (initializerRound boundary initPiece)) s

/-- Where a repetition takes something, at least one round is taken. -/
theorem leaves_plus_of_star (hg : g.Ranked) (he : e.consumes g.consuming = true)
    (h : g.leaves (.star e) s = some t) (hne : t ≠ s) : g.leaves (.plus e) s = some t := by
  rw [Expr.plus, leaves_both]
  cases hs : g.leaves e s with
  | none =>
      rw [leaves_star_of_none hg he hs] at h
      exact absurd (Option.some.inj h).symm hne
  | some u =>
      rw [leaves_star_of_some hg he hs] at h
      rw [Option.bind_some, h]

namespace ReadsValues

variable (hr : g.ReadsValues group piece literals boundary initPiece)

include hr

theorem consumes_round : (initializerRound boundary initPiece).consumes g.consuming = true := by
  rw [initializerRound, Expr.seq, Expr.consumes]
  exact Bool.or_eq_true_iff.2 (.inr hr.consumes_initPiece)

theorem leaves_initPiece (s : List Char) :
    g.leaves (.rule initPiece) s = g.leaves (.rule piece) s := by
  rw [leaves_rule hr.ranked hr.layout_initPiece, hr.body_initPiece,
    ← leaves_rule hr.ranked hr.layout_piece]

/-- An initializer does not end at other characters than commas and semicolons. -/
theorem leaves_round (hc : c ∉ [',', ';']) (s : List Char) :
    g.leaves (initializerRound boundary initPiece) (c :: s) = g.leaves (.rule piece) (c :: s) := by
  have hsigns : c ≠ ',' ∧ c ≠ ';' := by simpa using hc
  rw [leaves_round_of_not_atEnd, hr.leaves_initPiece]
  rintro (⟨u, hu⟩ | hboundary)
  · exact hsigns.2 (List.cons.inj hu).1
  · rw [hr.boundary_begins s hsigns.1] at hboundary
    cases hboundary

theorem leaves_piece_sign (hc : c ∈ quietSigns) (s : List Char) :
    g.leaves (.rule piece) (c :: s) = if isPlain c = true then some s else none := by
  have hopener : ∀ c ∈ quietSigns, Bracket.ofOpener? c = none := by decide
  have hliteral : g.firstLiteral? literals (c :: s) = none :=
    firstLiteral_none hr.ranked fun r hr' => hr.signs_begin r hr' c hc
  rw [hr.leaves_piece_of_none (hopener c hc), hliteral, Option.none_or]

theorem leaves_piece_char (hc : isPlain c = true) (hw : IsClear (c :: w)) (hs : IsCalm s) :
    g.leaves (.rule piece) (c :: (w ++ s)) = some (w ++ s) := by
  have hopener : Bracket.ofOpener? c = none := by
    rw [isPlain, Bool.and_eq_true, Bool.and_eq_true] at hc
    exact Option.isNone_iff_eq_none.1 hc.1.1
  have hliteral : g.firstLiteral? literals (c :: (w ++ s)) = none :=
    hr.literal (List.cons_ne_nil c w) hw hs
  rw [hr.leaves_piece_of_none hopener, hliteral, if_pos hc]
  rfl

theorem leaves_piece_closer (b : Bracket) (s : List Char) :
    g.leaves (.rule piece) (b.closer :: s) = none := by
  rw [hr.leaves_piece_sign (by cases b <;> decide)]
  cases b <;> rfl

/-- Pieces are taken up to the end of balanced text. What takes them may be any repetition that
does so in front of what stands in the text. -/
theorem leaves_pieces (hv : Balanced inside v) (hclear : IsClear v) (hs : IsCalm s)
    (he : e.consumes g.consuming = true)
    (hround : ∀ c s, inside = true ∨ c ∉ [',', ';'] →
      g.leaves e (c :: s) = g.leaves (.rule piece) (c :: s)) :
    g.leaves (.star e) (v ++ s) = g.leaves (.star e) s := by
  induction hv generalizing e s with
  | nil => rfl
  | @char inside c w hc hfree _ ih =>
      have hpiece := (hround c (w ++ s) hfree).trans (hr.leaves_piece_char hc hclear hs)
      rw [List.cons_append, leaves_star_of_some hr.ranked he hpiece]
      exact ih (fun d hd => hclear d (List.mem_cons_of_mem c hd)) hs he hround
  | @group inside v w b _ _ ihv ihw =>
      have hinner : g.leaves (.star (.rule piece)) (v ++ b.closer :: (w ++ s)) =
          some (b.closer :: (w ++ s)) := by
        rw [ihv (fun d hd => hclear d (by simp [hd])) (isCalm_closer b _) hr.consumes_piece
          fun _ _ _ => rfl]
        exact leaves_star_of_none hr.ranked hr.consumes_piece (hr.leaves_piece_closer b _)
      have hgroup : g.leaves (.rule piece) (b.opener :: (v ++ b.closer :: (w ++ s))) =
          some (w ++ s) := by
        rw [hr.leaves_piece_opener, hr.leaves_group, hinner]
        exact if_pos rfl
      have hopener : b.opener ∉ [',', ';'] := by cases b <;> decide
      rw [List.cons_append, List.append_assoc, List.cons_append,
        leaves_star_of_some hr.ranked he ((hround _ _ (.inr hopener)).trans hgroup)]
      exact ihw (fun d hd => hclear d (by simp [hd])) hs he hround

/-- The text of an initializer is taken to its end. -/
theorem isInitializer (hv : IsValue v) : g.IsInitializer boundary initPiece v where
  isToken := hv.isToken
  clear c hc hmem := hv.clear c hc (List.mem_append_right ['"', '\''] hmem)
  last := hv.last
  leaves s hs := by
    refine hr.leaves_pieces hv.balanced hv.isClear hs hr.consumes_round ?_
    rintro c s (hinside | hfree)
    · cases hinside
    · exact hr.leaves_round hfree s

end ReadsValues

/-- Trimming takes off the blanks behind an initializer. -/
theorem IsInitializer.trim (hv : g.IsInitializer boundary initPiece v) (hg : g.Spaced)
    (hgap : ∀ c ∈ gap, c ∈ Text.spaces) : g.trivia.trim (v ++ gap) = v :=
  trim_gap hg hv.clear hv.last hgap

end SnippetGrammar

end FeatureTree
