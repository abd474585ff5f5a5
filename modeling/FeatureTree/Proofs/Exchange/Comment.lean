import FeatureTree.Proofs.Exchange.Balanced
import FeatureTree.Proofs.Language.Trivia

/-!
# A comment for a blank

The pieces of interest are a blank and a block comment. Between the parts of a declaration both
are dropped, and in balanced text both are pieces. What else a grammar needs for an exchange of
the two is that it reads names, signs and literals as the languages do (`Commented`).
-/

namespace FeatureTree

/-- A block comment stands for a blank. -/
structure Exchange.IsComment (x : Exchange) : Prop where
  old : ∃ c, Text.isBlank c = true ∧ x.old = [c]
  new : Text.blockComment? x.new = some []

namespace Exchange.IsComment

variable {x : Exchange} (hx : x.IsComment)

include hx

theorem source_nil : ∃ c, Text.isBlank c = true ∧ x.source [] = c :: x.behind := by
  obtain ⟨c, hc, hold⟩ := hx.old
  exact ⟨c, hc, by rw [source, hold]; rfl⟩

theorem target_nil :
    ∃ s, x.target [] = '/' :: '*' :: s ∧ Text.afterClose? s = some x.behind := by
  obtain ⟨s, hnew, hclose⟩ := Text.blockComment?_eq_some hx.new
  exact ⟨s ++ x.behind, by rw [target, hnew]; rfl, Text.afterClose?_append x.behind hclose⟩

/-- Either piece is dropped between the parts of a declaration. -/
theorem drops {t : Trivia} (hblank : ∀ c s, Text.isBlank c = true → t.blank (c :: s) = some s)
    (hslash : ∀ s, t.blank ('/' :: s) = none)
    (hcomment : ∀ s u, Lexical.comment s = some u → t.comment s = some u) : x.Drops t where
  source := by
    obtain ⟨c, hc, hs⟩ := hx.source_nil
    rw [hs, Trivia.piece?, hblank c x.behind hc]
  target := by
    obtain ⟨s, hs, hclose⟩ := hx.target_nil
    have hblock : Lexical.comment ('/' :: '*' :: s) = some x.behind := hclose
    rw [hs, Trivia.piece?, hslash, hcomment _ _ hblock]

end Exchange.IsComment

namespace Grammar

variable {R : Type} {g : Grammar R} {a : Expr R} {s t : List Char} {c : Char}

theorem leaves_butNot (a : Expr R) (c : Char) (s : List Char) :
    g.leaves (.butNot a) (c :: s) =
      if (g.leaves a (c :: s)).isSome = true then none else some s := by
  rw [Expr.butNot, leaves_both, leaves_notAhead]
  split
  · rfl
  · rfl

/-- A block comment of balanced text reaches to the next close. -/
theorem leaves_commentText (hg : g.Ranked) (h : Text.afterClose? s = some t) :
    g.leaves Lexical.commentText ('/' :: '*' :: s) = some t := by
  have hrest : g.leaves (.both (.star (.butNot "*/")) "*/") s = some t := by
    induction s using Text.afterClose?.induct with
    | case1 => cases h
    | case2 s =>
        cases h
        have hclose : g.leaves (.butNot "*/") ('*' :: '/' :: t) = none := by
          rw [leaves_butNot, leaves_text]
          rfl
        rw [leaves_both, leaves_star_of_none hg rfl hclose, Option.bind_some, leaves_text]
        rfl
    | case3 c s hc ih =>
        rw [Text.afterClose?] at h
        · have hopen : g.leaves (.butNot "*/") (c :: s) = some s := by
            rw [leaves_butNot, leaves_text, if_neg]
            intro hsome
            obtain ⟨u, hu⟩ := Option.isSome_iff_exists.1 hsome
            obtain ⟨rfl, rfl⟩ := List.cons.inj (Text.after?_eq_some_iff.1 hu)
            exact hc u rfl rfl
          rw [leaves_both, leaves_star_of_some hg rfl hopen, ← leaves_both]
          exact ih h
        · exact hc
  have hslashes : g.leaves (.seq ["//", .star (.butNot .newline)]) ('/' :: '*' :: s) = none := by
    rw [Expr.seq, leaves_both, leaves_text]
    rfl
  have hopen : Text.after? "/*".toList ('/' :: '*' :: s) = some s := rfl
  rw [Lexical.commentText, leaves_choice, List.findSome?_cons, hslashes, List.findSome?_singleton,
    Expr.seq, leaves_both, leaves_text, hopen]
  exact hrest

end Grammar

/-- The blanks. -/
def Text.blanks : List Char := [' ', '\t', '\r', '\n', '\ufeff']

theorem Text.isBlank_iff {c : Char} : isBlank c = true ↔ c ∈ blanks := by
  simp [isBlank, blanks, or_assoc]

/-- Characters that are read one by one: those of words, and signs. -/
def isSingle (isWordChar : Char → Bool) (signs : List Char) (c : Char) : Bool :=
  isWordChar c || signs.contains c

namespace SnippetGrammar

open Grammar

variable {R : Type} {g : SnippetGrammar R} {x : Exchange} {isWordChar : Char → Bool}
  {signs : List Char} {group : Bracket → R} {piece : R} {literals : List R} {c : Char}
  {s t : List Char}

/-- A grammar that reads names, signs, literals and comments as the languages do. -/
structure Commented (g : SnippetGrammar R) (isWordChar : Char → Bool) (signs : List Char)
    (group : Bracket → R) (piece : R) (literals : List R) : Prop
    extends g.Balances group piece literals where
  blank : ∀ {c} s, Text.isBlank c = true → g.trivia.blank (c :: s) = some s
  blank_slash : ∀ s, g.trivia.blank ('/' :: s) = none
  comment : ∀ {s t}, Lexical.comment s = some t → g.trivia.comment s = some t
  not_single : ∀ c ∈ '/' :: Text.blanks, isSingle isWordChar signs c = false
  signs_begin : ∀ c ∈ signs ++ Text.blanks, ∀ r ∈ literals, g.firsts 1 r c = false
  blanks_plain : ∀ c ∈ Text.blanks, isPlain c = true
  brackets : ∀ b ∈ Bracket.all, b.opener ∈ signs ∧ b.closer ∈ signs
  slash : ∃ front r, literals = front ++ [r] ∧ (∀ r ∈ front, g.firsts 1 r '/' = false) ∧
    g.layout r = .token ∧ g.body r = Lexical.commentText

namespace Commented

variable (hg : g.Commented isWordChar signs group piece literals)

include hg

theorem firstLiteral_slash (h : Text.afterClose? s = some t) :
    g.firstLiteral? literals ('/' :: '*' :: s) = some t := by
  obtain ⟨front, r, hliterals, hfront, hlayout, hbody⟩ := hg.slash
  have hnone : (front.findSome? fun r => g.leaves (.rule r) ('/' :: '*' :: s)) = none :=
    firstLiteral_none hg.ranked hfront
  rw [firstLiteral?, hliterals, List.findSome?_append, hnone, Option.none_or,
    List.findSome?_singleton, leaves_rule hg.ranked hlayout, hbody, leaves_commentText hg.ranked h]

/-- A blank and a comment may be exchanged wherever literals and comments are read alike. -/
theorem exchangesGroups (hx : x.IsComment)
    (hclosed : x.Closed (g.firstLiteral? literals) g.trivia isWordChar) :
    g.ExchangesGroups x (isSingle isWordChar signs) isWordChar group piece literals where
  toBalances := hg.toBalances
  toClosed := hclosed
  old_ne := by
    obtain ⟨c, -, hold⟩ := hx.old
    rw [hold]
    exact List.cons_ne_nil c []
  skip := Exchange.Rest.skip hg.ranked.lawful hclosed.piece
    (hx.drops (fun _ => hg.blank) hg.blank_slash fun _ _ => hg.comment)
  next := by
    intro c y hy hc
    refine hclosed.char hy ?_
    rcases Bool.or_eq_true_iff.1 hc with hword | hsign
    · exact .inr hword
    · refine .inl (firstLiteral_none hg.ranked (hg.signs_begin c ?_))
      exact List.mem_append_left _ (List.contains_iff_mem.1 hsign)
  source_head := by
    obtain ⟨c, hc, hs⟩ := hx.source_nil
    rw [hs]
    rintro _ ⟨⟩
    exact hg.not_single c (List.mem_cons_of_mem _ (Text.isBlank_iff.1 hc))
  target_head := by
    obtain ⟨s, hs, -⟩ := hx.target_nil
    rw [hs]
    rintro _ ⟨⟩
    exact hg.not_single '/' List.mem_cons_self
  source_piece := by
    obtain ⟨c, hc, hs⟩ := hx.source_nil
    have hblank := Text.isBlank_iff.1 hc
    have hplain := hg.blanks_plain c hblank
    have hopener : Bracket.ofOpener? c = none := by
      rw [isPlain, Bool.and_eq_true, Bool.and_eq_true] at hplain
      exact Option.isNone_iff_eq_none.1 hplain.1.1
    rw [hs, hg.toBalances.leaves_piece_of_none hopener, firstLiteral_none hg.ranked
      (hg.signs_begin c (List.mem_append_right _ hblank)), if_pos hplain]
    rfl
  target_piece := by
    obtain ⟨s, hs, hclose⟩ := hx.target_nil
    rw [hs, hg.toBalances.leaves_piece_of_none (by decide), hg.firstLiteral_slash hclose]
    rfl
  bracket b := by
    obtain ⟨hopener, hcloser⟩ := hg.brackets b b.mem_all
    simp [isSingle, hopener, hcloser]

end Commented

end SnippetGrammar

end FeatureTree
