import FeatureTree.Language.C
import FeatureTree.Language.CSharp
import FeatureTree.Language.Java
import FeatureTree.Proofs.Grammar.Trivia

/-!
# Blanks and comments of the languages

The pieces that the languages drop are few: blanks, line and block comments,
directives, and in C the ends of lines that are joined by a backslash. Each of
them is settled here on its own, and the languages combine them.

Joined lines are the reason why a blank at the end of a text may take in more:
a carriage return behind a backslash is followed by the line feed that belongs
to it.
-/

namespace FeatureTree

namespace Text

variable {s s' r : List Char}

/-! ## Blanks -/

theorem blank?_drops : Drops blank? := by
  intro s s' h
  cases s with
  | nil => cases h
  | cons c s =>
      rw [blank?] at h
      split at h
      · cases h
        exact ⟨List.suffix_cons c _, Nat.lt_succ_self _⟩
      · cases h

theorem blank?_append (r : List Char) (h : blank? s = some s') :
    blank? (s ++ r) = some (s' ++ r) := by
  cases s with
  | nil => cases h
  | cons c s =>
      rw [blank?] at h
      split at h
      · next hc =>
          cases h
          rw [List.cons_append, blank?, if_pos hc]
      · cases h

/-- A carriage return ends a line on its own where no line feed is behind it. -/
theorem newline?_eq_some_iff : newline? s = some s' ↔
    s = '\n' :: s' ∨ s = '\r' :: '\n' :: s' ∨ s = '\r' :: s' ∧ s'.head? ≠ some '\n' := by
  constructor
  · intro h
    rw [newline?.eq_def] at h
    split at h <;> cases h
    · exact .inl rfl
    · exact .inr (.inl rfl)
    · next hline =>
        refine .inr (.inr ⟨rfl, fun hhead => ?_⟩)
        obtain ⟨u, rfl⟩ := List.head?_eq_some_iff.1 hhead
        exact hline u rfl
  · rintro (rfl | rfl | ⟨rfl, hhead⟩)
    · rfl
    · rfl
    · rw [newline?.eq_def]
      split
      · next heq => cases heq
      · next heq =>
          cases heq
          exact absurd rfl hhead
      · next heq => cases heq; rfl
      · next hreturn => exact absurd rfl (hreturn _)

theorem newline?_drops : Drops newline? := by
  intro s s' h
  obtain rfl | rfl | ⟨rfl, -⟩ := newline?_eq_some_iff.1 h
  · exact ⟨List.suffix_cons _ _, Nat.lt_succ_self _⟩
  · refine ⟨(List.suffix_cons _ _).trans (List.suffix_cons _ _), ?_⟩
    simp only [List.length_cons]
    omega
  · exact ⟨List.suffix_cons _ _, Nat.lt_succ_self _⟩

theorem newline?_append (r : List Char) (h : newline? s = some s') (hs' : s' ≠ []) :
    newline? (s ++ r) = some (s' ++ r) := by
  obtain rfl | rfl | ⟨rfl, hhead⟩ := newline?_eq_some_iff.1 h
  · rfl
  · rfl
  · -- What follows the carriage return is there and is no line feed.
    obtain ⟨c, u, rfl⟩ := List.exists_cons_of_ne_nil hs'
    exact newline?_eq_some_iff.2 (.inr (.inr ⟨rfl, hhead⟩))

/-- An end of line at the end of a text may take in a line feed. -/
theorem newline?_last (r : List Char) (h : newline? s = some []) :
    ∃ r', newline? (s ++ r) = some r' ∧ (r' = r ∨ blank? r = some r') := by
  obtain rfl | rfl | ⟨rfl, -⟩ := newline?_eq_some_iff.1 h
  · exact ⟨r, rfl, .inl rfl⟩
  · exact ⟨r, rfl, .inl rfl⟩
  · by_cases hhead : r.head? = some '\n'
    · obtain ⟨u, rfl⟩ := List.head?_eq_some_iff.1 hhead
      exact ⟨u, rfl, .inr rfl⟩
    · exact ⟨r, newline?_eq_some_iff.2 (.inr (.inr ⟨rfl, hhead⟩)), .inl rfl⟩

theorem newline?_isSome (c : Char) (s : List Char) :
    (newline? (c :: s)).isSome = (c == '\n' || c == '\r') := by
  rw [newline?.eq_def]
  split
  · next heq => cases heq; rfl
  · next heq => cases heq; rfl
  · next heq => cases heq; rfl
  · next hfeed _ hreturn =>
      have hn : c ≠ '\n' := fun h => hfeed s (by rw [h])
      have hr : c ≠ '\r' := fun h => hreturn s (by rw [h])
      simp [hn, hr]

/-! ## Line comments, block comments and directives -/

theorem dropLine_suffix (s : List Char) : dropLine s <:+ s := List.dropWhile_suffix _

/-- The rest of a line ends where it does, or it goes on. -/
theorem dropLine_append (s r : List Char) :
    dropLine (s ++ r) = if dropLine s = [] then dropLine r else dropLine s ++ r := by
  rw [dropLine, dropLine, dropLine, List.dropWhile_append]
  simp only [List.isEmpty_iff]

theorem afterClose?_suffix (h : afterClose? s = some s') : s' <:+ s := by
  induction s using afterClose?.induct with
  | case1 => cases h
  | case2 s =>
      cases h
      exact (List.suffix_cons _ _).trans (List.suffix_cons _ _)
  | case3 c s hc ih =>
      rw [afterClose?] at h
      · exact (ih h).trans (List.suffix_cons c s)
      · exact hc

theorem afterClose?_append (r : List Char) (h : afterClose? s = some s') :
    afterClose? (s ++ r) = some (s' ++ r) := by
  induction s using afterClose?.induct with
  | case1 => cases h
  | case2 s => cases h; rfl
  | case3 c s hc ih =>
      rw [afterClose?] at h
      · cases s with
        | nil => cases h
        | cons d s =>
            rw [List.cons_append, List.cons_append, afterClose?]
            · exact ih h
            · rintro s₁ rfl heq
              cases heq
              exact hc _ rfl rfl
      · exact hc

theorem lineComment?_eq_some (h : lineComment? s = some s') :
    ∃ u, s = '/' :: '/' :: u ∧ s' = dropLine u := by
  rw [lineComment?.eq_def] at h
  split at h
  · next u => cases h; exact ⟨u, rfl, rfl⟩
  · cases h

theorem blockComment?_eq_some (h : blockComment? s = some s') :
    ∃ u, s = '/' :: '*' :: u ∧ afterClose? u = some s' := by
  rw [blockComment?.eq_def] at h
  split at h
  · next u => exact ⟨u, rfl, h⟩
  · cases h

theorem directive?_eq_some (h : directive? s = some s') :
    ∃ u, s = '#' :: u ∧ s' = dropLine u := by
  rw [directive?.eq_def] at h
  split at h
  · next u => cases h; exact ⟨u, rfl, rfl⟩
  · cases h

theorem lineComment?_drops : Drops lineComment? := by
  intro s s' h
  obtain ⟨u, rfl, rfl⟩ := lineComment?_eq_some h
  have hu := dropLine_suffix u
  refine ⟨hu.trans ((List.suffix_cons _ u).trans (List.suffix_cons _ _)), ?_⟩
  have := hu.length_le
  simp only [List.length_cons]
  omega

theorem blockComment?_drops : Drops blockComment? := by
  intro s s' h
  obtain ⟨u, rfl, hu⟩ := blockComment?_eq_some h
  have hu := afterClose?_suffix hu
  refine ⟨hu.trans ((List.suffix_cons _ u).trans (List.suffix_cons _ _)), ?_⟩
  have := hu.length_le
  simp only [List.length_cons]
  omega

theorem directive?_drops : Drops directive? := by
  intro s s' h
  obtain ⟨u, rfl, rfl⟩ := directive?_eq_some h
  have hu := dropLine_suffix u
  exact ⟨hu.trans (List.suffix_cons _ u), Nat.lt_succ_of_le hu.length_le⟩

theorem lineComment?_local : Local lineComment? where
  append := by
    intro s s' r h hs'
    obtain ⟨u, rfl, rfl⟩ := lineComment?_eq_some h
    show some (dropLine (u ++ r)) = _
    rw [dropLine_append, if_neg hs']
  last := by
    intro s h
    obtain ⟨u, rfl, hu⟩ := lineComment?_eq_some h
    refine .inr ⟨?_, fun r => rfl⟩
    show some (dropLine (u ++ ['x'])) = _
    rw [dropLine_append, if_pos hu.symm]
    rfl

theorem blockComment?_local : Local blockComment? where
  append := by
    intro s s' r h _
    obtain ⟨u, rfl, hu⟩ := blockComment?_eq_some h
    exact afterClose?_append r hu
  last := by
    intro s h
    obtain ⟨u, rfl, hu⟩ := blockComment?_eq_some h
    exact .inl fun r => afterClose?_append r hu

theorem directive?_local : Local directive? where
  append := by
    intro s s' r h hs'
    obtain ⟨u, rfl, rfl⟩ := directive?_eq_some h
    show some (dropLine (u ++ r)) = _
    rw [dropLine_append, if_neg hs']
  last := by
    intro s h
    obtain ⟨u, rfl, hu⟩ := directive?_eq_some h
    refine .inr ⟨?_, fun r => rfl⟩
    show some (dropLine (u ++ ['x'])) = _
    rw [dropLine_append, if_pos hu.symm]
    rfl

/-! ## Joined lines -/

theorem joinedLine?_eq_some (h : joinedLine? s = some s') :
    ∃ u, s = '\\' :: u ∧ newline? u = some s' := by
  rw [joinedLine?.eq_def] at h
  split at h
  · next u => exact ⟨u, rfl, h⟩
  · cases h

theorem joinedLine?_drops : Drops joinedLine? := by
  intro s s' h
  obtain ⟨u, rfl, hu⟩ := joinedLine?_eq_some h
  have hu := newline?_drops u s' hu
  exact ⟨hu.1.trans (List.suffix_cons _ u), Nat.lt_succ_of_lt hu.2⟩

theorem joinedLine?_append (r : List Char) (h : joinedLine? s = some s') (hs' : s' ≠ []) :
    joinedLine? (s ++ r) = some (s' ++ r) := by
  obtain ⟨u, rfl, hu⟩ := joinedLine?_eq_some h
  exact newline?_append r hu hs'

/-- One step of `dropJoinedLines`. -/
def joinedStep (s : List Char) : Option (List Char) :=
  match joinedLine? s with
  | some rest => some rest
  | none =>
    match s with
    | [] => none
    | c :: rest => if c == '\n' || c == '\r' then none else some rest

theorem joinedStep_drops : Drops joinedStep := by
  intro s s' h
  rw [joinedStep.eq_def] at h
  split at h
  · next rest hrest =>
      cases h
      exact joinedLine?_drops s s' hrest
  · split at h
    · cases h
    · next c rest _ =>
        split at h <;> cases h
        exact ⟨List.suffix_cons c _, Nat.lt_succ_self _⟩

theorem joinedLine?_isSome (c d : Char) (s : List Char) :
    (joinedLine? (c :: d :: s)).isSome = (c == '\\' && (d == '\n' || d == '\r')) := by
  by_cases hc : c = '\\'
  · subst hc
    exact newline?_isSome d s
  · rw [joinedLine?]
    · simp [hc]
    · intro u heq
      cases heq
      exact hc rfl

theorem joinedStep_append (r : List Char) (h : joinedStep s = some s') (hs' : s' ≠ []) :
    joinedStep (s ++ r) = some (s' ++ r) := by
  rw [joinedStep.eq_def] at h
  split at h
  · next rest hrest =>
      cases h
      rw [joinedStep.eq_def, joinedLine?_append r hrest hs']
  · next hnone =>
      split at h
      · cases h
      · next c rest =>
          split at h <;> cases h
          next hc =>
            obtain ⟨d, rest, rfl⟩ := List.exists_cons_of_ne_nil hs'
            have hjoined := joinedLine?_isSome c d (rest ++ r)
            rw [← joinedLine?_isSome c d rest, hnone, Option.isSome_none,
              Option.isSome_eq_false_iff, Option.isNone_iff_eq_none] at hjoined
            rw [joinedStep.eq_def, List.cons_append, List.cons_append, hjoined]
            simp only [if_neg hc]

theorem joinedStep_none_append (r : List Char) (h : joinedStep s = none) (hs : s ≠ []) :
    joinedStep (s ++ r) = none := by
  obtain ⟨c, s, rfl⟩ := List.exists_cons_of_ne_nil hs
  rw [joinedStep.eq_def] at h
  split at h
  · cases h
  · simp only at h
    split at h
    · next hc =>
        have hnone : joinedLine? (c :: (s ++ r)) = none := by
          rw [joinedLine?]
          intro u heq
          cases heq
          cases hc
        rw [joinedStep.eq_def, List.cons_append, hnone]
        simp only [if_pos hc]
    · cases h

theorem dropJoinedLines_of_step (h : joinedStep s = some s') :
    dropJoinedLines s = dropJoinedLines s' := iterate_step joinedStep_drops h

theorem dropJoinedLines_of_none (h : joinedStep s = none) : dropJoinedLines s = s :=
  iterate_stop h

theorem dropJoinedLines_suffix (s : List Char) : dropJoinedLines s <:+ s :=
  iterate_suffix joinedStep_drops s s

/-- Joined lines that end before the text does end there in a longer text too. -/
theorem dropJoinedLines_append (r : List Char) (h : dropJoinedLines s ≠ []) :
    dropJoinedLines (s ++ r) = dropJoinedLines s ++ r := by
  generalize hn : s.length = n
  induction n using Nat.strongRecOn generalizing s with
  | ind n ih =>
      cases hstep : joinedStep s with
      | none =>
          rw [dropJoinedLines_of_none hstep] at h ⊢
          exact dropJoinedLines_of_none (joinedStep_none_append r hstep h)
      | some s' =>
          have hlen := (joinedStep_drops s s' hstep).2
          rw [dropJoinedLines_of_step hstep] at h ⊢
          have hs' : s' ≠ [] := fun hnil => h (by rw [hnil]; rfl)
          rw [dropJoinedLines_of_step (joinedStep_append r hstep hs')]
          exact ih s'.length (by omega) h rfl

/-- The last step of a text that a letter is put behind goes on to the
letter. -/
theorem dropJoinedLines_last (h : joinedStep s = some []) :
    dropJoinedLines (s ++ ['x']) = [] := by
  rw [joinedStep.eq_def] at h
  split at h
  · next rest hrest =>
      cases h
      obtain ⟨u, rfl, hu⟩ := joinedLine?_eq_some hrest
      rw [newline?.eq_def] at hu
      split at hu <;> cases hu <;> rfl
  · split at h
    · cases h
    · next c rest _ =>
        split at h <;> cases h
        next hc _ =>
          have hjoined := joinedLine?_isSome c 'x' []
          rw [show (('x' : Char) == '\n' || ('x' : Char) == '\r') = false from rfl, Bool.and_false,
            Option.isSome_eq_false_iff, Option.isNone_iff_eq_none] at hjoined
          have hstep : joinedStep [c, 'x'] = some ['x'] := by
            rw [joinedStep.eq_def, hjoined]
            simp only [if_neg hc]
          exact dropJoinedLines_of_step hstep

theorem dropJoinedLines_open (h : dropJoinedLines s = []) :
    dropJoinedLines (s ++ ['x']) = [] := by
  generalize hn : s.length = n
  induction n using Nat.strongRecOn generalizing s with
  | ind n ih =>
      cases hstep : joinedStep s with
      | none =>
          rw [dropJoinedLines_of_none hstep] at h
          rw [h]
          rfl
      | some s' =>
          have hlen := (joinedStep_drops s s' hstep).2
          by_cases hs' : s' = []
          · exact dropJoinedLines_last (hs' ▸ hstep)
          · rw [dropJoinedLines_of_step hstep] at h
            rw [dropJoinedLines_of_step (joinedStep_append _ hstep hs')]
            exact ih s'.length (by omega) h rfl

theorem joinedDirective?_eq_some (h : joinedDirective? s = some s') :
    ∃ u, s = '#' :: u ∧ s' = dropJoinedLines u := by
  rw [joinedDirective?.eq_def] at h
  split at h
  · next u => cases h; exact ⟨u, rfl, rfl⟩
  · cases h

theorem joinedDirective?_drops : Drops joinedDirective? := by
  intro s s' h
  obtain ⟨u, rfl, rfl⟩ := joinedDirective?_eq_some h
  have hu := dropJoinedLines_suffix u
  exact ⟨hu.trans (List.suffix_cons _ u), Nat.lt_succ_of_le hu.length_le⟩

theorem joinedDirective?_local : Local joinedDirective? where
  append := by
    intro s s' r h hs'
    obtain ⟨u, rfl, rfl⟩ := joinedDirective?_eq_some h
    show some (dropJoinedLines (u ++ r)) = _
    rw [dropJoinedLines_append r hs']
  last := by
    intro s h
    obtain ⟨u, rfl, hu⟩ := joinedDirective?_eq_some h
    refine .inr ⟨?_, fun r => rfl⟩
    show some (dropJoinedLines (u ++ ['x'])) = _
    rw [dropJoinedLines_open hu.symm]

end Text

namespace Lexical

theorem comment_local : Text.Local comment :=
  Text.lineComment?_local.or Text.blockComment?_local fun r h => by
    obtain ⟨u, rfl, -⟩ := Text.blockComment?_eq_some h
    rfl

theorem comment_head {s s' : List Char} (h : comment s = some s') : ∃ u, s = '/' :: u := by
  rcases Option.or_eq_some_iff.1 h with h | ⟨-, h⟩
  · obtain ⟨u, rfl, -⟩ := Text.lineComment?_eq_some h
    exact ⟨_, rfl⟩
  · obtain ⟨u, rfl, -⟩ := Text.blockComment?_eq_some h
    exact ⟨_, rfl⟩

end Lexical

theorem Java.trivia_local : Java.trivia.Local where
  blank := Text.blank?_drops
  comment := Text.lineComment?_drops.or Text.blockComment?_drops
  comments := Lexical.comment_local
  blank_append r h _ := Text.blank?_append r h
  blank_comment r h := by
    obtain ⟨u, rfl⟩ := Lexical.comment_head h
    rfl
  blank_last r h := ⟨r, Text.blank?_append r h, .inl rfl⟩
  letter := rfl

theorem CSharp.trivia_local : CSharp.trivia.Local where
  blank := Text.blank?_drops
  comment := (Text.lineComment?_drops.or Text.blockComment?_drops).or Text.directive?_drops
  comments := Lexical.comment_local.or Text.directive?_local fun r h => by
    obtain ⟨u, rfl, -⟩ := Text.directive?_eq_some h
    rfl
  blank_append r h _ := Text.blank?_append r h
  blank_comment r h := by
    rcases Option.or_eq_some_iff.1 h with h | ⟨-, h⟩
    · obtain ⟨u, rfl⟩ := Lexical.comment_head h
      rfl
    · obtain ⟨u, rfl, -⟩ := Text.directive?_eq_some h
      rfl
  blank_last r h := ⟨r, Text.blank?_append r h, .inl rfl⟩
  letter := rfl

theorem C.trivia_local : C.trivia.Local where
  blank := Text.blank?_drops.or Text.joinedLine?_drops
  comment := (Text.lineComment?_drops.or Text.blockComment?_drops).or Text.joinedDirective?_drops
  comments := Lexical.comment_local.or Text.joinedDirective?_local fun r h => by
    obtain ⟨u, rfl, -⟩ := Text.joinedDirective?_eq_some h
    rfl
  blank_append r h hs' := by
    rcases Option.or_eq_some_iff.1 h with h | ⟨-, h⟩
    · show (Text.blank? _).or _ = _
      rw [Text.blank?_append r h]
      rfl
    · obtain ⟨u, rfl, hu⟩ := Text.joinedLine?_eq_some h
      exact Text.joinedLine?_append r h hs'
  blank_comment r h := by
    rcases Option.or_eq_some_iff.1 h with h | ⟨-, h⟩
    · obtain ⟨u, rfl⟩ := Lexical.comment_head h
      rfl
    · obtain ⟨u, rfl, -⟩ := Text.joinedDirective?_eq_some h
      rfl
  blank_last r h := by
    rcases Option.or_eq_some_iff.1 h with h | ⟨-, h⟩
    · refine ⟨r, ?_, .inl rfl⟩
      show (Text.blank? _).or _ = _
      rw [Text.blank?_append r h]
      rfl
    · obtain ⟨u, rfl, hu⟩ := Text.joinedLine?_eq_some h
      obtain ⟨r', hr', hsame⟩ := Text.newline?_last r hu
      refine ⟨r', hr', hsame.imp id fun hsame => ?_⟩
      show (Text.blank? _).or _ = _
      rw [hsame]
      rfl
  letter := rfl

end FeatureTree
