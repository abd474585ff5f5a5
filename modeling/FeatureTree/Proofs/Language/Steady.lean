import FeatureTree.Proofs.Grammar.Trim
import FeatureTree.Proofs.Language.Trivia

/-!
# Blanks and comments at a cut

The pieces that the languages drop are steady: they stay what they are if the
text is cut off behind them, and more text behind them can only make them longer.
Most pieces are a sign and what belongs to it, so it is enough to know the latter
(`Steady.behind`).
-/

namespace FeatureTree

namespace Text

variable {s s' p w r : List Char}

/-- A sign and a steady piece behind it are a steady piece. -/
theorem Steady.behind (sign : List Char) {drop next : List Char → Option (List Char)}
    (hdrop : ∀ s x, drop s = some x ↔ ∃ u, s = sign ++ u ∧ next u = some x)
    (hsuffix : ∀ s x, next s = some x → x <:+ s) (hnext : Steady next) : Steady drop where
  ends := by
    intro p w h
    obtain ⟨u, hu, hw⟩ := (hdrop _ _).1 h
    obtain ⟨p', rfl⟩ := hsuffix u w hw
    rw [← List.append_assoc, List.append_cancel_right_eq] at hu
    exact (hdrop _ _).2 ⟨p', hu, hnext.ends hw⟩
  goesOn := by
    intro s x r h
    obtain ⟨u, rfl, hx⟩ := (hdrop _ _).1 h
    obtain ⟨y, hy, hyx⟩ := hnext.goesOn r hx
    exact ⟨y, (hdrop _ _).2 ⟨u ++ r, List.append_assoc _ _ _, hy⟩, hyx⟩

theorem blank?_steady : Steady blank? where
  ends := by
    intro p w h
    cases p with
    | nil => exact absurd (blank?_drops w w h).2 (Nat.lt_irrefl _)
    | cons c p =>
        rw [List.cons_append, blank?] at h
        split at h
        · next hc => rw [blank?, if_pos hc, List.append_left_eq_self.1 (Option.some.inj h)]
        · cases h
  goesOn r h := ⟨_, blank?_append r h, List.suffix_refl _⟩

theorem newline?_steady : Steady newline? where
  ends := by
    intro p w h
    obtain ⟨word, hword, hp⟩ : ∃ word, newline? word = some [] ∧ p ++ w = word ++ w := by
      rw [newline?.eq_def] at h
      split at h
      · next heq => exact ⟨['\n'], rfl, by rw [heq, ← Option.some.inj h]; rfl⟩
      · next heq => exact ⟨['\r', '\n'], rfl, by rw [heq, ← Option.some.inj h]; rfl⟩
      · next heq => exact ⟨['\r'], rfl, by rw [heq, ← Option.some.inj h]; rfl⟩
      · cases h
    rw [List.append_cancel_right hp, hword]
  goesOn := by
    intro s x r h
    by_cases hx : x = []
    · subst hx
      obtain ⟨y, hy, rfl | hyr⟩ := newline?_last r h
      · exact ⟨y, hy, List.suffix_refl y⟩
      · exact ⟨y, hy, (blank?_drops r y hyr).1⟩
    · exact ⟨_, newline?_append r h hx, List.suffix_refl _⟩

theorem joinedLine?_steady : Steady joinedLine? :=
  newline?_steady.behind ['\\']
    (fun _ _ => ⟨joinedLine?_eq_some, fun ⟨_, hs, hu⟩ => by subst hs; exact hu⟩)
    fun s x h => (newline?_drops s x h).1

/-! ## Comments -/

theorem dropLine_steady : Steady fun s => some (dropLine s) where
  ends := by
    intro p w h
    injection h with h
    rw [dropLine_append] at h
    split at h
    · next hp => rw [hp]
    · next hp => exact absurd (List.append_left_eq_self.1 h) hp
  goesOn := by
    intro s x r h
    cases h
    refine ⟨_, rfl, ?_⟩
    rw [dropLine_append]
    split
    · exact (dropLine_suffix r).trans (List.suffix_append _ r)
    · exact List.suffix_refl _

theorem afterClose?_drops : Drops afterClose? := by
  intro s s' h
  refine ⟨afterClose?_suffix h, ?_⟩
  induction s using afterClose?.induct with
  | case1 => cases h
  | case2 s =>
      cases h
      simp only [List.length_cons]
      omega
  | case3 c s hc ih =>
      rw [afterClose?] at h
      · exact Nat.lt_succ_of_lt (ih h)
      · exact hc

theorem afterClose?_ends (h : afterClose? (p ++ w) = some w) : afterClose? p = some [] := by
  have hdrops : ∀ {u}, afterClose? u = some w → w.length < u.length :=
    fun hu => (afterClose?_drops _ _ hu).2
  induction p using afterClose?.induct with
  | case1 => exact absurd (hdrops h) (Nat.lt_irrefl _)
  | case2 p =>
      rw [List.cons_append, List.cons_append, afterClose?] at h
      rw [afterClose?, List.append_left_eq_self.1 (Option.some.inj h)]
  | case3 c p hc ih =>
      -- A close that begins here ends behind the cut, and leaves less than what stands there.
      have hskip : ∀ u, c = '*' → p ++ w = '/' :: u → False := by
        intro u hstar hu
        cases p with
        | nil =>
            rw [List.nil_append] at hu
            subst hstar hu
            exact List.cons_ne_self '/' u (Option.some.inj (show some u = some ('/' :: u) from h)).symm
        | cons d p => cases hu; exact hc p hstar rfl
      rw [List.cons_append, afterClose?] at h
      · rw [afterClose?]
        · exact ih h
        · exact hc
      · exact hskip

theorem afterClose?_steady : Steady afterClose? where
  ends := afterClose?_ends
  goesOn r h := ⟨_, afterClose?_append r h, List.suffix_refl _⟩

theorem lineComment?_steady : Steady lineComment? :=
  dropLine_steady.behind ['/', '/']
    (fun _ _ => ⟨fun h => by
      obtain ⟨u, hs, hx⟩ := lineComment?_eq_some h
      exact ⟨u, hs, congrArg some hx.symm⟩, fun ⟨_, hs, hu⟩ => by subst hs; exact hu⟩)
    fun s x h => by cases h; exact dropLine_suffix s

theorem blockComment?_steady : Steady blockComment? :=
  afterClose?_steady.behind ['/', '*']
    (fun _ _ => ⟨blockComment?_eq_some, fun ⟨_, hs, hu⟩ => by subst hs; exact hu⟩)
    fun _ _ => afterClose?_suffix

theorem directive?_steady : Steady directive? :=
  dropLine_steady.behind ['#']
    (fun _ _ => ⟨fun h => by
      obtain ⟨u, hs, hx⟩ := directive?_eq_some h
      exact ⟨u, hs, congrArg some hx.symm⟩, fun ⟨_, hs, hu⟩ => by subst hs; exact hu⟩)
    fun s x h => by cases h; exact dropLine_suffix s

/-! ## Joined lines -/

/-- The last step of joined lines takes in part of what is put behind it, or
nothing. -/
theorem joinedStep_last (r : List Char) (h : joinedStep s = some []) :
    ∃ y, joinedStep (s ++ r) = some y ∧ y <:+ r := by
  rw [joinedStep.eq_def] at h
  split at h
  · next rest hrest =>
      cases h
      obtain ⟨y, hy, hyr⟩ := joinedLine?_steady.goesOn r hrest
      exact ⟨y, by rw [joinedStep.eq_def, hy], hyr⟩
  · split at h
    · cases h
    · next c rest hnone =>
        split at h <;> cases h
        next hc =>
          cases hjoined : joinedLine? ([c] ++ r) with
          | none =>
              refine ⟨r, ?_, List.suffix_refl r⟩
              rw [joinedStep.eq_def, hjoined]
              simp only [List.cons_append, List.nil_append, if_neg hc]
          | some y =>
              obtain ⟨u, hu, hy⟩ := joinedLine?_eq_some hjoined
              cases hu
              exact ⟨y, by rw [joinedStep.eq_def, hjoined], (newline?_drops r y hy).1⟩

theorem dropJoinedLines_behind (r : List Char) (h : dropJoinedLines s = []) :
    dropJoinedLines (s ++ r) <:+ r := by
  generalize hn : s.length = n
  induction n using Nat.strongRecOn generalizing s with
  | ind n ih =>
      cases hstep : joinedStep s with
      | none =>
          rw [dropJoinedLines_of_none hstep] at h
          subst h
          exact dropJoinedLines_suffix r
      | some s' =>
          have hlen := (joinedStep_drops s s' hstep).2
          by_cases hs' : s' = []
          · subst hs'
            obtain ⟨y, hy, hyr⟩ := joinedStep_last r hstep
            rw [dropJoinedLines_of_step hy]
            exact (dropJoinedLines_suffix y).trans hyr
          · rw [dropJoinedLines_of_step hstep] at h
            rw [dropJoinedLines_of_step (joinedStep_append r hstep hs')]
            exact ih s'.length (by omega) h rfl

theorem dropJoinedLines_steady : Steady fun s => some (dropJoinedLines s) where
  ends := by
    intro p w h
    injection h with h
    by_cases hp : dropJoinedLines p = []
    · rw [hp]
    · rw [dropJoinedLines_append w hp] at h
      exact absurd (List.append_left_eq_self.1 h) hp
  goesOn := by
    intro s x r h
    cases h
    refine ⟨_, rfl, ?_⟩
    by_cases hs : dropJoinedLines s = []
    · exact (dropJoinedLines_behind r hs).trans (List.suffix_append _ r)
    · exact dropJoinedLines_append r hs ▸ List.suffix_refl _

theorem joinedDirective?_steady : Steady joinedDirective? :=
  dropJoinedLines_steady.behind ['#']
    (fun _ _ => ⟨fun h => by
      obtain ⟨u, hs, hx⟩ := joinedDirective?_eq_some h
      exact ⟨u, hs, congrArg some hx.symm⟩, fun ⟨_, hs, hu⟩ => by subst hs; exact hu⟩)
    fun s x h => by cases h; exact dropJoinedLines_suffix s

end Text

/-! ## The languages -/

theorem Lexical.comment_steady : Text.Steady comment :=
  Text.lineComment?_steady.or Text.blockComment?_steady fun r h => by
    obtain ⟨u, rfl, -⟩ := Text.blockComment?_eq_some h
    rfl

theorem Java.trivia_steady : Java.trivia.Steady where
  toLawful := trivia_local.toLawful
  blanks := Text.blank?_steady
  comments := Lexical.comment_steady
  apart := trivia_local.blank_comment

theorem CSharp.trivia_steady : CSharp.trivia.Steady where
  toLawful := trivia_local.toLawful
  blanks := Text.blank?_steady
  comments := Lexical.comment_steady.or Text.directive?_steady fun r h => by
    obtain ⟨u, rfl, -⟩ := Text.directive?_eq_some h
    rfl
  apart := trivia_local.blank_comment

theorem C.trivia_steady : C.trivia.Steady where
  toLawful := trivia_local.toLawful
  blanks := Text.blank?_steady.or Text.joinedLine?_steady fun r h => by
    obtain ⟨u, rfl, -⟩ := Text.joinedLine?_eq_some h
    rfl
  comments := Lexical.comment_steady.or Text.joinedDirective?_steady fun r h => by
    obtain ⟨u, rfl, -⟩ := Text.joinedDirective?_eq_some h
    rfl
  apart := trivia_local.blank_comment

end FeatureTree
