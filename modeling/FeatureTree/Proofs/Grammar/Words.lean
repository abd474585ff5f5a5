import FeatureTree.Language.Lexical
import FeatureTree.Proofs.Grammar.Calls

/-!
# Words in tokens

Inside a token nothing is dropped, so a repetition of characters takes all that it can,
and a word matches where it stands and no word character follows. A text has one word at
its front, so two matches of words at one place take the same (`word_unique`), and so do a
word and a name (`IsWord.eq_run`).
-/

namespace FeatureTree

/-- What all characters of a text are is decided along the text. There are other ways to
decide what all characters are, which go through the whole of Unicode. -/
instance (priority := high) Text.decidableForallMem (p : Char → Prop) [DecidablePred p]
    (s : List Char) : Decidable (∀ c ∈ s, p c) := List.decidableBAll p s

namespace Grammar

variable {R : Type} {g : Grammar R} {r r' k : R} {e first : Expr R} {accepts begins : Char → Bool}
  {s t t' u v w : List Char} {l l' : Layout} {f f' : Forest R} {words words' : List String}
  {word : String}

/-- The expression takes one character, of a class. -/
def TakesChar (g : Grammar R) (e : Expr R) (accepts : Char → Bool) : Prop :=
  ∀ s, g.matchExpr e .token s = g.matchExpr (.char accepts) .token s

theorem takesChar_char (accepts : Char → Bool) : g.TakesChar (.char accepts) accepts :=
  fun _ => rfl

theorem takesChar_text (d : Char) : g.TakesChar (.text [d]) (· == d) := by
  intro s
  cases s with
  | nil => rfl
  | cons c s =>
      rw [matchExpr, eval, matchExpr, eval, Text.after?, Text.after?]
      by_cases h : d = c
      · rw [if_pos h, if_pos (by simp [h])]
        rfl
      · rw [if_neg h, if_neg (by simp [Ne.symm h])]
        rfl

theorem TakesChar.either {a b : Expr R} {p q : Char → Bool} (ha : g.TakesChar a p)
    (hb : g.TakesChar b q) : g.TakesChar (.either a b) fun c => p c || q c := by
  intro s
  cases s with
  | nil => exact (matchExpr_right (ha [])).trans (hb [])
  | cons c s =>
      by_cases hp : p c = true
      · have hmatch := (ha (c :: s)).trans (if_pos hp)
        exact (matchExpr_left hmatch).trans (if_pos (by simp [hp])).symm
      · have hnone := (ha (c :: s)).trans (if_neg hp)
        refine (matchExpr_right hnone).trans ((hb (c :: s)).trans ?_)
        show (if q c = true then _ else _) = if (p c || q c) = true then _ else _
        rw [Bool.eq_false_iff.2 hp, Bool.false_or]

theorem TakesChar.butNot {a : Expr R} {p : Char → Bool} (ha : g.TakesChar a p) :
    g.TakesChar (.butNot a) fun c => !p c := by
  intro s
  cases s with
  | nil =>
      have hnone : g.matchExpr a .token [] = none := ha []
      exact matchExpr_both_none_right (matchExpr_notAhead hnone) rfl
  | cons c s =>
      have hany : g.matchExpr .any .token (c :: s) = some (s, .nil) := by simp [matchExpr, Expr.any]
      by_cases hp : p c = true
      · have hmatch := (ha (c :: s)).trans (if_pos hp)
        exact (matchExpr_both_none (matchExpr_notAhead_none hmatch)).trans
          (if_neg (by simp [hp])).symm
      · have hnone := (ha (c :: s)).trans (if_neg hp)
        exact (matchExpr_both (matchExpr_notAhead hnone) hany).trans (if_pos (by simp [hp])).symm

theorem head_of_none (he : g.TakesChar e accepts) (h : g.matchExpr e .token t = none) :
    ∀ c ∈ t.head?, accepts c = false := by
  intro c hc
  obtain ⟨t, rfl⟩ : ∃ t', t = c :: t' := List.head?_eq_some_iff.1 hc
  refine Bool.eq_false_iff.2 fun haccepts => ?_
  rw [he, show g.matchExpr (.char accepts) .token (c :: t) = _ from if_pos haccepts] at h
  cases h

theorem none_of_head (he : g.TakesChar e accepts) (h : ∀ c ∈ t.head?, accepts c = false) :
    g.matchExpr e .token t = none := by
  rw [he]
  cases t with
  | nil => rfl
  | cons c t => exact if_neg (by rw [h c rfl]; exact Bool.false_ne_true)

theorem chars_of_rounds (he : g.TakesChar e accepts) (h : g.Rounds e .token s t f) :
    ∃ w, s = w ++ t ∧ ∀ c ∈ w, accepts c = true := by
  induction h with
  | none s => exact ⟨[], rfl, by simp⟩
  | more hround _ ih =>
      obtain ⟨c, hs, hc, -⟩ := eval_char_eq_some.1 ((he _).symm.trans hround)
      obtain ⟨w, rfl, hw⟩ := ih
      exact ⟨c :: w, hs, List.forall_mem_cons.2 ⟨hc, hw⟩⟩

/-- A repetition of characters takes all that it can. -/
theorem chars_of_star (hg : g.Ranked) (he : g.TakesChar e accepts)
    (hconsumes : e.consumes g.consuming = true)
    (h : g.matchExpr (.star e) .token s = some (t, f)) :
    ∃ w, s = w ++ t ∧ (∀ c ∈ w, accepts c = true) ∧ ∀ c ∈ t.head?, accepts c = false := by
  obtain ⟨hrounds, hstop⟩ := (matchExpr_star_iff hg hconsumes rfl).1 h
  obtain ⟨w, hw, hall⟩ := chars_of_rounds he hrounds
  exact ⟨w, hw, hall, head_of_none he hstop⟩

theorem takeWhile_run (hw : ∀ c ∈ w, accepts c = true) (ht : ∀ c ∈ t.head?, accepts c = false) :
    (w ++ t).takeWhile accepts = w := by
  rw [List.takeWhile_append_of_pos hw]
  cases t with
  | nil => exact List.append_nil w
  | cons c t => rw [List.takeWhile_cons_of_neg (by simp [ht c rfl]), List.append_nil]

theorem dropWhile_run (hw : ∀ c ∈ w, accepts c = true) (ht : ∀ c ∈ t.head?, accepts c = false) :
    (w ++ t).dropWhile accepts = t := by
  rw [List.dropWhile_append_of_pos hw]
  cases t with
  | nil => rfl
  | cons c t => rw [List.dropWhile_cons_of_neg (by simp [ht c rfl])]

/-- There is one longest run of characters of a class. -/
theorem run_unique (h : w ++ t = v ++ u) (hw : ∀ c ∈ w, accepts c = true)
    (hv : ∀ c ∈ v, accepts c = true) (ht : ∀ c ∈ t.head?, accepts c = false)
    (hu : ∀ c ∈ u.head?, accepts c = false) : w = v ∧ t = u := by
  have hfront : w = v := by rw [← takeWhile_run hw ht, h, takeWhile_run hv hu]
  subst hfront
  exact ⟨rfl, List.append_cancel_left h⟩

/-! ## Words -/

/-- No word begins with one that stands in front of it, so the first word that stands at the
front of a text is the longest one. -/
abbrev LongestFirst (words : List String) : Prop :=
  words.Pairwise fun earlier word => ¬ earlier.toList <+: word.toList

theorem word_of_match (he : g.TakesChar e accepts)
    (h : g.matchExpr (Lexical.word e words) .token s = some (t, f)) :
    ∃ word ∈ words, s = word.toList ++ t ∧ ∀ c ∈ t.head?, accepts c = false := by
  obtain ⟨u, f₁, f₂, hwords, hstop, -⟩ := matchExpr_both_iff.1 h
  rw [Expr.oneOf, matchExpr_choice] at hwords
  obtain ⟨e, he', htext⟩ := List.exists_of_findSome?_eq_some hwords
  obtain ⟨word, hword, rfl⟩ := List.mem_map.1 he'
  obtain ⟨rfl, -⟩ := matchExpr_text_iff.1 htext
  obtain ⟨hnone, rfl, -⟩ := matchExpr_notAhead_iff.1 hstop
  exact ⟨word, hword, rfl, head_of_none he hnone⟩

theorem word_unique (he : g.TakesChar e accepts)
    (hchars : ∀ w ∈ words, ∀ c ∈ w.toList, accepts c = true)
    (hchars' : ∀ w ∈ words', ∀ c ∈ w.toList, accepts c = true)
    (h : g.matchExpr (Lexical.word e words) .token s = some (t, f))
    (h' : g.matchExpr (Lexical.word e words') .token s = some (t', f')) :
    t = t' ∧ ∃ word, word ∈ words ∧ word ∈ words' := by
  obtain ⟨word, hword, rfl, ht⟩ := word_of_match he h
  obtain ⟨word', hword', heq, ht'⟩ := word_of_match he h'
  obtain ⟨hwords, rfl⟩ := run_unique heq (hchars word hword) (hchars' word' hword') ht ht'
  rw [← String.toList_inj.1 hwords] at hword'
  exact ⟨rfl, word, hword, hword'⟩

/-- A word of a list is matched where it stands, unless another character of words follows. -/
theorem match_of_word (he : g.TakesChar e accepts) (hword : word ∈ words)
    (hchars : ∀ w ∈ words, word.toList <+: w.toList → w ≠ word → ∀ c ∈ w.toList, accepts c = true)
    (horder : LongestFirst words) (ht : ∀ c ∈ t.head?, accepts c = false) :
    g.matchExpr (Lexical.word e words) .token (word.toList ++ t) = some (t, .nil) := by
  refine matchExpr_both (f := .nil) (h := .nil) ?_ (matchExpr_notAhead (none_of_head he ht))
  rw [Expr.oneOf, matchExpr_choice, List.findSome?_map]
  obtain ⟨front, back, rfl⟩ := List.append_of_mem hword
  have hfront : ∀ w ∈ front, ¬ w.toList <+: word.toList := fun w hw =>
    (List.pairwise_append.1 horder).2.2 w hw word List.mem_cons_self
  refine List.findSome?_eq_some_iff.2 ⟨front, word, back, rfl, matchExpr_text _ t, fun w hw => ?_⟩
  cases hmatch : g.matchExpr (.text w.toList) .token (word.toList ++ t) with
  | none => exact hmatch
  | some found =>
      obtain ⟨hfound, -⟩ := matchExpr_text_iff.1 hmatch
      have hprefix : w.toList <+: word.toList ++ t := ⟨found.1, hfound.symm⟩
      rcases List.prefix_or_prefix_of_prefix hprefix (List.prefix_append word.toList t) with
        hshort | ⟨x, hx⟩
      · exact absurd hshort (hfront w hw)
      · -- A longer word would go on behind the one that is there.
        cases x with
        | nil => exact absurd ⟨[], by rw [← hx]; simp⟩ (hfront w hw)
        | cons c x =>
            have hlonger : w ≠ word := by
              rintro rfl
              exact hfront w hw List.prefix_rfl
            have hc := hchars w (List.mem_append_left _ hw) ⟨c :: x, hx⟩ hlonger c
              (by rw [← hx]; simp)
            rw [← hx, List.append_assoc] at hfound
            rw [List.append_cancel_left hfound] at ht
            rw [ht c rfl] at hc
            cases hc

/-! ## Rules of words and names -/

/-- The rule is a word of a list. -/
def IsWord (g : Grammar R) (wordChar : Expr R) (r : R) (words : List String) : Prop :=
  g.layout r = .token ∧ g.body r = Lexical.word wordChar words

theorem IsWord.match_body (hr : g.IsWord e r words) (hg : g.Ranked)
    (h : g.matchRule r l s = some (t, f)) :
    ∃ inner, g.matchExpr (Lexical.word e words) .token s = some (t, inner) := by
  obtain ⟨inner, hbody, -⟩ := (matchRule_eq_some_iff hg).1 h
  rw [hr.1, hr.2] at hbody
  exact ⟨inner, hbody⟩

theorem IsWord.exists_word (hr : g.IsWord e r words) (hg : g.Ranked) (he : g.TakesChar e accepts)
    (h : g.matchRule r l s = some (t, f)) :
    ∃ word ∈ words, s = word.toList ++ t ∧ ∀ c ∈ t.head?, accepts c = false := by
  obtain ⟨inner, hbody⟩ := hr.match_body hg h
  exact word_of_match he hbody

/-- Two rules of words at one place match the same word. -/
theorem IsWord.unique (hr : g.IsWord e r words) (hr' : g.IsWord e r' words') (hg : g.Ranked)
    (he : g.TakesChar e accepts) (hchars : ∀ w ∈ words, ∀ c ∈ w.toList, accepts c = true)
    (hchars' : ∀ w ∈ words', ∀ c ∈ w.toList, accepts c = true)
    (h : g.matchRule r l s = some (t, f)) (h' : g.matchRule r' l' s = some (t', f')) :
    t = t' ∧ ∃ word, word ∈ words ∧ word ∈ words' := by
  obtain ⟨inner, hbody⟩ := hr.match_body hg h
  obtain ⟨inner', hbody'⟩ := hr'.match_body hg h'
  exact word_unique he hchars hchars' hbody hbody'

/-- A rule of words matches wherever a rule matches that knows some of them only. -/
theorem IsWord.isSome_of_subset (hr : g.IsWord e r words) (hk : g.IsWord e k words')
    (hg : g.Ranked) (he : g.TakesChar e accepts) (hwords : ∀ w ∈ words, w ∈ words')
    (hchars : ∀ w ∈ words', ∀ c ∈ w.toList, accepts c = true)
    (horder : LongestFirst words') (h : g.matchRule r l s = some (t, f)) :
    (g.matchRule k l' s).isSome = true := by
  obtain ⟨word, hmem, rfl, ht⟩ := hr.exists_word hg he h
  have hword := match_of_word he (hwords word hmem) (fun w hw _ _ => hchars w hw) horder ht
  have hinside : l'.inside .token = .token := by cases l' <;> rfl
  rw [matchRule_eq hg, hk.1, hk.2, hinside, hword]
  rfl

/-- A name is a run of word characters that begins as names do, and at the front of which no keyword
stands. -/
theorem run_of_name (hg : g.Ranked) (he : g.TakesChar e accepts)
    (hconsumes : e.consumes g.consuming = true) (hfirst : g.TakesChar first begins)
    (hbegins : ∀ c, begins c = true → accepts c = true)
    (h : g.matchExpr (.seq [.notAhead (.rule k), first, .star e]) .token s = some (t, f)) :
    g.matchRule k .token s = none ∧ ∃ c w, begins c = true ∧ s = c :: w ++ t ∧
      (∀ d ∈ c :: w, accepts d = true) ∧ ∀ d ∈ t.head?, accepts d = false := by
  obtain ⟨u, f₁, f₂, hkeyword, hrest, -⟩ := matchExpr_both_iff.1 h
  obtain ⟨v, f₃, f₄, hone, hmore, -⟩ := matchExpr_both_iff.1 hrest
  obtain ⟨hnone, rfl, -⟩ := matchExpr_notAhead_iff.1 hkeyword
  obtain ⟨c, hu, hc, -⟩ := eval_char_eq_some.1 ((hfirst _).symm.trans hone)
  obtain ⟨w, hw, hall, hstop⟩ := chars_of_star hg he hconsumes hmore
  refine ⟨hnone, c, w, hc, ?_, List.forall_mem_cons.2 ⟨hbegins c hc, hall⟩, hstop⟩
  rw [List.cons_append, ← hw]
  exact hu

/-- The text is a name: it begins as names do, goes on with characters of words, and is none of the
words. -/
def isName (begins accepts : Char → Bool) (words : List String) : List Char → Bool
  | [] => false
  | c :: w => begins c && (c :: w).all accepts && !words.any (·.toList == c :: w)

theorem isName_iff :
    isName begins accepts words w = true ↔
      (∃ c v, w = c :: v ∧ begins c = true) ∧ (∀ c ∈ w, accepts c = true) ∧
        ∀ word ∈ words, word.toList ≠ w := by
  cases w with
  | nil => simp [isName]
  | cons c w =>
      simp only [isName, Bool.and_eq_true, Bool.not_eq_true', List.any_eq_false, List.all_eq_true,
        beq_iff_eq, List.cons.injEq, and_assoc]
      constructor
      · rintro ⟨hc, hw, hwords⟩
        exact ⟨⟨c, w, rfl, rfl, hc⟩, hw, hwords⟩
      · rintro ⟨⟨_, _, rfl, rfl, hc⟩, hw, hwords⟩
        exact ⟨hc, hw, hwords⟩

/-- A rule of words does not match where another run of word characters stands. -/
theorem IsWord.none_of_run (hr : g.IsWord e r words) (hg : g.Ranked) (he : g.TakesChar e accepts)
    (hchars : ∀ v ∈ words, ∀ c ∈ v.toList, accepts c = true) (hw : ∀ c ∈ w, accepts c = true)
    (hnot : ∀ word ∈ words, word.toList ≠ w) (ht : ∀ c ∈ t.head?, accepts c = false) :
    g.matchRule r l (w ++ t) = none := by
  cases hmatch : g.matchRule r l (w ++ t) with
  | none => rfl
  | some found =>
      obtain ⟨word, hmem, heq, hstop⟩ := hr.exists_word hg he hmatch
      exact absurd (run_unique heq hw (hchars word hmem) ht hstop).1.symm (hnot word hmem)

/-- A name is matched where it stands, unless another character of words follows. -/
theorem match_of_name (hg : g.Ranked) (he : g.TakesChar e accepts)
    (hconsumes : e.consumes g.consuming = true) (hfirst : g.TakesChar first begins)
    (hk : g.IsWord e k words) (hchars : ∀ v ∈ words, ∀ c ∈ v.toList, accepts c = true)
    (hname : isName begins accepts words w = true) (ht : ∀ c ∈ t.head?, accepts c = false) :
    g.matchExpr (.seq [.notAhead (.rule k), first, .star e]) .token (w ++ t) = some (t, .nil) := by
  obtain ⟨⟨c, v, rfl, hc⟩, hall, hnot⟩ := isName_iff.1 hname
  have hkeyword : g.matchExpr (.rule k) .token (c :: v ++ t) = none :=
    hk.none_of_run hg he hchars hall hnot ht
  have hone : g.matchExpr first .token (c :: v ++ t) = some (v ++ t, .nil) :=
    (hfirst _).trans (if_pos hc)
  have hrounds : g.Rounds e .token (v ++ t) t .nil := by
    refine rounds_of_chars (by decide) fun d hd s => ?_
    rw [he]
    exact if_pos (hall d (List.mem_cons_of_mem c hd))
  have hmore : g.matchExpr (.star e) .token (v ++ t) = some (t, .nil) :=
    matchExpr_star hg hconsumes rfl hrounds (none_of_head he ht)
  exact matchExpr_both (matchExpr_notAhead hkeyword) (matchExpr_both hone hmore)

/-- A word and a run of word characters at one place are the same. -/
theorem IsWord.eq_run (hr : g.IsWord e r words) (hg : g.Ranked) (he : g.TakesChar e accepts)
    (hchars : ∀ w ∈ words, ∀ c ∈ w.toList, accepts c = true)
    (h : g.matchRule r l (w ++ u) = some (t, f)) (hw : ∀ c ∈ w, accepts c = true)
    (hu : ∀ c ∈ u.head?, accepts c = false) : t = u := by
  obtain ⟨word, hmem, heq, ht⟩ := hr.exists_word hg he h
  exact (run_unique heq hw (hchars word hmem) hu ht).2.symm

end Grammar

end FeatureTree
