import FeatureTree.Proofs.Grammar.Words
import FeatureTree.Traversal.Reader

/-!
# Tokens of traversal expressions

The tokens of a canonical text, each in front of what may stand behind it: words,
positions, comparators and literals. Blanks are dropped between tokens only, so
a token is matched character by character, and what follows has to stop it.
-/

namespace FeatureTree.Traversal

/-! ## The grammar -/

theorem blank?_drops : Text.Drops blank? := by
  intro s s' h
  cases s with
  | nil => cases h
  | cons c s =>
      rw [blank?] at h
      split at h <;> cases h
      exact ⟨List.suffix_cons c _, Nat.lt_succ_self _⟩

theorem trivia_lawful : trivia.Lawful := ⟨blank?_drops, fun _ _ h => nomatch h⟩

theorem Rule.mem_all (r : Rule) : r ∈ all := by cases r <;> decide

theorem ranked : grammar.Ranked :=
  Grammar.ranked_of_isRanked trivia_lawful Rule.mem_all (by decide)

/-- The character is no blank. -/
def isInk (c : Char) : Bool := !(c == ' ' || c == '\t' || c == '\r' || c == '\n')

variable {c : Char} {s t : List Char} {l : Layout}

theorem skip_ink (hc : isInk c = true) (s : List Char) : trivia.skip (c :: s) = c :: s := by
  rw [isInk, Bool.not_eq_true'] at hc
  have hblank : trivia.blank (c :: s) = none := by
    show blank? (c :: s) = none
    rw [blank?, hc]
    rfl
  refine Trivia.skip_of_none ?_
  rw [Trivia.piece?, hblank]
  rfl

theorem skip_space (s : List Char) : trivia.skip (' ' :: s) = trivia.skip s :=
  Trivia.skip_of_piece trivia_lawful rfl

theorem skip_space_ink (hc : isInk c = true) (s : List Char) :
    trivia.skip (' ' :: c :: s) = c :: s := by
  rw [skip_space, skip_ink hc]

theorem between_ink (hc : isInk c = true) (s : List Char) :
    grammar.between l (c :: s) = c :: s := by
  cases l with
  | spaced => exact skip_ink hc s
  | joined | token => rfl

theorem between_space_ink (hc : isInk c = true) (s : List Char) :
    grammar.between .spaced (' ' :: c :: s) = c :: s := skip_space_ink hc s

/-- A rule with blanks between its parts matches as its body does. -/
theorem matchExpr_rule {r : Rule} {f : Forest Rule} (hr : r.layout = .spaced)
    (h : grammar.matchExpr r.body .spaced s = some (t, f)) :
    grammar.matchExpr (.rule r) .spaced s = some (t, .cons r s t f .nil) :=
  Grammar.matchRule_of_body ranked (by rw [show grammar.layout r = .spaced from hr]; exact h)
    (by rw [show grammar.layout r = .spaced from hr]; rfl)

theorem matchExpr_rule_none {r : Rule} (hr : r.layout = .spaced)
    (h : grammar.matchExpr r.body .spaced s = none) :
    grammar.matchExpr (.rule r) .spaced s = none :=
  Grammar.matchRule_none ranked (by rw [show grammar.layout r = .spaced from hr]; exact h)

/-- A token that is called where records are kept matches as its body does. -/
theorem matchExpr_token {r : Rule} {f : Forest Rule} (hr : r.layout = .token)
    (hl : l ≠ .token) (h : grammar.matchExpr r.body .token s = some (t, f)) :
    grammar.matchExpr (.rule r) l s = some (t, .cons r s t f .nil) := by
  refine Grammar.matchRule_of_body ranked ?_ ?_ <;> rw [show grammar.layout r = .token from hr]
  · exact h
  · cases l with
    | spaced | joined => rfl
    | token => exact absurd rfl hl

theorem matchExpr_token_none {r : Rule} (hr : r.layout = .token)
    (h : grammar.matchExpr r.body .token s = none) :
    grammar.matchExpr (.rule r) l s = none :=
  Grammar.matchRule_none ranked (by rw [show grammar.layout r = .token from hr]; exact h)

/-! ## Words -/

/-- The character can stand in a name behind its first. -/
def isNameChar (c : Char) : Bool := c.isAlphanum || (c == '-' || c == '_')

/-- No name goes on here. -/
def StopsName (t : List Char) : Prop := ∀ c ∈ t.head?, isNameChar c = false

theorem matchExpr_char (accepts : Char → Bool) (c : Char) (s : List Char) :
    grammar.matchExpr (.char accepts) l (c :: s) = if accepts c then some (s, .nil) else none :=
  rfl

theorem matchExpr_sign (d : Char) (t : List Char) :
    grammar.matchExpr (.text [d]) l (d :: t) = some (t, .nil) :=
  Grammar.matchExpr_text [d] t

theorem matchExpr_symbol (d c : Char) (s : List Char) :
    grammar.matchExpr (.text [d]) l (c :: s) = if c = d then some (s, .nil) else none := by
  rw [Grammar.matchExpr, Grammar.eval, Text.after?, Text.after?]
  by_cases h : d = c
  · rw [if_pos h, if_pos h.symm]; rfl
  · rw [if_neg h, if_neg (Ne.symm h)]; rfl

theorem matchExpr_nameChar (c : Char) (s : List Char) :
    grammar.matchExpr Rule.nameChar l (c :: s) =
      if isNameChar c then some (s, .nil) else none := by
  rw [isNameChar]
  cases hc : c.isAlphanum with
  | true => exact Grammar.matchExpr_left (by rw [matchExpr_char, hc]; rfl)
  | false =>
      rw [Rule.nameChar, Grammar.matchExpr_right (by rw [matchExpr_char, hc]; rfl)]
      by_cases hdash : c = '-'
      · subst hdash; rfl
      · rw [Grammar.matchExpr_right]
        · show grammar.matchExpr (.text ['_']) l (c :: s) = _
          rw [matchExpr_symbol]
          simp [hdash]
        · show grammar.matchExpr (.text ['-']) l (c :: s) = _
          rw [matchExpr_symbol, if_neg hdash]

theorem takesChar_nameChar : grammar.TakesChar Rule.nameChar isNameChar := by
  intro s
  cases s with
  | nil => rfl
  | cons c s => exact matchExpr_nameChar c s

theorem matchExpr_nameChar_none (ht : StopsName t) :
    grammar.matchExpr Rule.nameChar l t = none := by
  cases t with
  | nil => rfl
  | cons c t => rw [matchExpr_nameChar, ht c rfl]; rfl

/-- A word that is a name. -/
def IsName (w : List Char) : Prop :=
  ∃ c cs, w = c :: cs ∧ c.isAlpha = true ∧ cs.all isNameChar = true

theorem matchExpr_name {w : List Char} (hw : IsName w) (ht : StopsName t) :
    grammar.matchExpr Rule.name .token (w ++ t) = some (t, .nil) := by
  obtain ⟨c, cs, rfl, hc, hcs⟩ := hw
  refine Grammar.matchExpr_both (f := .nil) (h := .nil) (u := cs ++ t) ?_ ?_
  · rw [List.cons_append, matchExpr_char, if_pos hc]
  · refine Grammar.matchExpr_star ranked rfl rfl
      (Grammar.rounds_of_chars (by simp) fun d hd s => ?_) (matchExpr_nameChar_none ht)
    rw [matchExpr_nameChar, if_pos (List.all_eq_true.1 hcs d hd)]

theorem isName_kind (k : Kind) : IsName k.name.toList := by
  cases k <;> exact ⟨_, _, rfl, rfl, rfl⟩

theorem isName_attribute (asked : Attribute) : IsName asked.word.toList := by
  cases asked <;> exact ⟨_, _, rfl, rfl, rfl⟩

/-- A name that is a token of its own. -/
theorem match_named {r : Rule} {w : List Char} (hr : r.layout = .token ∧ r.body = Rule.name)
    (hw : IsName w) (ht : StopsName t) :
    grammar.matchExpr (.rule r) .spaced (w ++ t) = some (t, .cons r (w ++ t) t .nil .nil) := by
  refine matchExpr_token hr.1 (by simp) ?_
  rw [hr.2]
  exact matchExpr_name hw ht

theorem match_attributeName (asked : Attribute) (ht : StopsName t) :
    grammar.matchExpr (.rule .attributeName) .spaced (asked.word.toList ++ t) =
      some (t, .cons .attributeName (asked.word.toList ++ t) t .nil .nil) :=
  match_named ⟨rfl, rfl⟩ (isName_attribute asked) ht

/-- A word of a list that is a token of its own. -/
theorem match_word {r : Rule} {words : List String} {word : String}
    (hr : r.layout = .token ∧ r.body = Lexical.word Rule.nameChar words) (hword : word ∈ words)
    (hchars : ∀ w ∈ words, ∀ c ∈ w.toList, isNameChar c = true)
    (horder : Grammar.LongestFirst words) (ht : StopsName t) :
    grammar.matchExpr (.rule r) .spaced (word.toList ++ t) =
      some (t, .cons r (word.toList ++ t) t .nil .nil) := by
  refine matchExpr_token hr.1 (by simp) ?_
  rw [hr.2]
  exact Grammar.match_of_word takesChar_nameChar hword (fun w hw _ _ => hchars w hw) horder ht

/-- Of the names of axes that start alike the longer one is tried first. -/
theorem match_axis (axis : Axis) (ht : StopsName t) :
    grammar.matchExpr (.rule .axis) .spaced (axis.name.toList ++ t) =
      some (t, .cons .axis (axis.name.toList ++ t) t .nil .nil) := by
  refine match_word ⟨rfl, rfl⟩ ?_ (by decide) (by decide) ht
  cases axis <;> decide

/-! ## Positions -/

theorem match_digits {w : List Char} (hne : w ≠ []) (hw : ∀ c ∈ w, c.isDigit = true)
    (ht : ∀ c ∈ t.head?, c.isDigit = false) :
    grammar.matchExpr (.rule .position) .spaced (w ++ t) =
      some (t, .cons .position (w ++ t) t .nil .nil) := by
  refine matchExpr_token rfl (by simp) ?_
  obtain ⟨d, ds, rfl⟩ := List.exists_cons_of_ne_nil hne
  have hstop : grammar.matchExpr (.char Char.isDigit) .token t = none := by
    cases t with
    | nil => rfl
    | cons c t => rw [matchExpr_char, ht c rfl]; rfl
  refine Grammar.matchExpr_both (f := .nil) (h := .nil) (u := ds ++ t) ?_ ?_
  · rw [List.cons_append, matchExpr_char, if_pos (hw d List.mem_cons_self)]
  · refine Grammar.matchExpr_star ranked rfl rfl
      (Grammar.rounds_of_chars (by simp) fun c hc s => ?_) hstop
    rw [matchExpr_char, if_pos (hw c (List.mem_cons_of_mem d hc))]

theorem match_position (n : Nat) (ht : ∀ c ∈ t.head?, c.isDigit = false) :
    grammar.matchExpr (.rule .position) .spaced ((toString n).toList ++ t) =
      some (t, .cons .position ((toString n).toList ++ t) t .nil .nil) := by
  rw [Nat.toString_eq_repr, Nat.toList_repr]
  exact match_digits Nat.toDigits_ne_nil
    (fun c hc => Nat.isDigit_of_mem_toDigits (by decide) (by decide) hc) ht

theorem numberOf_toString (n : Nat) : numberOf (toString n).toList = n := by
  rw [Nat.toString_eq_repr, Nat.toList_repr, numberOf]
  exact Nat.ofDigitChars_eq_foldl.symm.trans Nat.ofDigitChars_ten_toDigits

/-! ## Comparators and literals -/

/-- A comparator stands in front of a literal, so no blank follows it. -/
theorem match_comparator (comparison : Comparison) (t : List Char) :
    ∃ inner, grammar.matchExpr (.rule .comparator) .spaced (comparison.symbol.toList ++ t) =
      some (t, .cons .comparator (comparison.symbol.toList ++ t) t inner .nil) := by
  cases comparison with
  | notEqual =>
      have hsymbol := matchExpr_rule (r := .notEqual) rfl (Grammar.matchExpr_text ['!', '='] t)
      exact ⟨_, matchExpr_rule rfl (Grammar.matchExpr_left hsymbol)⟩
  | equal =>
      have hnot : grammar.matchExpr (.rule .notEqual) .spaced ('=' :: t) = none :=
        matchExpr_rule_none rfl rfl
      have hsymbol := matchExpr_rule (r := .equal) rfl (Grammar.matchExpr_text ['='] t)
      exact ⟨_, matchExpr_rule rfl ((Grammar.matchExpr_right hnot).trans hsymbol)⟩

theorem matchExpr_butNot (d c : Char) (s : List Char) :
    grammar.matchExpr (Expr.butNot (.text [d])) .token (c :: s) =
      if c = d then none else some (s, .nil) := by
  have hd := matchExpr_symbol (l := .token) d c s
  by_cases h : c = d
  · rw [if_pos h] at hd ⊢
    exact Grammar.matchExpr_both_none (Grammar.matchExpr_notAhead_none hd)
  · rw [if_neg h] at hd ⊢
    exact Grammar.matchExpr_both (f := .nil) (h := .nil) (Grammar.matchExpr_notAhead hd) rfl

theorem matchExpr_upTo {d : Char} {w : List Char} (hw : d ∉ w) (t : List Char) :
    grammar.matchExpr (.star (Expr.butNot (.text [d]))) .token (w ++ d :: t) =
      some (d :: t, .nil) := by
  refine Grammar.matchExpr_star ranked rfl rfl
    (Grammar.rounds_of_chars (by simp) fun c hc s => ?_) ?_
  · rw [matchExpr_butNot, if_neg]
    rintro rfl
    exact hw hc
  · show grammar.matchExpr _ .token (d :: t) = none
    rw [matchExpr_butNot, if_pos rfl]

theorem matchExpr_quoted {d : Char} {r : Rule} {w t : List Char}
    (hr : grammar.matchExpr (.rule r) .joined (w ++ d :: t) =
      some (d :: t, .cons r (w ++ d :: t) (d :: t) .nil .nil)) :
    grammar.matchExpr (.both (.text [d]) (.both (.rule r) (.text [d]))) .joined
        (d :: (w ++ d :: t)) = some (t, .cons r (w ++ d :: t) (d :: t) .nil .nil) := by
  exact Grammar.matchExpr_both (matchExpr_sign d _) (Grammar.matchExpr_both hr (matchExpr_sign d t))

/-- A text between quotes that it lacks, recorded inside the literal. -/
theorem match_quotedText {q : Char} {w : List Char} (hquote : q = '\'' ∨ q = '"') (hw : q ∉ w)
    (t : List Char) :
    ∃ r, grammar.matchExpr (.rule .literal) .spaced (q :: (w ++ q :: t)) =
      some (t, .cons .literal (q :: (w ++ q :: t)) t
        (.cons r (w ++ q :: t) (q :: t) .nil .nil) .nil) := by
  obtain rfl | rfl := hquote
  · have hinner : grammar.matchExpr (.rule .singleInner) .joined (w ++ '\'' :: t) =
        some ('\'' :: t, .cons .singleInner (w ++ '\'' :: t) ('\'' :: t) .nil .nil) :=
      matchExpr_token rfl (by simp) (matchExpr_upTo hw t)
    refine ⟨.singleInner, Grammar.matchRule_of_body ranked ?_ rfl⟩
    exact Grammar.matchExpr_left (matchExpr_quoted hinner)
  · have hinner : grammar.matchExpr (.rule .doubleInner) .joined (w ++ '"' :: t) =
        some ('"' :: t, .cons .doubleInner (w ++ '"' :: t) ('"' :: t) .nil .nil) :=
      matchExpr_token rfl (by simp) (matchExpr_upTo hw t)
    refine ⟨.doubleInner, Grammar.matchRule_of_body ranked ?_ rfl⟩
    exact (Grammar.matchExpr_right rfl).trans (matchExpr_quoted hinner)

/-- A literal in quotes, with what stands between them as the record inside. -/
theorem match_literal {value : String}
    (hvalue : ¬ ('\'' ∈ value.toList ∧ '"' ∈ value.toList)) (t : List Char) :
    let q := (Predicate.quoteOf value).toList
    ∃ r, grammar.matchExpr (.rule .literal) .spaced (q ++ (value.toList ++ (q ++ t))) =
      some (t, .cons .literal (q ++ (value.toList ++ (q ++ t))) t
        (.cons r (value.toList ++ (q ++ t)) (q ++ t) .nil .nil) .nil) := by
  intro q
  by_cases hsingle : '\'' ∈ value.toList
  · have hq : q = ['"'] := by
      show (Predicate.quoteOf value).toList = _
      rw [Predicate.quoteOf, if_pos (List.contains_iff_mem.2 hsingle)]
      rfl
    rw [hq]
    exact match_quotedText (.inr rfl) (fun h => hvalue ⟨hsingle, h⟩) t
  · have hq : q = ['\''] := by
      show (Predicate.quoteOf value).toList = _
      rw [Predicate.quoteOf, if_neg fun h => hsingle (List.contains_iff_mem.1 h)]
      rfl
    rw [hq]
    exact match_quotedText (.inl rfl) hsingle t

end FeatureTree.Traversal
