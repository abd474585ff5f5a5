import FeatureTree.Proofs.Traversal.Tokens

/-!
# Expressions as rows of tokens

A traversal expression can be read in two steps: cut it into tokens by longest match,
dropping blanks in between, and then derive the row of tokens. `Lexes` is the first
step. It also says what is left behind some tokens, so that rows of tokens can be put
together and taken apart (`Lexes.append`, `Lexes.split`).

The first character of a token tells what sort of token it is, so a token is as long as
it can be unless the next character could be one more of it (`longest_name`,
`longest_digits`, `longest_sign`).
-/

namespace FeatureTree.Traversal

/-- A token of an expression. -/
inductive Token
  | sign (text : String)
  /-- A text in quotes, without the quotes. -/
  | literal (value : String)
  | digits (text : String)
  | name (text : String)
  deriving DecidableEq, Repr

/-- The signs. -/
def signs : List String :=
  ["//", "/", "..", ".", "::", "*", "[", "]", "(", ")", "@", "!=", "="]

/-- The characters that a token is written with. -/
inductive Token.Spells : Token → List Char → Prop
  | sign {text : String} (h : text ∈ signs) : Spells (.sign text) text.toList
  | literal {value : String} {quote : Char} (hquote : quote = '\'' ∨ quote = '"')
      (h : quote ∉ value.toList) : Spells (.literal value) (quote :: (value.toList ++ [quote]))
  | digits {text : String} (hne : text.toList ≠ []) (h : ∀ c ∈ text.toList, c.isDigit = true) :
      Spells (.digits text) text.toList
  | name {text : String} (h : IsName text.toList) : Spells (.name text) text.toList

/-- No token at the front of the text `w ++ s` is longer than `w`. -/
def Longest (w s : List Char) : Prop :=
  ∀ token v, Token.Spells token v → v <+: w ++ s → v.length ≤ w.length

/-- A text is cut into tokens by longest match, up to what is left behind them. Blanks
may stand in front of tokens and behind the last. -/
inductive Lexes : List Char → List Token → List Char → Prop
  | nil (s : List Char) : Lexes s [] s
  | blank {c : Char} {s t : List Char} {ts : List Token} (hc : c ∈ [' ', '\t', '\r', '\n'])
      (h : Lexes s ts t) : Lexes (c :: s) ts t
  | token {token : Token} {w s t : List Char} {ts : List Token} (hw : token.Spells w)
      (hlongest : Longest w s) (h : Lexes s ts t) : Lexes (w ++ s) (token :: ts) t

variable {c : Char} {s t u v w : List Char} {ts us : List Token} {token : Token}

/-! ## Blanks -/

theorem isInk_eq_false_iff : isInk c = false ↔ c ∈ [' ', '\t', '\r', '\n'] := by
  simp only [isInk, Bool.not_eq_false', Bool.or_eq_true, beq_iff_eq, List.mem_cons,
    List.not_mem_nil, or_false, or_assoc]

theorem skip_blank (hc : isInk c = false) (s : List Char) :
    trivia.skip (c :: s) = trivia.skip s := by
  have hblank : (c == ' ' || c == '\t' || c == '\r' || c == '\n') = true := by
    rwa [isInk, Bool.not_eq_false'] at hc
  refine Trivia.skip_of_piece trivia_lawful ?_
  rw [Trivia.piece?, show trivia.blank (c :: s) = some s from if_pos hblank]

theorem lexes_skip (s : List Char) : Lexes s [] (trivia.skip s) := by
  induction s with
  | nil => exact .nil []
  | cons c s ih =>
      cases hc : isInk c with
      | true => rw [skip_ink hc]; exact .nil _
      | false => rw [skip_blank hc]; exact .blank (isInk_eq_false_iff.1 hc) ih

theorem Lexes.append (h : Lexes s ts t) (h' : Lexes t us u) : Lexes s (ts ++ us) u := by
  induction h with
  | nil s => exact h'
  | blank hc _ ih => exact .blank hc (ih h')
  | token hw hlongest _ ih => exact .token hw hlongest (ih h')

theorem Lexes.split (h : Lexes s (ts ++ us) u) : ∃ t, Lexes s ts t ∧ Lexes t us u := by
  generalize hrow : ts ++ us = row at h
  induction h generalizing ts with
  | nil s =>
      obtain ⟨rfl, rfl⟩ := List.append_eq_nil_iff.1 hrow
      exact ⟨s, .nil s, .nil s⟩
  | @blank c s u row hc _ ih =>
      obtain ⟨t, hts, hus⟩ := ih hrow
      exact ⟨t, .blank hc hts, hus⟩
  | @token token w s u row hw hlongest hrest ih =>
      cases ts with
      | nil => exact ⟨_, .nil _, by rw [← List.nil_append us, hrow]; exact .token hw hlongest hrest⟩
      | cons token' ts =>
          cases hrow
          obtain ⟨t, hts, hus⟩ := ih rfl
          exact ⟨t, .token hw hlongest hts, hus⟩

theorem Lexes.skip_eq (h : Lexes s [] t) : trivia.skip s = trivia.skip t := by
  generalize hrow : [] = row at h
  induction h with
  | nil s => rfl
  | blank hc _ ih => rw [skip_blank (isInk_eq_false_iff.2 hc), ih hrow]
  | token _ _ _ _ => cases hrow

/-! ## The first character of a token -/

/-- The sorts of tokens. -/
inductive Token.Sort
  | sign | literal | digits | name
  deriving DecidableEq

def Token.sort : Token → Token.Sort
  | .sign _ => .sign
  | .literal _ => .literal
  | .digits _ => .digits
  | .name _ => .name

/-- The sort of the tokens that begin with a character. -/
def Token.sortOf? (c : Char) : Option Token.Sort :=
  if c.isAlpha then some .name
  else if c.isDigit then some .digits
  else if c == '\'' || c == '"' then some .literal
  else if signs.any (·.toList.head? == some c) then some .sign
  else none

theorem isAlpha_of_isDigit (h : c.isDigit = true) : c.isAlpha = false := by
  obtain ⟨-, hmax⟩ := Bool.and_eq_true_iff.1 h
  have hle : c.val ≤ '9'.val := of_decide_eq_true hmax
  have hupper : c.isUpper = false :=
    decide_eq_false fun hc => absurd (Nat.le_trans hc.1 hle) (by decide)
  have hlower : decide ('a'.val ≤ c.val) = false :=
    decide_eq_false fun hc => absurd (Nat.le_trans hc hle) (by decide)
  exact Bool.or_eq_false_iff.2 ⟨hupper, Bool.and_eq_false_iff.2 (.inl hlower)⟩

theorem Token.Spells.exists_cons (h : token.Spells w) :
    ∃ c v, w = c :: v ∧ sortOf? c = some token.sort := by
  cases h with
  | @sign text htext =>
      have hall : ∀ text ∈ signs, text.toList.head?.bind sortOf? = some .sign := by
        decide
      cases hchars : text.toList with
      | nil => have := hall text htext; rw [hchars] at this; cases this
      | cons c v => exact ⟨c, v, rfl, by have := hall text htext; rwa [hchars] at this⟩
  | @literal value quote hquote _ => exact ⟨quote, _, rfl, by obtain rfl | rfl := hquote <;> rfl⟩
  | digits hne hdigits =>
      obtain ⟨c, v, hv⟩ := List.exists_cons_of_ne_nil hne
      have hc := hdigits c (hv ▸ List.mem_cons_self)
      exact ⟨c, v, hv, by rw [sortOf?, isAlpha_of_isDigit hc, hc]; rfl⟩
  | name hname =>
      obtain ⟨c, v, hv, hc, -⟩ := hname
      exact ⟨c, v, hv, by rw [sortOf?, hc]; rfl⟩

/-- Tokens do not begin with a blank. -/
theorem Token.Spells.skip (h : token.Spells w) (s : List Char) :
    trivia.skip (w ++ s) = w ++ s := by
  obtain ⟨c, v, rfl, hc⟩ := h.exists_cons
  refine skip_ink ?_ (v ++ s)
  cases hink : isInk c with
  | true => rfl
  | false =>
      simp only [isInk_eq_false_iff, List.mem_cons, List.not_mem_nil, or_false] at hink
      rcases hink with rfl | rfl | rfl | rfl <;> cases hc

/-- A row of tokens begins behind the blanks with its first token. -/
theorem lexes_cons_iff :
    Lexes s (token :: ts) u ↔
      ∃ w t, trivia.skip s = w ++ t ∧ token.Spells w ∧ Longest w t ∧ Lexes t ts u := by
  constructor
  · intro h
    generalize hrow : token :: ts = row at h
    induction h with
    | nil s => cases hrow
    | blank hc _ ih => rw [skip_blank (isInk_eq_false_iff.2 hc)]; exact ih hrow
    | token hw hlongest hrest _ => cases hrow; exact ⟨_, _, hw.skip _, hw, hlongest, hrest⟩
  · rintro ⟨w, t, hskip, hw, hlongest, hrest⟩
    have hlexes : Lexes (trivia.skip s) (token :: ts) u := hskip ▸ .token hw hlongest hrest
    exact (lexes_skip s).append hlexes

/-- Tokens at the same place are of one sort. -/
theorem Token.Spells.sort_eq {token' : Token} (h : token.Spells w) (h' : token'.Spells v)
    (hv : v <+: w ++ s) : token'.sort = token.sort := by
  obtain ⟨c, w, rfl, hc⟩ := h.exists_cons
  obtain ⟨d, v, rfl, hd⟩ := h'.exists_cons
  obtain ⟨x, hx⟩ := hv
  obtain ⟨rfl, -⟩ := List.cons.inj hx
  rw [hd] at hc
  exact Option.some.inj hc

/-! ## How long tokens are -/

/-- A front of a text that is longer than another one takes in the next character. -/
theorem exists_head_of_longer (hv : v <+: w ++ s) (hlt : w.length < v.length) :
    ∃ d ∈ s.head?, w ++ [d] <+: v := by
  obtain ⟨y, rfl⟩ := List.prefix_of_prefix_length_le (List.prefix_append w s) hv (Nat.le_of_lt hlt)
  have hys : y <+: s := (List.prefix_append_right_inj w).1 hv
  cases y with
  | nil => simp at hlt
  | cons d y =>
      obtain ⟨x, rfl⟩ := hys
      exact ⟨d, rfl, y, by simp⟩

theorem spells_name (hw : IsName w) : Token.Spells (.name (String.ofList w)) w := by
  have h := @Token.Spells.name (String.ofList w) (by rwa [String.toList_ofList])
  rwa [String.toList_ofList] at h

theorem spells_digits (hne : w ≠ []) (hw : ∀ c ∈ w, c.isDigit = true) :
    Token.Spells (.digits (String.ofList w)) w := by
  have h := @Token.Spells.digits (String.ofList w) (by rwa [String.toList_ofList])
    (by rwa [String.toList_ofList])
  rwa [String.toList_ofList] at h

/-- A name ends where the next character is none of a name. -/
theorem longest_name (hw : IsName w) : Longest w s ↔ StopsName s := by
  constructor
  · intro h d hd
    refine Bool.eq_false_iff.2 fun hchar => ?_
    obtain ⟨s, rfl⟩ : ∃ s', s = d :: s' := List.head?_eq_some_iff.1 hd
    have hlonger : IsName (w ++ [d]) := by
      obtain ⟨c, cs, rfl, hc, hcs⟩ := hw
      exact ⟨c, cs ++ [d], rfl, hc, by simp [hcs, hchar]⟩
    have hle := h _ _ (spells_name hlonger) ⟨s, by simp⟩
    rw [List.length_append] at hle
    exact absurd hle (Nat.not_succ_le_self _)
  · intro hs token v hv hvs
    refine Nat.le_of_not_lt fun hlt => ?_
    obtain ⟨d, hd, x, rfl⟩ := exists_head_of_longer hvs hlt
    have hsort := (spells_name hw).sort_eq hv hvs
    generalize hword : w ++ [d] ++ x = word at hv
    cases hv with
    | name hname =>
        obtain ⟨c, cs, htext, hc, hcs⟩ := hname
        obtain ⟨e, w, rfl, -⟩ := hw
        rw [htext] at hword
        obtain ⟨-, rfl⟩ := List.cons.inj hword
        have hchar := List.all_eq_true.1 hcs d (by simp)
        rw [hs d hd] at hchar
        cases hchar
    | _ => cases hsort

/-- A row of digits ends where the next character is no digit. -/
theorem longest_digits (hne : w ≠ []) (hw : ∀ c ∈ w, c.isDigit = true) :
    Longest w s ↔ ∀ d ∈ s.head?, d.isDigit = false := by
  constructor
  · intro h d hd
    refine Bool.eq_false_iff.2 fun hdigit => ?_
    obtain ⟨s, rfl⟩ : ∃ s', s = d :: s' := List.head?_eq_some_iff.1 hd
    have hlonger : ∀ c ∈ w ++ [d], c.isDigit = true :=
      List.forall_mem_append.2 ⟨hw, List.forall_mem_singleton.2 hdigit⟩
    have hle := h _ _ (spells_digits (by simp) hlonger) ⟨s, by simp⟩
    rw [List.length_append] at hle
    exact absurd hle (Nat.not_succ_le_self _)
  · intro hs token v hv hvs
    refine Nat.le_of_not_lt fun hlt => ?_
    obtain ⟨d, hd, x, rfl⟩ := exists_head_of_longer hvs hlt
    have hsort := (spells_digits hne hw).sort_eq hv hvs
    generalize hword : w ++ [d] ++ x = word at hv
    cases hv with
    | digits _ hdigits =>
        have hdigit := hdigits d (by rw [← hword]; simp)
        rw [hs d hd] at hdigit
        cases hdigit
    | _ => cases hsort

/-- A literal ends with the first quote that is the same as its first character. -/
theorem longest_literal {value : String} {quote : Char} (hquote : quote = '\'' ∨ quote = '"')
    (hvalue : quote ∉ value.toList) : Longest (quote :: (value.toList ++ [quote])) s := by
  intro token v hv hvs
  refine Nat.le_of_not_lt fun hlt => ?_
  obtain ⟨d, -, x, hx⟩ := exists_head_of_longer hvs hlt
  have hsort := (Token.Spells.literal hquote hvalue).sort_eq hv hvs
  cases hv with
  | @literal value' quote' _ hvalue' =>
      obtain ⟨rfl, hx⟩ := List.cons.inj hx
      -- The quote would stand inside the longer literal.
      have hinside : value.toList ++ [quote] <+: value'.toList := by
        have hfront : value.toList ++ [quote] <+: value'.toList ++ [quote] :=
          ⟨d :: x, by rw [← hx]; simp⟩
        refine List.prefix_of_prefix_length_le hfront (List.prefix_append _ _) ?_
        · simp only [List.length_append, List.length_cons, List.length_nil] at hlt ⊢
          omega
      exact hvalue' (hinside.subset (by simp))
  | _ => cases hsort

/-- Two slashes are one sign, and so are two dots. All other signs end where they do. -/
theorem longest_sign {text : String} (h : text ∈ signs) :
    Longest text.toList s ↔ (text = "/" → '/' ∉ s.head?) ∧ (text = "." → '.' ∉ s.head?) := by
  constructor
  · intro hlongest
    have hdouble : ∀ d ∈ s.head?, String.ofList (text.toList ++ [d]) ∉ signs := by
      intro d hd hsign
      obtain ⟨s, rfl⟩ : ∃ s', s = d :: s' := List.head?_eq_some_iff.1 hd
      have hspells := Token.Spells.sign hsign
      rw [String.toList_ofList] at hspells
      have hle := hlongest _ _ hspells ⟨s, by simp⟩
      rw [List.length_append] at hle
      exact absurd hle (Nat.not_succ_le_self _)
    constructor
    · rintro rfl hd
      exact hdouble '/' hd (by decide)
    · rintro rfl hd
      exact hdouble '.' hd (by decide)
  · rintro ⟨hslash, hdot⟩ token v hv hvs
    refine Nat.le_of_not_lt fun hlt => ?_
    obtain ⟨d, hd, hlonger⟩ := exists_head_of_longer hvs hlt
    have hsort := (Token.Spells.sign h).sort_eq hv hvs
    have hall : ∀ a ∈ signs, ∀ b ∈ signs, a.toList.length < b.toList.length →
        a.toList <+: b.toList → a = "/" ∧ b = "//" ∨ a = "." ∧ b = ".." := by decide
    cases hv with
    | @sign text' htext' =>
        have hfront := (List.prefix_append text.toList [d]).trans hlonger
        obtain ⟨rfl, rfl⟩ | ⟨rfl, rfl⟩ := hall text h text' htext' hlt hfront
        · obtain ⟨x, hx⟩ := hlonger
          cases hx
          exact hslash rfl hd
        · obtain ⟨x, hx⟩ := hlonger
          cases hx
          exact hdot rfl hd
    | _ => cases hsort

/-! ## Rows of tokens and their texts -/

theorem Token.Spells.unique {token' : Token} (h : token.Spells w) (h' : token'.Spells w) :
    token = token' := by
  have hsort := h.sort_eq h' (List.prefix_append w [])
  generalize hword : w = v at h'
  cases h with
  | sign _ =>
      cases h' with
      | sign _ => rw [String.toList_inj.1 hword]
      | _ => cases hsort
  | digits _ _ =>
      cases h' with
      | digits _ _ => rw [String.toList_inj.1 hword]
      | _ => cases hsort
  | name _ =>
      cases h' with
      | name _ => rw [String.toList_inj.1 hword]
      | _ => cases hsort
  | literal _ _ =>
      cases h' with
      | literal _ _ =>
          obtain ⟨rfl, hvalue⟩ := List.cons.inj hword
          rw [String.toList_inj.1 (List.append_cancel_right hvalue)]
      | _ => cases hsort

/-- There is one way to cut a text into tokens. -/
theorem Lexes.unique (h : Lexes s ts []) (h' : Lexes s us []) : ts = us := by
  induction ts generalizing s us with
  | nil =>
      cases us with
      | nil => rfl
      | cons token us =>
          obtain ⟨w, t, hskip, hw, -, -⟩ := lexes_cons_iff.1 h'
          obtain ⟨c, v, rfl, -⟩ := hw.exists_cons
          rw [h.skip_eq] at hskip
          cases hskip
  | cons token ts ih =>
      obtain ⟨w, t, hskip, hw, hlongest, hts⟩ := lexes_cons_iff.1 h
      cases us with
      | nil =>
          obtain ⟨c, v, rfl, -⟩ := hw.exists_cons
          rw [h'.skip_eq] at hskip
          cases hskip
      | cons token' us =>
          obtain ⟨v, x, hskip', hv, hlongest', hus⟩ := lexes_cons_iff.1 h'
          have heq : w ++ t = v ++ x := hskip.symm.trans hskip'
          have hle := hlongest token' v hv ⟨x, heq.symm⟩
          have hge := hlongest' token w hw ⟨t, heq⟩
          obtain ⟨rfl, rfl⟩ := List.append_inj heq (Nat.le_antisymm hge hle)
          rw [hw.unique hv, ih hts hus]

/-- Where a row of tokens begins there is one first token. -/
theorem Lexes.first_unique {token' : Token} (h : Lexes s (token :: ts) t)
    (h' : Lexes s [token'] u) : ∃ v, trivia.skip u = trivia.skip v ∧ Lexes v ts t := by
  obtain ⟨w, x, hskip, hw, hlongest, hx⟩ := lexes_cons_iff.1 h
  obtain ⟨v, y, hskip', hv, hlongest', hy⟩ := lexes_cons_iff.1 h'
  have heq : w ++ x = v ++ y := hskip.symm.trans hskip'
  have hle := hlongest token' v hv ⟨y, heq.symm⟩
  have hge := hlongest' token w hw ⟨x, heq⟩
  obtain ⟨rfl, rfl⟩ := List.append_inj heq (Nat.le_antisymm hge hle)
  exact ⟨x, hy.skip_eq.symm, hx⟩

theorem Lexes.leading (h : Lexes (grammar.between .spaced s) ts t) : Lexes s ts t :=
  (lexes_skip s).append h

theorem lexes_name (hw : IsName w) (ht : StopsName t) :
    Lexes (w ++ t) [.name (String.ofList w)] t :=
  .token (spells_name hw) ((longest_name hw).2 ht) (.nil t)

theorem lexes_sign {text : String} (h : text ∈ signs) (hslash : text = "/" → '/' ∉ t.head?)
    (hdot : text = "." → '.' ∉ t.head?) : Lexes (text.toList ++ t) [.sign text] t :=
  .token (.sign h) ((longest_sign h).2 ⟨hslash, hdot⟩) (.nil t)

theorem Lexes.name_cons {x : String} (h : Lexes s (.name x :: ts) u) :
    ∃ t, grammar.between .spaced s = x.toList ++ t ∧ Lexes s [.name x] t ∧ IsName x.toList ∧
      StopsName t ∧ Lexes t ts u := by
  obtain ⟨w, t, hskip, hw, hlongest, hrest⟩ := lexes_cons_iff.1 h
  have hfirst := lexes_cons_iff.2 ⟨w, t, hskip, hw, hlongest, .nil t⟩
  cases hw with
  | name hname => exact ⟨t, hskip, hfirst, hname, (longest_name hname).1 hlongest, hrest⟩

theorem Lexes.digits_cons {x : String} (h : Lexes s (.digits x :: ts) u) :
    ∃ t, grammar.between .spaced s = x.toList ++ t ∧ x.toList ≠ [] ∧
      (∀ c ∈ x.toList, c.isDigit = true) ∧ (∀ d ∈ t.head?, d.isDigit = false) ∧ Lexes t ts u := by
  obtain ⟨w, t, hskip, hw, hlongest, hrest⟩ := lexes_cons_iff.1 h
  cases hw with
  | digits hne hdigits =>
      exact ⟨t, hskip, hne, hdigits, (longest_digits hne hdigits).1 hlongest, hrest⟩

theorem Lexes.sign_cons {text : String} (h : Lexes s (.sign text :: ts) u) :
    ∃ t, grammar.between .spaced s = text.toList ++ t ∧ Lexes s [.sign text] t ∧
      (text = "/" → '/' ∉ t.head?) ∧ (text = "." → '.' ∉ t.head?) ∧ Lexes t ts u := by
  obtain ⟨w, t, hskip, hw, hlongest, hrest⟩ := lexes_cons_iff.1 h
  have hfirst := lexes_cons_iff.2 ⟨w, t, hskip, hw, hlongest, .nil t⟩
  cases hw with
  | sign htext =>
      obtain ⟨hslash, hdot⟩ := (longest_sign htext).1 hlongest
      exact ⟨t, hskip, hfirst, hslash, hdot, hrest⟩

theorem Lexes.literal_cons {value : String} (h : Lexes s (.literal value :: ts) u) :
    ∃ quote t, grammar.between .spaced s = quote :: (value.toList ++ quote :: t) ∧
      (quote = '\'' ∨ quote = '"') ∧ quote ∉ value.toList ∧ Lexes t ts u := by
  obtain ⟨w, t, hskip, hw, -, hrest⟩ := lexes_cons_iff.1 h
  cases hw with
  | @literal _ quote hquote hvalue =>
      refine ⟨quote, t, hskip.trans ?_, hquote, hvalue, hrest⟩
      rw [List.cons_append, List.append_assoc]
      rfl

end FeatureTree.Traversal
