import Mathlib.Logic.Relation
import FeatureTree.Proofs.Grammar.Beginnings
import FeatureTree.Proofs.Grammar.Words

/-!
# Balanced text

Groups are matched by rules that call each other: a group is a bracket, as many pieces as
there are, and the bracket that closes it; a piece is a group, a literal, a comment or a
plain character. A scan reads the same text in one pass with a stack of the brackets that
are open, and never goes back.

The two agree because nothing rescues a group that fails. Where a piece fails, so does
every group around it: its pieces end there, and what stands there is not the bracket that
closes it. So a scan from behind a bracket gets to where the group ends with the stack as
it was, or else it gets stuck (`settles_group`, by induction on the text).
-/

namespace FeatureTree

/-- A pair of brackets. -/
inductive Bracket
  | brace | paren | square
  deriving DecidableEq, Repr

namespace Bracket

/-- All pairs of brackets. -/
def all : List Bracket := [.brace, .paren, .square]

theorem mem_all (b : Bracket) : b ∈ all := by cases b <;> decide

/-- The opening bracket. -/
def opener : Bracket → Char
  | .brace => '\x7b'
  | .paren => '('
  | .square => '['

/-- The closing bracket. -/
def closer : Bracket → Char
  | .brace => '\x7d'
  | .paren => ')'
  | .square => ']'

/-- The pair that a character opens. -/
def ofOpener? (c : Char) : Option Bracket := all.find? (c == ·.opener)

/-- The pair that a character closes. -/
def ofCloser? (c : Char) : Option Bracket := all.find? (c == ·.closer)

@[simp] theorem ofOpener?_opener (b : Bracket) : ofOpener? b.opener = some b := by cases b <;> rfl

@[simp] theorem ofOpener?_closer (b : Bracket) : ofOpener? b.closer = none := by cases b <;> rfl

@[simp] theorem ofCloser?_closer (b : Bracket) : ofCloser? b.closer = some b := by cases b <;> rfl

theorem eq_opener {c : Char} {b : Bracket} (h : ofOpener? c = some b) : c = b.opener := by
  rw [ofOpener?] at h
  exact beq_iff_eq.1 (List.find?_some (p := (c == opener ·)) h)

theorem eq_closer {c : Char} {b : Bracket} (h : ofCloser? c = some b) : c = b.closer := by
  rw [ofCloser?] at h
  exact beq_iff_eq.1 (List.find?_some (p := (c == closer ·)) h)

theorem opener_inj {b b' : Bracket} (h : b.opener = b'.opener) : b = b' := by
  have hb := ofOpener?_opener b
  rw [h, ofOpener?_opener] at hb
  exact (Option.some.inj hb).symm

theorem closer_inj {b b' : Bracket} (h : b.closer = b'.closer) : b = b' := by
  have hb := ofCloser?_closer b
  rw [h, ofCloser?_closer] at hb
  exact (Option.some.inj hb).symm

theorem opener_ne_closer (b b' : Bracket) : b.opener ≠ b'.closer := by
  intro h
  have hb := ofOpener?_opener b
  rw [h, ofOpener?_closer] at hb
  cases hb

end Bracket

/-- A quote, which begins a literal or is a mistake. -/
def isQuote (c : Char) : Bool := c == '"' || c == '\''

/-- Neither a bracket nor a quote. -/
def isPlain (c : Char) : Bool :=
  (Bracket.ofOpener? c).isNone && (Bracket.ofCloser? c).isNone && !isQuote c

/-- A scan of balanced text under way: the brackets that are open, the last one first, and
the text ahead. -/
structure BracketScan where
  stack : List Bracket
  rest : List Char
  deriving DecidableEq, Repr

namespace BracketScan

variable {literal? : List Char → Option (List Char)} {st st' : BracketScan}
  {top : Bracket} {stack : List Bracket} {s t : List Char} {c : Char}
  {u? : Option (List Char)}

/-- One step, where `literal?` drops the literal or comment at the front of a text. Brackets
that open go on the stack; literals and comments are dropped as a whole; a bracket that
closes takes the one off the stack that it fits; other characters are passed over, quotes
apart. There is no step from an empty stack, nor at the end of the text. -/
def step (literal? : List Char → Option (List Char)) : BracketScan → Option BracketScan
  | ⟨top :: stack, c :: s⟩ =>
    match Bracket.ofOpener? c, literal? (c :: s), Bracket.ofCloser? c with
    | some b, _, _ => some ⟨b :: top :: stack, s⟩
    | none, some rest, _ => some ⟨top :: stack, rest⟩
    | none, none, some b => if b = top then some ⟨stack, s⟩ else none
    | none, none, none => if isQuote c then none else some ⟨top :: stack, s⟩
  | _ => none

/-- Where the scan ends that starts at the brace in front of a text: where the stack is
empty. Each step takes at least one character. -/
def run? (literal? : List Char → Option (List Char)) : List Char → Option (List Char)
  | '\x7b' :: s =>
    match Text.iterate (step literal?) s ⟨[.brace], s⟩ with
    | ⟨[], rest⟩ => some rest
    | _ => none
  | _ => none

/-- The scan fails: the text ends, a bracket closes that does not fit, or a quote begins no
literal. -/
def Stuck (literal? : List Char → Option (List Char)) : BracketScan → Prop
  | ⟨[], _⟩ => False
  | ⟨_ :: _, []⟩ => True
  | ⟨top :: _, c :: s⟩ =>
    literal? (c :: s) = none ∧ ((∃ b, Bracket.ofCloser? c = some b ∧ b ≠ top) ∨ isQuote c = true)

/-- The scan gets from one state to another. -/
def Reaches (literal? : List Char → Option (List Char)) : BracketScan → BracketScan → Prop :=
  Relation.ReflTransGen fun st st' => step literal? st = some st'

theorem step_cons : step literal? ⟨top :: stack, c :: s⟩ =
    match Bracket.ofOpener? c, literal? (c :: s), Bracket.ofCloser? c with
    | some b, _, _ => some ⟨b :: top :: stack, s⟩
    | none, some rest, _ => some ⟨top :: stack, rest⟩
    | none, none, some b => if b = top then some ⟨stack, s⟩ else none
    | none, none, none => if isQuote c then none else some ⟨top :: stack, s⟩ := rfl

theorem step_opener (b : Bracket) :
    step literal? ⟨top :: stack, b.opener :: s⟩ = some ⟨b :: top :: stack, s⟩ := by
  rw [step_cons, Bracket.ofOpener?_opener]

theorem step_literal (hc : Bracket.ofOpener? c = none) (h : literal? (c :: s) = some t) :
    step literal? ⟨top :: stack, c :: s⟩ = some ⟨top :: stack, t⟩ := by
  rw [step_cons, hc, h]

theorem step_closer (hliteral : literal? (top.closer :: s) = none) :
    step literal? ⟨top :: stack, top.closer :: s⟩ = some ⟨stack, s⟩ := by
  rw [step_cons, Bracket.ofOpener?_closer, hliteral, Bracket.ofCloser?_closer]
  exact if_pos rfl

theorem step_plain (hliteral : literal? (c :: s) = none) (hplain : isPlain c = true) :
    step literal? ⟨top :: stack, c :: s⟩ = some ⟨top :: stack, s⟩ := by
  simp only [isPlain, Bool.and_eq_true, Option.isNone_iff_eq_none, Bool.not_eq_true'] at hplain
  obtain ⟨⟨hopener, hcloser⟩, hquote⟩ := hplain
  rw [step_cons, hopener, hliteral, hcloser]
  exact if_neg (by rw [hquote]; exact Bool.false_ne_true)

theorem Stuck.step_eq_none (h : st.Stuck literal?) : step literal? st = none := by
  obtain ⟨_ | ⟨top, stack⟩, _ | ⟨c, s⟩⟩ := st
  · rfl
  · rfl
  · rfl
  · obtain ⟨hliteral, ⟨b, hb, hne⟩ | hquote⟩ := h
    · obtain rfl := Bracket.eq_closer hb
      rw [step_cons, Bracket.ofOpener?_closer, hliteral, hb]
      exact if_neg hne
    · obtain rfl | rfl : c = '"' ∨ c = '\'' := by simpa [isQuote] using hquote
      · rw [step_cons, hliteral]
        rfl
      · rw [step_cons, hliteral]
        rfl

theorem step_lt (hdrops : Text.Drops literal?) (h : step literal? st = some st') :
    st'.rest.length < st.rest.length := by
  obtain ⟨_ | ⟨top, stack⟩, _ | ⟨c, s⟩⟩ := st
  · cases h
  · cases h
  · cases h
  · rw [step_cons] at h
    split at h
    · cases h
      exact Nat.lt_succ_self _
    · next hliteral =>
        cases h
        exact (hdrops _ _ hliteral).2
    · split at h
      · cases h
        exact Nat.lt_succ_self _
      · cases h
    · split at h
      · cases h
      · cases h
        exact Nat.lt_succ_self _

theorem reaches_iterate {α : Type} (bound : List α) (st : BracketScan) :
    Reaches literal? st (Text.iterate (step literal?) bound st) := by
  induction bound generalizing st with
  | nil => exact .refl
  | cons _ bound ih =>
      rw [Text.iterate]
      cases h : step literal? st with
      | none => exact .refl
      | some st' => exact .head h (ih st')

/-- A scan that is over has come to its one end. -/
theorem iterate_of_reaches {α : Type} (hdrops : Text.Drops literal?) (h : Reaches literal? st st')
    (hstop : step literal? st' = none) {bound : List α} (hbound : st.rest.length ≤ bound.length) :
    Text.iterate (step literal?) bound st = st' := by
  induction h using Relation.ReflTransGen.head_induction_on generalizing bound with
  | refl =>
      cases bound with
      | nil => rfl
      | cons _ bound => rw [Text.iterate, hstop]
  | head hstep _ ih =>
      have hlt := step_lt hdrops hstep
      cases bound with
      | nil => rw [List.length_nil] at hbound; omega
      | cons _ bound =>
          rw [List.length_cons] at hbound
          rw [Text.iterate, hstep]
          exact ih (by omega)

theorem run?_eq_some_iff (hdrops : Text.Drops literal?) :
    run? literal? ('\x7b' :: s) = some t ↔ Reaches literal? ⟨[.brace], s⟩ ⟨[], t⟩ := by
  constructor
  · intro h
    rw [run?] at h
    split at h
    · next rest hend =>
        cases h
        rw [← hend]
        exact reaches_iterate s ⟨[.brace], s⟩
    · cases h
  · intro h
    rw [run?, iterate_of_reaches hdrops h rfl (Nat.le_refl s.length)]

/-- How a scan from behind an opening bracket settles: with the stack as it was in front of
the bracket, at the text that is given, or else it gets stuck. -/
def Settles (literal? : List Char → Option (List Char)) (st : BracketScan) :
    Option (List Char) → Prop
  | some t => Reaches literal? st ⟨st.stack.tail, t⟩
  | none => ∃ st', Reaches literal? st st' ∧ st'.Stuck literal?

theorem Settles.of_reaches
    (hreaches : Reaches literal? ⟨stack, s⟩ ⟨stack, t⟩)
    (h : Settles literal? ⟨stack, t⟩ u?) : Settles literal? ⟨stack, s⟩ u? := by
  cases u? with
  | some u => exact hreaches.trans h
  | none =>
      obtain ⟨st, hst, hstuck⟩ := h
      exact ⟨st, hreaches.trans hst, hstuck⟩

theorem Settles.of_stuck (h : st.Stuck literal?) : Settles literal? st none := ⟨st, .refl, h⟩

/-- Where a bracket closes or a quote is wrong, the scan settles at once. -/
theorem settles_closer (b : Bracket) (stack : List Bracket) (hopener : Bracket.ofOpener? c = none)
    (hliteral : literal? (c :: s) = none) (hplain : isPlain c = false) :
    Settles literal? ⟨b :: stack, c :: s⟩ (Text.after? [b.closer] (c :: s)) := by
  cases hcloser : Bracket.ofCloser? c with
  | some b' =>
      obtain rfl := Bracket.eq_closer hcloser
      by_cases hb : b' = b
      · subst hb
        rw [Text.after?, if_pos rfl]
        exact .single (step_closer hliteral)
      · rw [Text.after?, if_neg fun h => hb (Bracket.closer_inj h).symm]
        exact .of_stuck ⟨hliteral, .inl ⟨b', hcloser, hb⟩⟩
  | none =>
      have hquote : isQuote c = true := by simpa [isPlain, hopener, hcloser] using hplain
      have hc : b.closer ≠ c := by
        rintro rfl
        rw [Bracket.ofCloser?_closer] at hcloser
        cases hcloser
      rw [Text.after?, if_neg hc]
      exact .of_stuck ⟨hliteral, .inr hquote⟩

theorem run?_eq_none_of_stuck (hdrops : Text.Drops literal?)
    (h : Reaches literal? ⟨[.brace], s⟩ st) (hstuck : st.Stuck literal?) :
    run? literal? ('\x7b' :: s) = none := by
  rw [run?, iterate_of_reaches hdrops h hstuck.step_eq_none (Nat.le_refl s.length)]
  obtain ⟨_ | ⟨top, stack⟩, t⟩ := st
  · exact hstuck.elim
  · rfl

/-- A scan that settles ends where it is said to, and nowhere else. -/
theorem Settles.run?_eq (hdrops : Text.Drops literal?)
    (h : Settles literal? ⟨[.brace], s⟩ u?) : run? literal? ('\x7b' :: s) = u? := by
  cases u? with
  | some t => exact (run?_eq_some_iff hdrops).2 h
  | none =>
      obtain ⟨st, hst, hstuck⟩ := h
      exact run?_eq_none_of_stuck hdrops hst hstuck

/-- A scan that settles ends nowhere exactly if it gets stuck. -/
theorem Settles.eq_none_iff (hdrops : Text.Drops literal?)
    (h : Settles literal? ⟨[.brace], s⟩ u?) :
    u? = none ↔ ∃ st, Reaches literal? ⟨[.brace], s⟩ st ∧ st.Stuck literal? := by
  constructor
  · rintro rfl
    exact h
  · rintro ⟨st, hst, hstuck⟩
    rw [← h.run?_eq hdrops]
    exact run?_eq_none_of_stuck hdrops hst hstuck

/-- A scan passes over a literal or comment, whatever is in it. -/
theorem reaches_literal (hdrops : Text.Drops literal?)
    (hopener : ∀ (b : Bracket) s, literal? (b.opener :: s) = none) (hst : st.stack ≠ [])
    (h : literal? st.rest = some t) : Reaches literal? st ⟨st.stack, t⟩ := by
  obtain ⟨_ | ⟨top, stack⟩, _ | ⟨c, u⟩⟩ := st
  · exact absurd rfl hst
  · exact absurd rfl hst
  · exact absurd (hdrops _ _ h).2 (Nat.not_lt_zero _)
  · refine .single (step_literal ?_ h)
    cases hc : Bracket.ofOpener? c with
    | none => rfl
    | some b =>
        obtain rfl := Bracket.eq_opener hc
        rw [hopener] at h
        cases h

end BracketScan

/-! ## What matches leave -/

namespace Grammar

variable {R : Type} {g : Grammar R} {r piece : R} {a e : Expr R} {group : Bracket → R}
  {literals : List R} {s t u : List Char} {c : Char} {b : Bracket} {stack : List Bracket}

/-- What the match of an expression leaves inside a token. -/
def leaves (g : Grammar R) (e : Expr R) (s : List Char) : Option (List Char) :=
  (g.matchExpr e .token s).map (·.1)

theorem leaves_eq_some_iff : g.leaves e s = some t ↔ ∃ f, g.matchExpr e .token s = some (t, f) := by
  rw [leaves, Option.map_eq_some_iff]
  constructor
  · rintro ⟨⟨t', f⟩, hmatch, rfl⟩
    exact ⟨f, hmatch⟩
  · rintro ⟨f, hmatch⟩
    exact ⟨_, hmatch, rfl⟩

theorem leaves_text (word s : List Char) : g.leaves (.text word) s = Text.after? word s := by
  rw [leaves, matchExpr, eval]
  cases Text.after? word s <;> rfl

theorem leaves_both (a e : Expr R) (s : List Char) :
    g.leaves (.both a e) s = (g.leaves a s).bind (g.leaves e) := by
  cases ha : g.matchExpr a .token s with
  | none => rw [leaves, leaves, ha, matchExpr_both_none ha, Option.map_none, Option.bind_none]
  | some found =>
      obtain ⟨u, f⟩ := found
      rw [leaves, leaves, ha, Option.map_some, Option.bind_some, leaves]
      cases he : g.matchExpr e .token u with
      | none => rw [matchExpr_both_none_right ha he]
      | some found' => rw [matchExpr_both ha he]; rfl

theorem leaves_choice (es : List (Expr R)) (s : List Char) :
    g.leaves (.choice es) s = es.findSome? (g.leaves · s) := by
  rw [leaves, matchExpr_choice, List.map_findSome?]
  rfl

theorem leaves_notAhead (a : Expr R) (s : List Char) :
    g.leaves (.notAhead a) s = if (g.leaves a s).isSome = true then none else some s := by
  cases ha : g.matchExpr a .token s with
  | none => rw [leaves, leaves, ha, matchExpr_notAhead ha]; rfl
  | some found => rw [leaves, leaves, ha, matchExpr_notAhead_none ha]; rfl

theorem leaves_opt_eq (a : Expr R) (s : List Char) :
    g.leaves (.opt a) s = some ((g.leaves a s).getD s) := by
  cases ha : g.matchExpr a .token s with
  | none => rw [leaves, leaves, ha, matchExpr_opt_none ha]; rfl
  | some found => rw [leaves, leaves, ha, matchExpr_opt ha]; rfl

/-- A token leaves what its body leaves, whoever calls it. -/
theorem map_matchRule_token (hg : g.Ranked) (hr : g.layout r = .token) (l : Layout)
    (s : List Char) : (g.matchRule r l s).map (·.1) = g.leaves (g.body r) s := by
  have hinside : l.inside .token = .token := by cases l <;> rfl
  rw [matchRule_eq hg, hr, hinside, leaves, Option.map_map]
  rfl

theorem leaves_rule (hg : g.Ranked) (hr : g.layout r = .token) (s : List Char) :
    g.leaves (.rule r) s = g.leaves (g.body r) s := map_matchRule_token hg hr .token s

theorem leaves_star_of_some (hg : g.Ranked) (he : e.consumes g.consuming = true)
    (h : g.leaves e s = some u) : g.leaves (.star e) s = g.leaves (.star e) u := by
  obtain ⟨f, hround⟩ := leaves_eq_some_iff.1 h
  obtain ⟨⟨t, fs⟩, hstar⟩ : ∃ found, g.matchExpr (.star e) .token u = some found := by
    cases hu : g.matchExpr e .token u with
    | none => exact ⟨_, matchExpr_star hg he rfl (.none u) hu⟩
    | some found => exact ⟨_, eval_star_eq_some.2 (.inr ⟨_, _, _, hu, rfl, rfl⟩)⟩
  obtain ⟨hrounds, hstop⟩ := (matchExpr_star_iff hg he rfl).1 hstar
  rw [leaves, leaves, hstar, matchExpr_star hg he rfl (.more hround hrounds) hstop]
  rfl

theorem leaves_star_of_none (hg : g.Ranked) (he : e.consumes g.consuming = true)
    (h : g.leaves e s = none) : g.leaves (.star e) s = some s := by
  rw [leaves, matchExpr_star hg he rfl (.none s) (Option.map_eq_none_iff.1 h)]
  rfl

theorem leaves_none_of_begins {n : Nat} (hg : g.Ranked)
    (he : e.begins (g.firsts n) c = false) : g.leaves e (c :: s) = none := by
  rw [leaves, matchExpr_none_of_begins hg he rfl]
  rfl

/-! ## Groups of a grammar -/

/-- The literal or comment of the rules at the front of a text is dropped: that of the first
rule that matches. -/
def firstLiteral? (g : Grammar R) (literals : List R) (s : List Char) : Option (List Char) :=
  literals.findSome? fun r => g.leaves (.rule r) s

theorem firstLiteral_none (hg : g.Ranked) (h : ∀ r ∈ literals, g.firsts 1 r c = false) :
    g.firstLiteral? literals (c :: s) = none :=
  List.findSome?_eq_none_iff.2 fun r hr =>
    leaves_none_of_begins (n := 1) (e := .rule r) hg (h r hr)

/-- The rules of the grammar for groups, for their pieces, and for literals and comments. -/
structure Balances (g : Grammar R) (group : Bracket → R) (piece : R) (literals : List R) :
    Prop where
  ranked : g.Ranked
  layout_group : ∀ b, g.layout (group b) = .token
  layout_piece : g.layout piece = .token
  body_group : ∀ b, g.body (group b) = .seq [.text [b.opener], .star (.rule piece), .text [b.closer]]
  body_piece : g.body piece =
    .choice ((Bracket.all.map group ++ literals).map .rule ++ [Lexical.plainChar])
  consumes_piece : (Expr.rule piece).consumes g.consuming = true
  consumes_literals : ∀ r ∈ literals, g.consuming r = true
  literals_begin : ∀ r ∈ literals, ∀ b ∈ Bracket.all, g.firsts 1 r b.opener = false

theorem takesChar_plainChar : g.TakesChar Lexical.plainChar isPlain := by
  have hplain : g.TakesChar Lexical.plainChar _ :=
    ((takesChar_text '\x7b').either ((takesChar_text '\x7d').either ((takesChar_text '(').either
      ((takesChar_text ')').either ((takesChar_text '[').either ((takesChar_text ']').either
        ((takesChar_text '"').either (takesChar_text '\'')))))))).butNot
  refine (?_ : isPlain = _) ▸ hplain
  funext c
  simp only [isPlain, isQuote, Bracket.ofOpener?, Bracket.ofCloser?, ← Option.not_isSome,
    List.isSome_find?, Bracket.all, List.any_cons, List.any_nil, Bool.or_false, ← Bool.not_or,
    Bracket.opener, Bracket.closer]
  ac_rfl

theorem leaves_plainChar (c : Char) (s : List Char) :
    g.leaves Lexical.plainChar (c :: s) = if isPlain c = true then some s else none := by
  rw [leaves, takesChar_plainChar, matchExpr, eval]
  split <;> rfl

namespace Balances

variable (hb : g.Balances group piece literals)

include hb

theorem leaves_group (b : Bracket) (s : List Char) :
    g.leaves (.rule (group b)) (b.opener :: s) =
      (g.leaves (.star (.rule piece)) s).bind (Text.after? [b.closer]) := by
  rw [leaves_rule hb.ranked (hb.layout_group b), hb.body_group, Expr.seq, leaves_both, leaves_text,
    show Text.after? [b.opener] (b.opener :: s) = some s from if_pos rfl, Option.bind_some,
    Expr.seq, leaves_both]
  exact congrArg _ (funext (leaves_text _))

theorem leaves_group_of_ne (h : c ≠ b.opener) : g.leaves (.rule (group b)) (c :: s) = none := by
  rw [leaves_rule hb.ranked (hb.layout_group b), hb.body_group, Expr.seq, leaves_both, leaves_text,
    show Text.after? [b.opener] (c :: s) = none from if_neg (Ne.symm h), Option.bind_none]

/-- A group goes on behind each of its pieces. -/
theorem leaves_group_of_piece (h : g.leaves (.rule piece) s = some u) :
    g.leaves (.rule (group b)) (b.opener :: s) = g.leaves (.rule (group b)) (b.opener :: u) := by
  rw [hb.leaves_group, hb.leaves_group, leaves_star_of_some hb.ranked hb.consumes_piece h]

/-- Where no piece stands, the bracket must stand that closes the group. -/
theorem leaves_group_of_none (h : g.leaves (.rule piece) s = none) :
    g.leaves (.rule (group b)) (b.opener :: s) = Text.after? [b.closer] s := by
  rw [hb.leaves_group, leaves_star_of_none hb.ranked hb.consumes_piece h, Option.bind_some]

theorem drops_firstLiteral : Text.Drops (g.firstLiteral? literals) := by
  intro s t h
  obtain ⟨r, hr, hleaves⟩ := List.exists_of_findSome?_eq_some h
  obtain ⟨f, hmatch⟩ := leaves_eq_some_iff.1 hleaves
  obtain ⟨hsuffix, hlt⟩ := matchRule_rest hb.ranked hmatch
  exact ⟨hsuffix, hlt (hb.consumes_literals r hr)⟩

theorem firstLiteral_opener (b : Bracket) (s : List Char) :
    g.firstLiteral? literals (b.opener :: s) = none :=
  firstLiteral_none hb.ranked fun r hr => hb.literals_begin r hr b b.mem_all

theorem leaves_piece (s : List Char) :
    g.leaves (.rule piece) s =
      ((Bracket.all.findSome? fun b => g.leaves (.rule (group b)) s).or
        (g.firstLiteral? literals s)).or (g.leaves Lexical.plainChar s) := by
  rw [leaves_rule hb.ranked hb.layout_piece, hb.body_piece, leaves_choice, List.findSome?_append,
    List.findSome?_map, List.findSome?_append, List.findSome?_map, List.findSome?_singleton]
  rfl

theorem leaves_piece_nil : g.leaves (.rule piece) [] = none := by
  cases h : g.leaves (.rule piece) [] with
  | none => rfl
  | some t =>
      obtain ⟨f, hmatch⟩ := leaves_eq_some_iff.1 h
      exact absurd (matchExpr_lt hb.ranked hb.consumes_piece hmatch) (Nat.not_lt_zero _)

theorem leaves_piece_opener (b : Bracket) (s : List Char) :
    g.leaves (.rule piece) (b.opener :: s) = g.leaves (.rule (group b)) (b.opener :: s) := by
  have hothers : ∀ b', b ≠ b' → g.leaves (.rule (group b')) (b.opener :: s) = none :=
    fun b' hne => hb.leaves_group_of_ne fun h => hne (Bracket.opener_inj h)
  have hplain : isPlain b.opener = false := by cases b <;> rfl
  rw [hb.leaves_piece, hb.firstLiteral_opener, leaves_plainChar, hplain, Option.or_none]
  cases hgroup : g.leaves (.rule (group b)) (b.opener :: s) <;>
    cases b <;> simp [Bracket.all, hothers, hgroup]

theorem leaves_piece_of_none (hc : Bracket.ofOpener? c = none) (s : List Char) :
    g.leaves (.rule piece) (c :: s) =
      (g.firstLiteral? literals (c :: s)).or (if isPlain c = true then some s else none) := by
  have hgroups : (Bracket.all.findSome? fun b => g.leaves (.rule (group b)) (c :: s)) = none := by
    refine List.findSome?_eq_none_iff.2 fun b _ => hb.leaves_group_of_ne ?_
    rintro rfl
    rw [Bracket.ofOpener?_opener] at hc
    cases hc
  rw [hb.leaves_piece, hgroups, leaves_plainChar, Option.none_or]

/-- Behind a piece of the group the scan settles as it does from the rest of the text. -/
theorem settles_group_of_piece {stack : List Bracket}
    (hpiece : g.leaves (.rule piece) s = some u)
    (hreaches : BracketScan.Reaches (g.firstLiteral? literals) ⟨b :: stack, s⟩ ⟨b :: stack, u⟩)
    (hrest : u.length < s.length → BracketScan.Settles (g.firstLiteral? literals) ⟨b :: stack, u⟩
      (g.leaves (.rule (group b)) (b.opener :: u))) :
    BracketScan.Settles (g.firstLiteral? literals) ⟨b :: stack, s⟩
      (g.leaves (.rule (group b)) (b.opener :: s)) := by
  obtain ⟨f, hmatch⟩ := leaves_eq_some_iff.1 hpiece
  rw [hb.leaves_group_of_piece hpiece]
  exact .of_reaches hreaches (hrest (matchExpr_lt hb.ranked hb.consumes_piece hmatch))

/-- A group inside the group is a piece, or the scan gets stuck in it. -/
theorem settles_group_of_opener {stack : List Bracket} (b' : Bracket)
    (hinner : BracketScan.Settles (g.firstLiteral? literals) ⟨b' :: b :: stack, s⟩
      (g.leaves (.rule (group b')) (b'.opener :: s)))
    (hrest : ∀ u : List Char, u.length < (b'.opener :: s).length →
      BracketScan.Settles (g.firstLiteral? literals) ⟨b :: stack, u⟩
        (g.leaves (.rule (group b)) (b.opener :: u))) :
    BracketScan.Settles (g.firstLiteral? literals) ⟨b :: stack, b'.opener :: s⟩
      (g.leaves (.rule (group b)) (b.opener :: b'.opener :: s)) := by
  have hstep : BracketScan.step (g.firstLiteral? literals) ⟨b :: stack, b'.opener :: s⟩ =
      some ⟨b' :: b :: stack, s⟩ := BracketScan.step_opener b'
  rw [← hb.leaves_piece_opener] at hinner
  cases hpiece : g.leaves (.rule piece) (b'.opener :: s) with
  | some u =>
      rw [hpiece] at hinner
      exact hb.settles_group_of_piece hpiece (.head hstep hinner) (hrest u)
  | none =>
      rw [hpiece] at hinner
      obtain ⟨st, hst, hstuck⟩ := hinner
      rw [hb.leaves_group_of_none hpiece, Text.after?,
        if_neg (Bracket.opener_ne_closer b' b).symm]
      exact ⟨st, .head hstep hst, hstuck⟩

/-- A scan from behind a bracket settles where the group ends. The brackets that are open
around it do not matter. -/
theorem settles_group (b : Bracket) (stack : List Bracket) (s : List Char) :
    BracketScan.Settles (g.firstLiteral? literals) ⟨b :: stack, s⟩
      (g.leaves (.rule (group b)) (b.opener :: s)) := by
  generalize hn : s.length = n
  induction n using Nat.strongRecOn generalizing b stack s with
  | ind n ih =>
      have hrest : ∀ u : List Char, u.length < s.length →
          BracketScan.Settles (g.firstLiteral? literals) ⟨b :: stack, u⟩
            (g.leaves (.rule (group b)) (b.opener :: u)) :=
        fun u hlt => ih u.length (hn ▸ hlt) b stack u rfl
      cases s with
      | nil =>
          rw [hb.leaves_group_of_none hb.leaves_piece_nil]
          exact .of_stuck trivial
      | cons c s =>
          cases hopener : Bracket.ofOpener? c with
          | some b' =>
              obtain rfl := Bracket.eq_opener hopener
              have hinner := ih s.length (hn ▸ Nat.lt_succ_self _) b' (b :: stack) s rfl
              exact hb.settles_group_of_opener b' hinner hrest
          | none =>
              have hpiece := hb.leaves_piece_of_none hopener s
              cases hliteral : g.firstLiteral? literals (c :: s) with
              | some u =>
                  rw [hliteral, Option.some_or] at hpiece
                  exact hb.settles_group_of_piece hpiece
                    (.single (BracketScan.step_literal hopener hliteral)) (hrest u)
              | none =>
                  rw [hliteral, Option.none_or] at hpiece
                  cases hplain : isPlain c with
                  | true =>
                      rw [if_pos hplain] at hpiece
                      exact hb.settles_group_of_piece hpiece
                        (.single (BracketScan.step_plain hliteral hplain))
                        (hrest s)
                  | false =>
                      rw [hplain, if_neg Bool.false_ne_true] at hpiece
                      rw [hb.leaves_group_of_none hpiece]
                      exact BracketScan.settles_closer b stack hopener hliteral hplain

/-- A scan settles where a block ends, whoever calls the rule. -/
theorem settles_block (hbrace : group .brace = r) (l : Layout) (s : List Char) :
    BracketScan.Settles (g.firstLiteral? literals) ⟨[.brace], s⟩
      ((g.matchRule r l ('\x7b' :: s)).map (·.1)) := by
  subst hbrace
  rw [map_matchRule_token hb.ranked (hb.layout_group .brace),
    ← leaves_rule hb.ranked (hb.layout_group .brace)]
  exact hb.settles_group .brace [] s

end Balances

end Grammar

end FeatureTree
