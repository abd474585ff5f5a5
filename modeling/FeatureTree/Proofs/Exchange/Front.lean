import FeatureTree.Proofs.Exchange.Comment
import FeatureTree.Proofs.Exchange.Initializers

/-!
# Grammars with a comment for a blank

What stands in front of an initializer is made of words, signs and names, and is matched alike
with either piece (`Front`). Tokens that see to blanks themselves are made of the same, and of
the blanks (`Follows`, `Commented.kept_ws`).
-/

namespace FeatureTree

namespace Expr

variable {R : Type} {single : Char → Bool} {c ok : R → Bool} {e : Expr R}

/-- An expression that reads words and signs of single characters and calls rules of which `ok`
says so. -/
def isSteady (single : Char → Bool) (c ok : R → Bool) : Expr R → Bool
  | .text word => word.all single
  | .char _ => false
  | .rule r => ok r
  | .both a b | .either a b => a.isSteady single c ok && b.isSteady single c ok
  | .opt a | .ahead a | .notAhead a => a.isSteady single c ok
  | .star a => a.consumes c && a.isSteady single c ok

theorem steady_of_isSteady (h : e.isSteady single c ok = true) : e.Steady single c ok := by
  induction e with
  | text word | rule r => exact h
  | char accepts => cases h
  | both a b iha ihb | either a b iha ihb =>
      obtain ⟨ha, hb⟩ := Bool.and_eq_true_iff.1 h
      exact ⟨iha ha, ihb hb⟩
  | opt a iha | ahead a iha | notAhead a iha => exact iha h
  | star a iha =>
      obtain ⟨hconsumes, ha⟩ := Bool.and_eq_true_iff.1 h
      exact ⟨hconsumes, iha ha⟩

theorem steady_choice {es : List (Expr R)} (h : ∀ e ∈ es, e.Steady single c ok) :
    (choice es).Steady single c ok := by
  induction es using choice.induct with
  | case1 => rfl
  | case2 a => exact h a List.mem_cons_self
  | case3 a b rest ih =>
      exact ⟨h a List.mem_cons_self, ih fun e he => h e (List.mem_cons_of_mem a he)⟩

theorem steady_word {wordChar : Expr R} {words : List String}
    (hchar : wordChar.Steady single c ok) (hwords : ∀ w ∈ words, w.toList.all single = true) :
    (Lexical.word wordChar words).Steady single c ok := by
  refine ⟨steady_choice fun e he => ?_, hchar⟩
  obtain ⟨w, hw, rfl⟩ := List.mem_map.1 he
  exact hwords w hw

end Expr

namespace SnippetGrammar

open Grammar

section Front

variable {R : Type} [DecidableEq R] {g : SnippetGrammar R} {x : Exchange} {single : Char → Bool}
  {structured words others : List R} {wordChar e : Expr R} {r : R} {l : Layout}
  {s s' : List Char}

/-- Rules that read nothing on their own account: those that are made of signs and of each other,
those of words, those of names, and those that are known to be read alike. -/
structure Front (g : SnippetGrammar R) (x : Exchange) (single : Char → Bool) (wordChar : Expr R)
    (structured words others : List R) : Prop where
  made : ∀ r ∈ structured,
    (g.body r).isSteady single g.consuming ((structured ++ words ++ others).contains ·) = true
  spelled : ∀ r ∈ words, ∃ ws, g.body r = Lexical.word wordChar ws ∧
    ∀ w ∈ ws, w.toList.all single = true
  char : wordChar.Steady single g.consuming ((structured ++ words ++ others).contains ·)
  named : ∀ r ∈ structured ++ words ++ others, g.NameIsClear x r
  other : ∀ r ∈ others,
    (∀ l s s', x.Rest s s' → g.Alike x (g.matchRule r l s) (g.matchRule r l s')) ∨
      (g.body r).Steady single g.consuming ((structured ++ words ++ others).contains ·)

theorem Front.alike (hfront : g.Front x single wordChar structured words others)
    (hx : g.Exchanges x single) (hr : r ∈ structured ++ words ++ others) (h : x.Rest s s') :
    g.Alike x (g.matchRule r l s) (g.matchRule r l s') := by
  refine SnippetGrammar.matchRule_alike hx (fun r hr => ?_)
    (fun r hr => hfront.named r (List.contains_iff_mem.1 hr)) (List.contains_iff_mem.2 hr) h
  rcases List.mem_append.1 (List.contains_iff_mem.1 hr) with hr | hr
  · right
    rcases List.mem_append.1 hr with hr | hr
    · exact Expr.steady_of_isSteady (hfront.made r hr)
    · obtain ⟨ws, hbody, hall⟩ := hfront.spelled r hr
      rw [hbody]
      exact Expr.steady_word hfront.char hall
  · exact hfront.other r hr

theorem Front.alike_of_steady (hfront : g.Front x single wordChar structured words others)
    (hx : g.Exchanges x single)
    (he : e.Steady single g.consuming ((structured ++ words ++ others).contains ·))
    (h : x.Rest s s') : g.Alike x (g.matchExpr e l s) (g.matchExpr e l s') := by
  have hrule : ∀ r l t t', (structured ++ words ++ others).contains r = true → x.Rest t t' →
      g.Alike x (g.matchRule r l t) (g.matchRule r l t') :=
    fun r l t t' hr ht => hfront.alike hx (List.contains_iff_mem.1 hr) ht
  exact matchExpr_alike hx he h (fun r l t t' hr _ ht => hrule r l t t' hr ht)
    fun r _ l t t' hr _ ht => hrule r l t t' hr ht

theorem Front.alike_expr (hfront : g.Front x single wordChar structured words others)
    (hx : g.Exchanges x single)
    (he : e.isSteady single g.consuming ((structured ++ words ++ others).contains ·) = true)
    (h : x.Rest s s') : g.Alike x (g.matchExpr e l s) (g.matchExpr e l s') :=
  hfront.alike_of_steady hx (Expr.steady_of_isSteady he) h

end Front

section Follows

variable {R : Type} {g : SnippetGrammar R} {x : Exchange} {isWordChar : Char → Bool}
  {signs : List Char} {group : Bracket → R} {piece r initPiece boundary : R} {literals : List R}
  {e : Expr R} {n : Nat}

theorem Follows.rule (hg : g.Ranked) (hr : g.layout r = .token) (h : g.Follows x (g.body r)) :
    g.Follows x (.rule r) where
  follows := by
    intro s s' t' hrest ht'
    rw [leaves_rule hg hr] at ht'
    obtain ⟨t, ht, hrest'⟩ := h.follows hrest ht'
    exact ⟨t, by rwa [leaves_rule hg hr], hrest'⟩
  stuck := by rw [leaves_rule hg hr, h.stuck]

theorem Alike.leaves {s s' : List Char}
    (h : g.Alike x (g.matchExpr e .token s) (g.matchExpr e .token s')) :
    x.Alike (g.leaves e s) (g.leaves e s') := by
  rw [Grammar.leaves, Grammar.leaves]
  generalize g.matchExpr e .token s = o, g.matchExpr e .token s' = o' at h
  cases h with
  | none => exact .none
  | some hrest _ => exact .some hrest

/-- What is read alike and does not begin like a comment follows. -/
theorem Follows.of_alike (hg : g.Ranked) (hx : x.IsComment)
    (he : e.begins (g.firsts n) '/' = false)
    (h : ∀ s s', x.Rest s s' → g.Alike x (g.matchExpr e .token s) (g.matchExpr e .token s')) :
    g.Follows x e := by
  refine follows_of_alike (fun s s' hrest => (h s s' hrest).leaves) ?_
  obtain ⟨u, hu, -⟩ := hx.target_nil
  rw [hu]
  exact leaves_none_of_begins hg he

theorem Exchanges.follows_signs {single : Char → Bool} (hx : g.Exchanges x single)
    (hcomment : x.IsComment) (he : e.isSteady single g.consuming (fun _ => false) = true)
    (hbegins : e.begins (g.firsts 0) '/' = false) : g.Follows x e := by
  refine .of_alike hx.ranked hcomment hbegins fun s s' hrest => ?_
  exact matchExpr_alike hx (Expr.steady_of_isSteady he) hrest (fun _ _ _ _ h => nomatch h)
    fun _ _ _ _ _ h => nomatch h

/-- Blanks inside a token are read up to the comment. -/
theorem Commented.kept_ws (hg : g.Commented isWordChar signs group piece literals)
    (hx : x.IsComment) (hclosed : x.Closed (g.firstLiteral? literals) g.trivia isWordChar) :
    g.Kept x (.star Lexical.ws) := by
  have htakes : g.TakesChar Lexical.ws
      fun c => c == ' ' || (c == '\t' || (c == '\r' || c == '\n')) :=
    (takesChar_text ' ').either ((takesChar_text '\t').either
      ((takesChar_text '\r').either (takesChar_text '\n')))
  refine kept_blanks hg.ranked htakes rfl (fun {c y} hy hc => ?_) ?_
  · have hblank : c ∈ Text.blanks := by
      simp only [Bool.or_eq_true, beq_iff_eq] at hc
      rcases hc with rfl | rfl | rfl | rfl <;> decide
    refine hclosed.char hy (.inl (firstLiteral_none hg.ranked (hg.signs_begin c ?_)))
    exact List.mem_append_right _ hblank
  · obtain ⟨u, hu, -⟩ := hx.target_nil
    rw [hu]
    rintro _ ⟨⟩
    rfl

/-- A name of word characters, perhaps behind an at sign, has no blank in it. -/
theorem Commented.nameIsClear (hg : g.Commented isWordChar signs group piece literals)
    (hx : x.IsComment)
    (hr : ∀ l s t f, g.matchRule r l s = some (t, f) →
      ∃ w, s = w ++ t ∧ ∀ c ∈ w, isWordChar c = true ∨ c = '@') : g.NameIsClear x r := by
  rintro - l s t f w hmatch hw ⟨u, v, huv⟩
  obtain ⟨c, hc, hold⟩ := hx.old
  have hblank := Text.isBlank_iff.1 hc
  obtain ⟨w', hw', hchars⟩ := hr l s t f hmatch
  obtain rfl : w = w' := List.append_cancel_right (hw.symm.trans hw')
  have hmem : c ∈ w := by rw [← huv, hold]; simp
  rcases hchars c hmem with hword | rfl
  · have hsingle := hg.not_single c (List.mem_cons_of_mem _ hblank)
    rw [isSingle, hword, Bool.true_or] at hsingle
    cases hsingle
  · exact absurd hblank (by decide)

/-- The initializers of a grammar whose pieces are those of balanced text. -/
theorem ExchangesGroups.initializers {single : Char → Bool}
    (hx : g.ExchangesGroups x single isWordChar group piece literals) (hcomment : x.IsComment)
    (hlayout : g.layout initPiece = .token) (hbody : g.body initPiece = g.body piece)
    (hconsumes : g.consuming initPiece = true) (hboundary : g.Follows x (.rule boundary)) :
    g.ExchangesInitializers x boundary initPiece where
  ranked := hx.ranked
  consumes := hconsumes
  piece := by
    intro s s' hrest
    have hsame : ∀ s, g.leaves (.rule initPiece) s = g.leaves (.rule piece) s := fun s => by
      rw [leaves_rule hx.ranked hlayout, hbody, ← leaves_rule hx.ranked hx.layout_piece]
    rw [hsame, hsame]
    cases hrest with
    | front hy => exact (hx.leaves_piece hy).1
    | behind hu => exact leaves_behind hx.ranked hu
  boundary := hboundary
  semicolon := by
    obtain ⟨u, hu, -⟩ := hcomment.target_nil
    rw [hu]
    rintro _ ⟨⟩
    decide

end Follows

end SnippetGrammar

theorem Expr.eq_of_begins {R : Type} {first : R → Char → Bool} {b : Expr R} {c d : Char}
    {word : List Char} (h : (Expr.both (.text (d :: word)) b).begins first c = true) : c = d := by
  obtain ⟨hc, -⟩ := Bool.and_eq_true_iff.1 h
  exact (beq_iff_eq.1 hc).symm

end FeatureTree
