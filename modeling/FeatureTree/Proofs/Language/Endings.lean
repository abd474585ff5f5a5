import FeatureTree.Proofs.Grammar.Endings
import FeatureTree.Proofs.Language.Ranks
import FeatureTree.Proofs.Language.Whitespace
import FeatureTree.Proofs.Node.Nested

/-!
# How declarations end

A declaration as a whole ends with a semicolon or a closing brace, in all three
languages. That is read off the grammars.

In C a match must not end in the midst of a blank, that is behind a backslash and in
front of an end of line. Most rules end with a character that is no backslash. An
initializer may end with any character; but it takes all it can, and it could take an
end of line (`C.initializer_stops`).
-/

namespace FeatureTree

/-- Kinds of declarations as a whole: members of types and of files. -/
def Kind.isMember (kind : Kind) : Bool :=
  Production.classMember.accepts kind || Production.externalDeclaration.accepts kind

theorem Production.isMember_of_accepts {production : Production} {kind : Kind}
    (h : production.accepts kind = true) : kind.isMember = true := by
  cases production <;> cases kind <;> first | rfl | cases h

/-- A character that closes a declaration. -/
def isCloser (c : Char) : Bool := c == ';' || c == '}'

theorem isCloser_iff {c : Char} : isCloser c = true ↔ c = ';' ∨ c = '}' := by
  simp only [isCloser, Bool.or_eq_true, beq_iff_eq]

/-- The record makes a member. -/
def Role.isMember : Role → Bool
  | .node kind => kind.isMember
  | _ => false

section Closing

variable {R : Type} [BEq R] {g : SnippetGrammar R}

/-- All members end with a closer. -/
def SnippetGrammar.Closes (g : SnippetGrammar R) : Prop :=
  ∀ r, (g.role r).isMember = true → ∀ {l s t f}, g.matchRule r l s = some (t, f) →
    g.EndsIn (fun c _ => isCloser c = true) l s t

/-- Members and some other rules end with a closer. -/
def closing (g : SnippetGrammar R) (others : List R) : Ending R where
  rules r := (g.role r).isMember || others.contains r
  last := isCloser
  within _ := false

theorem closes_of_all (hg : g.Ranked) (hrules : ∀ r, r ∈ g.rules) (others : List R)
    (h : (g.rules.all fun r => !(closing g others).rules r ||
      (g.body r).endsIn g.consuming (closing g others)) = true) : g.Closes := by
  have hsettles : g.Settles (closing g others) fun c _ => isCloser c = true := by
    refine ⟨fun c u hc => hc, fun _ _ _ => (nomatch ·), fun r hr => ?_⟩
    have hall := List.all_eq_true.1 h r (hrules r)
    rw [hr, Bool.not_true, Bool.false_or] at hall
    exact .inl hall
  intro r hr l s t f hmatch
  refine Grammar.matchRule_endsIn hg hsettles ?_ hmatch
  show ((g.role r).isMember || others.contains r) = true
  rw [hr, Bool.true_or]

end Closing

theorem Java.closes : Java.grammar.Closes :=
  closes_of_all ranked Rule.mem_all [.block, .classBody] (by decide)

theorem CSharp.closes : CSharp.grammar.Closes :=
  closes_of_all ranked Rule.mem_all [.block, .classBody] (by decide)

theorem C.closes : C.grammar.Closes :=
  closes_of_all ranked Rule.mem_all [.block] (by decide)

/-! ## Backslashes in C -/

namespace C

open FeatureTree.Expr

/-- The character is not the first half of a blank. -/
def Whole (c : Char) (s : List Char) : Prop := c = '\\' → (Text.newline? s).isSome = false

/-- All rules end with another character than a backslash, but for pieces of balanced
text. -/
def unbroken : Ending Rule where
  rules r := !([Rule.groupPiece, .initPiece, .commentText, .declaratorBoundary].contains r)
  last c := c != '\\'
  within accepts := !accepts '\\'

/-- A piece of an initializer, in front of what ends it. -/
def initRound : Expr Rule :=
  seq [.notAhead (choice [";", Rule.declaratorBoundary]), Rule.initPiece]

theorem initRound_newline {c : Char} {s : List Char} (hc : (c == '\n' || c == '\r') = true) :
    grammar.matchExpr initRound .token (c :: s) ≠ none := by
  have hline : c = '\n' ∨ c = '\r' := by simpa using hc
  have hboundary : grammar.matchExpr (choice [";", Rule.declaratorBoundary]) .token (c :: s) =
      none := by
    refine Grammar.matchExpr_choice_eq_none.2 (List.forall_mem_cons.2 ⟨?_, ?_⟩)
    · rcases hline with rfl | rfl <;> rfl
    · refine List.forall_mem_singleton.2 (Grammar.matchRule_none ranked ?_)
      rcases hline with rfl | rfl <;> exact Grammar.matchExpr_both_none rfl
  have hpiece : grammar.matchExpr Rule.piece .token (c :: s) ≠ none := by
    intro h
    have hchar := Grammar.matchExpr_choice_eq_none.1 h Lexical.plainChar (by simp)
    rcases hline with rfl | rfl <;> cases hchar
  intro h
  cases hfound : grammar.matchRule .initPiece .token (c :: s) with
  | none =>
      rw [Grammar.matchRule_eq ranked, Option.map_eq_none_iff] at hfound
      exact hpiece hfound
  | some found =>
      have hround : grammar.matchExpr initRound .token (c :: s) = some (found.1, _) :=
        Grammar.matchExpr_both (Grammar.matchExpr_notAhead hboundary) hfound
      rw [hround] at h
      cases h

/-- An initializer does not stop in front of an end of line: that could be one more
piece of it. -/
theorem initializer_stops {s t : List Char} {f : Forest Rule}
    (h : grammar.matchExpr (grammar.body .initializer) .token s = some (t, f)) :
    grammar.EndsIn Whole .token s t := by
  have hlt := Grammar.matchExpr_lt ranked (by decide) h
  obtain ⟨y, hy⟩ := Grammar.matchExpr_suffix ranked h
  obtain ⟨u, f₁, f₂, hfirst, hrest, -⟩ := Grammar.eval_both_eq_some.1 h
  have hstop := ((Grammar.matchExpr_star_iff (e := initRound) ranked (by decide) rfl).1
    hrest).2
  obtain ⟨x, c, rfl⟩ : ∃ x c, s = x ++ c :: t := by
    rcases List.eq_nil_or_concat y with rfl | ⟨x, c, rfl⟩
    · rw [← hy] at hlt
      exact absurd hlt (Nat.lt_irrefl _)
    · exact ⟨x, c, by rw [← hy, List.concat_eq_append, List.append_assoc]; rfl⟩
  refine ⟨t, .inl rfl, .inr ⟨x, c, rfl, fun _ => ?_⟩⟩
  cases t with
  | nil => rfl
  | cons d t =>
      rw [Text.newline?_isSome]
      exact Bool.eq_false_iff.2 fun hd => initRound_newline hd hstop

theorem settles_unbroken : grammar.Settles unbroken Whole where
  last c u hc hslash := by
    subst hslash
    cases hc
  within accepts c u haccepts hc hslash := by
    subst hslash
    have : (!accepts '\\') = true := haccepts
    rw [hc] at this
    cases this
  rules r hr := by
    by_cases hinit : r = .initializer
    · subst hinit
      exact .inr fun l s t f h => initializer_stops h
    · refine .inl ?_
      have hall : (Rule.all.all fun r => !unbroken.rules r || decide (r = .initializer) ||
          (grammar.body r).endsIn grammar.consuming unbroken) = true := by decide
      have h := List.all_eq_true.1 hall r (Rule.mem_all r)
      rwa [hr, decide_eq_false hinit, Bool.not_true, Bool.false_or, Bool.false_or] at h

end C

/-! ## Blanks at the end of a match -/

/-- Where there are no comments, no match that has a span ends in the midst of a
blank. -/
def SnippetGrammar.KeepsBlanks {R : Type} (g : SnippetGrammar R) : Prop :=
  ∀ r before after inner, (g.role r).hasSpan = true → g.Matched r before after inner →
    g.trivia.Uncommented before → g.between .spaced before = before →
    after.length < before.length → g.Unbroken before after

theorem keepsBlanks_of_blank? {R : Type} {g : SnippetGrammar R}
    (h : g.trivia.blank = Text.blank?) : g.KeepsBlanks := by
  intro r before after inner _ _ _ _ _ x c _ hsome
  rw [h, Text.isSome_blank?] at hsome ⊢
  exact hsome

theorem Java.keepsBlanks : Java.grammar.KeepsBlanks := keepsBlanks_of_blank? rfl

theorem CSharp.keepsBlanks : CSharp.grammar.KeepsBlanks := keepsBlanks_of_blank? rfl

theorem C.keepsBlanks : C.grammar.KeepsBlanks := by
  intro r before after inner hspan ⟨l, hmatch⟩ hopen hink hlt x c hx hsome
  have hrule : unbroken.rules r = true := by
    cases r <;> first | rfl | cases hspan
  have hbetween : grammar.between l before = before := by
    cases l with
    | spaced => exact hink
    | joined | token => rfl
  obtain ⟨y, d, u, hy, hd, hu⟩ :=
    (Grammar.matchRule_endsIn ranked settles_unbroken hrule hmatch).of_length_lt hbetween hlt
  have hsuffix : u <:+ before := ⟨y ++ [d], by rw [hy, List.append_assoc]; rfl⟩
  -- Behind the last character that the rule took stand blanks only.
  obtain ⟨z, rfl, hz⟩ := Grammar.blanks_of_between trivia_steady (hopen.sub hsuffix.isInfix) hu
  have hlast : x ++ [c] = y ++ d :: z := by
    refine List.append_cancel_right (Eq.trans ?_ (List.append_assoc y (d :: z) after).symm)
    rw [List.append_assoc]
    exact hx.symm.trans hy
  show (blank [c]).isSome = true
  rcases List.eq_nil_or_concat z with rfl | ⟨w, e, rfl⟩
  · obtain ⟨-, hcd⟩ := List.append_inj' hlast rfl
    cases hcd
    obtain hc | ⟨hc, hnewline⟩ := isSome_blank_iff.1 hsome
    · exact isSome_blank_iff.2 (.inl hc)
    · rw [List.nil_append] at hd
      rw [hd hc] at hnewline
      cases hnewline
  · rw [List.concat_eq_append] at hz hlast
    rw [← List.cons_append, ← List.append_assoc] at hlast
    obtain ⟨-, hce⟩ := List.append_inj' hlast rfl
    cases hce
    exact whitespace.isSome_blank (whitespace.suffix (List.suffix_append w [c]) hz)

end FeatureTree
