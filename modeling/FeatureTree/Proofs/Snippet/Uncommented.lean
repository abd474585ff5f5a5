import FeatureTree.Proofs.Language.Endings
import FeatureTree.Proofs.Node.Untrimmed
import FeatureTree.Proofs.Snippet.Order

/-!
# Snippets without comments

Where a text has no comments, spans are what one expects of them. They nest. The root
begins at the first character that is not whitespace and ends with the semicolon or
brace that closes the declaration. And each span is a whole match, apart from the
whitespace at its end.

Comment signs inside literals count here: it is the text that must not open a comment.
-/

namespace FeatureTree

namespace SnippetGrammar

variable {R : Type} {g : SnippetGrammar R} {language : Language} {input s t : List Char}
  {production : Production} {boundary : Boundary} {n : Node}

/-- What makes the spans of a grammar right where there are no comments. -/
structure Clean (g : SnippetGrammar R) : Prop extends Regular g where
  whitespace : g.trivia.blanks.Whitespace
  closes : g.Closes
  closer : ∀ c s, isCloser c = true → g.trivia.blank (c :: s) = none
  keepsBlanks : g.KeepsBlanks

/-- The tree of the production's match in which each span is a whole match. -/
def matchTree (g : SnippetGrammar R) (production : Production) (input : List Char) :
    Option Node :=
  (g.entry production).bind fun entry => (g.parse entry input).bind fun (_, f) =>
    g.untrimmed.root? (Text.byteLength input) f

/-- All records of a match are neat. -/
theorem all_neat (hg : g.Clean) (hopen : g.trivia.Uncommented s) {f : Forest R}
    (hwithin : f.Within s t) (hsolid : f.All g.Solid) (hmatched : f.All g.Matched) :
    f.All g.Neat := by
  refine hwithin.all ?_ (Forest.all_and hsolid hmatched)
  rintro r before after inner hbefore ⟨p, rfl⟩ ⟨⟨hink, hconsumes⟩, hmatch⟩ hspan
  have hopen' : g.trivia.Uncommented (p ++ after) := hopen.sub hbefore.isInfix
  have hlt := hconsumes (hg.spans r hspan)
  have hp : p ≠ [] := by
    rintro rfl
    exact absurd hlt (Nat.lt_irrefl _)
  have hskip : g.trivia.blanks.skip (p ++ after) = p ++ after :=
    (hopen'.skip hg.steady).symm.trans hink
  rw [Forest.taken_append]
  exact ⟨Trivia.trim_ne_nil hg.whitespace.toSteady hp hskip,
    hg.keepsBlanks r (p ++ after) after inner hspan hmatch hopen' hink hlt⟩

variable [BEq R]

theorem read_nested (hg : g.Clean) (hopen : g.trivia.Uncommented input)
    (h : g.read language input production boundary = .ok n) : ∀ m ∈ n.preorder, m.Nested := by
  obtain ⟨r, kind, inner, rest, hrole, hmatch, rfl, -⟩ := read_root hg.toRegular h
  have hskip := Trivia.skip_suffix hg.ranked.lawful input
  have hink : g.between .spaced (g.trivia.skip input) = g.trivia.skip input :=
    Trivia.skip_skip hg.ranked.lawful input
  obtain ⟨-, hwithin, -⟩ := Grammar.run_within hg.ranked hmatch
  obtain ⟨-, hsolid, -⟩ := Grammar.run_solid hg.ranked hg.layout hink hmatch
  obtain ⟨-, hmatched, -⟩ := Grammar.matchRule_matched hg.ranked hmatch
  have hneat := all_neat hg (hopen.sub hskip.isInfix) hwithin hsolid hmatched
  have hdraft : (g.contribute (Text.byteLength input) kind inner .empty).Nested
      (g.spanOf (Text.byteLength input) (g.trivia.skip input) rest).stop :=
    contribute_nested hg.steady hg.whitespace hopen hwithin hneat hskip
      (List.suffix_refl _) (List.suffix_refl rest) .empty
  exact hdraft.finish

/-- The text of a root from its first character that is not whitespace up to what its
rule left. -/
theorem read_whole (hg : g.Clean) (hopen : g.trivia.Uncommented input)
    (h : g.read language input production boundary = .ok n) (hkind : n.kind.isMember = true) :
    ∃ lead body c trail rest, input = lead ++ (body ++ [c] ++ trail ++ rest) ∧
      g.leftover production input = some rest ∧
      g.trivia.blanks.isTrivia lead = true ∧ g.trivia.blanks.isTrivia trail = true ∧
      g.trivia.blank (body ++ [c] ++ trail ++ rest) = none ∧ isCloser c = true ∧
      n.span = ⟨Text.byteLength lead, Text.byteLength (lead ++ (body ++ [c]))⟩ := by
  obtain ⟨r, kind, inner, rest, hrole, hmatch, rfl, hleftover⟩ := read_root hg.toRegular h
  obtain ⟨lead, hlead⟩ := Trivia.skip_suffix hg.ranked.lawful input
  have hink : g.between .spaced (g.trivia.skip input) = g.trivia.skip input :=
    Trivia.skip_skip hg.ranked.lawful input
  have hblanks : g.trivia.blanks.skip input = g.trivia.skip input := (hopen.skip hg.steady).symm
  obtain ⟨⟨-, hconsumes⟩, -⟩ := Grammar.run_solid hg.ranked hg.layout hink hmatch
  have hlt := hconsumes (hg.spans r (by rw [hrole]; rfl))
  have hmember : (g.role r).isMember = true := by rw [hrole]; exact hkind
  generalize hs : g.trivia.skip input = s at *
  obtain ⟨body, c, u, rfl, hc, hu⟩ := (hg.closes r hmember hmatch).of_length_lt hink hlt
  have hsub : u <:+: input := ⟨lead ++ (body ++ [c]), [], by rw [← hlead]; simp⟩
  obtain ⟨trail, rfl, htrail⟩ := Grammar.blanks_of_between hg.steady (hopen.sub hsub) hu
  have hsplit : body ++ c :: (trail ++ rest) = body ++ [c] ++ trail ++ rest := by simp
  rw [hsplit] at hs hlead hblanks hink hmatch
  subst hlead
  refine ⟨lead, body, c, trail, rest, rfl, hleftover, ?_, htrail, ?_, hc, ?_⟩
  · exact Trivia.isTrivia_front hg.whitespace.toSteady hblanks
  · have hpiece := (Trivia.skip_eq_self_iff hg.ranked.lawful).1 hink
    rw [Trivia.piece?_eq_or, Option.or_eq_none_iff] at hpiece
    exact hpiece.1
  · -- The closer is no blank, so the root is cut right behind it.
    have hlast : g.trivia.blanks.isTrivia (c :: trail) = false := by
      refine Bool.eq_false_iff.2 fun h => ?_
      have hblank := hg.whitespace.isSome_blank h
      rw [show g.trivia.blanks.blank (c :: trail) = none from hg.closer c trail hc] at hblank
      cases hblank
    have htrim : g.trivia.trim (body ++ c :: trail) = body ++ [c] := by
      rw [(hopen.sub ⟨lead, rest, by simp⟩).trim hg.steady]
      exact hg.whitespace.trim_eq_append_iff.2 ⟨trail, rfl, htrail, hlast⟩
    rw [nodeOf, Draft.finish, hsplit, show body ++ [c] ++ trail ++ rest =
      (body ++ c :: trail) ++ rest by simp, spanOf_eq, htrim]

theorem read_trims (hg : g.Clean) (hopen : g.trivia.Uncommented input)
    (h : g.read language input production boundary = .ok n) :
    ∃ whole, g.matchTree production input = some whole ∧
      List.Forall₂ (Node.Trims g.trivia.blanks input) n.preorder whole.preorder := by
  obtain ⟨entry, rest, f, hentry, hparse, hroot, -⟩ := read_eq_ok_iff.1 h
  have hwithin : f.Within input rest := Grammar.run_within hg.ranked hparse
  have htrims := root?_trims hg.steady hopen (List.suffix_refl input) hwithin
  rw [matchTree, hentry, Option.bind_some, hparse, Option.bind_some]
  rw [hroot] at htrims
  generalize hwhole : g.untrimmed.root? (Text.byteLength input) f = root at htrims
  cases htrims with
  | some htrims => exact ⟨_, hwhole, htrims⟩

end SnippetGrammar

/-! ## The languages -/

theorem Java.clean : Java.grammar.Clean where
  toRegular := regular
  whitespace := whitespace
  closes := closes
  closer c s h := by
    rcases isCloser_iff.1 h with rfl | rfl <;> rfl
  keepsBlanks := keepsBlanks

theorem CSharp.clean : CSharp.grammar.Clean where
  toRegular := regular
  whitespace := whitespace
  closes := closes
  closer c s h := by
    rcases isCloser_iff.1 h with rfl | rfl <;> rfl
  keepsBlanks := keepsBlanks

theorem C.clean : C.grammar.Clean where
  toRegular := regular
  whitespace := whitespace
  closes := closes
  closer c s h := by
    rcases isCloser_iff.1 h with rfl | rfl <;> rfl
  keepsBlanks := keepsBlanks

/-- The whitespace of a language. -/
def Language.whitespace (language : Language) : Trivia := language.trivia.blanks

/-- The tree of the match of the target's production in which each span is a whole
match. -/
def Target.matchTree (t : Target) (text : String) : Option Node :=
  match t.language with
  | .java => Java.grammar.matchTree t.production text.toList
  | .csharp => CSharp.grammar.matchTree t.production text.toList
  | .c => C.grammar.matchTree t.production text.toList

/-- Whatever the target, it is read by a clean grammar. -/
theorem Target.exists_clean (t : Target) :
    ∃ (R : Type) (_ : BEq R) (g : SnippetGrammar R), g.Clean ∧ t.language.trivia = g.trivia ∧
      (∀ text boundary, (Engine.bundled t.language).parse text t.production boundary =
        g.read t.language text.toList t.production boundary) ∧
      (∀ text, t.leftover text = g.leftover t.production text.toList) ∧
      ∀ text, t.matchTree text = g.matchTree t.production text.toList := by
  obtain ⟨language, production⟩ := t
  cases language with
  | java => exact ⟨_, inferInstance, _, Java.clean, rfl, fun _ _ => rfl, fun _ => rfl, fun _ => rfl⟩
  | csharp =>
      exact ⟨_, inferInstance, _, CSharp.clean, rfl, fun _ _ => rfl, fun _ => rfl, fun _ => rfl⟩
  | c => exact ⟨_, inferInstance, _, C.clean, rfl, fun _ _ => rfl, fun _ => rfl, fun _ => rfl⟩

theorem Language.uncommented {language : Language} {text : List Char}
    (h : ∀ o ∈ language.commentOpeners, ¬ o.toList <:+: text) :
    language.trivia.Uncommented text := by
  refine Trivia.uncommented_of_openers (fun s s' hs => ?_) h
  cases language with
  | java =>
      rcases Lexical.comment_opens hs with hs | hs
      · exact ⟨"//", by decide, hs⟩
      · exact ⟨"/*", by decide, hs⟩
  | csharp =>
      rcases Option.or_eq_some_iff.1 hs with hs | ⟨-, hs⟩
      · rcases Lexical.comment_opens hs with hs | hs
        · exact ⟨"//", by decide, hs⟩
        · exact ⟨"/*", by decide, hs⟩
      · obtain ⟨u, rfl, -⟩ := Text.directive?_eq_some hs
        exact ⟨"#", by decide, ⟨u, rfl⟩⟩
  | c =>
      rcases Option.or_eq_some_iff.1 hs with hs | ⟨-, hs⟩
      · rcases Lexical.comment_opens hs with hs | hs
        · exact ⟨"//", by decide, hs⟩
        · exact ⟨"/*", by decide, hs⟩
      · obtain ⟨u, rfl, -⟩ := Text.joinedDirective?_eq_some hs
        exact ⟨"#", by decide, ⟨u, rfl⟩⟩

section Parsed

variable {text : String} {t : Target} {strict : Bool} {n : Node}

/-- In a text that opens no comment the spans of the parsed tree nest, the root is the
text from the first character that is not whitespace up to the semicolon or brace that
closes it, with only whitespace between that and what its rule left, and each span is
a whole match without the whitespace at its end. -/
theorem parseSnippet_uncommented
    (hopen : ∀ o ∈ t.language.commentOpeners, ¬ o.toList <:+: text.toList)
    (h : parseSnippet text t strict = .ok n) :
    n.checkSpans = .ok () ∧
      (∃ lead body c trail rest,
        text.toList = lead ++ (body ++ [c] ++ trail ++ rest) ∧ t.leftover text = some rest ∧
          t.language.whitespace.isTrivia lead = true ∧
          t.language.whitespace.isTrivia trail = true ∧
          t.language.whitespace.blank (body ++ [c] ++ trail ++ rest) = none ∧
          (c = ';' ∨ c = '}') ∧ n.text? text.toList = some (body ++ [c]) ∧
          n.span = ⟨Text.byteLength lead, Text.byteLength (lead ++ (body ++ [c]))⟩) ∧
      ∃ whole, t.matchTree text = some whole ∧
        List.Forall₂ (Node.Trims t.language.whitespace text.toList) n.preorder whole.preorder := by
  obtain ⟨-, hparse, hkind⟩ := parseSnippet_eq_ok_iff.1 h
  have hmember := Production.isMember_of_accepts hkind
  have huncommented := Language.uncommented hopen
  obtain ⟨⟨lo, hi, hplaced⟩, -⟩ := parseSnippet_placed h
  have hordered : ∀ m ∈ n.preorder, m.Ordered text.toList := by
    have := hplaced.ordered
    rwa [Node.preorderAll, Node.preorderAll, List.append_nil] at this
  obtain ⟨R, _, g, hg, htrivia, hread, hleftover, htree⟩ := t.exists_clean
  rw [hread] at hparse
  rw [htrivia] at huncommented
  rw [show t.language.whitespace = g.trivia.blanks from congrArg Trivia.blanks htrivia,
    hleftover, htree]
  refine ⟨Node.checkSpans_of_nested hordered (SnippetGrammar.read_nested hg huncommented hparse),
    ?_, SnippetGrammar.read_trims hg huncommented hparse⟩
  obtain ⟨lead, body, c, trail, rest, htext, hrest, hlead, htrail, hblank, hc, hspan⟩ :=
    SnippetGrammar.read_whole hg huncommented hparse hmember
  refine ⟨lead, body, c, trail, rest, htext, hrest, hlead, htrail, hblank,
    isCloser_iff.1 hc, ?_, hspan⟩
  rw [Node.text?, hspan, htext, show lead ++ (body ++ [c] ++ trail ++ rest) =
    lead ++ (body ++ [c]) ++ (trail ++ rest) by simp only [List.append_assoc]]
  exact Span.slice?_append lead (body ++ [c]) (trail ++ rest)

/-- The line goes on after a backslash: its end is whitespace, so the variable and its
initializer stop in front of it. -/
theorem parseSnippet_uncommented_joinedLine :
    let text := "  int a = b \\\n;"
    let n : Node := ⟨.declaration, some "a",
      [⟨.variable, some "a", [], ⟨6, 11⟩, some ⟨10, 11⟩⟩], ⟨2, 15⟩, none⟩
    parseSnippet text ⟨.c, .declaration⟩ true = .ok n ∧ n.checkSpans = .ok () ∧
      ∃ whole, Target.matchTree ⟨.c, .declaration⟩ text = some whole ∧
        List.Forall₂ (Node.Trims Language.c.whitespace text.toList) n.preorder
          whole.preorder := by
  intro text n
  have h : parseSnippet text ⟨.c, .declaration⟩ true = .ok n :=
    Outcome.eq_ok_of_toOption (by decide +kernel)
  have hopen : ∀ o ∈ Language.c.commentOpeners, ¬ o.toList <:+: text.toList := by decide +kernel
  obtain ⟨hnested, -, htrims⟩ := parseSnippet_uncommented (t := ⟨.c, .declaration⟩) hopen h
  exact ⟨h, hnested, htrims⟩

end Parsed

end FeatureTree
