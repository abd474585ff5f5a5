import FeatureTree.Proofs.Node.Faults
import FeatureTree.Proofs.Snippet.Root

/-!
# The order of spans in parsed snippets

Whatever a literal or a body makes of a span, the spans of a parsed tree are never
empty, nothing starts in front of what contains it, and the nodes start one after
the other. So the check of spans can only find that something runs past its node,
which is what trimming can do.
-/

namespace FeatureTree

namespace SnippetGrammar

variable {R : Type} [BEq R] {g : SnippetGrammar R} {language : Language} {input : List Char}
  {production : Production} {boundary : Boundary} {n : Node}

/-- A tree that is read has its place behind the blanks and comments at the start
of the text. -/
theorem read_placed (hg : g.Regular) (h : g.read language input production boundary = .ok n) :
    ∃ hi, Node.Placed input (Text.offset input (g.trivia.skip input)) hi [n] ∧
      n.span.start = Text.offset input (g.trivia.skip input) := by
  obtain ⟨r, kind, inner, rest, hrole, hrun, rfl, -⟩ := read_root hg h
  have hskip := Trivia.skip_suffix hg.ranked.lawful input
  have hink : g.between .spaced (g.trivia.skip input) = g.trivia.skip input :=
    Trivia.skip_skip hg.ranked.lawful input
  obtain ⟨-, hwithin, -⟩ := Grammar.run_within hg.ranked hrun
  obtain ⟨⟨-, hconsumes⟩, hsolid, -⟩ := Grammar.run_solid hg.ranked hg.layout hink hrun
  have hlen := hconsumes (hg.spans r (by rw [hrole]; rfl))
  obtain ⟨hfits, hstart, hstop⟩ := spanOf_placed hg.steady hskip hwithin.suffix hink hlen
  have hplaced : (g.contribute (Text.byteLength input) kind inner .empty).Placed input
      (Text.offset input (g.trivia.skip input)) (Text.offset input rest) :=
    contribute_placed hg.steady hg.spans hskip hwithin hsolid (Nat.le_refl _) .empty
  exact ⟨_, .node hplaced.children hstart hfits hstop hplaced.body, hstart⟩

/-- What stands in front of the root is blanks and comments. -/
theorem isTrivia_before (hg : g.Regular)
    (h : g.read language input production boundary = .ok n) :
    ∃ before after, Text.cut n.span.start input = some (before, after) ∧
      g.trivia.isTrivia before = true := by
  obtain ⟨-, -, hstart⟩ := read_placed hg h
  obtain ⟨before, hbefore⟩ := Trivia.skip_suffix hg.ranked.lawful input
  generalize hrest : g.trivia.skip input = rest at hstart hbefore
  subst hbefore
  rw [hstart, Text.offset_append]
  exact ⟨before, rest, Text.cut_append before rest, Trivia.isTrivia_front hg.steady hrest⟩

end SnippetGrammar

section Parsed

variable {text : String} {t : Target} {strict : Bool} {n : Node}

theorem parseSnippet_placed (h : parseSnippet text t strict = .ok n) :
    (∃ lo hi, Node.Placed text.toList lo hi [n]) ∧
      ∃ before after, Text.cut n.span.start text.toList = some (before, after) ∧
        t.language.trivia.isTrivia before = true := by
  obtain ⟨-, hparse, -⟩ := parseSnippet_eq_ok_iff.1 h
  obtain ⟨language, production⟩ := t
  cases language with
  | java =>
      obtain ⟨hi, hplaced, -⟩ := SnippetGrammar.read_placed Java.regular hparse
      exact ⟨⟨_, hi, hplaced⟩, SnippetGrammar.isTrivia_before Java.regular hparse⟩
  | csharp =>
      obtain ⟨hi, hplaced, -⟩ := SnippetGrammar.read_placed CSharp.regular hparse
      exact ⟨⟨_, hi, hplaced⟩, SnippetGrammar.isTrivia_before CSharp.regular hparse⟩
  | c =>
      obtain ⟨hi, hplaced, -⟩ := SnippetGrammar.read_placed C.regular hparse
      exact ⟨⟨_, hi, hplaced⟩, SnippetGrammar.isTrivia_before C.regular hparse⟩

/-- The spans of a parsed tree are in order: all of them can be cut out of the
text and are not empty, nothing starts in front of its node, siblings do not
overlap, and a walk meets starts that never decrease. In front of the root are
blanks and comments only. If the spans do not nest, something runs past its
node. -/
theorem parseSnippet_ordered (h : parseSnippet text t strict = .ok n) :
    (∀ m ∈ n.preorder, m.Ordered text.toList) ∧
      Node.StartsAscend n.walk.toList ∧
      (∃ before after, Text.cut n.span.start text.toList = some (before, after) ∧
        t.language.trivia.isTrivia before = true) ∧
      ∀ fault, n.checkSpans = .error fault → ∃ m ∈ n.preorder, m.RunsPast fault := by
  obtain ⟨⟨lo, hi, hplaced⟩, hbefore⟩ := parseSnippet_placed h
  have hpreorder : Node.preorderAll [n] = n.preorder := by
    rw [Node.preorderAll, Node.preorderAll, List.append_nil]
  have hordered : ∀ m ∈ n.preorder, m.Ordered text.toList := hpreorder ▸ hplaced.ordered
  refine ⟨hordered, ?_, hbefore, fun fault => Node.runsPast_of_checkSpans hordered⟩
  rw [Node.toList_walk, ← hpreorder]
  exact hplaced.starts

/-- The literals of two variables together look like comments, so the field is
cut inside the first, and the first variable runs past it. -/
theorem parseSnippet_ordered_literals :
    let text := "int a=\"/*\",b=\"*///\";"
    let n : Node := ⟨.field, some "a",
      [⟨.variable, some "a", [], ⟨4, 10⟩, some ⟨6, 10⟩⟩,
        ⟨.variable, some "b", [], ⟨11, 15⟩, some ⟨13, 15⟩⟩], ⟨0, 7⟩, none⟩
    parseSnippet text ⟨.java, .field⟩ false = .ok n ∧
      n.checkSpans = .error (.childEscapes .field .variable ⟨4, 10⟩ ⟨0, 7⟩) ∧
      (∀ m ∈ n.preorder, m.Ordered text.toList) ∧ Node.StartsAscend n.walk.toList := by
  intro text n
  have h : parseSnippet text ⟨.java, .field⟩ false = .ok n :=
    Outcome.eq_ok_of_toOption (by decide +kernel)
  obtain ⟨hordered, hstarts, -, -⟩ := parseSnippet_ordered h
  exact ⟨h, by rfl, hordered, hstarts⟩

end Parsed

end FeatureTree
