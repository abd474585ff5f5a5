import FeatureTree.Proofs.Grammar.Calls
import FeatureTree.Proofs.Language.Ranks
import FeatureTree.Proofs.Language.Steady
import FeatureTree.Proofs.Language.Summaries
import FeatureTree.Proofs.Node.Order
import FeatureTree.Proofs.Snippet.Boundary

/-!
# The record of the root

The entry rule of a production drops the blanks and comments at the start of the
text, and then tries rules at one and the same place. The first that matches is
looked through or makes the root, so the root is the node of a record that begins
behind these blanks and comments and ends where the entry rule stops
(`read_root`).

`Regular` collects what the grammars of the languages have in common.
-/

namespace FeatureTree

namespace Expr

variable {R : Type}

/-- The expression is a rule, or a choice among rules, of which `c` holds. -/
def isChoice (c : R → Bool) : Expr R → Bool
  | .rule r => c r
  | .either a b => a.isChoice c && b.isChoice c
  | _ => false

end Expr

theorem Grammar.eval_choice {R : Type} {skip : List Char → List Char}
    {call : R → Layout → Grammar.Matcher R} {c : R → Bool} {e : Expr R}
    (he : e.isChoice c = true) {l : Layout} {s rest : List Char} {f : Forest R}
    (h : eval skip call e l s = some (rest, f)) :
    ∃ r, c r = true ∧ call r l s = some (rest, f) := by
  induction e with
  | rule r => exact ⟨r, he, h⟩
  | either a b iha ihb =>
      rw [Expr.isChoice, Bool.and_eq_true] at he
      obtain ha | ⟨-, hb⟩ := eval_either_eq_some.1 h
      · exact iha he.1 ha
      · exact ihb he.2 hb
  | _ => cases he

namespace SnippetGrammar

variable {R : Type} {g : SnippetGrammar R}

/-- A rule makes a node, or it is looked through and is a choice among rules that
do. -/
def makesNode (g : SnippetGrammar R) : Nat → R → Bool
  | 0, _ => false
  | n + 1, r =>
    g.layout r == .spaced &&
      match g.role r with
      | .node _ => true
      | .transparent => (g.body r).isChoice (g.makesNode n)
      | _ => false

/-- The root is made by a record that is the whole match. -/
theorem root?_of_makesNode (hg : g.Ranked) {n : Nat} {r : R} {s rest : List Char}
    {f : Forest R} (hr : g.makesNode n r = true) (h : g.matchRule r .spaced s = some (rest, f)) :
    ∃ r' kind inner, g.role r' = .node kind ∧
      g.matchRule r' .spaced s = some (rest, .cons r' s rest inner .nil) ∧
      ∀ total, g.root? total f = some (g.nodeOf total kind s rest inner) := by
  induction n generalizing r f with
  | zero => cases hr
  | succ n ih =>
      rw [makesNode, Bool.and_eq_true, beq_iff_eq] at hr
      obtain ⟨hlayout, hr⟩ := hr
      obtain ⟨inner, hbody, hf⟩ := (Grammar.matchRule_eq_some_iff hg).1 h
      rw [Grammar.record, if_pos (by rw [hlayout]; rfl)] at hf
      subst hf
      rw [hlayout] at hbody
      cases hrole : g.role r with
      | node kind =>
          refine ⟨r, kind, inner, hrole, h, fun total => ?_⟩
          rw [root?, hrole]
      | transparent =>
          rw [hrole] at hr
          obtain ⟨r₁, hr₁, hcall⟩ := Grammar.eval_choice hr hbody
          obtain ⟨r', kind, inner', hrole', hmatch, hroot⟩ := ih hr₁ hcall
          refine ⟨r', kind, inner', hrole', hmatch, fun total => ?_⟩
          rw [root?, hrole]
          simp only [hroot, Option.some_or]
      | name | fallbackName | body | hidden =>
          rw [hrole] at hr
          cases hr

/-- The entry rule asks for the start of the text and then for one of some rules
that make a node. -/
def EntersNode (g : SnippetGrammar R) (entry : R) : Prop :=
  g.role entry = .transparent ∧ ∃ e, g.Enters entry e ∧ e.isChoice (g.makesNode 3) = true

/-- What the grammars of the languages have in common. -/
structure Regular (g : SnippetGrammar R) : Prop where
  ranked : g.Ranked
  steady : g.trivia.Steady
  layout : ∀ r, g.layout r ≠ .joined
  spans : g.SpansConsume
  entries : ∀ production entry, g.entry production = some entry → g.EntersNode entry

theorem spansConsume_of_all (hrules : ∀ r, r ∈ g.rules)
    (h : (g.rules.all fun r => !(g.role r).hasSpan || g.consuming r) = true) :
    g.SpansConsume := by
  intro r hr
  have hall := List.all_eq_true.1 h r (hrules r)
  rw [hr] at hall
  exact hall

/-- The root of a text that is read is the node of a record that begins behind
the blanks and comments at the start and ends where the production does. -/
theorem read_root [BEq R] (hg : g.Regular) {language : Language} {input : List Char}
    {production : Production} {boundary : Boundary} {n : Node}
    (h : g.read language input production boundary = .ok n) :
    ∃ r kind inner rest, g.role r = .node kind ∧
      g.matchRule r .spaced (g.trivia.skip input) =
        some (rest, .cons r (g.trivia.skip input) rest inner .nil) ∧
      n = g.nodeOf (Text.byteLength input) kind (g.trivia.skip input) rest inner ∧
      g.leftover production input = some rest := by
  obtain ⟨entry, rest, f, hentry, hparse, hroot, -⟩ := read_eq_ok_iff.1 h
  obtain ⟨htransparent, e, henters, hchoice⟩ := hg.entries production entry hentry
  have hleftover : g.leftover production input = some rest := by
    rw [leftover, hentry, Option.bind_some, hparse, Option.map_some]
  rw [Grammar.parse_entry hg.ranked henters] at hparse
  obtain ⟨⟨rest', inner⟩, hmatch, heq⟩ := Option.map_eq_some_iff.1 hparse
  cases heq
  obtain ⟨r, hr, hcall⟩ := Grammar.eval_choice hchoice hmatch
  obtain ⟨r', kind, inner', hrole, hrun, hnode⟩ := root?_of_makesNode hg.ranked hr hcall
  refine ⟨r', kind, inner', rest, hrole, hrun, ?_, hleftover⟩
  rw [root?, htransparent, hnode] at hroot
  exact (Option.some.inj hroot).symm

end SnippetGrammar

/-! ## The languages -/

theorem Java.regular : Java.grammar.Regular where
  ranked := ranked
  steady := trivia_steady
  layout := (SnippetGrammar.summarized_of_fits fits_summary).layout
  spans := SnippetGrammar.spansConsume_of_all Rule.mem_all (by decide)
  entries production entry h := by
    cases production <;> cases h <;> exact ⟨rfl, _, ⟨rfl, rfl⟩, rfl⟩

theorem CSharp.regular : CSharp.grammar.Regular where
  ranked := ranked
  steady := trivia_steady
  layout := (SnippetGrammar.summarized_of_fits fits_summary).layout
  spans := SnippetGrammar.spansConsume_of_all Rule.mem_all (by decide)
  entries production entry h := by
    cases production <;> cases h <;> exact ⟨rfl, _, ⟨rfl, rfl⟩, rfl⟩

theorem C.regular : C.grammar.Regular where
  ranked := ranked
  steady := trivia_steady
  layout := (SnippetGrammar.summarized_of_fits fits_summary).layout
  spans := SnippetGrammar.spansConsume_of_all Rule.mem_all (by decide)
  entries production entry h := by
    cases production <;> cases h <;> exact ⟨rfl, _, ⟨rfl, rfl⟩, rfl⟩

end FeatureTree
