import FeatureTree.Engine
import FeatureTree.Proofs.Node.Shape

/-!
# What the rules of each language contribute

The rules that are looked through and what they contribute, language by
language. Each table names the rules that contribute something; all others
contribute nothing, which is what keeps names and bodies from reaching a node
that they do not belong to.

`SnippetGrammar.fits` compares a rule with the table: a rule that is looked
through contributes what the table says, a rule that makes a node contributes
what the kind of the node has a place for. That every rule of every language
fits is decided rule by rule.
-/

namespace FeatureTree

namespace Summary

/-- Nothing at all. -/
def nothing : Summary := .many []

/-- One node, of a kind that a production can have as its root. -/
def result (production : Production) : Summary :=
  .one ((Kind.all.filter production.accepts).map .child)

/-- Any number of class members. -/
def members : Summary := .many ((Kind.all.filter Production.classMember.accepts).map .child)

/-- Any number of parameters. -/
def parameters : Summary := .many [.child .parameter]

end Summary

namespace SnippetGrammar

variable {R : Type} (g : SnippetGrammar R) (language : Language) (summary : R → Summary)

/-- A rule contributes what its summary says, or what its node has a place
for. -/
def fits (r : R) : Bool :=
  match g.role r, g.layout r with
  | _, .joined => false
  | .node kind, .spaced =>
    g.bodyEnds summary (Progress.tracker kind) .start (Progress.isDone language kind) r
  | .node _, .token => false
  | .transparent, .spaced =>
    g.bodyEnds summary (summary r).tracker false (summary r).isDone r
  | _, _ => true

variable {g language summary}

theorem summarized_of_fits (h : ∀ r, g.fits language summary r = true) :
    g.Summarized summary where
  layout r hl := by
    have hr := h r
    rw [fits, hl] at hr
    cases hrole : g.role r <;> rw [hrole] at hr <;> cases hr
  body r hrole hl := by
    have hr := h r
    rwa [fits, hrole, hl] at hr

theorem node_of_fits (h : ∀ r, g.fits language summary r = true) {r : R} {kind : Kind}
    (hrole : g.role r = .node kind) :
    g.layout r = .spaced ∧
      g.bodyEnds summary (Progress.tracker kind) .start (Progress.isDone language kind) r =
        true := by
  have hr := h r
  rw [fits, hrole] at hr
  cases hl : g.layout r with
  | spaced => rw [hl] at hr; exact ⟨rfl, hr⟩
  | joined | token => rw [hl] at hr; cases hr

theorem run_wellMade (h : ∀ r, g.fits language summary r = true) {d : Nat} {r : R}
    {s rest : List Char} {f : Forest R} (hrun : g.run d r .spaced s = some (rest, f)) :
    f.All (g.WellMade language) := by
  have hg := summarized_of_fits h
  refine Grammar.run_all (· ≠ .joined) ?_ ?_ (by simp) hrun
  · intro l r hl
    have hlayout := hg.layout r
    cases hr : g.layout r with
    | spaced => exact hl
    | joined => exact absurd hr hlayout
    | token => simp [Layout.inside]
  · intro d r l s rest inner hl hrecords heval _ kind hrole
    obtain ⟨hlayout, hends⟩ := node_of_fits h hrole
    rw [hlayout] at hrecords heval
    -- The rule is recorded, so it was not called inside a token.
    cases l with
    | spaced => exact body_ends hg hends heval
    | joined => exact absurd rfl hl
    | token => cases hrecords

end SnippetGrammar

namespace Java

/-- What the rules that are looked through contribute. -/
def summary : Rule → Summary
  | .classMemberEntry | .classMember => .result .classMember
  | .methodEntry => .result .method
  | .constructorEntry => .result .constructor
  | .fieldEntry => .result .field
  | .typeEntry | .typeDeclaration => .result .type
  | .classBody => .members
  | .formalParameters => .parameters
  | _ => .nothing

theorem fits_summary (r : Rule) : grammar.fits .java summary r = true := by
  cases r <;> rfl

end Java

namespace CSharp

/-- What the rules that are looked through contribute. -/
def summary : Rule → Summary
  | .classMemberEntry | .classMember => .result .classMember
  | .methodEntry => .result .method
  | .constructorEntry => .result .constructor
  | .fieldEntry => .result .field
  | .propertyEntry => .result .property
  | .typeEntry | .typeDeclaration => .result .type
  | .classBody => .members
  | .formalParameters | .indexerParameters => .parameters
  | .memberName => .one [.name]
  | _ => .nothing

theorem fits_summary (r : Rule) : grammar.fits .csharp summary r = true := by
  cases r <;> rfl

end CSharp

namespace C

/-- What the rules that are looked through contribute. -/
def summary : Rule → Summary
  | .externalDeclarationEntry | .externalDeclaration => .result .externalDeclaration
  | .functionEntry => .result .function
  | .declarationEntry => .result .declaration
  | .declarator | .directDeclarator => .one [.name]
  | .parameterList => .parameters
  | .declarationSpecifiers | .typeCore | .structSpecifier | .enumSpecifier => .many [.fallback]
  | _ => .nothing

theorem fits_summary (r : Rule) : grammar.fits .c summary r = true := by
  cases r <;> rfl

end C

end FeatureTree
