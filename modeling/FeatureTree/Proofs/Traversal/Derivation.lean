import Mathlib.Algebra.Group.Nat.Defs
import FeatureTree.Proofs.Traversal.Lexing

/-!
# Derivations

The grammar of traversal expressions over tokens, with the plan that each derivation
stands for. It says nothing of the order in which alternatives are tried and nothing of
blanks.

```
expr      := ('/' | '//')? step (('/' | '//') step)*
step      := '.' | '..' | (axis '::')? test predicate*
test      := '*' | node-kind-name
predicate := '[' or-expr ']'
or-expr   := and-expr ('or' and-expr)*
and-expr  := atom ('and' atom)*
atom      := position | '@' attr ('=' | '!=') literal | '@' attr | '(' or-expr ')'
```

Rows of operands are derived from the left, one operand at a time, which is also how
they are grouped.
-/

namespace FeatureTree.Traversal

/-- What binds the operands of a predicate. -/
inductive Level
  | or | and | atom

/-- The tokens of a predicate, and what it says. -/
inductive Predicate.Derives : Level → List Token → Predicate → Prop
  | position {text : String} (hpos : 1 ≤ Nat.ofDigitChars 10 text.toList 0)
      (hmax : Nat.ofDigitChars 10 text.toList 0 < 2 ^ 64) :
      Derives .atom [.digits text] (.position (Nat.ofDigitChars 10 text.toList 0))
  | has (asked : Attribute) : Derives .atom [.sign "@", .name asked.word] (.has asked)
  | compare {asked : Attribute} {comparison : Comparison} {value : String}
      (hkind : asked = .kind → ∃ k : Kind, k.name = value) :
      Derives .atom [.sign "@", .name asked.word, .sign comparison.symbol, .literal value]
        (.compare asked comparison value)
  | group {ts : List Token} {p : Predicate} (h : Derives .or ts p) :
      Derives .atom (.sign "(" :: (ts ++ [.sign ")"])) p
  | atom {ts : List Token} {p : Predicate} (h : Derives .atom ts p) : Derives .and ts p
  | and {ts us : List Token} {p q : Predicate} (hleft : Derives .and ts p)
      (hright : Derives .atom us q) : Derives .and (ts ++ .name "and" :: us) (.and p q)
  | ands {ts : List Token} {p : Predicate} (h : Derives .and ts p) : Derives .or ts p
  | or {ts us : List Token} {p q : Predicate} (hleft : Derives .or ts p)
      (hright : Derives .and us q) : Derives .or (ts ++ .name "or" :: us) (.or p q)

/-- Predicates, each in its brackets. -/
inductive DerivesPredicates : List Token → List Predicate → Prop
  | nil : DerivesPredicates [] []
  | cons {ts us : List Token} {p : Predicate} {ps : List Predicate} (h : p.Derives .or ts)
      (hrest : DerivesPredicates us ps) :
      DerivesPredicates (.sign "[" :: (ts ++ .sign "]" :: us)) (p :: ps)

/-- The token of a test. -/
def NodeTest.token : NodeTest → Token
  | .any => .sign "*"
  | .kind k => .name k.name

/-- The tokens of a step, and whether they say its axis. -/
inductive Step.Derives : List Token → Step → Bool → Prop
  | parent : Derives [.sign ".."] (.plain .parent .any) true
  | self : Derives [.sign "."] (.plain .self .any) true
  | along (axis : Axis) (test : NodeTest) {ts : List Token} {ps : List Predicate}
      (h : DerivesPredicates ts ps) :
      Derives (.name axis.name :: .sign "::" :: test.token :: ts) ⟨axis, test, ps⟩ true
  | child (test : NodeTest) {ts : List Token} {ps : List Predicate}
      (h : DerivesPredicates ts ps) : Derives (test.token :: ts) ⟨.child, test, ps⟩ false

/-- The separator of two steps. -/
def separatorToken (deep : Bool) : Token := .sign (if deep then "//" else "/")

/-- The tokens of a step, and the steps that it stands for where `deep` says that it
comes after `//`. -/
inductive DerivesSteps : Bool → List Token → List Step → Prop
  | near {ts : List Token} {s : Step} {explicit : Bool} (h : s.Derives ts explicit) :
      DerivesSteps false ts [s]
  | deepNamed {ts : List Token} {s : Step} (h : s.Derives ts true) :
      DerivesSteps true ts [.plain .descendantOrSelf .any, s]
  | deep {ts : List Token} {s : Step} (h : s.Derives ts false) :
      DerivesSteps true ts [{ s with axis := .descendant }]

/-- The tokens of a path, and its steps. -/
inductive DerivesPath : Bool → List Token → List Step → Prop
  | last {deep : Bool} {ts : List Token} {ss : List Step} (h : DerivesSteps deep ts ss) :
      DerivesPath deep ts ss
  | more {deep deep' : Bool} {ts us : List Token} {ss rest : List Step}
      (h : DerivesSteps deep ts ss) (hrest : DerivesPath deep' us rest) :
      DerivesPath deep (ts ++ separatorToken deep' :: us) (ss ++ rest)

/-- The tokens of an expression, and its plan. -/
inductive Plan.Derives : List Token → Plan → Prop
  | context {ts : List Token} {ss : List Step} (h : DerivesPath false ts ss) :
      Derives ts ⟨.context, ss⟩
  | root {deep : Bool} {ts : List Token} {ss : List Step} (h : DerivesPath deep ts ss) :
      Derives (separatorToken deep :: ts) ⟨.root, ss⟩

/-! ## Words -/

theorem kind_ofName?_iff {word : String} {k : Kind} :
    Kind.ofName? word = some k ↔ k.name = word := by
  constructor
  · intro h
    have hname := List.find?_some h
    exact eq_of_beq hname
  · rintro rfl
    exact k.ofName?_name

theorem axis_ofName?_iff {word : String} {axis : Axis} :
    Axis.ofName? word = some axis ↔ axis.name = word := by
  constructor
  · intro h
    have hname := List.find?_some h
    exact eq_of_beq hname
  · rintro rfl
    cases axis <;> rfl

theorem attribute_ofWord?_iff {word : String} {asked : Attribute} :
    Attribute.ofWord? word = some asked ↔ asked.word = word := by
  constructor
  · intro h
    unfold Attribute.ofWord? at h
    split at h <;> cases h <;> rfl
  · rintro rfl
    cases asked <;> rfl

theorem numberOf_eq (digits : List Char) : numberOf digits = Nat.ofDigitChars 10 digits 0 :=
  Nat.ofDigitChars_eq_foldl.symm

end FeatureTree.Traversal
