import FeatureTree.Proofs.Grammar.Records
import FeatureTree.Proofs.Language.Ranks
import FeatureTree.Proofs.Snippet.Parse

/-!
# The strict boundary

Under the strict boundary only blanks and comments may follow a production. The
production ends where its rule stopped matching, but the check starts where the
span of the root ends, and that is further in front: the span leaves out what
looks like blanks and comments at the end of the match, as judged by the text
alone. So a piece of the match, the *tail*, is read a second time, together
with what the match left.

The tail consists of blanks and comments. Reading it again is harmless unless it
leaves a comment open, as the tail `//";` of a field with two slashes in a string
does: the comment then goes on into the text behind the match, and hides what
follows on the same line (`read_strict_iff`). Hence the exact condition under
which the boundary is where the rule stopped (`strictAtLeftover_iff`).
-/

namespace FeatureTree

/-! ## The record of the root -/

namespace Expr

variable {R : Type}

/-- A match is the match of one rule, perhaps behind a word, and `c` holds of
the rule. -/
def isSingle (c : R → Bool) : Expr R → Bool
  | .rule r => c r
  | .both (.text _) b => b.isSingle c
  | .either a b => a.isSingle c && b.isSingle c
  | _ => false

end Expr

namespace Grammar

variable {R : Type} {skip : List Char → List Char} {call : R → Layout → Matcher R}

theorem eval_single (hskip : ∀ s, skip s <:+ s) {c : R → Bool} {e : Expr R}
    (he : e.isSingle c = true) {l : Layout} {s rest : List Char} {f : Forest R}
    (h : eval skip call e l s = some (rest, f)) :
    ∃ r before, c r = true ∧ before <:+ s ∧ call r l before = some (rest, f) := by
  induction e using Expr.isSingle.induct generalizing s rest f with
  | case1 r => exact ⟨r, s, he, List.suffix_refl s, h⟩
  | case2 word b ihb =>
      obtain ⟨u, f₁, f₂, hword, hb, rfl⟩ := eval_both_eq_some.1 h
      obtain ⟨rfl, rfl⟩ := eval_text_eq_some.1 hword
      obtain ⟨r, before, hr, hbefore, hcall⟩ := ihb he hb
      have hu : u <:+ word ++ u := List.suffix_append word u
      exact ⟨r, before, hr, hbefore.trans ((gap_suffix hskip l u).trans hu), hcall⟩
  | case3 a b iha ihb =>
      rw [Expr.isSingle, Bool.and_eq_true] at he
      obtain ha | ⟨-, hb⟩ := eval_either_eq_some.1 h
      · exact iha he.1 ha
      · exact ihb he.2 hb
  | case4 e hrule hboth heither =>
      rw [Expr.isSingle] at he
      · cases he
      · exact hrule
      · exact hboth
      · exact heither

end Grammar

namespace SnippetGrammar

variable {R : Type} {g : SnippetGrammar R}

/-- A rule makes the root, or it is looked through and a rule inside it does,
that ends where it ends. -/
def rootWithin (g : SnippetGrammar R) : Nat → R → Bool
  | 0, _ => false
  | n + 1, r =>
    g.layout r == .spaced &&
      match g.role r with
      | .node _ => true
      | .transparent => (g.body r).isSingle (g.rootWithin n)
      | _ => false

/-- The root is the node of a record that ends where the match ends. -/
theorem root?_of_run (hg : g.Ranked) {n d : Nat} {r : R} {s rest : List Char} {f : Forest R}
    (hr : g.rootWithin n r = true) (h : g.run d r .spaced s = some (rest, f)) :
    ∃ kind before inner, before <:+ s ∧ rest <:+ before ∧
      ∀ total, g.root? total f = some (g.nodeOf total kind before rest inner) := by
  induction n generalizing d r s rest f with
  | zero => cases hr
  | succ n ih =>
      have hrest := (Grammar.run_rest hg h).1
      rw [rootWithin, Bool.and_eq_true, beq_iff_eq] at hr
      obtain ⟨hlayout, hr⟩ := hr
      obtain ⟨d', inner, -, rfl, heval⟩ := Grammar.run_eq_cons h (by rw [hlayout]; rfl)
      rw [hlayout] at heval
      cases hrole : g.role r with
      | node kind =>
          refine ⟨kind, s, inner, List.suffix_refl s, hrest, fun total => ?_⟩
          rw [root?, hrole]
      | transparent =>
          rw [hrole] at hr
          obtain ⟨r', before, hr', hbefore, hcall⟩ :=
            Grammar.eval_single (Trivia.skip_suffix hg.lawful) hr heval
          obtain ⟨kind, before', inner', hbefore', hrest', hroot⟩ := ih hr' hcall
          refine ⟨kind, before', inner', hbefore'.trans hbefore, hrest', fun total => ?_⟩
          rw [root?, hrole]
          simp only [hroot, Option.some_or]
      | name | fallbackName | body | hidden =>
          rw [hrole] at hr
          cases hr

/-- What the rule of a production leaves of a text. -/
def leftover (g : SnippetGrammar R) (production : Production) (input : List Char) :
    Option (List Char) :=
  (g.entry production).bind fun entry => (g.parse entry input).map (·.1)

end SnippetGrammar

/-- The tail: what stands between the root and what its rule left. -/
def Node.tail (root : Node) (input rest : List Char) : List Char :=
  Forest.taken (((Text.cut root.span.stop input).map (·.2)).getD []) rest

namespace SnippetGrammar

variable {R : Type} {g : SnippetGrammar R} {language : Language} {input rest : List Char}
  {production : Production} {root : Node}

/-- The root stops in front of the tail, which is blanks and comments. -/
theorem stop_of_parse (hg : g.Ranked) {n : Nat} {entry : R} {f : Forest R}
    (hentry : g.rootWithin n entry = true) (hparse : g.parse entry input = some (rest, f))
    (hroot : g.root? (Text.byteLength input) f = some root) :
    ∃ front, input = front ++ (root.tail input rest ++ rest) ∧
      Text.byteLength front = root.span.stop ∧ g.trivia.isTrivia (root.tail input rest) = true := by
  obtain ⟨kind, before, inner, ⟨pre, hpre⟩, ⟨piece, hpiece⟩, hnode⟩ :=
    root?_of_run hg hentry hparse
  rw [hnode] at hroot
  cases hroot
  obtain ⟨tail, hcut, htail⟩ := g.trivia.trim_append piece
  have hinput : input = pre ++ g.trivia.trim piece ++ (tail ++ rest) := by
    rw [← hpre, ← hpiece]
    conv => lhs; rw [hcut]
    simp only [List.append_assoc]
  have hstop : (g.nodeOf (Text.byteLength input) kind before rest inner).span.stop =
      Text.byteLength (pre ++ g.trivia.trim piece) := by
    show Text.byteLength input - Text.byteLength before +
      Text.byteLength (g.trivia.trim (Forest.taken before rest)) = _
    rw [← hpiece, Forest.taken_append, ← hpre, ← hpiece, Text.byteLength_append,
      Nat.add_sub_cancel, Text.byteLength_append]
  have heq : (g.nodeOf (Text.byteLength input) kind before rest inner).tail input rest = tail := by
    rw [Node.tail, hstop, hinput, Text.cut_append, Option.map_some, Option.getD_some,
      Forest.taken_append]
  rw [heq, hstop]
  exact ⟨_, hinput, rfl, htail⟩

theorem checkTrailing_eq_ok_iff {front behind : List Char}
    (hfront : Text.byteLength front = root.span.stop) :
    g.checkTrailing (front ++ behind) root = .ok () ↔ g.trivia.isTrivia behind = true := by
  rw [checkTrailing, ← hfront, Text.cut_append, Trivia.isTrivia]
  simp only [Option.map_some, Option.getD_some]
  split
  · next h => simp [h]
  · next h => simp [h]

/-- What is read under the strict boundary: the tail is read again, and if it
leaves a comment open, this comment ends further behind. -/
theorem read_strict_iff [BEq R] (hg : g.Ranked) (ht : g.trivia.Local) {n : Nat}
    (hentry : ∀ entry, g.entry production = some entry → g.rootWithin n entry = true) :
    g.read language input production .strict = .ok root ↔
      g.read language input production .lenient = .ok root ∧
        ∃ rest, g.leftover production input = some rest ∧
          g.trivia.isTrivia
            (if g.trivia.leavesOpen (root.tail input rest) then
              g.trivia.behindComment (root.tail input rest) rest
            else rest) = true := by
  rw [read_eq_ok_iff, read_eq_ok_iff]
  constructor
  · rintro ⟨entry, rest, f, he, hparse, hroot, hcheck⟩
    obtain ⟨front, hinput, hfront, htail⟩ := stop_of_parse hg (hentry entry he) hparse hroot
    refine ⟨⟨entry, rest, f, he, hparse, hroot, fun h => nomatch h⟩, rest, ?_, ?_⟩
    · rw [leftover, he, Option.bind_some, hparse, Option.map_some]
    · rw [← Trivia.isTrivia_append ht htail, ← checkTrailing_eq_ok_iff hfront, ← hinput]
      exact hcheck rfl
  · rintro ⟨⟨entry, rest, f, he, hparse, hroot, -⟩, rest', hrest, htrivia⟩
    rw [leftover, he, Option.bind_some, hparse, Option.map_some] at hrest
    cases hrest
    obtain ⟨front, hinput, hfront, htail⟩ := stop_of_parse hg (hentry entry he) hparse hroot
    refine ⟨entry, rest, f, he, hparse, hroot, fun _ => ?_⟩
    rw [← Trivia.isTrivia_append ht htail, ← checkTrailing_eq_ok_iff hfront, ← hinput] at htrivia
    exact htrivia

end SnippetGrammar

/-! ## The languages -/

/-- The blanks and comments of a language. -/
def Language.trivia : Language → Trivia
  | .java => Java.trivia
  | .csharp => CSharp.trivia
  | .c => C.trivia

/-- What the rule of the target's production leaves of a text. -/
def Target.leftover (t : Target) (text : String) : Option (List Char) :=
  match t.language with
  | .java => Java.grammar.leftover t.production text.toList
  | .csharp => CSharp.grammar.leftover t.production text.toList
  | .c => C.grammar.leftover t.production text.toList

theorem Java.rootWithin_entry {production : Production} {entry : Rule}
    (h : grammar.entry production = some entry) : grammar.rootWithin 4 entry = true := by
  cases production <;> cases h <;> rfl

theorem CSharp.rootWithin_entry {production : Production} {entry : Rule}
    (h : grammar.entry production = some entry) : grammar.rootWithin 4 entry = true := by
  cases production <;> cases h <;> rfl

theorem C.rootWithin_entry {production : Production} {entry : Rule}
    (h : grammar.entry production = some entry) : grammar.rootWithin 4 entry = true := by
  cases production <;> cases h <;> rfl

section Languages

variable {text : String} {t : Target} {n : Node}

theorem parse_strict_iff :
    (Engine.bundled t.language).parse text t.production .strict = .ok n ↔
      (Engine.bundled t.language).parse text t.production .lenient = .ok n ∧
        ∃ rest, t.leftover text = some rest ∧
          t.language.trivia.isTrivia
            (if t.language.trivia.leavesOpen (n.tail text.toList rest) then
              t.language.trivia.behindComment (n.tail text.toList rest) rest
            else rest) = true := by
  obtain ⟨language, production⟩ := t
  cases language with
  | java =>
      exact SnippetGrammar.read_strict_iff Java.ranked Java.trivia_local
        fun _ => Java.rootWithin_entry
  | csharp =>
      exact SnippetGrammar.read_strict_iff CSharp.ranked CSharp.trivia_local
        fun _ => CSharp.rootWithin_entry
  | c =>
      exact SnippetGrammar.read_strict_iff C.ranked C.trivia_local
        fun _ => C.rootWithin_entry

theorem parseSnippet_strict_iff :
    parseSnippet text t true = .ok n ↔
      parseSnippet text t false = .ok n ∧
        ∃ rest, t.leftover text = some rest ∧
          t.language.trivia.isTrivia
            (if t.language.trivia.leavesOpen (n.tail text.toList rest) then
              t.language.trivia.behindComment (n.tail text.toList rest) rest
            else rest) = true := by
  rw [parseSnippet_eq_ok_iff, parseSnippet_eq_ok_iff]
  constructor
  · rintro ⟨hsupported, hparse, hkind⟩
    obtain ⟨hlenient, hrest⟩ := parse_strict_iff.1 hparse
    exact ⟨⟨hsupported, hlenient, hkind⟩, hrest⟩
  · rintro ⟨⟨hsupported, hlenient, hkind⟩, hrest⟩
    exact ⟨hsupported, parse_strict_iff.2 ⟨hlenient, hrest⟩, hkind⟩

/-- The strict boundary is where the rule of the production stopped: a text is
read exactly if only blanks and comments follow from there on. -/
def StrictAtLeftover (t : Target) (text : String) : Prop :=
  (∃ n, parseSnippet text t true = .ok n) ↔
    ∃ n rest, parseSnippet text t false = .ok n ∧ t.leftover text = some rest ∧
      t.language.trivia.isTrivia rest = true

/-- The boundary is where the rule stopped unless the tail leaves a comment open
and there is a difference between what follows the tail and what follows this
comment. -/
theorem strictAtLeftover_iff (t : Target) (text : String) :
    StrictAtLeftover t text ↔
      ∀ n rest, parseSnippet text t false = .ok n → t.leftover text = some rest →
        t.language.trivia.leavesOpen (n.tail text.toList rest) = true →
        t.language.trivia.isTrivia
            (t.language.trivia.behindComment (n.tail text.toList rest) rest) =
          t.language.trivia.isTrivia rest := by
  constructor
  · intro hstrict n rest hlenient hrest hopen
    rw [Bool.eq_iff_iff]
    constructor
    · intro hbehind
      have hread : parseSnippet text t true = .ok n :=
        parseSnippet_strict_iff.2 ⟨hlenient, rest, hrest, by rwa [if_pos hopen]⟩
      obtain ⟨n', rest', -, hrest', htrivia⟩ := hstrict.1 ⟨n, hread⟩
      rw [hrest] at hrest'
      cases hrest'
      exact htrivia
    · intro htrivia
      obtain ⟨n', hread⟩ := hstrict.2 ⟨n, rest, hlenient, hrest, htrivia⟩
      obtain ⟨hlenient', rest', hrest', hbehind⟩ := parseSnippet_strict_iff.1 hread
      rw [hlenient] at hlenient'
      rw [hrest] at hrest'
      cases hlenient'
      cases hrest'
      rwa [if_pos hopen] at hbehind
  · intro h
    have hsame : ∀ n rest, parseSnippet text t false = .ok n → t.leftover text = some rest →
        t.language.trivia.isTrivia
            (if t.language.trivia.leavesOpen (n.tail text.toList rest) then
              t.language.trivia.behindComment (n.tail text.toList rest) rest
            else rest) = t.language.trivia.isTrivia rest := by
      intro n rest hlenient hrest
      split
      · next hopen => exact h n rest hlenient hrest hopen
      · rfl
    constructor
    · rintro ⟨n, hread⟩
      obtain ⟨hlenient, rest, hrest, hbehind⟩ := parseSnippet_strict_iff.1 hread
      exact ⟨n, rest, hlenient, hrest, hsame n rest hlenient hrest ▸ hbehind⟩
    · rintro ⟨n, rest, hlenient, hrest, htrivia⟩
      exact ⟨n, parseSnippet_strict_iff.2
        ⟨hlenient, rest, hrest, (hsame n rest hlenient hrest).symm ▸ htrivia⟩⟩

/-- Two slashes in a string hide a letter behind the field. -/
theorem not_strictAtLeftover_slashes :
    ¬ StrictAtLeftover ⟨.java, .field⟩ "int a=\"//\";b" := by
  intro hstrict
  have hread : parseSnippet "int a=\"//\";b" ⟨.java, .field⟩ true =
      .ok ⟨.field, some "a", [⟨.variable, some "a", [], ⟨4, 7⟩, some ⟨6, 7⟩⟩], ⟨0, 7⟩, none⟩ :=
    Outcome.eq_ok_of_toOption (by decide +kernel)
  have hleftover : Target.leftover ⟨.java, .field⟩ "int a=\"//\";b" = some ['b'] := by
    decide +kernel
  obtain ⟨n, rest, -, hrest, htrivia⟩ := hstrict.1 ⟨_, hread⟩
  rw [hleftover] at hrest
  cases hrest
  cases htrivia

end Languages

end FeatureTree
