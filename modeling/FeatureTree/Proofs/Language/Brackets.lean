import FeatureTree.Proofs.Grammar.Brackets
import FeatureTree.Proofs.Language.Ranks

/-!
# Bodies are balanced text

The languages differ in their literals, and in nothing else that matters to a block. Text
blocks and verbatim strings stand in front of plain strings, whose quotes they begin with;
a prefix is part of its literal, so a scan finds the literal at the prefix.
-/

namespace FeatureTree

namespace Java

/-- The rule of a group. -/
def group : Bracket → Rule
  | .brace => .block
  | .paren => .parenGroup
  | .square => .brackGroup

/-- The rules of literals and comments, in the order in which a piece tries them. -/
def literals : List Rule := [.textBlock, .stringLit, .charLit, .commentText]

theorem balances : grammar.Balances group .groupPiece literals where
  ranked := ranked
  layout_group := by intro b; cases b <;> rfl
  layout_piece := rfl
  body_group := by intro b; cases b <;> rfl
  body_piece := rfl
  consumes_piece := by rfl
  consumes_literals := by decide
  literals_begin := by decide

end Java

namespace CSharp

/-- The rule of a group. -/
def group : Bracket → Rule
  | .brace => .block
  | .paren => .parenGroup
  | .square => .brackGroup

/-- The rules of literals and comments, in the order in which a piece tries them. -/
def literals : List Rule := [.verbatimString, .stringLit, .charLit, .commentText]

theorem balances : grammar.Balances group .groupPiece literals where
  ranked := ranked
  layout_group := by intro b; cases b <;> rfl
  layout_piece := rfl
  body_group := by intro b; cases b <;> rfl
  body_piece := rfl
  consumes_piece := by rfl
  consumes_literals := by decide
  literals_begin := by decide

end CSharp

namespace C

/-- The rule of a group. -/
def group : Bracket → Rule
  | .brace => .block
  | .paren => .parenGroup
  | .square => .brackGroup

/-- The rules of literals and comments, in the order in which a piece tries them. -/
def literals : List Rule := [.stringLit, .charLit, .commentText]

theorem balances : grammar.Balances group .groupPiece literals where
  ranked := ranked
  layout_group := by intro b; cases b <;> rfl
  layout_piece := rfl
  body_group := by intro b; cases b <;> rfl
  body_piece := rfl
  consumes_piece := by rfl
  consumes_literals := by decide
  literals_begin := by decide

end C

namespace Language

/-- What a block leaves of a text, in a language and under a layout. -/
def block? (language : Language) (l : Layout) (s : List Char) : Option (List Char) :=
  match language with
  | .java => (Java.grammar.matchRule .block l s).map (·.1)
  | .csharp => (CSharp.grammar.matchRule .block l s).map (·.1)
  | .c => (C.grammar.matchRule .block l s).map (·.1)

/-- What the first rule of literals and comments that matches leaves of a text. -/
def literal? : Language → List Char → Option (List Char)
  | .java => Java.grammar.firstLiteral? Java.literals
  | .csharp => CSharp.grammar.firstLiteral? CSharp.literals
  | .c => C.grammar.firstLiteral? C.literals

open BracketScan

theorem drops_literal (language : Language) : Text.Drops language.literal? := by
  cases language with
  | java => exact Java.balances.drops_firstLiteral
  | csharp => exact CSharp.balances.drops_firstLiteral
  | c => exact C.balances.drops_firstLiteral

theorem literal_opener (language : Language) (b : Bracket) (s : List Char) :
    language.literal? (b.opener :: s) = none := by
  cases language with
  | java => exact Java.balances.firstLiteral_opener b s
  | csharp => exact CSharp.balances.firstLiteral_opener b s
  | c => exact C.balances.firstLiteral_opener b s

theorem settles_block (language : Language) (l : Layout) (s : List Char) :
    Settles language.literal? ⟨[.brace], s⟩ (language.block? l ('\x7b' :: s)) := by
  cases language with
  | java => exact Java.balances.settles_block rfl l s
  | csharp => exact CSharp.balances.settles_block rfl l s
  | c => exact C.balances.settles_block rfl l s

/-- A block reaches from a brace to where a scan from that brace on empties its stack, and
there is no block exactly if the scan gets stuck. What is in a literal or comment is not
scanned. -/
theorem block?_eq_some_iff (language : Language) (l : Layout) (s : List Char) :
    (∀ rest, language.block? l ('\x7b' :: s) = some rest ↔
      run? language.literal? ('\x7b' :: s) = some rest) ∧
    (language.block? l ('\x7b' :: s) = none ↔
      ∃ st, Reaches language.literal? ⟨[.brace], s⟩ st ∧ st.Stuck language.literal?) ∧
    (∀ st rest, Reaches language.literal? ⟨[.brace], s⟩ st → st.stack ≠ [] →
      language.literal? st.rest = some rest →
        Reaches language.literal? ⟨[.brace], s⟩ ⟨st.stack, rest⟩) := by
  have hsettles := language.settles_block l s
  have hdrops := language.drops_literal
  refine ⟨fun rest => ?_, hsettles.eq_none_iff hdrops, fun st rest hst hstack h => hst.trans ?_⟩
  · rw [hsettles.run?_eq hdrops]
  · exact reaches_literal hdrops language.literal_opener hstack h

/-- A bracket in a literal does not count, and one that does not fit does. -/
theorem block?_eq_some_iff_java :
    java.block? .spaced ('\x7b' :: "f(\"\x7d\");/*(*/\x7d;".toList) = some [';'] ∧
      java.block? .spaced ('\x7b' :: "(];)\x7d".toList) = none := by
  obtain ⟨hends, -, -⟩ := block?_eq_some_iff java .spaced "f(\"\x7d\");/*(*/\x7d;".toList
  obtain ⟨-, hfails, -⟩ := block?_eq_some_iff java .spaced "(];)\x7d".toList
  refine ⟨(hends _).2 (by decide +kernel), hfails.2 ⟨⟨[.paren, .brace], "];)\x7d".toList⟩, ?_, ?_⟩⟩
  · exact .single (by decide +kernel)
  · exact ⟨by decide +kernel, .inl ⟨.square, by decide, by decide⟩⟩

end Language

end FeatureTree
