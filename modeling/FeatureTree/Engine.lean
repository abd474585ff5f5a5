import FeatureTree.Language.C
import FeatureTree.Language.CSharp
import FeatureTree.Language.Java
import FeatureTree.Node.OfForest

/-!
# Engines

An engine reads one production of its language off the front of a text and
answers with the root node or with where the text stopped matching. Under the
strict boundary only blanks and comments may follow the production.

The bundled engines read the grammars of this library. Callers can supply
others, whose answers may be anything.
-/

namespace FeatureTree

/-- How the end of a production is enforced. -/
inductive Boundary
  /-- Only blanks and comments may follow. -/
  | strict
  /-- Anything may follow. -/
  | lenient
  deriving DecidableEq, Repr

/-- The boundary for a strictness. -/
def Boundary.ofStrict (strict : Bool) : Boundary := if strict then .strict else .lenient

/-- Why an engine could not read a text. -/
inductive SyntaxError
  /-- The language has no such production. -/
  | noProduction (language : Language) (production : Production)
  /-- The text does not match; `atEnd` if nothing but white space follows the
  furthest place. -/
  | mismatch (report : Mismatch) (atEnd : Bool)
  /-- The rule matched and made no node. -/
  | noDeclaration (rule : String) (length : Nat)
  /-- Something else follows the root, at a byte offset in a text of a length. -/
  | trailing (root : Kind) (offset length : Nat)
  /-- An error in the words of an engine that is not bundled. -/
  | custom (message label : String) (span : Span)
  deriving DecidableEq, Repr

namespace SyntaxError

/-- The sentence that reports the error. -/
def message : SyntaxError → String
  | noProduction language production => s!"{language} has no {production} production"
  | mismatch report atEnd =>
    if atEnd then "unexpected end of input, " ++ report.message else report.message
  | noDeclaration rule _ => s!"{rule} matched no declaration"
  | trailing root _ _ => s!"unexpected content after the {root}"
  | custom message _ _ => message

/-- What is said at the place of the error. -/
def label : SyntaxError → String
  | noProduction _ _ => "not parsed"
  | mismatch _ _ => "does not match here"
  | noDeclaration _ _ => "expected a declaration"
  | trailing _ _ _ => "trailing content starts here"
  | custom _ label _ => label

/-- The place of the error. -/
def span : SyntaxError → Span
  | noProduction _ _ => ⟨0, 0⟩
  | mismatch report _ => ⟨report.offset, report.offset⟩
  | noDeclaration _ length => ⟨0, length⟩
  | trailing _ offset length => ⟨offset, length⟩
  | custom _ _ span => span

/-- The error with its place, in one line. -/
protected def toString (e : SyntaxError) : String := s!"{e.message} at {e.span}"

instance : ToString SyntaxError := ⟨SyntaxError.toString⟩

end SyntaxError

namespace SnippetGrammar

variable {R : Type} [BEq R] (g : SnippetGrammar R)

/-- Checks that only blanks and comments follow a root. They are looked for
from the end of the root's span on. -/
def checkTrailing (input : List Char) (root : Node) : Except SyntaxError Unit :=
  let rest := (Text.cut root.span.stop input).map (·.2)
  let trailing := g.trivia.skip (rest.getD [])
  if trailing.isEmpty then .ok ()
  else
    let length := Text.byteLength input
    .error (.trailing root.kind (length - Text.byteLength trailing) length)

/-- Reads a production off the front of a text. -/
def read (language : Language) (input : List Char) (production : Production)
    (boundary : Boundary) : Except SyntaxError Node :=
  match g.entry production with
  | none => .error (.noProduction language production)
  | some entry =>
    match g.parse entry input with
    | none =>
      let report := g.mismatch g.label entry input
      .error (.mismatch report (Text.byteLength (Text.trimEnd input) ≤ report.offset))
    | some (_, forest) =>
      let length := Text.byteLength input
      match g.root? length forest with
      | none => .error (.noDeclaration (g.label entry) length)
      | some root =>
        match boundary with
        | .lenient => .ok root
        | .strict => (g.checkTrailing input root).map fun _ => root

end SnippetGrammar

/-- A reader of the productions of a language. -/
structure Engine where
  language : Language
  /-- Whether it is of a type of a caller's, and not one of the bundled ones. -/
  supplied : Bool
  parse : String → Production → Boundary → Except SyntaxError Node

namespace Engine

/-- The engine of a grammar. -/
def ofGrammar {R : Type} [BEq R] (language : Language) (g : SnippetGrammar R) : Engine :=
  ⟨language, false,
    fun text production boundary => g.read language text.toList production boundary⟩

/-- The engine that comes with a language. -/
def bundled : Language → Engine
  | .java => ofGrammar .java Java.grammar
  | .csharp => ofGrammar .csharp CSharp.grammar
  | .c => ofGrammar .c C.grammar

end Engine

end FeatureTree
