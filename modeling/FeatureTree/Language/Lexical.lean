import FeatureTree.Grammar.Role

/-!
# Lexical forms that the languages share

Names and keywords are words: maximal runs of word characters. Bodies and
initializers are read as balanced text, and comments inside them are pieces of
that text. The expressions here are those that the grammars have in common.
-/

namespace FeatureTree.Lexical

open FeatureTree.Expr

variable {R : Type}

/-- An ASCII letter. -/
def letter : Expr R := .char Char.isAlpha

/-- An ASCII letter or digit. -/
def letterOrDigit : Expr R := .char Char.isAlphanum

/-- A blank inside a token. -/
def ws : Expr R := choice [" ", "\t", "\r", "\n"]

/-- One of several words, where no word character follows. -/
def word (wordChar : Expr R) (words : List String) : Expr R :=
  seq [oneOf words, .notAhead wordChar]

/-- A comment that is part of balanced text. -/
def commentText : Expr R :=
  choice [
    seq ["//", star (butNot newline)],
    seq ["/*", star (butNot "*/"), "*/"]]

/-- Any character but brackets and quotes. -/
def plainChar : Expr R :=
  butNot (oneOf ["\x7b", "\x7d", "(", ")", "[", "]", "\"", "'"])

/-- The inside of a literal up to its closing quote: escaped characters, and
others on the same line. -/
def literalChar (quote : String) : Expr R :=
  .either (.both "\\" any) (butNot (.either quote newline))

/-- The blanks of all languages. -/
def blank : List Char → Option (List Char) := Text.blank?

/-- A line comment or a block comment. -/
def comment (s : List Char) : Option (List Char) :=
  (Text.lineComment? s).or (Text.blockComment? s)

end FeatureTree.Lexical
