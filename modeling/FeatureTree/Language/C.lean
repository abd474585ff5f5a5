import FeatureTree.Language.Lexical

/-!
# C snippets

Declarations at file level are read by their structure; function bodies, the
bodies of structs and enums, and initializers are balanced text. Directives
count as comments.
-/

namespace FeatureTree.C

/-- The rules, in order of declaration. -/
inductive Rule
  | externalDeclarationEntry | functionEntry | declarationEntry | externalDeclaration
  | functionDefinition | declaration | initDeclarator | declarator | directDeclarator
  | declaratorSuffix | pointer | parameterList | voidParams | parameterDeclaration | ellipsis
  | declName | declarationSpecifiers | specifierExtra | typeCore | typedefName | structSpecifier
  | enumSpecifier | tagName | structBody | attributeSpec | block | parenGroup | brackGroup
  | groupPiece | initializer | initPiece | declaratorBoundary | stringLit | charLit
  | commentText | identifier | keyword | storageClass | typeQualifier | functionSpecifier
  | builtinType | kwStruct | kwUnion | kwEnum | kwVoid
  deriving DecidableEq, Repr

namespace Rule

/-- All rules, in order of declaration. -/
def all : List Rule :=
  [externalDeclarationEntry, functionEntry, declarationEntry, externalDeclaration,
    functionDefinition, declaration, initDeclarator, declarator, directDeclarator,
    declaratorSuffix, pointer, parameterList, voidParams, parameterDeclaration, ellipsis,
    declName, declarationSpecifiers, specifierExtra, typeCore, typedefName, structSpecifier,
    enumSpecifier, tagName, structBody, attributeSpec, block, parenGroup, brackGroup,
    groupPiece, initializer, initPiece, declaratorBoundary, stringLit, charLit, commentText,
    identifier, keyword, storageClass, typeQualifier, functionSpecifier, builtinType, kwStruct,
    kwUnion, kwEnum, kwVoid]

/-- The name of a rule in error messages. -/
def label : Rule → String
  | externalDeclarationEntry => "external declaration entry"
  | functionEntry => "function entry"
  | declarationEntry => "declaration entry"
  | externalDeclaration => "external declaration"
  | functionDefinition => "function definition"
  | declaration => "declaration"
  | initDeclarator => "init declarator"
  | declarator => "declarator"
  | directDeclarator => "direct declarator"
  | declaratorSuffix => "declarator suffix"
  | pointer => "pointer"
  | parameterList => "parameter list"
  | voidParams => "void params"
  | parameterDeclaration => "parameter declaration"
  | ellipsis => "ellipsis"
  | declName => "decl name"
  | declarationSpecifiers => "declaration specifiers"
  | specifierExtra => "specifier extra"
  | typeCore => "type core"
  | typedefName => "typedef name"
  | structSpecifier => "struct specifier"
  | enumSpecifier => "enum specifier"
  | tagName => "tag name"
  | structBody => "struct body"
  | attributeSpec => "attribute spec"
  | block => "block"
  | parenGroup => "paren group"
  | brackGroup => "brack group"
  | groupPiece => "group piece"
  | initializer => "initializer"
  | initPiece => "init piece"
  | declaratorBoundary => "declarator boundary"
  | stringLit => "string lit"
  | charLit => "char lit"
  | commentText => "comment text"
  | identifier => "identifier"
  | keyword => "keyword"
  | storageClass => "storage class"
  | typeQualifier => "type qualifier"
  | functionSpecifier => "function specifier"
  | builtinType => "builtin type"
  | kwStruct => "kw struct"
  | kwUnion => "kw union"
  | kwEnum => "kw enum"
  | kwVoid => "kw void"

/-- What a rule contributes to the tree. -/
def role : Rule → Role
  | functionDefinition => .node .function
  | declaration => .node .declaration
  | initDeclarator => .node .variable
  | parameterDeclaration => .node .parameter
  | declName => .name
  | tagName => .fallbackName
  | block | initializer => .body
  | pointer | declaratorSuffix | structBody | typedefName | attributeSpec => .hidden
  | _ => .transparent

/-- Words, literals, attributes and balanced text are tokens. -/
def layout : Rule → Layout
  | attributeSpec | block | parenGroup | brackGroup | groupPiece | initializer | initPiece
  | declaratorBoundary | stringLit | charLit | commentText | identifier | keyword
  | storageClass | typeQualifier | functionSpecifier | builtinType | kwStruct | kwUnion
  | kwEnum | kwVoid => .token
  | _ => .spaced

open FeatureTree.Expr FeatureTree.Lexical

/-- A character of a word. -/
def identChar : Expr Rule := .either letterOrDigit "_"

/-- A piece of balanced text: a group, a literal, a comment, or a character. -/
def piece : Expr Rule :=
  choice [block, parenGroup, brackGroup, stringLit, charLit, commentText, plainChar]

/-- A struct, union or enum with its specifiers and nothing declared by it. -/
def tagDeclaration : Expr Rule :=
  seq [star specifierExtra, choice [structSpecifier, enumSpecifier], star specifierExtra]

/-- One or more parameters, perhaps with an ellipsis at the end. -/
def parameterDeclarations : Expr Rule :=
  seq [parameterDeclaration, star (seq [",", parameterDeclaration]), opt (seq [",", ellipsis])]

/-- The words that are no names. Of words that start alike the longer ones come
first. -/
def keywords : List String :=
  ["while", "volatile", "void", "unsigned", "union", "typedef", "switch", "struct",
    "static", "sizeof", "signed", "short", "return", "restrict", "register", "long",
    "int", "inline", "if", "goto", "for", "float", "extern", "enum", "else",
    "double", "do", "default", "continue", "const", "char", "case", "break", "auto",
    "_Thread_local", "_Static_assert", "_Noreturn", "_Complex", "_Bool", "_Atomic",
    "_Alignas", "__attribute__", "__declspec"]

/-- The words for where and how long a thing is stored. -/
def storageClasses : List String :=
  ["typedef", "static", "register", "extern", "auto", "_Thread_local"]

/-- The words that qualify a type. -/
def typeQualifiers : List String := ["volatile", "restrict", "const", "_Atomic", "__restrict"]

/-- The words that specify a function. -/
def functionSpecifiers : List String := ["inline", "_Noreturn", "__inline"]

/-- The words of which the names of built-in types are made. -/
def builtinTypes : List String :=
  ["void", "unsigned", "signed", "short", "long", "int", "float", "double", "char",
    "_Complex", "_Bool"]

/-- The expression of a rule. -/
def body : Rule → Expr Rule
  | externalDeclarationEntry => seq [start, externalDeclaration]
  | functionEntry => seq [start, functionDefinition]
  | declarationEntry => seq [start, declaration]
  | externalDeclaration => choice [functionDefinition, declaration]
  | functionDefinition =>
    seq [declarationSpecifiers, star pointer, declName, parameterList, star attributeSpec,
      choice [block, ";"]]
  | declaration =>
    seq [choice [
        seq [declarationSpecifiers, initDeclarator, star (seq [",", initDeclarator])],
        tagDeclaration],
      ";"]
  | initDeclarator => seq [declarator, star attributeSpec, opt (seq ["=", initializer])]
  | declarator => seq [star pointer, directDeclarator, star declaratorSuffix]
  | directDeclarator => choice [declName, seq ["(", star attributeSpec, declarator, ")"]]
  | declaratorSuffix => choice [brackGroup, parenGroup]
  | pointer => seq ["*", star (choice [typeQualifier, attributeSpec])]
  | parameterList => seq ["(", opt (choice [voidParams, parameterDeclarations]), ")"]
  | voidParams => seq [kwVoid, ahead ")"]
  | parameterDeclaration =>
    seq [declarationSpecifiers, star pointer, opt directDeclarator, star declaratorSuffix]
  | ellipsis => "..."
  | declName => identifier
  | declarationSpecifiers =>
    seq [star specifierExtra, typeCore, star (choice [specifierExtra, builtinType])]
  | specifierExtra => choice [storageClass, typeQualifier, functionSpecifier, attributeSpec]
  | typeCore => choice [plus builtinType, structSpecifier, enumSpecifier, typedefName]
  | typedefName => identifier
  | structSpecifier =>
    seq [choice [kwStruct, kwUnion], star attributeSpec,
      choice [seq [tagName, opt structBody], structBody]]
  | enumSpecifier => seq [kwEnum, choice [seq [tagName, opt structBody], structBody]]
  | tagName => identifier
  | structBody => block
  | attributeSpec => seq [oneOf ["__attribute__", "__declspec"], star ws, parenGroup]
  | block => seq ["\x7b", star groupPiece, "\x7d"]
  | parenGroup => seq ["(", star groupPiece, ")"]
  | brackGroup => seq ["[", star groupPiece, "]"]
  | groupPiece => piece
  | initializer => plus (seq [notAhead (choice [";", declaratorBoundary]), initPiece])
  | initPiece => piece
  | declaratorBoundary =>
    seq [",", star ws, star (seq ["*", star ws]), identifier, star ws,
      star (seq [brackGroup, star ws]), choice ["=", ",", ";"]]
  | stringLit => seq [opt (oneOf ["L", "u8", "u", "U"]), "\"", star (literalChar "\""), "\""]
  | charLit => seq [opt (oneOf ["L", "u", "U"]), "'", plus (literalChar "'"), "'"]
  | commentText => Lexical.commentText
  | identifier => seq [notAhead keyword, choice [letter, "_"], star identChar]
  | keyword => word identChar keywords
  | storageClass => word identChar storageClasses
  | typeQualifier => word identChar typeQualifiers
  | functionSpecifier => word identChar functionSpecifiers
  | builtinType => word identChar builtinTypes
  | kwStruct => word identChar ["struct"]
  | kwUnion => word identChar ["union"]
  | kwEnum => word identChar ["enum"]
  | kwVoid => word identChar ["void"]

/-- The rule that matches a production. -/
def entry : Production → Option Rule
  | .externalDeclaration => some externalDeclarationEntry
  | .function => some functionEntry
  | .declaration => some declarationEntry
  | .classMember | .method | .constructor | .field | .property | .type => none

end Rule

/-- A blank, or the end of a line that goes on after a backslash. -/
def blank (s : List Char) : Option (List Char) := (Lexical.blank s).or (Text.joinedLine? s)

/-- A line comment, a block comment, or a directive. -/
def comment (s : List Char) : Option (List Char) :=
  (Lexical.comment s).or (Text.joinedDirective? s)

/-- Blanks, comments and directives. -/
def trivia : Trivia := ⟨blank, comment⟩

/-- The grammar of C snippets. -/
def grammar : SnippetGrammar Rule where
  rules := Rule.all
  layout := Rule.layout
  body := Rule.body
  trivia := trivia
  role := Rule.role
  label := Rule.label
  entry := Rule.entry

end FeatureTree.C
