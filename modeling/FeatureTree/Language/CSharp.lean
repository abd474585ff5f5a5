import FeatureTree.Language.Lexical

/-!
# C# snippets

Members and types are read by their structure; method bodies, accessors,
expression bodies and initializers are balanced text. Directives count as
comments.
-/

namespace FeatureTree.CSharp

/-- The rules, in order of declaration. -/
inductive Rule
  | classMemberEntry | methodEntry | constructorEntry | fieldEntry | propertyEntry | typeEntry
  | classMember | methodDeclaration | destructorDeclaration | destructorName
  | operatorDeclaration | operatorName | overloadableOp | conversionDeclaration | conversionKind
  | conversionName | typeWord | indexerDeclaration | indexerName | indexerParameters
  | constructorDeclaration | constructorInitializer | propertyDeclaration | fieldDeclaration
  | variableDeclarator | memberName | interfaceQualifier | typeDeclaration | classDeclaration
  | structDeclaration | interfaceDeclaration | enumDeclaration | classBody | baseList
  | modifiers | attributeSection | formalParameters | formalParameter | defaultValue
  | typeParameters | typeParameter | variance | typeConstraints | returnType | typeRef
  | tupleType | tupleElement | classType | typeArguments | rank | declName | block | parenGroup
  | brackGroup | groupPiece | expressionBody | initializer | initPiece | declaratorBoundary
  | verbatimString | stringLit | charLit | commentText | identifier | keyword | modifier
  | parameterModifier | primitiveType | kwClass | kwRecord | kwStruct | kwInterface | kwEnum
  | kwBase | kwThis | kwVoid
  deriving DecidableEq, Repr

namespace Rule

/-- All rules, in order of declaration. -/
def all : List Rule :=
  [classMemberEntry, methodEntry, constructorEntry, fieldEntry, propertyEntry, typeEntry,
    classMember, methodDeclaration, destructorDeclaration, destructorName, operatorDeclaration,
    operatorName, overloadableOp, conversionDeclaration, conversionKind, conversionName,
    typeWord, indexerDeclaration, indexerName, indexerParameters, constructorDeclaration,
    constructorInitializer, propertyDeclaration, fieldDeclaration, variableDeclarator,
    memberName, interfaceQualifier, typeDeclaration, classDeclaration, structDeclaration,
    interfaceDeclaration, enumDeclaration, classBody, baseList, modifiers, attributeSection,
    formalParameters, formalParameter, defaultValue, typeParameters, typeParameter, variance,
    typeConstraints, returnType, typeRef, tupleType, tupleElement, classType, typeArguments,
    rank, declName, block, parenGroup, brackGroup, groupPiece, expressionBody, initializer,
    initPiece, declaratorBoundary, verbatimString, stringLit, charLit, commentText, identifier,
    keyword, modifier, parameterModifier, primitiveType, kwClass, kwRecord, kwStruct,
    kwInterface, kwEnum, kwBase, kwThis, kwVoid]

/-- The name of a rule in error messages. -/
def label : Rule → String
  | classMemberEntry => "class member entry"
  | methodEntry => "method entry"
  | constructorEntry => "constructor entry"
  | fieldEntry => "field entry"
  | propertyEntry => "property entry"
  | typeEntry => "type entry"
  | classMember => "class member"
  | methodDeclaration => "method declaration"
  | destructorDeclaration => "destructor declaration"
  | destructorName => "destructor name"
  | operatorDeclaration => "operator declaration"
  | operatorName => "operator name"
  | overloadableOp => "overloadable op"
  | conversionDeclaration => "conversion declaration"
  | conversionKind => "conversion kind"
  | conversionName => "conversion name"
  | typeWord => "type word"
  | indexerDeclaration => "indexer declaration"
  | indexerName => "indexer name"
  | indexerParameters => "indexer parameters"
  | constructorDeclaration => "constructor declaration"
  | constructorInitializer => "constructor initializer"
  | propertyDeclaration => "property declaration"
  | fieldDeclaration => "field declaration"
  | variableDeclarator => "variable declarator"
  | memberName => "member name"
  | interfaceQualifier => "interface qualifier"
  | typeDeclaration => "type declaration"
  | classDeclaration => "class declaration"
  | structDeclaration => "struct declaration"
  | interfaceDeclaration => "interface declaration"
  | enumDeclaration => "enum declaration"
  | classBody => "class body"
  | baseList => "base list"
  | modifiers => "modifiers"
  | attributeSection => "attribute section"
  | formalParameters => "formal parameters"
  | formalParameter => "formal parameter"
  | defaultValue => "default value"
  | typeParameters => "type parameters"
  | typeParameter => "type parameter"
  | variance => "variance"
  | typeConstraints => "type constraints"
  | returnType => "return type"
  | typeRef => "type ref"
  | tupleType => "tuple type"
  | tupleElement => "tuple element"
  | classType => "class type"
  | typeArguments => "type arguments"
  | rank => "rank"
  | declName => "decl name"
  | block => "block"
  | parenGroup => "paren group"
  | brackGroup => "brack group"
  | groupPiece => "group piece"
  | expressionBody => "expression body"
  | initializer => "initializer"
  | initPiece => "init piece"
  | declaratorBoundary => "declarator boundary"
  | verbatimString => "verbatim string"
  | stringLit => "string lit"
  | charLit => "char lit"
  | commentText => "comment text"
  | identifier => "identifier"
  | keyword => "keyword"
  | modifier => "modifier"
  | parameterModifier => "parameter modifier"
  | primitiveType => "primitive type"
  | kwClass => "kw class"
  | kwRecord => "kw record"
  | kwStruct => "kw struct"
  | kwInterface => "kw interface"
  | kwEnum => "kw enum"
  | kwBase => "kw base"
  | kwThis => "kw this"
  | kwVoid => "kw void"

/-- What a rule contributes to the tree. -/
def role : Rule → Role
  | methodDeclaration | destructorDeclaration | operatorDeclaration | conversionDeclaration =>
    .node .method
  | constructorDeclaration => .node .constructor
  | propertyDeclaration | indexerDeclaration => .node .property
  | fieldDeclaration => .node .field
  | classDeclaration => .node .class
  | structDeclaration => .node .struct
  | interfaceDeclaration => .node .interface
  | enumDeclaration => .node .enum
  | variableDeclarator => .node .variable
  | formalParameter => .node .parameter
  | declName | destructorName | operatorName | conversionName | indexerName => .name
  | block | expressionBody | initializer => .body
  | modifiers | attributeSection | typeParameters | typeConstraints | returnType | typeRef
  | baseList | interfaceQualifier | constructorInitializer | conversionKind | defaultValue =>
    .hidden
  | _ => .transparent

/-- Words, literals, special names and balanced text are tokens. -/
def layout : Rule → Layout
  | destructorName | operatorName | overloadableOp | conversionKind | conversionName | typeWord
  | indexerName | defaultValue | variance | typeConstraints | block | parenGroup | brackGroup
  | groupPiece | expressionBody | initializer | initPiece | declaratorBoundary
  | verbatimString | stringLit | charLit | commentText | identifier | keyword | modifier
  | parameterModifier | primitiveType | kwClass | kwRecord | kwStruct | kwInterface | kwEnum
  | kwBase | kwThis | kwVoid => .token
  | _ => .spaced

open FeatureTree.Expr FeatureTree.Lexical

/-- A character of a word. -/
def identChar : Expr Rule := .either letterOrDigit "_"

/-- A piece of balanced text: a group, a literal, a comment, or a character. -/
def piece : Expr Rule :=
  choice [block, parenGroup, brackGroup, verbatimString, stringLit, charLit, commentText,
    plainChar]

/-- The expression after an arrow, up to its semicolon. -/
def arrowBody : Expr Rule := seq ["=>", expressionBody, ";"]

/-- A block, an expression after an arrow, or no body. -/
def memberBody : Expr Rule := choice [block, arrowBody, ";"]

/-- The words that are no names. Of words that start alike the longer ones come
first. -/
def keywords : List String :=
  ["while", "volatile", "void", "virtual", "using", "ushort", "unsafe", "unchecked",
    "ulong", "uint", "typeof", "try", "true", "throw", "this", "switch", "struct",
    "string", "static", "stackalloc", "sizeof", "short", "sealed", "sbyte", "return",
    "ref", "readonly", "public", "protected", "private", "params", "override", "out",
    "operator", "object", "null", "new", "namespace", "long", "lock", "is",
    "internal", "interface", "int", "in", "implicit", "if", "goto", "foreach",
    "for", "float", "fixed", "finally", "false", "extern", "explicit", "event",
    "enum", "else", "double", "do", "delegate", "default", "decimal", "continue",
    "const", "class", "checked", "char", "catch", "case", "byte", "break", "bool",
    "base", "as", "abstract"]

/-- The words that may stand in front of a declaration. -/
def modifierWords : List String :=
  ["volatile", "virtual", "unsafe", "static", "sealed", "required", "readonly",
    "public", "protected", "private", "partial", "override", "new", "internal",
    "extern", "event", "const", "async", "abstract"]

/-- The words that may stand in front of a parameter. -/
def parameterModifierWords : List String := ["this", "ref", "params", "out", "in"]

/-- The names of the predefined types. -/
def primitiveTypes : List String :=
  ["ushort", "ulong", "uint", "string", "short", "sbyte", "object", "long",
    "int", "float", "double", "dynamic", "decimal", "char", "byte", "bool"]

/-- The symbols of operators that a type can declare. Of symbols that start
alike the longer ones come first. -/
def operatorSymbols : List String :=
  [">>>", ">>", "<<", "==", "!=", ">=", "<=", "++", "--",
    "+", "-", "!", "~", "*", "/", "%", "&", "|", "^", "<", ">"]

/-- The expression of a rule. -/
def body : Rule → Expr Rule
  | classMemberEntry => seq [start, classMember]
  | methodEntry =>
    seq [start, choice [operatorDeclaration, conversionDeclaration, destructorDeclaration,
      methodDeclaration]]
  | constructorEntry => seq [start, constructorDeclaration]
  | fieldEntry => seq [start, fieldDeclaration]
  | propertyEntry => seq [start, choice [indexerDeclaration, propertyDeclaration]]
  | typeEntry => seq [start, typeDeclaration]
  | classMember =>
    choice [typeDeclaration, destructorDeclaration, operatorDeclaration, conversionDeclaration,
      constructorDeclaration, methodDeclaration, indexerDeclaration, propertyDeclaration,
      fieldDeclaration]
  | methodDeclaration =>
    seq [modifiers, returnType, memberName, opt typeParameters, formalParameters,
      opt typeConstraints, memberBody]
  | destructorDeclaration => seq [modifiers, destructorName, "(", ")", memberBody]
  | destructorName => seq ["~", star ws, identifier]
  | operatorDeclaration =>
    seq [modifiers, returnType, operatorName, formalParameters, memberBody]
  | operatorName => seq ["operator", star ws, overloadableOp]
  | overloadableOp => .either (word identChar ["true", "false"]) (oneOf operatorSymbols)
  | conversionDeclaration =>
    seq [modifiers, conversionKind, conversionName, formalParameters, memberBody]
  | conversionKind => word identChar ["implicit", "explicit"]
  | conversionName => seq ["operator", plus ws, typeWord, star (seq [plus ws, typeWord])]
  | typeWord => plus (butNot (.either "(" ws))
  | indexerDeclaration =>
    seq [modifiers, typeRef, opt interfaceQualifier, indexerName, indexerParameters,
      choice [block, arrowBody]]
  | indexerName => word identChar ["this"]
  | indexerParameters => seq ["[", formalParameter, star (seq [",", formalParameter]), "]"]
  | constructorDeclaration =>
    seq [modifiers, declName, formalParameters, opt constructorInitializer, memberBody]
  | constructorInitializer => seq [":", choice [kwBase, kwThis], parenGroup]
  | propertyDeclaration =>
    seq [modifiers, typeRef, memberName,
      choice [seq [block, opt (seq ["=", initializer, ";"])], arrowBody]]
  | fieldDeclaration =>
    seq [modifiers, typeRef, variableDeclarator, star (seq [",", variableDeclarator]), ";"]
  | variableDeclarator => seq [declName, opt (seq ["=", initializer])]
  | memberName => seq [opt interfaceQualifier, declName]
  | interfaceQualifier => plus (seq [identifier, opt typeArguments, "."])
  | typeDeclaration =>
    choice [classDeclaration, structDeclaration, interfaceDeclaration, enumDeclaration]
  | classDeclaration =>
    seq [modifiers, choice [kwClass, kwRecord], declName, opt typeParameters,
      opt formalParameters, opt baseList, opt typeConstraints,
      choice [seq [classBody, opt ";"], ";"]]
  | structDeclaration =>
    seq [modifiers, kwStruct, declName, opt typeParameters, opt baseList, opt typeConstraints,
      classBody, opt ";"]
  | interfaceDeclaration =>
    seq [modifiers, kwInterface, declName, opt typeParameters, opt baseList,
      opt typeConstraints, classBody, opt ";"]
  | enumDeclaration => seq [modifiers, kwEnum, declName, opt baseList, block, opt ";"]
  | classBody => seq ["\x7b", star (choice [classMember, ";"]), "\x7d"]
  | baseList => seq [":", typeRef, star (seq [",", typeRef])]
  | modifiers => star (choice [attributeSection, modifier])
  | attributeSection => brackGroup
  | formalParameters =>
    seq ["(", opt (seq [formalParameter, star (seq [",", formalParameter])]), ")"]
  | formalParameter =>
    seq [star (choice [attributeSection, parameterModifier]), typeRef, declName,
      opt (seq ["=", defaultValue])]
  | defaultValue => plus (seq [notAhead ",", initPiece])
  | typeParameters => seq ["<", typeParameter, star (seq [",", typeParameter]), ">"]
  | typeParameter => seq [star attributeSection, opt variance, identifier]
  | variance => word identChar ["out", "in"]
  | typeConstraints =>
    seq ["where", notAhead identChar, star (butNot (oneOf ["\x7b", ";", "=>"]))]
  | returnType => choice [kwVoid, typeRef]
  | typeRef =>
    seq [choice [tupleType, primitiveType, classType], opt "?", star (seq [rank, opt "?"])]
  | tupleType => seq ["(", tupleElement, plus (seq [",", tupleElement]), ")"]
  | tupleElement => seq [typeRef, opt identifier]
  | classType =>
    seq [identifier, opt typeArguments,
      star (seq [choice [".", "::"], identifier, opt typeArguments])]
  | typeArguments => seq ["<", typeRef, star (seq [",", typeRef]), ">"]
  | rank => seq ["[", star ",", "]"]
  | declName => identifier
  | block => seq ["\x7b", star groupPiece, "\x7d"]
  | parenGroup => seq ["(", star groupPiece, ")"]
  | brackGroup => seq ["[", star groupPiece, "]"]
  | groupPiece => piece
  | expressionBody => plus (seq [notAhead ";", initPiece])
  | initializer => plus (seq [notAhead (choice [";", declaratorBoundary]), initPiece])
  | initPiece => piece
  | declaratorBoundary => seq [",", star ws, identifier, star ws, choice ["=", ",", ";"]]
  | verbatimString =>
    seq [oneOf ["@$", "$@", "@"], "\"", star (.either "\"\"" (butNot "\"")), "\""]
  | stringLit => seq [opt "$", "\"", star (literalChar "\""), "\""]
  | charLit => seq ["'", plus (literalChar "'"), "'"]
  | commentText => Lexical.commentText
  | identifier => seq [opt "@", notAhead keyword, choice [letter, "_"], star identChar]
  | keyword => word identChar keywords
  | modifier => word identChar modifierWords
  | parameterModifier => word identChar parameterModifierWords
  | primitiveType => word identChar primitiveTypes
  | kwClass => word identChar ["class"]
  | kwRecord => word identChar ["record"]
  | kwStruct => word identChar ["struct"]
  | kwInterface => word identChar ["interface"]
  | kwEnum => word identChar ["enum"]
  | kwBase => word identChar ["base"]
  | kwThis => word identChar ["this"]
  | kwVoid => word identChar ["void"]

/-- The rule that matches a production. -/
def entry : Production → Option Rule
  | .classMember => some classMemberEntry
  | .method => some methodEntry
  | .constructor => some constructorEntry
  | .field => some fieldEntry
  | .property => some propertyEntry
  | .type => some typeEntry
  | .externalDeclaration | .function | .declaration => none

end Rule

/-- A line comment, a block comment, or a directive. -/
def comment (s : List Char) : Option (List Char) :=
  (Lexical.comment s).or (Text.directive? s)

/-- Blanks, comments and directives. -/
def trivia : Trivia := ⟨Lexical.blank, comment⟩

/-- The grammar of C# snippets. -/
def grammar : SnippetGrammar Rule where
  rules := Rule.all
  layout := Rule.layout
  body := Rule.body
  trivia := trivia
  role := Rule.role
  label := Rule.label
  entry := Rule.entry

end FeatureTree.CSharp
