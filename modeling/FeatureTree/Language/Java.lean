import FeatureTree.Language.Lexical

/-!
# Java snippets

Members and types are read by their structure; method bodies, the bodies of
enums, and the initializers of variables are balanced text.
-/

namespace FeatureTree.Java

/-- The rules, in order of declaration. -/
inductive Rule
  | classMemberEntry | methodEntry | constructorEntry | fieldEntry | typeEntry
  | classMember | methodDeclaration | constructorDeclaration | fieldDeclaration
  | compactConstructor | variableDeclarator | initializerBlock
  | typeDeclaration | classDeclaration | recordDeclaration | interfaceDeclaration
  | annotationTypeDeclaration | permitsClause | enumDeclaration | classBody
  | modifiers | annotationUse | formalParameters | formalParameter | varargs
  | throwsClause | elementValue | resultType | typeRef | classType | typeArguments
  | typeArgument | typeParameters | typeParameter | typeList | dims | qualifiedName
  | declName
  | block | parenGroup | brackGroup | groupPiece | initializer | initPiece
  | declaratorBoundary | textBlock | stringLit | charLit | commentText
  | identifier | keyword | modifier | primitiveType
  | kwClass | kwInterface | kwEnum | kwRecord | kwPermits | kwDefault | kwExtends
  | kwImplements | kwThrows | kwSuper | kwFinal | kwStatic | kwVoid
  deriving DecidableEq, Repr

namespace Rule

/-- All rules, in order of declaration. -/
def all : List Rule :=
  [classMemberEntry, methodEntry, constructorEntry, fieldEntry, typeEntry,
    classMember, methodDeclaration, constructorDeclaration, fieldDeclaration,
    compactConstructor, variableDeclarator, initializerBlock,
    typeDeclaration, classDeclaration, recordDeclaration, interfaceDeclaration,
    annotationTypeDeclaration, permitsClause, enumDeclaration, classBody,
    modifiers, annotationUse, formalParameters, formalParameter, varargs,
    throwsClause, elementValue, resultType, typeRef, classType, typeArguments,
    typeArgument, typeParameters, typeParameter, typeList, dims, qualifiedName,
    declName,
    block, parenGroup, brackGroup, groupPiece, initializer, initPiece,
    declaratorBoundary, textBlock, stringLit, charLit, commentText,
    identifier, keyword, modifier, primitiveType,
    kwClass, kwInterface, kwEnum, kwRecord, kwPermits, kwDefault, kwExtends,
    kwImplements, kwThrows, kwSuper, kwFinal, kwStatic, kwVoid]

/-- The name of a rule in error messages. -/
def label : Rule → String
  | classMemberEntry => "class member entry"
  | methodEntry => "method entry"
  | constructorEntry => "constructor entry"
  | fieldEntry => "field entry"
  | typeEntry => "type entry"
  | classMember => "class member"
  | methodDeclaration => "method declaration"
  | constructorDeclaration => "constructor declaration"
  | fieldDeclaration => "field declaration"
  | compactConstructor => "compact constructor"
  | variableDeclarator => "variable declarator"
  | initializerBlock => "initializer block"
  | typeDeclaration => "type declaration"
  | classDeclaration => "class declaration"
  | recordDeclaration => "record declaration"
  | interfaceDeclaration => "interface declaration"
  | annotationTypeDeclaration => "annotation type declaration"
  | permitsClause => "permits clause"
  | enumDeclaration => "enum declaration"
  | classBody => "class body"
  | modifiers => "modifiers"
  | annotationUse => "annotation"
  | formalParameters => "formal parameters"
  | formalParameter => "formal parameter"
  | varargs => "varargs"
  | throwsClause => "throws clause"
  | elementValue => "element value"
  | resultType => "result type"
  | typeRef => "type ref"
  | classType => "class type"
  | typeArguments => "type arguments"
  | typeArgument => "type argument"
  | typeParameters => "type parameters"
  | typeParameter => "type parameter"
  | typeList => "type list"
  | dims => "dims"
  | qualifiedName => "qualified name"
  | declName => "decl name"
  | block => "block"
  | parenGroup => "paren group"
  | brackGroup => "brack group"
  | groupPiece => "group piece"
  | initializer => "initializer"
  | initPiece => "init piece"
  | declaratorBoundary => "declarator boundary"
  | textBlock => "text block"
  | stringLit => "string lit"
  | charLit => "char lit"
  | commentText => "comment text"
  | identifier => "identifier"
  | keyword => "keyword"
  | modifier => "modifier"
  | primitiveType => "primitive type"
  | kwClass => "kw class"
  | kwInterface => "kw interface"
  | kwEnum => "kw enum"
  | kwRecord => "kw record"
  | kwPermits => "kw permits"
  | kwDefault => "kw default"
  | kwExtends => "kw extends"
  | kwImplements => "kw implements"
  | kwThrows => "kw throws"
  | kwSuper => "kw super"
  | kwFinal => "kw final"
  | kwStatic => "kw static"
  | kwVoid => "kw void"

/-- What a rule contributes to the tree. -/
def role : Rule → Role
  | methodDeclaration => .node .method
  | constructorDeclaration | compactConstructor => .node .constructor
  | fieldDeclaration => .node .field
  | initializerBlock => .node .initializer
  | classDeclaration | recordDeclaration => .node .class
  | interfaceDeclaration | annotationTypeDeclaration => .node .interface
  | enumDeclaration => .node .enum
  | variableDeclarator => .node .variable
  | formalParameter => .node .parameter
  | declName => .name
  | block | initializer => .body
  | modifiers | typeParameters | resultType | typeRef | typeList | classType | permitsClause
  | elementValue | throwsClause => .hidden
  | _ => .transparent

/-- Words, literals and balanced text are tokens. -/
def layout : Rule → Layout
  | elementValue | block | parenGroup | brackGroup | groupPiece | initializer | initPiece
  | declaratorBoundary | textBlock | stringLit | charLit | commentText | identifier | keyword
  | modifier | primitiveType | kwClass | kwInterface | kwEnum | kwRecord | kwPermits
  | kwDefault | kwExtends | kwImplements | kwThrows | kwSuper | kwFinal | kwStatic
  | kwVoid => .token
  | _ => .spaced

open FeatureTree.Expr FeatureTree.Lexical

/-- A character of a word. -/
def identChar : Expr Rule := .either letterOrDigit (.either "_" "$")

/-- A piece of balanced text: a group, a literal, a comment, or a character. -/
def piece : Expr Rule :=
  choice [block, parenGroup, brackGroup, textBlock, stringLit, charLit, commentText, plainChar]

/-- The words that are no names. Of words that start alike the longer ones come
first. -/
def keywords : List String :=
  ["while", "volatile", "void", "try", "true", "transient", "throws", "throw",
    "this", "synchronized", "switch", "super", "strictfp", "static", "short",
    "return", "public", "protected", "private", "package", "null", "new",
    "native", "long", "interface", "int", "instanceof", "import", "implements",
    "if", "goto", "for", "float", "finally", "final", "false", "extends",
    "enum", "else", "double", "do", "default", "continue", "const", "class",
    "char", "catch", "case", "byte", "break", "boolean", "assert", "abstract"]

/-- The words that may stand in front of a declaration. -/
def modifierWords : List String :=
  ["volatile", "transient", "synchronized", "strictfp", "static", "sealed",
    "public", "protected", "private", "non-sealed", "native", "final", "default",
    "abstract"]

/-- The names of the primitive types. -/
def primitiveTypes : List String :=
  ["short", "long", "int", "float", "double", "char", "byte", "boolean"]

/-- The expression of a rule. -/
def body : Rule → Expr Rule
  | classMemberEntry => seq [start, classMember]
  | methodEntry => seq [start, methodDeclaration]
  | constructorEntry => seq [start, choice [constructorDeclaration, compactConstructor]]
  | fieldEntry => seq [start, fieldDeclaration]
  | typeEntry => seq [start, typeDeclaration]
  | classMember =>
    choice [typeDeclaration, initializerBlock, constructorDeclaration, compactConstructor,
      methodDeclaration, fieldDeclaration]
  | methodDeclaration =>
    seq [modifiers, opt typeParameters, resultType, declName, formalParameters, opt dims,
      opt throwsClause, opt (seq [kwDefault, elementValue]), choice [block, ";"]]
  | constructorDeclaration =>
    seq [modifiers, opt typeParameters, declName, formalParameters, opt throwsClause, block]
  | fieldDeclaration =>
    seq [modifiers, typeRef, variableDeclarator, star (seq [",", variableDeclarator]), ";"]
  | compactConstructor => seq [modifiers, declName, block]
  | variableDeclarator => seq [declName, opt dims, opt (seq ["=", initializer])]
  | initializerBlock => seq [opt kwStatic, block]
  | typeDeclaration =>
    choice [classDeclaration, recordDeclaration, interfaceDeclaration,
      annotationTypeDeclaration, enumDeclaration]
  | classDeclaration =>
    seq [modifiers, kwClass, declName, opt typeParameters, opt (seq [kwExtends, classType]),
      opt (seq [kwImplements, typeList]), opt permitsClause, classBody]
  | recordDeclaration =>
    seq [modifiers, kwRecord, declName, opt typeParameters, formalParameters,
      opt (seq [kwImplements, typeList]), classBody]
  | interfaceDeclaration =>
    seq [modifiers, kwInterface, declName, opt typeParameters, opt (seq [kwExtends, typeList]),
      opt permitsClause, classBody]
  | annotationTypeDeclaration => seq [modifiers, "@", kwInterface, declName, classBody]
  | permitsClause => seq [kwPermits, typeList]
  | enumDeclaration =>
    seq [modifiers, kwEnum, declName, opt (seq [kwImplements, typeList]), block]
  | classBody => seq ["\x7b", star (choice [classMember, ";"]), "\x7d"]
  | modifiers => star (choice [annotationUse, modifier])
  | annotationUse => seq ["@", notAhead kwInterface, qualifiedName, opt parenGroup]
  | formalParameters =>
    seq ["(", opt (seq [formalParameter, star (seq [",", formalParameter])]), ")"]
  | formalParameter =>
    seq [star (choice [annotationUse, kwFinal]), typeRef, opt varargs, declName, opt dims]
  | varargs => "..."
  | throwsClause => seq [kwThrows, classType, star (seq [",", classType])]
  | elementValue => plus (seq [notAhead ";", initPiece])
  | resultType => choice [kwVoid, typeRef]
  | typeRef => seq [choice [primitiveType, classType], opt dims]
  | classType =>
    seq [identifier, opt typeArguments, star (seq [".", identifier, opt typeArguments])]
  | typeArguments => seq ["<", opt (seq [typeArgument, star (seq [",", typeArgument])]), ">"]
  | typeArgument =>
    choice [seq ["?", opt (seq [choice [kwExtends, kwSuper], typeRef])], typeRef]
  | typeParameters => seq ["<", typeParameter, star (seq [",", typeParameter]), ">"]
  | typeParameter =>
    seq [star annotationUse, identifier,
      opt (seq [kwExtends, classType, star (seq ["&", classType])])]
  | typeList => seq [classType, star (seq [",", classType])]
  | dims => plus (seq ["[", "]"])
  | qualifiedName => seq [identifier, star (seq [".", identifier])]
  | declName => identifier
  | block => seq ["\x7b", star groupPiece, "\x7d"]
  | parenGroup => seq ["(", star groupPiece, ")"]
  | brackGroup => seq ["[", star groupPiece, "]"]
  | groupPiece => piece
  | initializer => plus (seq [notAhead (choice [";", declaratorBoundary]), initPiece])
  | initPiece => piece
  | declaratorBoundary =>
    seq [",", star ws, identifier, star ws, star (seq ["[", star ws, "]", star ws]),
      choice ["=", ",", ";"]]
  | textBlock =>
    seq ["\"\"\"", star (seq [notAhead "\"\"\"", choice [seq ["\\", any], any]]), "\"\"\""]
  | stringLit => seq ["\"", star (literalChar "\""), "\""]
  | charLit => seq ["'", plus (literalChar "'"), "'"]
  | commentText => Lexical.commentText
  | identifier =>
    seq [notAhead keyword, choice [letter, "_", "$"], star identChar]
  | keyword => word identChar keywords
  | modifier => word identChar modifierWords
  | primitiveType => word identChar primitiveTypes
  | kwClass => word identChar ["class"]
  | kwInterface => word identChar ["interface"]
  | kwEnum => word identChar ["enum"]
  | kwRecord => word identChar ["record"]
  | kwPermits => word identChar ["permits"]
  | kwDefault => word identChar ["default"]
  | kwExtends => word identChar ["extends"]
  | kwImplements => word identChar ["implements"]
  | kwThrows => word identChar ["throws"]
  | kwSuper => word identChar ["super"]
  | kwFinal => word identChar ["final"]
  | kwStatic => word identChar ["static"]
  | kwVoid => word identChar ["void"]

/-- The rule that matches a production. -/
def entry : Production → Option Rule
  | .classMember => some classMemberEntry
  | .method => some methodEntry
  | .constructor => some constructorEntry
  | .field => some fieldEntry
  | .type => some typeEntry
  | .property | .externalDeclaration | .function | .declaration => none

end Rule

/-- Blanks, line comments and block comments. -/
def trivia : Trivia := ⟨Lexical.blank, Lexical.comment⟩

/-- The grammar of Java snippets. -/
def grammar : SnippetGrammar Rule where
  rules := Rule.all
  layout := Rule.layout
  body := Rule.body
  trivia := trivia
  role := Rule.role
  label := Rule.label
  entry := Rule.entry

end FeatureTree.Java
