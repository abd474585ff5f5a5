import FeatureTree.Node.Kind

/-!
# Targets

A snippet is read as one production of one language. This module holds the
languages, the productions, which of them go together, and which kinds of root
a production can have.
-/

namespace FeatureTree

/-- The language that a snippet is written in. -/
inductive Language
  | java | csharp | c
  deriving DecidableEq, Repr

/-- The part of a program that a snippet must be. -/
inductive Production
  /-- Any member of a class: method, constructor, field, property, nested type
  or initializer block. -/
  | classMember
  | method
  | constructor
  | field
  | property
  /-- A class, interface, struct or enum. -/
  | type
  /-- A function or a declaration at file level. -/
  | externalDeclaration
  | function
  | declaration
  deriving DecidableEq, Repr

namespace Production

/-- All productions. -/
def all : List Production :=
  [.classMember, .method, .constructor, .field, .property, .type, .externalDeclaration,
    .function, .declaration]

/-- The written name of a production. -/
def name : Production → String
  | .classMember => "class-member"
  | .method => "method"
  | .constructor => "constructor"
  | .field => "field"
  | .property => "property"
  | .type => "type"
  | .externalDeclaration => "external-declaration"
  | .function => "function"
  | .declaration => "declaration"

/-- The production with a written name. -/
def ofName? (text : String) : Option Production := all.find? (·.name == text)

/-- A production is known by its name. -/
theorem ofName?_name (p : Production) : ofName? p.name = some p := by
  cases p <;> rfl

theorem name_injective {p q : Production} (h : p.name = q.name) : p = q :=
  Option.some.inj (p.ofName?_name.symm.trans (h ▸ q.ofName?_name))

/-- Whether a root of this kind is a result of the production. -/
def accepts : Production → Kind → Bool
  | .classMember, kind =>
    kind.isType || [.method, .constructor, .field, .property, .initializer].contains kind
  | .method, kind => kind == .method
  | .constructor, kind => kind == .constructor
  | .field, kind => kind == .field
  | .property, kind => kind == .property
  | .type, kind => kind.isType
  | .externalDeclaration, kind => kind == .function || kind == .declaration
  | .function, kind => kind == .function
  | .declaration, kind => kind == .declaration

instance : ToString Production := ⟨name⟩

end Production

namespace Language

/-- All languages. -/
def all : List Language := [.java, .csharp, .c]

theorem mem_all (l : Language) : l ∈ all := by cases l <;> decide

/-- The written name of a language. -/
def name : Language → String
  | .java => "java"
  | .csharp => "csharp"
  | .c => "c"

/-- The names under which a language is known, in lower case. -/
def names : Language → List String
  | .java => ["java"]
  | .csharp => ["csharp", "cs", "c#"]
  | .c => ["c"]

/-- The language known under a name, letter case counting. -/
def ofName? (text : String) : Option Language := all.find? (·.names.contains text)

/-- A language is known by its name. -/
theorem ofName?_name (l : Language) : ofName? l.name = some l := by
  cases l <;> rfl

theorem name_injective {l m : Language} (h : l.name = m.name) : l = m :=
  Option.some.inj (l.ofName?_name.symm.trans (h ▸ m.ofName?_name))

/-- The language known under a name, whatever the case of its ASCII letters. -/
def ofNameIgnoringCase? (text : String) : Option Language := ofName? (text.map Char.toLower)

/-- The productions that the language has. -/
def productions : Language → List Production
  | .java => [.classMember, .method, .constructor, .field, .type]
  | .csharp => [.classMember, .method, .constructor, .field, .property, .type]
  | .c => [.externalDeclaration, .function, .declaration]

/-- The language has the production. -/
def supports (language : Language) (production : Production) : Bool :=
  language.productions.contains production

/-- The language of files with an extension, written without its dot. -/
def ofExtension? : String → Option Language
  | "java" => some .java
  | "cs" => some .csharp
  | "c" | "h" => some .c
  | _ => none

/-- The production for a whole member of unknown form. -/
def memberProduction : Language → Production
  | .java | .csharp => .classMember
  | .c => .externalDeclaration

instance : ToString Language := ⟨name⟩

end Language

/-- What a snippet is read as: a production of a language. -/
structure Target where
  language : Language
  production : Production
  deriving DecidableEq, Repr

namespace Target

/-- The language has the production. -/
def isSupported (t : Target) : Bool := t.language.supports t.production

/-- Targets come in the order of their names, the language first. -/
def before (s t : Target) : Bool :=
  s.language.name < t.language.name ||
    (s.language.name == t.language.name && s.production.name < t.production.name)

end Target

end FeatureTree
