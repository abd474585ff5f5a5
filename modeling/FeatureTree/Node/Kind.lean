/-!
# Kinds of nodes

What a node of a feature structure tree stands for. The names written here are
the ones that trees, constraints and traversal expressions use.
-/

namespace FeatureTree

/-- The construct that a node stands for. -/
inductive Kind
  | «class» | interface | struct | enum
  | method | constructor | field | property | initializer
  | function | declaration | «variable» | parameter | identifier
  deriving DecidableEq, Repr

namespace Kind

/-- All kinds, in the order in which lists of kinds are written. -/
def all : List Kind :=
  [.class, .interface, .struct, .enum, .method, .constructor, .field, .property, .initializer,
    .function, .declaration, .variable, .parameter, .identifier]

/-- The written name of a kind. -/
def name : Kind → String
  | .class => "class"
  | .interface => "interface"
  | .struct => "struct"
  | .enum => "enum"
  | .method => "method"
  | .constructor => "constructor"
  | .field => "field"
  | .property => "property"
  | .initializer => "initializer"
  | .function => "function"
  | .declaration => "declaration"
  | .variable => "variable"
  | .parameter => "parameter"
  | .identifier => "identifier"

/-- The kind with a written name. -/
def ofName? (text : String) : Option Kind := all.find? (·.name == text)

theorem mem_all (k : Kind) : k ∈ all := by cases k <;> decide

/-- A kind is known by its name. -/
theorem ofName?_name (k : Kind) : ofName? k.name = some k := by
  cases k <;> rfl

theorem name_injective {k l : Kind} (h : k.name = l.name) : k = l :=
  Option.some.inj (k.ofName?_name.symm.trans (h ▸ l.ofName?_name))

/-- Declarations of types, whose members become children. -/
def isType : Kind → Bool
  | .class | .interface | .struct | .enum => true
  | _ => false

/-- Kinds whose declared name also stands as an identifier among the children. -/
def hasIdentifierChild : Kind → Bool
  | .class | .interface | .struct | .enum | .method | .constructor | .property | .function => true
  | _ => false

instance : ToString Kind := ⟨name⟩

end Kind

end FeatureTree
