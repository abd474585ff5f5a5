import FeatureTree.Adapter

/-!
# Streams by position

A stream as it is kept while a text is read: the text stays whole, and a byte offset says how
much of it has been taken. What is left is cut out of the text at that offset. The cut is a
partial operation, as there is none past the end or inside a character: what needs it there has
no result, since the program would end. A character that is taken moves the offset by its length
in bytes, and taking what is left moves it to the length of the text.

Nothing in the type keeps the offset between characters. That it stays there from the start of
a text on, whatever is done, is proved of these operations, and with it that they are those of
`Stream`, which has the two parts of the text in place of the offset.
-/

namespace FeatureTree

/-- The piece of a text from a byte offset on. -/
def Text.from? (offset : Nat) (text : String) : Option String :=
  (cut offset text.toList).map fun (_, rest) => String.ofList rest

/-- A piece from an offset on is what stands behind a text of so many bytes. -/
theorem Text.from?_eq_some_iff {offset : Nat} {text rest : String} :
    from? offset text = some rest ↔
      ∃ before : String, text = before ++ rest ∧ before.utf8ByteSize = offset := by
  rw [from?, Option.map_eq_some_iff]
  constructor
  · rintro ⟨⟨before, after⟩, hcut, rfl⟩
    obtain ⟨htext, hlength⟩ := cut_eq_some_iff.1 hcut
    refine ⟨String.ofList before, ?_, (byteLength_eq before).symm.trans hlength⟩
    rw [← String.ofList_append, ← htext, String.ofList_toList]
  · rintro ⟨before, rfl, rfl⟩
    refine ⟨(before.toList, rest.toList), ?_, String.ofList_toList⟩
    rw [cut_eq_some_iff, String.toList_append, byteLength_eq, String.ofList_toList]
    exact ⟨rfl, rfl⟩

/-- What becomes of the answer that an engine gives to a piece of a source, which starts at an
offset. -/
def Engine.outcome (engine : Engine) (source : Source) (offset : Nat) (target : Target)
    (strict : Bool) (given : String) : Outcome :=
  match engine.parse given target.production (.ofStrict strict) with
  | .error e => .error (.grammar source target (.unread e) (e.span.shifted offset))
  | .ok n =>
    if target.production.accepts n.kind then
      -- at the start of a text the tree is handed on as it is
      .ok (if offset = 0 then n else n.shifted offset)
    else .error (.grammar source target (.wrongRoot n.kind) (n.span.shifted offset))

/-- A text, and the byte offset up to which it has been taken. -/
structure CharStream where
  name : String
  text : String
  position : Nat
  deriving DecidableEq, Repr

namespace CharStream

/-- A stream at the start of a text. -/
def ofText (name text : String) : CharStream := ⟨name, text, 0⟩

/-- Opens the text of a snippet, where files are those of a file system. -/
def ofContent (files : FileSystem) : Content → Except Rejection CharStream
  | .inline name text => .ok (ofText name text)
  | .file path =>
    match files.readText path with
    | .ok text => .ok (ofText path text)
    | .error reason => .error (.sourceUnavailable path reason)

/-- Byte offset of the next character. -/
def offset (c : CharStream) : Nat := c.position

/-- The offset is not in front of the end. -/
def isExhausted (c : CharStream) : Bool := c.text.utf8ByteSize ≤ c.position

/-- The text not taken yet. -/
def remaining? (c : CharStream) : Option String := Text.from? c.position c.text

/-- Takes the next character, if there is one. -/
def next? (c : CharStream) : Option (Option Char × CharStream) :=
  c.remaining?.map fun rest =>
    match rest.toList with
    | [] => (none, c)
    | char :: _ => (some char, { c with position := c.position + char.utf8Size })

/-- Takes all that is left. -/
def readToEnd? (c : CharStream) : Option (String × CharStream) :=
  c.remaining?.map fun rest => (rest, { c with position := c.text.utf8ByteSize })

/-- The whole text under the name of the stream, for diagnostics. -/
def source (c : CharStream) : Source := ⟨c.name, c.text⟩

/-- Reads what is left as a target, with the engines of an adapter. The text is used up, unless
there is no engine for the target. -/
def parse? {V : Type} (a : Adapter V) (c : CharStream) (target : Target) (strict : Bool) :
    Option (Attempt × CharStream) :=
  match a.registry.engine? target with
  | none => some (⟨.error (.unsupported target), none⟩, c)
  | some engine =>
    c.readToEnd?.map fun (given, rest) =>
      (⟨engine.outcome c.source c.offset target strict given, some engine⟩, rest)

end CharStream

end FeatureTree
