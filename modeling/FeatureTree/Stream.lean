import FeatureTree.Rejection

/-!
# Snippets and their text

A snippet says where its text is and what it is to be read as. Opening it gives
a stream that stands at the start of the text; what has been taken from a
stream and what it still holds are together always the whole text. A `CharStream`
is the same with the whole text and a byte offset in place of the two parts.
-/

namespace FeatureTree

/-- Where the text of a snippet is. -/
inductive Content
  /-- In memory, under a name for diagnostics. -/
  | inline (name text : String)
  /-- In the file that a path names. -/
  | file (path : String)
  deriving DecidableEq, Repr

namespace Content

/-- The name of inline text that has none of its own. -/
def defaultName : String := "<snippet>"

/-- The name that diagnostics use. -/
def name : Content → String
  | inline name _ => name
  | file path => path

end Content

/-- A request to read a text as a production of a language. -/
structure Snippet where
  content : Content
  target : Target
  deriving DecidableEq, Repr

/-- A text that is taken from the front. -/
structure Stream where
  name : String
  /-- What has been taken. -/
  taken : List Char
  /-- What has not been taken yet. -/
  rest : List Char
  deriving DecidableEq, Repr

namespace Stream

/-- A stream that stands at the start of a text. -/
def ofText (name text : String) : Stream := ⟨name, [], text.toList⟩

/-- Opens the text of a snippet, where files are those of a file system. -/
def ofContent (files : FileSystem) : Content → Except Rejection Stream
  | .inline name text => .ok (ofText name text)
  | .file path =>
    match files.readText path with
    | .ok text => .ok (ofText path text)
    | .error reason => .error (.sourceUnavailable path reason)

/-- The whole text, taken or not. -/
def whole (s : Stream) : List Char := s.taken ++ s.rest

/-- Byte offset of the next character. -/
def offset (s : Stream) : Nat := Text.byteLength s.taken

/-- Nothing is left to take. -/
def isExhausted (s : Stream) : Bool := s.rest.isEmpty

/-- The text not taken yet. -/
def remaining (s : Stream) : String := String.ofList s.rest

/-- Takes the next character. -/
def next? (s : Stream) : Option (Char × Stream) :=
  match s.rest with
  | [] => none
  | c :: rest => some (c, { s with taken := s.taken ++ [c], rest := rest })

/-- A character that is taken moves from the rest to what has been taken. -/
theorem next?_eq_some_iff {s t : Stream} {c : Char} :
    s.next? = some (c, t) ↔ s.rest = c :: t.rest ∧ t.taken = s.taken ++ [c] ∧ t.name = s.name := by
  obtain ⟨name, taken, rest⟩ := s
  obtain ⟨name', taken', rest'⟩ := t
  cases rest with
  | nil => simp [next?]
  | cons d rest =>
    simp only [next?, Option.some.injEq, Prod.mk.injEq, mk.injEq, List.cons.injEq]
    grind

/-- Takes the next characters, up to a number of them. -/
def take (s : Stream) : Nat → List Char × Stream
  | 0 => ([], s)
  | n + 1 =>
    match s.next? with
    | none => ([], s)
    | some (c, s) =>
      let (cs, s) := s.take n
      (c :: cs, s)

/-- The characters that are taken were the front of the rest. -/
theorem take_append_rest (s : Stream) (n : Nat) :
    (s.take n).1 ++ (s.take n).2.rest = s.rest := by
  induction n generalizing s with
  | zero => rfl
  | succ n ih =>
    unfold take
    split
    · rfl
    · rename_i c t h
      obtain ⟨hrest, -, -⟩ := next?_eq_some_iff.1 h
      simp only [List.cons_append, ih t, hrest]

/-- The characters that are taken come after those taken before. -/
theorem taken_take (s : Stream) (n : Nat) :
    (s.take n).2.taken = s.taken ++ (s.take n).1 := by
  induction n generalizing s with
  | zero => simp [take]
  | succ n ih =>
    unfold take
    split
    · simp
    · rename_i c t h
      obtain ⟨-, htaken, -⟩ := next?_eq_some_iff.1 h
      simp [ih t, htaken]

/-- Taking characters leaves the whole text as it is. -/
@[simp] theorem whole_take (s : Stream) (n : Nat) : (s.take n).2.whole = s.whole := by
  simp [whole, taken_take, take_append_rest]

/-- Takes all that is left. -/
def readToEnd (s : Stream) : String × Stream :=
  (s.remaining, { s with taken := s.whole, rest := [] })

@[simp] theorem whole_readToEnd (s : Stream) : s.readToEnd.2.whole = s.whole := by
  simp [readToEnd, whole]

/-- The whole text under the name of the stream, for diagnostics. -/
def source (s : Stream) : Source := ⟨s.name, String.ofList s.whole⟩

end Stream

end FeatureTree
