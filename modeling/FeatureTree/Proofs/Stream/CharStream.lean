import FeatureTree.Proofs.Stream.Uses

/-!
# Streams by position

A character stream keeps the whole text and a byte offset, and each of its operations cuts the
text at that offset. A `Stream` keeps the two parts, so the character stream that stands where it
does (`Stream.charStream`) can always be cut: the part in front has as many bytes as the offset
says. Every operation has a result there, and it is where the same operation takes the `Stream`
(`Stream.use_charStream`). For a character that is taken this is that its length in bytes is what
the part in front grows by.

So from the start of a text on the offset stays between characters and no use ends the program,
and what is known of the two parts holds of the offset (`CharStream.useAll_ofText`). No other
offsets between characters are left out (`CharStream.exists_charStream_iff`).
-/

namespace FeatureTree

variable {V : Type}

namespace CharStream

open FeatureTree.Stream (Use Answer)

/-- Does something with a stream. There is no result where the program would end. -/
def use (c : CharStream) : Use V → Option (Answer × CharStream)
  | .next => c.next?.map fun (char, t) => (.next char, t)
  | .remaining => c.remaining?.map fun text => (.remaining text, c)
  | .readToEnd => c.readToEnd?.map fun (text, t) => (.readToEnd text, t)
  | .source => some (.source c.source, c)
  | .parse a target strict => do
    let (attempt, t) ← c.parse? a target strict
    -- an engine is given what is left of the text
    match attempt.engine with
    | none => return (.parse none attempt.outcome, t)
    | some _ => return (.parse (some (← c.remaining?)) attempt.outcome, t)

/-- Does some things with a stream, one after the other. -/
def useAll (c : CharStream) : List (Use V) → Option (List Answer × CharStream)
  | [] => some ([], c)
  | u :: us => do
    let (answer, t) ← c.use u
    let (answers, last) ← t.useAll us
    return (answer :: answers, last)

end CharStream

/-! ## From the parts to the position -/

namespace Stream

/-- The character stream that stands where a stream does. -/
def charStream (s : Stream) : CharStream := ⟨s.name, String.ofList s.whole, s.offset⟩

variable {s t : Stream} {c : Char}

theorem charStream_ofText (name text : String) :
    (ofText name text).charStream = .ofText name text :=
  congrArg (CharStream.mk name · 0) String.ofList_toList

/-- Both open a content alike. -/
theorem charStream_ofContent (files : FileSystem) (content : Content) :
    CharStream.ofContent files content = (ofContent files content).map charStream := by
  cases content with
  | inline name text => exact congrArg Except.ok (charStream_ofText name text).symm
  | file path =>
      rw [CharStream.ofContent, ofContent]
      cases files.readText path with
      | error reason => rfl
      | ok text => exact congrArg Except.ok (charStream_ofText path text).symm

/-- The text can be cut at the offset of a stream. -/
theorem remaining?_charStream (s : Stream) : s.charStream.remaining? = some s.remaining :=
  Text.from?_eq_some_iff.2
    ⟨String.ofList s.taken, String.ofList_append, (Text.byteLength_eq s.taken).symm⟩

theorem utf8ByteSize_text_charStream (s : Stream) :
    s.charStream.text.utf8ByteSize = s.offset + Text.byteLength s.rest := by
  rw [charStream, ← Text.byteLength_eq, whole, Text.byteLength_append]
  rfl

/-- Only the empty text has no bytes. -/
theorem isExhausted_charStream (s : Stream) : s.charStream.isExhausted = s.isExhausted := by
  have hend : s.charStream.text.utf8ByteSize ≤ s.charStream.position ↔ s.rest = [] := by
    rw [utf8ByteSize_text_charStream]
    cases s.rest with
    | nil => exact iff_of_true (Nat.le_refl _) rfl
    | cons c rest =>
        have hc := c.utf8Size_pos
        refine iff_of_false (fun hle => ?_) nofun
        rw [Text.byteLength_cons] at hle
        exact absurd hle (by show ¬ (s.offset + _ ≤ s.offset); omega)
  rw [CharStream.isExhausted, isExhausted, Bool.eq_iff_iff, decide_eq_true_iff, hend,
    List.isEmpty_iff]

/-- A character that is taken moves the offset by its length in bytes. -/
theorem charStream_of_next? (h : s.next? = some (c, t)) :
    t.charStream = { s.charStream with position := s.charStream.position + c.utf8Size } := by
  obtain ⟨hrest, htaken, hname⟩ := next?_eq_some_iff.1 h
  have hwhole : t.whole = s.whole := by
    rw [whole, whole, hrest, htaken, List.append_assoc, List.singleton_append]
  have hoffset : t.offset = s.offset + c.utf8Size := by
    rw [offset, offset, htaken, Text.byteLength_append, Text.byteLength_cons,
      Text.byteLength_nil, Nat.add_zero]
  rw [charStream, charStream, hname, hwhole, hoffset]

theorem next?_charStream (s : Stream) :
    s.charStream.next? =
      some (match s.next? with
        | some (c, t) => (some c, t.charStream)
        | none => (none, s.charStream)) := by
  rw [CharStream.next?, remaining?_charStream, Option.map_some, remaining, String.toList_ofList]
  cases h : s.next? with
  | none =>
      have hrest : s.rest = [] := by
        cases hs : s.rest with
        | nil => rfl
        | cons c rest => rw [next?, hs] at h; cases h
      rw [hrest]
  | some found =>
      obtain ⟨c, t⟩ := found
      rw [(next?_eq_some_iff.1 h).1]
      exact congrArg (fun u => some (some c, u)) (charStream_of_next? h).symm

theorem readToEnd?_charStream (s : Stream) :
    s.charStream.readToEnd? = some (s.readToEnd.1, s.readToEnd.2.charStream) := by
  have hend : s.readToEnd.2.charStream =
      { s.charStream with position := s.charStream.text.utf8ByteSize } := by
    rw [charStream, charStream, whole_readToEnd]
    exact congrArg (CharStream.mk _ _) (Text.byteLength_eq _)
  rw [CharStream.readToEnd?, remaining?_charStream, hend]
  rfl

theorem parse?_charStream (a : Adapter V) (s : Stream) (target : Target) (strict : Bool) :
    s.charStream.parse? a target strict =
      some ((a.parseStream s target strict).1, (a.parseStream s target strict).2.charStream) := by
  rw [CharStream.parse?, Adapter.parseStream]
  cases a.registry.engine? target with
  | none => rfl
  | some engine =>
      simp only [readToEnd?_charStream, Option.map_some, readWith_eq]
      rfl

/-- Every use has a result, and it is that of the two parts. -/
theorem use_charStream (s : Stream) (u : Use V) :
    s.charStream.use u = some ((s.use u).1, (s.use u).2.charStream) := by
  cases u with
  | next =>
      rw [CharStream.use, next?_charStream, use]
      cases s.next? <;> rfl
  | remaining => rw [CharStream.use, remaining?_charStream]; rfl
  | readToEnd => rw [CharStream.use, readToEnd?_charStream]; rfl
  | source => rfl
  | parse a target strict =>
      rw [CharStream.use, parse?_charStream, use, Adapter.parseStream]
      cases a.registry.engine? target with
      | none => rfl
      | some engine =>
          show (s.charStream.remaining?).bind _ = _
          rw [remaining?_charStream]
          rfl

/-- So has every run. -/
theorem useAll_charStream (s : Stream) (uses : List (Use V)) :
    s.charStream.useAll uses = some ((s.useAll uses).1, (s.useAll uses).2.charStream) := by
  induction uses generalizing s with
  | nil => rfl
  | cons u uses ih =>
      rw [CharStream.useAll, use_charStream, useAll]
      show ((s.use u).2.charStream.useAll uses).bind _ = _
      rw [ih]
      rfl

end Stream

namespace CharStream

open FeatureTree.Stream (Use Answer)

/-- There is something left of a text exactly where the offset is between characters. -/
theorem isValid_iff_remaining? (c : CharStream) :
    (String.Pos.Raw.mk c.position).IsValid c.text ↔ ∃ rest, c.remaining? = some rest := by
  simp only [remaining?, Text.from?_eq_some_iff]
  rw [String.Pos.Raw.isValid_iff_exists_append, exists_comm]
  simp only [String.Pos.Raw.ext_iff, String.byteIdx_rawEndPos, eq_comm (a := c.position)]

/-- Streams stand exactly at the offsets between characters. -/
theorem exists_charStream_iff (c : CharStream) :
    (∃ s : Stream, s.charStream = c) ↔ (String.Pos.Raw.mk c.position).IsValid c.text := by
  rw [isValid_iff_remaining?]
  constructor
  · rintro ⟨s, rfl⟩
    exact ⟨s.remaining, s.remaining?_charStream⟩
  · rintro ⟨rest, hrest⟩
    obtain ⟨before, htext, hposition⟩ := Text.from?_eq_some_iff.1 hrest
    refine ⟨⟨c.name, before.toList, rest.toList⟩, ?_⟩
    rw [Stream.charStream, Stream.whole, Stream.offset, Text.byteLength_eq, String.ofList_append,
      String.ofList_toList, String.ofList_toList, ← htext, hposition]

/-- Whatever is done with a text from its start on, no use ends the program, and the texts that
have been handed out and the rest are the whole text. The offset is the length of what has been
handed out, lies between characters and never decreases, and the text is exhausted where nothing
is left, which is at the end. Every use is answered by these two parts: the next character is
the first one of the rest, an engine is given the rest, and what is said about the source always
has the whole text. -/
theorem useAll_ofText (name text : String) (uses : List (Use V)) :
    ∃ answers c rest, (ofText name text).useAll uses = some (answers, c) ∧
      c.remaining? = some rest ∧
      let handed := String.join (answers.map Answer.handed)
      handed ++ rest = text ∧
        c.offset = handed.utf8ByteSize ∧
        (String.Pos.Raw.mk c.offset).IsValid text ∧
        (∀ later : List (Use V), ∃ others c',
          (ofText name text).useAll (uses ++ later) = some (answers ++ others, c') ∧
            c.offset ≤ c'.offset) ∧
        (c.isExhausted = true ↔ rest = "") ∧
        (c.isExhausted = true ↔ c.offset = text.utf8ByteSize) ∧
        c.source = ⟨name, text⟩ ∧
        ∀ u : Use V, ∃ c', (ofText name text).useAll (uses ++ [u]) =
          some (answers ++ [u.answer name handed rest], c') := by
  obtain ⟨hwhole, hoffset, hvalid, hlater, hexhausted, hend, hsource, hanswer⟩ :=
    Stream.useAll_parts name text uses
  rw [← Stream.charStream_ofText]
  refine ⟨_, _, _, Stream.useAll_charStream _ uses, Stream.remaining?_charStream _, hwhole, hoffset,
    hvalid, fun later => ?_, ?_, ?_, hsource, fun u => ?_⟩
  · have hrun := Stream.useAll_charStream (Stream.ofText name text) (uses ++ later)
    have hfirst := congrArg Prod.fst (Stream.useAll_append (.ofText name text) uses later)
    exact ⟨_, _, hrun.trans (congrArg (fun a => some (a, _)) hfirst), hlater later⟩
  · rw [Stream.isExhausted_charStream]
    exact hexhausted
  · rw [Stream.isExhausted_charStream]
    exact hend
  · exact ⟨_, (Stream.useAll_charStream _ _).trans (congrArg (fun a => some (a, _)) (hanswer u))⟩

/-- A character of two bytes, and the rest. Inside of that character nothing can be cut. -/
example : ((ofText "s" "äb").useAll [.next, (.readToEnd : Use Empty)]).map (·.2.offset) = some 3 ∧
    (CharStream.mk "s" "äb" 1).remaining? = none := by decide

end CharStream

end FeatureTree
