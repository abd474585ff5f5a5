import FeatureTree.CharStream
import FeatureTree.Proofs.Snippet.Parse

/-!
# Using up a stream

Whatever is done with a stream, a text that is handed out was the front of what was left, and
what is left afterwards is what stood behind it (`Stream.Hands`). So over a run the texts that
have been handed out and the rest are always the whole text, nothing is lost and nothing comes
twice, and the offset of the rest is the length in bytes of the texts before it.

To read from a stream is to give an engine all that is left of it, if there is an engine, and
so counts as handing out. What is answered depends on the two parts of the text and on nothing
else (`Stream.Use.answer`), in whatever pieces the first part was handed out.
-/

namespace FeatureTree

variable {V : Type}

namespace Stream

/-- What can be done with a stream. -/
inductive Use (V : Type)
  /-- Take the next character. -/
  | next
  /-- Look at what is left. -/
  | remaining
  /-- Take what is left. -/
  | readToEnd
  /-- Ask for the whole text, for diagnostics. -/
  | source
  /-- Read what is left as a target, with the engines of an adapter. -/
  | parse (adapter : Adapter V) (target : Target) (strict : Bool)

/-- What a use is answered with. -/
inductive Answer
  | next (c : Option Char)
  | remaining (text : String)
  | readToEnd (text : String)
  | source (source : Source)
  /-- The text that was given to an engine, if there was one, and what came of it. -/
  | parse (given : Option String) (outcome : Outcome)

/-- The text that an answer hands out. -/
def Answer.handed : Answer → String
  | .next c => String.ofList c.toList
  | .readToEnd text => text
  | .parse given _ => given.getD ""
  | .remaining _ | .source _ => ""

/-- Does something with a stream. -/
def use (s : Stream) : Use V → Answer × Stream
  | .next =>
    match s.next? with
    | some (c, t) => (.next (some c), t)
    | none => (.next none, s)
  | .remaining => (.remaining s.remaining, s)
  | .readToEnd => (.readToEnd s.readToEnd.1, s.readToEnd.2)
  | .source => (.source s.source, s)
  | .parse a target strict =>
    let (attempt, t) := a.parseStream s target strict
    (.parse (attempt.engine.map fun _ => s.remaining) attempt.outcome, t)

/-- Does some things with a stream, one after the other. -/
def useAll (s : Stream) : List (Use V) → List Answer × Stream
  | [] => ([], s)
  | u :: us =>
    let (answer, t) := s.use u
    (answer :: (t.useAll us).1, (t.useAll us).2)

/-- What a use is answered with where a text has been handed out and a rest is left. -/
def Use.answer (name handed rest : String) : Use V → Answer
  | .next => .next rest.toList.head?
  | .remaining => .remaining rest
  | .readToEnd => .readToEnd rest
  | .source => .source ⟨name, handed ++ rest⟩
  | .parse a target strict =>
    match a.registry.engine? target with
    | none => .parse none (.error (.unsupported target))
    | some engine =>
      .parse (some rest)
        (engine.outcome ⟨name, handed ++ rest⟩ handed.utf8ByteSize target strict rest)

/-! ## Texts that are handed out -/

/-- The second stream is what the first one becomes when it hands out a text. -/
structure Hands (s t : Stream) (text : String) : Prop where
  name : t.name = s.name
  taken : t.taken = s.taken ++ text.toList
  rest : s.rest = text.toList ++ t.rest

section Hands

variable {s t u : Stream} {a b : String}

theorem hands_nothing (s : Stream) : Hands s s "" := ⟨rfl, by simp, by simp⟩

theorem hands_rest (s : Stream) : Hands s s.readToEnd.2 s.remaining :=
  ⟨rfl, by simp [readToEnd, whole, remaining], by simp [readToEnd, remaining]⟩

theorem Hands.trans (h : Hands s t a) (h' : Hands t u b) : Hands s u (a ++ b) where
  name := h'.name.trans h.name
  taken := by rw [h'.taken, h.taken, List.append_assoc, String.toList_append]
  rest := by rw [h.rest, h'.rest, ← List.append_assoc, String.toList_append]

end Hands

/-- What a use hands out comes off the front of the rest. -/
theorem hands_use (s : Stream) (u : Use V) : Hands s (s.use u).2 (s.use u).1.handed := by
  cases u with
  | next =>
      rw [use]
      cases h : s.next? with
      | none => exact hands_nothing s
      | some found =>
          obtain ⟨c, t⟩ := found
          obtain ⟨hrest, htaken, hname⟩ := next?_eq_some_iff.1 h
          exact ⟨hname, by simpa [Answer.handed] using htaken,
            by simpa [Answer.handed] using hrest⟩
  | remaining | source => exact hands_nothing s
  | readToEnd => exact hands_rest s
  | parse a target strict =>
      rw [use, Adapter.parseStream]
      cases a.registry.engine? target with
      | none => exact hands_nothing s
      | some engine => exact hands_rest s

/-- All that is handed out over a run comes off the front of the rest. -/
theorem hands_useAll (s : Stream) (uses : List (Use V)) :
    Hands s (s.useAll uses).2 (String.join ((s.useAll uses).1.map Answer.handed)) := by
  induction uses generalizing s with
  | nil => exact hands_nothing s
  | cons u uses ih =>
      rw [useAll, List.map_cons, String.join_cons]
      exact (hands_use s u).trans (ih (s.use u).2)

theorem useAll_append (s : Stream) (uses later : List (Use V)) :
    s.useAll (uses ++ later) =
      ((s.useAll uses).1 ++ ((s.useAll uses).2.useAll later).1,
        ((s.useAll uses).2.useAll later).2) := by
  induction uses generalizing s with
  | nil => rfl
  | cons u uses ih =>
      rw [List.cons_append, useAll, useAll]
      dsimp only
      rw [ih, List.cons_append]

/-- What an adapter reads with an engine is what becomes of the engine's answer to the rest. At
the start of a text nothing is moved, which is to move by nothing. -/
theorem readWith_eq (engine : Engine) (s : Stream) (target : Target) (strict : Bool) :
    Adapter.readWith engine s target strict =
      engine.outcome s.source s.offset target strict s.remaining := by
  rw [Adapter.readWith, Engine.outcome]
  cases engine.parse s.remaining target.production (.ofStrict strict) with
  | error e => rfl
  | ok n =>
      by_cases hstart : s.offset = 0
      · simp only [hstart, Node.shifted_zero, if_true]
      · simp only [hstart, if_false]

theorem source_eq (s : Stream) : s.source = ⟨s.name, String.ofList s.taken ++ s.remaining⟩ := by
  rw [source, whole, String.ofList_append, remaining]

/-- A use is answered by the two parts of the text. -/
theorem answer_use (s : Stream) (u : Use V) :
    (s.use u).1 = u.answer s.name (String.ofList s.taken) s.remaining := by
  cases u with
  | next =>
      rw [use, Use.answer, remaining, String.toList_ofList, next?]
      cases s.rest <;> rfl
  | remaining | readToEnd => rfl
  | source => exact congrArg Answer.source s.source_eq
  | parse a target strict =>
      rw [use, Use.answer, Adapter.parseStream, ← source_eq]
      cases a.registry.engine? target with
      | none => rfl
      | some engine =>
          rw [← Text.byteLength_eq]
          exact congrArg (Answer.parse _) (readWith_eq engine s target strict)

/-- Whatever has been done with a stream, the texts that it has handed out and the rest are the
whole text. Its offset is the length of what it has handed out, lies between characters and
never decreases, and it is exhausted where nothing is left, which is at the end. Every use is
answered by these two parts: the next character is the first one of the rest, an engine is given
the rest, and what is said about the source always has the whole text. -/
theorem useAll_parts (name text : String) (uses : List (Use V)) :
    let run := (ofText name text).useAll uses
    let handed := String.join (run.1.map Answer.handed)
    handed ++ run.2.remaining = text ∧
      run.2.offset = handed.utf8ByteSize ∧
      (String.Pos.Raw.mk run.2.offset).IsValid text ∧
      (∀ later : List (Use V),
        run.2.offset ≤ ((ofText name text).useAll (uses ++ later)).2.offset) ∧
      (run.2.isExhausted = true ↔ run.2.remaining = "") ∧
      (run.2.isExhausted = true ↔ run.2.offset = text.utf8ByteSize) ∧
      run.2.source = ⟨name, text⟩ ∧
      ∀ u : Use V, ((ofText name text).useAll (uses ++ [u])).1 =
        run.1 ++ [u.answer name handed run.2.remaining] := by
  intro run handed
  obtain ⟨hname, hchars, hrest⟩ := hands_useAll (ofText name text) uses
  have htaken : String.ofList run.2.taken = handed := by
    rw [hchars]
    exact String.ofList_toList
  have hwhole : handed ++ run.2.remaining = text := by
    refine String.toList_inj.1 ?_
    rw [String.toList_append, remaining, String.toList_ofList]
    exact hrest.symm
  have hoffset : run.2.offset = handed.utf8ByteSize := by
    rw [offset, Text.byteLength_eq, htaken]
  have hexhausted : run.2.isExhausted = true ↔ run.2.remaining = "" := by
    rw [isExhausted, remaining, List.isEmpty_iff, String.ofList_eq_empty_iff]
  refine ⟨hwhole, hoffset, ?_, ?_, hexhausted, ?_, ?_, ?_⟩
  · rw [hoffset]
    exact String.Pos.Raw.isValid_iff_exists_append.2 ⟨handed, run.2.remaining, hwhole.symm, rfl⟩
  · intro later
    rw [useAll_append, offset, offset, (hands_useAll run.2 later).taken, Text.byteLength_append]
    exact Nat.le_add_right _ _
  · rw [hexhausted, hoffset, ← hwhole, String.utf8ByteSize_append, Nat.left_eq_add,
      String.utf8ByteSize_eq_zero_iff]
  · rw [source_eq, htaken, hwhole, hname]
    rfl
  · intro u
    rw [useAll_append, ← htaken]
    exact congrArg (run.1 ++ [·]) ((answer_use run.2 u).trans (by rw [hname]; rfl))

/-- A character of two bytes, and the rest. -/
example : ((ofText "s" "äb").useAll [.next, (.readToEnd : Use Empty)]).2.offset = 3 := by decide

end Stream

end FeatureTree
