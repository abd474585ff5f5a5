import FeatureTree.Proofs.Node.Shifted
import FeatureTree.Proofs.Snippet.Parse

/-!
# Reading from the middle of a stream

An engine is given what is left of a stream and does not know what was taken before. Its
spans are those of a text on its own, and the adapter moves them by what was taken: the
spans of a tree, that of a root of the wrong kind, and that of an error. So reading goes on
from the middle of a stream as it starts on the rest (`parseStream_moved`), and what is
reported covers the same text.
-/

namespace FeatureTree

namespace Outcome

/-- The second outcome is the first one at an offset of a source: every span is moved, and
an error points into the source. Its message and label come from the target and the fault,
which stay. -/
inductive Moved (source : Source) (offset : Nat) : Outcome → Outcome → Prop
  | ok (n : Node) : Moved source offset (.ok n) (.ok (n.shifted offset))
  | grammar (alone : Source) (target : Target) (fault : GrammarFault) (span : Span) :
      Moved source offset (.error (.grammar alone target fault span))
        (.error (.grammar source target fault (span.shifted offset)))

/-- The second outcome says of one text what the first one says of another: its spans cover
the same pieces, and an error is reported in the same words. -/
def SaysAlike (text text' : List Char) : Outcome → Outcome → Prop
  | .ok n, .ok n' => n'.pieces text' = n.pieces text
  | .error r, .error r' =>
    r'.message = r.message ∧ r'.label = r.label ∧
      r'.span.map (·.slice? text') = r.span.map (·.slice? text)
  | _, _ => False

theorem Moved.eq_ok {source : Source} {offset : Nat} {n : Node} {o : Outcome}
    (h : Moved source offset (.ok n) o) : o = .ok (n.shifted offset) := by
  cases h
  rfl

theorem Moved.saysAlike {source : Source} {o o' : Outcome} {a : List Char}
    (h : Moved source (Text.byteLength a) o o') (s : List Char) : SaysAlike s (a ++ s) o o' := by
  cases h with
  | ok n => exact n.pieces_shifted a s
  | grammar alone target fault span =>
      exact ⟨rfl, rfl, congrArg some (span.slice?_shifted a s)⟩

end Outcome

namespace Adapter

variable {V : Type}

theorem readWith_moved (engine : Engine) (stream : Stream) (target : Target) (strict : Bool) :
    Outcome.Moved stream.source stream.offset
      (readWith engine (.ofText Content.defaultName stream.remaining) target strict)
      (readWith engine stream target strict) := by
  rw [readWith_ofText, readWith]
  cases engine.parse stream.remaining target.production (.ofStrict strict) with
  | error e => exact .grammar _ target (.unread e) e.span
  | ok n =>
      by_cases hkind : target.production.accepts n.kind = true
      · simp only [hkind, if_true]
        exact .ok n
      · simp only [hkind]
        exact .grammar _ target (.wrongRoot n.kind) n.span

/-- A target without an engine is rejected, and nothing of the stream is read. Otherwise all
of it is read, and what comes of it is what comes of the rest on its own, moved to where the
rest starts. It does not matter which engines there are, and the engine that comes with the
language reads a text as it does in the default adapter. -/
theorem parseStream_moved (a : Adapter V) (stream : Stream) (target : Target) (strict : Bool) :
    (a.registry.contains target = false →
      (a.parseStream stream target strict).1.outcome = .error (.unsupported target) ∧
        (a.parseStream stream target strict).2 = stream) ∧
    (a.registry.contains target = true →
      (a.parseStream stream target strict).2 = ⟨stream.name, stream.whole, []⟩ ∧
        Outcome.Moved ⟨stream.name, String.ofList stream.whole⟩ (Text.byteLength stream.taken)
          (a.parseText stream.remaining target strict).outcome
          (a.parseStream stream target strict).1.outcome ∧
        Outcome.SaysAlike stream.rest stream.whole
          (a.parseText stream.remaining target strict).outcome
          (a.parseStream stream target strict).1.outcome) ∧
    (a.registry.engine? target = Registry.bundled.engine? target →
      (a.parseText stream.remaining target strict).outcome =
        parseSnippet stream.remaining target strict) := by
  refine ⟨fun hnone => ?_, fun hsome => ?_, fun hbundled => ?_⟩
  · rw [Registry.contains, Option.isSome_eq_false_iff, Option.isNone_iff_eq_none] at hnone
    rw [parseStream, hnone]
    exact ⟨rfl, rfl⟩
  · obtain ⟨engine, hengine⟩ := Option.isSome_iff_exists.1 hsome
    have hmoved := readWith_moved engine stream target strict
    rw [parseText, parseStream, parseStream, hengine]
    exact ⟨rfl, hmoved, hmoved.saysAlike stream.rest⟩
  · rw [parseSnippet, parseText, parseText, parseStream, parseStream, hbundled]
    rfl

/-- A field behind a comment that has been taken. -/
theorem parseStream_moved_field :
    let stream := ((Stream.ofText "mixed" "/* é */ int x;").take 7).2
    let field : Node := ⟨.field, some "x", [⟨.variable, some "x", [], ⟨5, 6⟩, none⟩], ⟨1, 7⟩, none⟩
    let attempt := (Adapter.default : Adapter Empty).parseStream stream ⟨.java, .field⟩ true
    attempt.1.outcome = .ok (field.shifted 8) ∧ attempt.2.isExhausted = true := by
  intro stream field attempt
  obtain ⟨-, hread, hbundled⟩ :=
    parseStream_moved (Adapter.default : Adapter Empty) stream ⟨.java, .field⟩ true
  obtain ⟨hstream, hmoved, -⟩ := hread (by decide +kernel)
  have halone : ((Adapter.default : Adapter Empty).parseText stream.remaining ⟨.java, .field⟩
      true).outcome = .ok field :=
    (hbundled rfl).trans (Outcome.eq_ok_of_toOption (by decide +kernel))
  have hoffset : Text.byteLength stream.taken = 8 := by decide +kernel
  rw [halone, hoffset] at hmoved
  exact ⟨hmoved.eq_ok, congrArg Stream.isExhausted hstream⟩

end Adapter

end FeatureTree
