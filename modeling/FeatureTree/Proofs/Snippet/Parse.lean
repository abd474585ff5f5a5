import FeatureTree.Adapter

/-!
# What it takes to parse a snippet

`parseSnippet` looks up the engine of a target, lets it read the text, and
checks the kind of the root. Nothing stands in front of the text, so the spans
stay where they are. This file takes the three apart once, so that what follows
is about the grammars only.
-/

namespace FeatureTree

namespace Node

mutual

theorem shifted_zero : ∀ n : Node, n.shifted 0 = n
  | ⟨kind, name, children, span, body⟩ => by
      have hspan : (Span.shifted 0) = id := rfl
      rw [shifted, shiftedAll_zero children, hspan, Option.map_id]
      rfl

theorem shiftedAll_zero : ∀ ns : List Node, shiftedAll 0 ns = ns
  | [] => rfl
  | n :: ns => by rw [shiftedAll, shifted_zero n, shiftedAll_zero ns]

end

end Node

namespace Registry

theorem engine?_foldl (ts : List Target) (r : Registry) (t : Target) :
    (ts.foldl (fun r t => r.register t (.bundled t.language)) r).engine? t =
      if t ∈ ts then some (.bundled t.language) else r.engine? t := by
  induction ts generalizing r with
  | nil => rfl
  | cons u ts ih =>
      rw [List.foldl_cons, ih, engine?_register]
      by_cases hmem : t ∈ ts
      · rw [if_pos hmem, if_pos (List.mem_cons_of_mem u hmem)]
      · by_cases hu : u = t
        · rw [if_neg hmem, if_pos hu, hu, if_pos List.mem_cons_self]
        · rw [if_neg hmem, if_neg hu, if_neg]
          simp [hmem, Ne.symm hu]

/-- There is an engine for each target that its language has. -/
theorem engine?_bundled (t : Target) :
    bundled.engine? t = if t.isSupported then some (.bundled t.language) else none := by
  have hmem : t ∈ bundledTargets ↔ t.isSupported = true := by
    obtain ⟨language, production⟩ := t
    simp [bundledTargets, Target.isSupported, Language.supports, language.mem_all]
  rw [bundled, engine?_foldl]
  simp only [hmem]
  rfl

end Registry

section Read

variable {R : Type} [BEq R] {g : SnippetGrammar R} {language : Language} {input : List Char}
  {production : Production} {boundary : Boundary} {n : Node}

/-- A text is read if the rule of the production matches and makes a root, and
under the strict boundary if nothing but blanks and comments is found behind
the root. -/
theorem SnippetGrammar.read_eq_ok_iff :
    g.read language input production boundary = .ok n ↔
      ∃ entry rest f, g.entry production = some entry ∧ g.parse entry input = some (rest, f) ∧
        g.root? (Text.byteLength input) f = some n ∧
        (boundary = .strict → g.checkTrailing input n = .ok ()) := by
  constructor
  · intro h
    rw [SnippetGrammar.read] at h
    split at h
    · cases h
    · next entry hentry =>
        split at h
        · cases h
        · next rest f hparse =>
            dsimp only at h
            split at h
            · cases h
            · next root hroot =>
                refine ⟨entry, rest, f, hentry, hparse, ?_⟩
                cases boundary with
                | lenient => cases h; exact ⟨hroot, by rintro ⟨⟩⟩
                | strict =>
                    cases hcheck : g.checkTrailing input root with
                    | error e => rw [hcheck] at h; cases h
                    | ok u => rw [hcheck] at h; cases h; exact ⟨hroot, fun _ => hcheck⟩
  · rintro ⟨entry, rest, f, hentry, hparse, hroot, hstrict⟩
    rw [SnippetGrammar.read]
    simp only [hentry, hparse, hroot]
    cases boundary with
    | lenient => rfl
    | strict => rw [hstrict rfl]; rfl

end Read

theorem Outcome.eq_ok_of_toOption {o : Outcome} {n : Node} (h : o.toOption = some n) :
    o = .ok n := by
  cases o with
  | error rejection => cases h
  | ok m => cases h; rfl

/-- Why there is no tree. -/
def Outcome.rejection? : Outcome → Option Rejection
  | .error r => some r
  | .ok _ => none

theorem Outcome.eq_error_of_rejection? {o : Outcome} {r : Rejection} (h : o.rejection? = some r) :
    o = .error r := by
  cases o with
  | error r' => cases h; rfl
  | ok n => cases h

theorem Outcome.ne_ok_of_toOption {o : Outcome} (h : o.toOption = none) (n : Node) :
    o ≠ .ok n := by
  rintro rfl
  cases h

theorem Stream.remaining_ofText (name text : String) : (ofText name text).remaining = text :=
  String.ofList_toList

theorem Stream.source_ofText (name text : String) : (ofText name text).source = ⟨name, text⟩ :=
  congrArg (Source.mk name) String.ofList_toList

/-- Nothing has been taken of a stream at its start, so the spans stay. -/
theorem Adapter.readWith_ofText (engine : Engine) (name text : String) (target : Target)
    (strict : Bool) :
    readWith engine (.ofText name text) target strict =
      match engine.parse text target.production (.ofStrict strict) with
      | .error e => .error (.grammar ⟨name, text⟩ target (.unread e) e.span)
      | .ok n =>
        if target.production.accepts n.kind then .ok n
        else .error (.grammar ⟨name, text⟩ target (.wrongRoot n.kind) n.span) := by
  rw [readWith, Stream.remaining_ofText, Stream.source_ofText,
    show (Stream.ofText name text).offset = 0 from rfl]
  cases engine.parse text target.production (.ofStrict strict) with
  | error e => rfl
  | ok n =>
      simp only [Node.shifted_zero]
      rfl

theorem parseSnippet_eq_ok_iff {text : String} {t : Target} {strict : Bool} {n : Node} :
    parseSnippet text t strict = .ok n ↔
      t.isSupported = true ∧
        (Engine.bundled t.language).parse text t.production (.ofStrict strict) = .ok n ∧
        t.production.accepts n.kind = true := by
  rw [parseSnippet, Adapter.parseText, Adapter.parseStream]
  rw [show (Adapter.default : Adapter Empty).registry = .bundled from rfl,
    Registry.engine?_bundled]
  by_cases ht : t.isSupported = true
  · rw [if_pos ht]
    simp only [Adapter.readWith_ofText]
    cases hparse : (Engine.bundled t.language).parse text t.production (.ofStrict strict) with
    | error e => simp
    | ok root =>
        by_cases hkind : t.production.accepts root.kind = true
        · simp only [hkind, if_true, Except.ok.injEq]
          constructor
          · rintro rfl; exact ⟨ht, rfl, hkind⟩
          · exact fun h => h.2.1
        · simp only [hkind, Except.ok.injEq]
          constructor
          · intro h; cases h
          · rintro ⟨-, rfl, hn⟩; exact absurd hn hkind
  · rw [if_neg ht]
    simp [ht]

end FeatureTree
