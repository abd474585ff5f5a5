import FeatureTree.Proofs.Adapter.Stages
import FeatureTree.Proofs.Snippet.Trailing

/-!
# What bundled engines answer

An engine of a grammar has two branches that nothing reaches. One reports that a
rule matched and made no node; but the rules that an entry rule tries all make
nodes, so where it matches there is a root (`read_lenient_eq_error`). The other one
is in the adapter, which checks the kind of a root; but each of these rules makes a
node of a kind that its production accepts (`accepts_of_parse`).

The errors that are left come from three places: there is no such production, its
rule did not match, or something follows the root. Each of them points at a piece
of the text (`Span.LiesIn`), and none of them can be mistaken for the first branch,
since its sentence ends otherwise (`SyntaxError.message_ne`).
-/

namespace FeatureTree

/-! ## Sentences of errors -/

namespace SyntaxError

/-- The words in which an engine reports that a rule matched and made no node. -/
def noDeclarationEnding : List Char := " matched no declaration".toList

/-- No text ends in both. -/
def apart (a b : List Char) : Bool := !a.isSuffixOf b && !b.isSuffixOf a

theorem not_suffix_of_apart {a b s : List Char} (h : apart a b = true) (ha : a <:+ s) :
    ¬ b <:+ s := by
  intro hb
  rw [apart, Bool.and_eq_true, Bool.not_eq_true', Bool.not_eq_true'] at h
  rcases List.suffix_or_suffix_of_suffix ha hb with hab | hba
  · rw [List.isSuffixOf_iff_suffix.2 hab] at h
    cases h.1
  · rw [List.isSuffixOf_iff_suffix.2 hba] at h
    cases h.2

theorem message_noProduction (language : Language) (production : Production) :
    ¬ noDeclarationEnding <:+ (noProduction language production).message.toList := by
  refine not_suffix_of_apart (a := " production".toList) (by decide) ?_
  exact Mismatch.suffix_append _ " production"

theorem message_trailing (kind : Kind) (offset length : Nat) :
    ¬ noDeclarationEnding <:+ (trailing kind offset length).message.toList := by
  have hkind : ∀ kind ∈ Kind.all,
      apart ("unexpected content after the ".toList ++ kind.name.toList) noDeclarationEnding =
        true := by
    decide +kernel
  exact not_suffix_of_apart (hkind kind kind.mem_all) ⟨[], (String.toList_append ..).symm⟩

theorem message_mismatch {names : List String} {report : Mismatch}
    (hnames : (Mismatch.endings names).all (apart · noDeclarationEnding) = true)
    (h : Mismatch.EndsIn names report.message) (atEnd : Bool) :
    ¬ noDeclarationEnding <:+ (mismatch report atEnd).message.toList := by
  have hends : Mismatch.EndsIn names (mismatch report atEnd).message := by
    cases atEnd with
    | false => exact h
    | true => exact h.behind _
  obtain ⟨ending, hending, hsuffix⟩ := hends
  exact not_suffix_of_apart (List.all_eq_true.1 hnames ending hending) hsuffix

end SyntaxError

theorem Java.endings_apart : (Mismatch.endings (grammar.rules.map grammar.label)).all
    (SyntaxError.apart · SyntaxError.noDeclarationEnding) = true := by
  decide +kernel

theorem CSharp.endings_apart : (Mismatch.endings (grammar.rules.map grammar.label)).all
    (SyntaxError.apart · SyntaxError.noDeclarationEnding) = true := by
  decide +kernel

theorem C.endings_apart : (Mismatch.endings (grammar.rules.map grammar.label)).all
    (SyntaxError.apart · SyntaxError.noDeclarationEnding) = true := by
  decide +kernel

/-! ## Errors of a grammar -/

namespace SnippetGrammar

variable {R : Type} [BEq R] {g : SnippetGrammar R} {language : Language} {input : List Char}
  {production : Production} {boundary : Boundary} {e : SyntaxError}

/-- The error of a text that is not read points into the text, and it does not say
that there was no declaration. -/
theorem read_eq_error (hg : g.Regular)
    (hlabels : (Mismatch.endings (g.rules.map g.label)).all
      (SyntaxError.apart · SyntaxError.noDeclarationEnding) = true)
    (h : g.read language input production boundary = .error e) :
    e.span.LiesIn input ∧ ¬ SyntaxError.noDeclarationEnding <:+ e.message.toList := by
  have hlenient : ∀ e, g.read language input production .lenient = .error e →
      e.span.LiesIn input ∧ ¬ SyntaxError.noDeclarationEnding <:+ e.message.toList := by
    intro e h
    obtain ⟨-, rfl⟩ | ⟨entry, atEnd, -, -, rfl⟩ := read_lenient_eq_error hg h
    · have hstart := Span.liesIn_of_suffix (List.suffix_refl input) (List.suffix_refl input)
      rw [Text.offset, Nat.sub_self] at hstart
      exact ⟨hstart, SyntaxError.message_noProduction language production⟩
    · obtain ⟨rest, hrest, hoffset⟩ := Grammar.mismatch_offset hg.ranked g.label entry input
      have hplace := Span.liesIn_of_suffix hrest (List.suffix_refl rest)
      rw [← hoffset] at hplace
      exact ⟨hplace, SyntaxError.message_mismatch hlabels
        (Grammar.mismatch_message g.label entry input) atEnd⟩
  cases boundary with
  | lenient => exact hlenient e h
  | strict =>
      cases hread : g.read language input production .lenient with
      | error e' =>
          obtain ⟨hstrict, -⟩ := ((read_boundaries hg).error e').1 hread
          rw [h] at hstrict
          cases hstrict
          exact hlenient e hread
      | ok root =>
          obtain ⟨front, between, rest, hinput, -, -, -, -, rfl⟩ :=
            (read_boundaries hg).trailing root e hread h
          refine ⟨?_, SyntaxError.message_trailing _ _ _⟩
          subst hinput
          have hplace := Span.liesIn_of_suffix (List.suffix_append (front ++ between) rest)
            List.nil_suffix
          rw [Text.offset_append] at hplace
          exact hplace

end SnippetGrammar

/-! ## Engines and adapters -/

/-- The snippet was rejected because the engine answered with a root that the
production does not have. -/
def Outcome.IsWrongRoot (o : Outcome) : Prop :=
  ∃ source target kind span, o = .error (.grammar source target (.wrongRoot kind) span)

/-- Targets that have an engine have the one that comes with their language. -/
def Registry.IsBundled (r : Registry) : Prop :=
  ∀ t engine, r.engine? t = some engine → engine = .bundled t.language

theorem Registry.isBundled_bundled : bundled.IsBundled := by
  intro t engine h
  rw [engine?_bundled] at h
  split at h
  · exact (Option.some.inj h).symm
  · cases h

theorem parse_eq_error {language : Language} {text : String} {production : Production}
    {boundary : Boundary} {e : SyntaxError}
    (h : (Engine.bundled language).parse text production boundary = .error e) :
    e.span.LiesIn text.toList ∧ ¬ SyntaxError.noDeclarationEnding <:+ e.message.toList := by
  cases language with
  | java => exact SnippetGrammar.read_eq_error Java.regular Java.endings_apart h
  | csharp => exact SnippetGrammar.read_eq_error CSharp.regular CSharp.endings_apart h
  | c => exact SnippetGrammar.read_eq_error C.regular C.endings_apart h

section Adapters

variable {V : Type} {a : Adapter V}

theorem readWith_isWrongRoot (language : Language) (stream : Stream) {target : Target}
    (strict : Bool) :
    ¬ (Adapter.readWith (.bundled language) stream target strict).IsWrongRoot := by
  rintro ⟨source, target', kind, span, h⟩
  rw [Adapter.readWith] at h
  split at h
  · cases h
  · next n hparse =>
      rw [if_pos (accepts_of_parse hparse)] at h
      cases h

theorem parseStream_isWrongRoot (ha : a.registry.IsBundled) (stream : Stream) (target : Target)
    (strict : Bool) : ¬ (a.parseStream stream target strict).1.outcome.IsWrongRoot := by
  rw [Adapter.parseStream]
  split
  · rintro ⟨source, target', kind, span, h⟩
    cases h
  · next engine hengine =>
      cases ha target engine hengine
      exact readWith_isWrongRoot target.language stream strict

theorem verdict_isWrongRoot {language : Language} {source : Source} {target : Target}
    {set : ConstraintSet V} [Validator V] (text : String) (boundary : Boundary) :
    ¬ (verdict source target set
      ((Engine.bundled language).parse text target.production boundary)).IsWrongRoot := by
  rintro ⟨source', target', kind, span, h⟩
  rw [verdict.eq_def] at h
  split at h
  · cases h
  · next n hparse =>
      rw [if_pos (accepts_of_parse hparse), Adapter.checkShape] at h
      split at h <;> cases h

theorem parse_isWrongRoot [Validator V] (ha : a.registry.IsBundled) (files : FileSystem)
    (snippet : Snippet) (constraints : Option (ConstraintSet V)) :
    ¬ (a.parse files snippet constraints).outcome.IsWrongRoot := by
  rw [Adapter.parse_eq]
  split
  · rintro ⟨source, target, kind, span, h⟩
    cases h
  · rintro ⟨source, target, kind, span, h⟩
    cases h
  · next engine text hengine htext =>
      cases ha snippet.target engine hengine
      exact verdict_isWrongRoot text _

end Adapters

/-- What a bundled engine answers, asked for any production under any boundary. An
error points at a piece of the text, and it is never that a rule matched no
declaration. A root has a kind that the production accepts. So an adapter whose
engines are those that come with the languages never reports a root of the wrong
kind. -/
theorem bundled_answers :
    (∀ (language : Language) (text : String) (production : Production) (boundary : Boundary),
      (∀ e, (Engine.bundled language).parse text production boundary = .error e →
        e.span.LiesIn text.toList ∧
          ∀ rule : String, e.message ≠ s!"{rule} matched no declaration") ∧
      ∀ n, (Engine.bundled language).parse text production boundary = .ok n →
        production.accepts n.kind = true) ∧
    ∀ (V : Type) [Validator V] (a : Adapter V), a.registry.IsBundled →
      (∀ stream target strict,
        ¬ (a.parseStream stream target strict).1.outcome.IsWrongRoot) ∧
      (∀ text target strict, ¬ (a.parseText text target strict).outcome.IsWrongRoot) ∧
      ∀ files snippet constraints,
        ¬ (a.parse files snippet constraints).outcome.IsWrongRoot := by
  refine ⟨fun language text production boundary => ⟨fun e h => ?_, fun n h => accepts_of_parse h⟩,
    fun V _ a ha => ⟨?_, ?_, ?_⟩⟩
  · obtain ⟨hplace, hmessage⟩ := parse_eq_error h
    refine ⟨hplace, fun rule heq => hmessage ?_⟩
    rw [heq]
    exact Mismatch.suffix_append rule " matched no declaration"
  · exact parseStream_isWrongRoot ha
  · exact fun text target strict => parseStream_isWrongRoot ha _ target strict
  · exact parse_isWrongRoot ha

/-- A field without its semicolon, and the same field with it, with the engine and with the
adapter over the bundled engines. -/
theorem bundled_answers_field :
    (∃ e, (Engine.bundled .java).parse "int x" .field .strict = .error e ∧
      e.span.LiesIn "int x".toList) ∧
    (∃ n, (Engine.bundled .java).parse "int x;" .field .strict = .ok n ∧ n.kind = .field ∧
      Production.field.accepts n.kind = true) ∧
    ∀ text ∈ ["int x", "int x;"],
      ¬ ((Adapter.default : Adapter Empty).parseText text ⟨.java, .field⟩
        true).outcome.IsWrongRoot := by
  obtain ⟨hengines, hadapters⟩ := bundled_answers
  obtain ⟨herror, -⟩ := hengines .java "int x" .field .strict
  obtain ⟨-, haccepts⟩ := hengines .java "int x;" .field .strict
  obtain ⟨-, htext, -⟩ := hadapters Empty .default Registry.isBundled_bundled
  refine ⟨?_, ?_, fun text _ => htext text ⟨.java, .field⟩ true⟩
  · have hnone : ((Engine.bundled .java).parse "int x" .field .strict).toOption = none := by
      decide +kernel
    cases hparse : (Engine.bundled .java).parse "int x" .field .strict with
    | error e => exact ⟨e, rfl, (herror e hparse).1⟩
    | ok n =>
        rw [hparse] at hnone
        cases hnone
  · have hkind : ((Engine.bundled .java).parse "int x;" .field .strict).toOption.map Node.kind =
        some .field := by
      decide +kernel
    cases hparse : (Engine.bundled .java).parse "int x;" .field .strict with
    | error e =>
        rw [hparse] at hkind
        cases hkind
    | ok n =>
        rw [hparse] at hkind
        exact ⟨n, rfl, Option.some.inj hkind, haccepts n hparse⟩

end FeatureTree
