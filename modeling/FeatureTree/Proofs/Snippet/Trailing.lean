import FeatureTree.Proofs.Grammar.Failure
import FeatureTree.Proofs.Snippet.Members

/-!
# What the strict boundary adds

Reading under the strict boundary is reading under the lenient one, and then a
check of what follows the root (`read_strict_eq`). So the two boundaries differ on
a text only where something follows, and then the strict one points at it: at the
first place behind the root where neither a blank nor a comment begins
(`checkTrailing_error`).

That place is the furthest one at which a rule fails that asks for the end of the
text (`checkTrailing_eq_rule`): the end is asked for once, behind all blanks and
comments.

A root that is read has a kind that the production accepts, under either boundary
(`accepts_of_parse`), so nothing comes between the answer of an engine and that of
`parseSnippet`.
-/

namespace FeatureTree

/-! ## Where the end of a text is asked for -/

namespace Trivia

/-- The rules for a text that consists of blanks and comments. -/
inductive EndRule
  | trailing | endOfInput
  deriving DecidableEq, Repr

/-- Nothing stands between the start of the text and its end but blanks and
comments. -/
def endGrammar (t : Trivia) : Grammar EndRule where
  rules := [.trailing]
  layout _ := .spaced
  body
    | .trailing => .both .start (.rule .endOfInput)
    | .endOfInput => .notAhead .any
  trivia := t

variable (t : Trivia) (s : List Char)

theorem depth_endGrammar : ∃ d, t.endGrammar.depth s = d + 2 :=
  ⟨s.length * 2, by rw [Grammar.depth, endGrammar, List.length_singleton]; omega⟩

theorem parse_trailing : (t.endGrammar.parse .trailing s).isSome = t.isTrivia s := by
  obtain ⟨d, hd⟩ := t.depth_endGrammar s
  rw [Grammar.parse, hd, isTrivia]
  simp only [Grammar.run, endGrammar, Grammar.eval, Expr.start, Expr.nothing, Expr.any,
    Text.after?, Option.map_some, Grammar.gap, Layout.inside]
  cases t.skip s <;> rfl

/-- The rule fails at the first place where no blank or comment begins. -/
theorem furthest_trailing (ht : t.Lawful) (h : t.isTrivia s = false) :
    (t.endGrammar.furthest .trailing s).rest = t.skip s := by
  obtain ⟨d, hd⟩ := t.depth_endGrammar s
  have hsuffix := t.skip_suffix ht s
  have hbody : ∀ f : Furthest EndRule, Grammar.trace t.skip (t.endGrammar.runTrace (d + 1))
      (t.endGrammar.body .trailing) .spaced false s f =
        (none, f.enter f .endOfInput false (t.skip s)) := by
    intro f
    show t.endGrammar.runTrace (d + 1) .endOfInput .spaced false (t.skip s) f = _
    rw [isTrivia] at h
    cases hskip : t.skip s with
    | nil => rw [hskip] at h; cases h
    | cons c u => rfl
  rw [Grammar.furthest, hd, Grammar.runTrace, show t.endGrammar.trivia.skip = t.skip from rfl,
    show Layout.inside .spaced (t.endGrammar.layout .trailing) = .spaced from rfl, hbody]
  show (Furthest.enter _ _ _ _ _).rest = _
  have hend : ∀ f : Furthest EndRule, f.rest = s →
      (f.enter f .endOfInput false (t.skip s)).rest = t.skip s :=
    fun f hf => Furthest.enter_rest_of_suffix (by rw [hf]; exact hsuffix) EndRule.endOfInput false
  have hfirst := hend ⟨s, [], []⟩ rfl
  rw [Furthest.enter_rest_of_le (by rw [hfirst]; exact hsuffix.length_le), hfirst]

end Trivia

/-! ## The check -/

namespace SyntaxError

/-- The error says that something follows the root. -/
def isTrailing : SyntaxError → Bool
  | .trailing _ _ _ => true
  | _ => false

/-- The error points at what begins behind a root and the blanks and comments after
it, and goes on to the end of the text. -/
def PointsBehind (t : Trivia) (input : List Char) (root : Node) (e : SyntaxError) : Prop :=
  ∃ front between rest, input = front ++ between ++ rest ∧
    Text.byteLength front = root.span.stop ∧ t.isTrivia between = true ∧ rest ≠ [] ∧
    t.piece? rest = none ∧
    e = .trailing root.kind (Text.byteLength (front ++ between)) (Text.byteLength input)

variable {t : Trivia} {input : List Char} {root : Node} {e : SyntaxError}

theorem PointsBehind.message (h : e.PointsBehind t input root) :
    e.message = s!"unexpected content after the {root.kind}" := by
  obtain ⟨front, between, rest, -, -, -, -, -, rfl⟩ := h
  rfl

theorem PointsBehind.place (h : e.PointsBehind t input root) :
    root.span.stop ≤ e.span.start ∧ e.span.start < e.span.stop ∧
      e.span.stop = Text.byteLength input ∧
      ∃ front between rest, input = front ++ between ++ rest ∧
        Text.byteLength front = root.span.stop ∧
        Text.byteLength (front ++ between) = e.span.start ∧ t.isTrivia between = true ∧
        t.blank rest = none ∧ t.comment rest = none := by
  obtain ⟨front, between, rest, hinput, hfront, htrivia, hne, hpiece, rfl⟩ := h
  rw [Trivia.piece?_eq_or, Option.or_eq_none_iff] at hpiece
  refine ⟨?_, ?_, rfl, front, between, rest, hinput, hfront, rfl, htrivia, hpiece.1, hpiece.2⟩
  · show root.span.stop ≤ Text.byteLength (front ++ between)
    rw [Text.byteLength_append, hfront]
    exact Nat.le_add_right _ _
  · show Text.byteLength (front ++ between) < Text.byteLength input
    rw [hinput, Text.byteLength_append _ rest]
    exact Nat.lt_add_of_pos_right (Text.byteLength_pos hne)

end SyntaxError

/-- The rejection that an engine's error is reported as. -/
def SyntaxError.rejection (source : Source) (t : Target) (e : SyntaxError) : Rejection :=
  .grammar source t (.unread e) e.span

/-- The snippet was rejected because something follows the root. -/
def Rejection.isTrailing : Rejection → Bool
  | .grammar _ _ (.unread e) _ => e.isTrailing
  | _ => false

/-- How what is read of a text under the strict boundary goes with what is read of it
under the lenient one. -/
structure Boundaries (t : Trivia) (input : List Char) (strict lenient : Except SyntaxError Node) :
    Prop where
  ok : ∀ n, strict = .ok n → lenient = .ok n
  error : ∀ e, lenient = .error e ↔ strict = .error e ∧ e.isTrailing = false
  trailing : ∀ n e, lenient = .ok n → strict = .error e → e.PointsBehind t input n

namespace SnippetGrammar

variable {R : Type} {g : SnippetGrammar R} {root : Node} {front behind : List Char}

theorem checkTrailing_eq (hfront : Text.byteLength front = root.span.stop) :
    g.checkTrailing (front ++ behind) root =
      if g.trivia.isTrivia behind then .ok ()
      else .error (.trailing root.kind (Text.offset (front ++ behind) (g.trivia.skip behind))
        (Text.byteLength (front ++ behind))) := by
  rw [checkTrailing, ← hfront, Text.cut_append]
  rfl

/-- The check asks for the end of the text, and reports the furthest place at which
that failed. -/
theorem checkTrailing_eq_rule (hg : g.Ranked) (label : Trivia.EndRule → String)
    (hfront : Text.byteLength front = root.span.stop) :
    g.checkTrailing (front ++ behind) root =
      if (g.trivia.endGrammar.parse .trailing behind).isSome then .ok ()
      else
        let report := g.trivia.endGrammar.mismatch label .trailing behind
        .error (.trailing root.kind (root.span.stop + report.offset)
          (Text.byteLength (front ++ behind))) := by
  rw [checkTrailing_eq hfront, Trivia.parse_trailing]
  split
  · rfl
  · next h =>
      have hrest := g.trivia.furthest_trailing behind hg.lawful (Bool.eq_false_iff.2 h)
      have hle := Text.byteLength_le_of_suffix (g.trivia.skip_suffix hg.lawful behind)
      simp only [Grammar.mismatch, hrest, ← hfront, Text.offset, Text.byteLength_append,
        Nat.add_sub_assoc hle]

theorem isTrailing_of_checkTrailing {input : List Char} {e : SyntaxError}
    (h : g.checkTrailing input root = .error e) : e.isTrailing = true := by
  rw [checkTrailing] at h
  dsimp only at h
  split at h
  · cases h
  · cases h
    rfl

section Read

variable [BEq R] {language : Language} {input : List Char} {production : Production}
  {boundary : Boundary} {n : Node} {e : SyntaxError}

/-- The root of a text that is read stops between two characters of it. -/
theorem stop_of_read (hg : g.Regular)
    (h : g.read language input production boundary = .ok n) :
    ∃ front behind, input = front ++ behind ∧ Text.byteLength front = n.span.stop := by
  obtain ⟨r, kind, inner, rest, -, hrun, rfl, -⟩ := read_root hg h
  obtain ⟨-, hwithin, -⟩ := Grammar.run_within hg.ranked hrun
  have hskip := Trivia.skip_suffix hg.ranked.lawful input
  have hrest := hwithin.suffix
  generalize g.trivia.skip input = before at hskip hrest ⊢
  obtain ⟨p, rfl⟩ := hskip
  obtain ⟨piece, rfl⟩ := hrest
  obtain ⟨tail, htail, -⟩ := g.trivia.trim_append piece
  refine ⟨p ++ g.trivia.trim piece, tail ++ rest, ?_, ?_⟩
  · rw [List.append_assoc, ← List.append_assoc _ tail, ← htail]
  · show _ = (g.spanOf _ _ rest).stop
    rw [spanOf_eq]

/-- A text is read under the strict boundary as under the lenient one, and then
checked. -/
theorem read_strict_eq :
    g.read language input production .strict =
      (g.read language input production .lenient).bind fun root =>
        (g.checkTrailing input root).map fun _ => root := by
  rw [read, read]
  cases g.entry production with
  | none => rfl
  | some entry =>
      dsimp only
      cases g.parse entry input with
      | none => rfl
      | some found =>
          dsimp only
          cases g.root? (Text.byteLength input) found.2 <;> rfl

/-- A text that is not read has no production to be read as, or the rule of the
production does not match. Where the rule matches, there is a root. -/
theorem read_lenient_eq_error (hg : g.Regular)
    (h : g.read language input production .lenient = .error e) :
    g.entry production = none ∧ e = .noProduction language production ∨
      ∃ entry atEnd, g.entry production = some entry ∧ g.parse entry input = none ∧
        e = .mismatch (g.mismatch g.label entry input) atEnd := by
  rw [read] at h
  cases hentry : g.entry production with
  | none =>
      rw [hentry] at h
      cases h
      exact .inl ⟨rfl, rfl⟩
  | some entry =>
      rw [hentry] at h
      cases hparse : g.parse entry input with
      | none =>
          simp only [hparse] at h
          cases h
          exact .inr ⟨entry, _, rfl, hparse, rfl⟩
      | some found =>
          obtain ⟨htransparent, expr, henters, htries⟩ := tries_entry hg hentry
          rw [Grammar.parse_entry hg.ranked henters] at hparse
          obtain ⟨⟨rest, inner⟩, hmatch, rfl⟩ := Option.map_eq_some_iff.1 hparse
          obtain ⟨root, hroot, -⟩ := htries.found (Text.byteLength input) _ _ _ hmatch
          have hentryRoot : g.root? (Text.byteLength input) (.cons entry input rest inner .nil) =
              some root := by
            rw [root?, htransparent, hroot]
            rfl
          simp only [Grammar.parse_entry hg.ranked henters, hmatch, Option.map_some,
            hentryRoot] at h
          cases h

/-- What the check objects to begins behind the blanks and comments that follow the
root. -/
theorem checkTrailing_error (hg : g.Regular)
    (h : g.read language input production boundary = .ok n)
    (hcheck : g.checkTrailing input n = .error e) :
    e.PointsBehind g.trivia input n := by
  obtain ⟨front, behind, rfl, hfront⟩ := stop_of_read hg h
  rw [checkTrailing_eq hfront] at hcheck
  split at hcheck
  · cases hcheck
  · next htrivia =>
      have hlawful := hg.ranked.lawful
      have hskip : g.trivia.skip (g.trivia.skip behind) = g.trivia.skip behind :=
        Trivia.skip_skip hlawful behind
      obtain ⟨between, hbetween⟩ := Trivia.skip_suffix hlawful behind
      have hne : g.trivia.skip behind ≠ [] := fun hnil =>
        htrivia (by rw [Trivia.isTrivia, hnil]; rfl)
      have hinput : front ++ behind = front ++ between ++ g.trivia.skip behind := by
        rw [List.append_assoc, hbetween]
      refine ⟨front, between, g.trivia.skip behind, hinput, hfront, ?_, hne, ?_, ?_⟩
      · exact Trivia.isTrivia_front hg.steady (by rw [hbetween])
      · exact (Trivia.skip_eq_self_iff hlawful).1 hskip
      · cases hcheck
        rw [hinput, Text.offset_append]

theorem isTrailing_of_read_lenient (hg : g.Regular)
    (h : g.read language input production .lenient = .error e) : e.isTrailing = false := by
  obtain ⟨-, rfl⟩ | ⟨entry, atEnd, -, -, rfl⟩ := read_lenient_eq_error hg h
  · rfl
  · rfl

theorem read_boundaries (hg : g.Regular) :
    Boundaries g.trivia input (g.read language input production .strict)
      (g.read language input production .lenient) := by
  rw [read_strict_eq]
  cases hread : g.read language input production .lenient with
  | error e =>
      have he := isTrailing_of_read_lenient hg hread
      refine ⟨nofun, fun e' => ⟨fun h => ⟨h, ?_⟩, fun h => h.1⟩, nofun⟩
      cases h
      exact he
  | ok root =>
      show Boundaries g.trivia input ((g.checkTrailing input root).map fun _ => root) (.ok root)
      cases hcheck : g.checkTrailing input root with
      | ok u => exact ⟨fun n h => h, fun e => ⟨nofun, nofun⟩, nofun⟩
      | error e =>
          refine ⟨nofun, fun e' => ⟨nofun, fun h => ?_⟩, fun n e' hn he => ?_⟩
          · obtain ⟨heq, hnot⟩ := h
            cases heq
            rw [isTrailing_of_checkTrailing hcheck] at hnot
            cases hnot
          · cases hn
            cases he
            exact checkTrailing_error hg hread hcheck

end Read

end SnippetGrammar

/-! ## The languages -/

theorem Java.accepts_of_mem_alternatives (production : Production) :
    ∀ r ∈ grammar.alternatives production, ∀ kind ∈ Kind.all, grammar.role r = .node kind →
      production.accepts kind = true := by
  cases production <;> decide

theorem CSharp.accepts_of_mem_alternatives (production : Production) :
    ∀ r ∈ grammar.alternatives production, ∀ kind ∈ Kind.all, grammar.role r = .node kind →
      production.accepts kind = true := by
  cases production <;> decide

theorem C.accepts_of_mem_alternatives (production : Production) :
    ∀ r ∈ grammar.alternatives production, ∀ kind ∈ Kind.all, grammar.role r = .node kind →
      production.accepts kind = true := by
  cases production <;> decide

section Parsed

variable {text : String} {t : Target} {language : Language} {production : Production}
  {boundary : Boundary} {n : Node} {e : SyntaxError}

/-- A bundled engine answers with a root that the production accepts. -/
theorem accepts_of_parse
    (h : (Engine.bundled language).parse text production boundary = .ok n) :
    production.accepts n.kind = true := by
  cases language with
  | java =>
      obtain ⟨r, hr, hrole⟩ := SnippetGrammar.exists_rule_of_read Java.regular h
      exact Java.accepts_of_mem_alternatives production r hr n.kind n.kind.mem_all hrole
  | csharp =>
      obtain ⟨r, hr, hrole⟩ := SnippetGrammar.exists_rule_of_read CSharp.regular h
      exact CSharp.accepts_of_mem_alternatives production r hr n.kind n.kind.mem_all hrole
  | c =>
      obtain ⟨r, hr, hrole⟩ := SnippetGrammar.exists_rule_of_read C.regular h
      exact C.accepts_of_mem_alternatives production r hr n.kind n.kind.mem_all hrole

/-- A snippet of a production that the language has is what the engine makes of
it. -/
theorem parseSnippet_eq (ht : t.isSupported = true) (strict : Bool) :
    parseSnippet text t strict =
      ((Engine.bundled t.language).parse text t.production (.ofStrict strict)).mapError
        (·.rejection ⟨Content.defaultName, text⟩ t) := by
  rw [parseSnippet, Adapter.parseText, Adapter.parseStream,
    show (Adapter.default : Adapter Empty).registry = .bundled from rfl,
    Registry.engine?_bundled, if_pos ht]
  simp only [Adapter.readWith_ofText]
  cases hparse : (Engine.bundled t.language).parse text t.production (.ofStrict strict) with
  | error e => rfl
  | ok n =>
      dsimp only
      rw [if_pos (accepts_of_parse hparse)]
      rfl

theorem parseSnippet_of_not_supported (ht : t.isSupported = false) (strict : Bool) :
    parseSnippet text t strict = .error (.unsupported t) := by
  rw [parseSnippet, Adapter.parseText, Adapter.parseStream,
    show (Adapter.default : Adapter Empty).registry = .bundled from rfl,
    Registry.engine?_bundled, if_neg (by rw [ht]; exact Bool.false_ne_true)]

theorem parse_boundaries (language : Language) (text : String) (production : Production) :
    Boundaries language.trivia text.toList
      ((Engine.bundled language).parse text production .strict)
      ((Engine.bundled language).parse text production .lenient) := by
  cases language with
  | java => exact SnippetGrammar.read_boundaries Java.regular
  | csharp => exact SnippetGrammar.read_boundaries CSharp.regular
  | c => exact SnippetGrammar.read_boundaries C.regular

theorem Boundaries.error_mapError {trivia : Trivia} {input : List Char}
    {strict lenient : Except SyntaxError Node} (h : Boundaries trivia input strict lenient)
    (source : Source) (t : Target) (r : Rejection) :
    lenient.mapError (·.rejection source t) = .error r ↔
      strict.mapError (·.rejection source t) = .error r ∧ r.isTrailing = false := by
  cases lenient with
  | error e =>
      obtain ⟨hstrict, he⟩ := (h.error e).1 rfl
      rw [hstrict]
      refine ⟨fun hr => ⟨hr, ?_⟩, fun hr => hr.1⟩
      cases hr
      exact he
  | ok n =>
      refine ⟨nofun, fun ⟨hr, hnot⟩ => ?_⟩
      cases strict with
      | ok m => cases hr
      | error e =>
          cases hr
          cases (h.error e).2 ⟨rfl, hnot⟩

/-- The two boundaries differ on a snippet only where something follows the root.
What is read under the strict one is read alike under the lenient one. What is not
read under the lenient one is not read under the strict one, for the same reason;
no other reason there is than what follows the root. If only the strict one fails,
it names the kind of the root that the lenient one reads, and points at the first
place behind this root where neither a blank nor a comment begins, up to the end of
the text. -/
theorem parseSnippet_boundaries (text : String) (t : Target) :
    (∀ n, parseSnippet text t true = .ok n → parseSnippet text t false = .ok n) ∧
    (∀ e, parseSnippet text t false = .error e ↔
      parseSnippet text t true = .error e ∧ e.isTrailing = false) ∧
    ∀ n e, parseSnippet text t false = .ok n → parseSnippet text t true = .error e →
      ∃ error, e = .grammar ⟨Content.defaultName, text⟩ t (.unread error) error.span ∧
        error.message = s!"unexpected content after the {n.kind}" ∧
        n.span.stop ≤ error.span.start ∧ error.span.start < error.span.stop ∧
        error.span.stop = Text.byteLength text.toList ∧
        ∃ front between rest, text.toList = front ++ between ++ rest ∧
          Text.byteLength front = n.span.stop ∧
          Text.byteLength (front ++ between) = error.span.start ∧
          t.language.trivia.isTrivia between = true ∧
          t.language.trivia.blank rest = none ∧ t.language.trivia.comment rest = none := by
  cases ht : t.isSupported with
  | false =>
      rw [parseSnippet_of_not_supported ht, parseSnippet_of_not_supported ht]
      refine ⟨fun n h => (nomatch h), fun e => ⟨fun h => ⟨h, ?_⟩, fun h => h.1⟩,
        fun n e h => (nomatch h)⟩
      cases h
      rfl
  | true =>
      have hboundaries := parse_boundaries t.language text t.production
      have hstrict : parseSnippet text t true = _ := parseSnippet_eq ht true
      have hlenient : parseSnippet text t false = _ := parseSnippet_eq ht false
      rw [show Boundary.ofStrict true = .strict from rfl] at hstrict
      rw [show Boundary.ofStrict false = .lenient from rfl] at hlenient
      rw [hstrict, hlenient]
      generalize (Engine.bundled t.language).parse text t.production .strict = strict at hboundaries
      generalize (Engine.bundled t.language).parse text t.production .lenient = lenient at hboundaries
      refine ⟨fun n h => ?_, hboundaries.error_mapError _ t, fun n e hn he => ?_⟩
      · cases strict with
        | error e => cases h
        | ok m =>
            rw [hboundaries.ok m rfl]
            exact h
      · cases lenient with
        | error e => cases hn
        | ok m =>
            cases hn
            cases strict with
            | ok m => cases he
            | error error =>
                cases he
                have hpoints := hboundaries.trailing _ error rfl rfl
                exact ⟨error, rfl, hpoints.message, hpoints.place⟩

/-- What follows the comment behind a prototype is pointed at. -/
theorem parseSnippet_boundaries_comment :
    let text := "int f(void); /* x */ y"
    let t : Target := ⟨.c, .function⟩
    let n : Node := ⟨.function, some "f", [.leaf .identifier (some "f") ⟨4, 5⟩], ⟨0, 12⟩, none⟩
    let e : Rejection := .grammar ⟨Content.defaultName, text⟩ t
      (.unread (.trailing .function 21 22)) ⟨21, 22⟩
    parseSnippet text t false = .ok n ∧ parseSnippet text t true = .error e ∧
      ∃ error, e = .grammar ⟨Content.defaultName, text⟩ t (.unread error) error.span ∧
        error.message = "unexpected content after the function" := by
  intro text t n e
  have hlenient : parseSnippet text t false = .ok n :=
    Outcome.eq_ok_of_toOption (by decide +kernel)
  have hstrict : parseSnippet text t true = .error e :=
    Outcome.eq_error_of_rejection? (by decide +kernel)
  obtain ⟨-, -, hdiffer⟩ := parseSnippet_boundaries text t
  obtain ⟨error, he, hmessage, -⟩ := hdiffer n e hlenient hstrict
  exact ⟨hlenient, hstrict, error, he, hmessage⟩

end Parsed

end FeatureTree
