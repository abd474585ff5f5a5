import FeatureTree.CommandLine.Run
import FeatureTree.FileTree
import FeatureTree.Proofs.Adapter.Settings
import FeatureTree.Proofs.Grammar.Words
import Mathlib.Data.List.TakeWhile

/-!
# What the command `parse` comes to

The command reads one file, and what it answers is what the bundled engines make of that file:
the switches and the configuration choose the language, the strictness and the constraints of
one call (`Reading.outcome`), and the command makes no other one (`parse_adapter`). A tree is
printed whole or not at all, so there is output exactly where the exit code is 0
(`Reading.IsAnswer`, `run_parse`).

The language of a file without one on the command line is that of its extension. The last name
of a path is found by taking it apart, and the extension by going back from the end of the name;
`HasExtension` says what is found there.
-/

namespace FeatureTree.CommandLine

/-! ## Extensions -/

section Extensions

variable {path name ext : String}

/-- The name is the last one in a path. Empty names and single dots do not count, and a path
that ends in two dots has no last name. -/
def EndsIn (path name : String) : Prop :=
  name ≠ "" ∧ name ≠ "." ∧ name ≠ ".." ∧
    ∃ before after, path.splitToList (· == '/') = before ++ name :: after ∧
      ∀ part ∈ after, part = "" ∨ part = "."

/-- The last name of a path has an extension: there is a dot in it, but not in front, and the
extension is what stands behind the last one. -/
def HasExtension (path ext : String) : Prop :=
  ∃ stem, stem ≠ "" ∧ '.' ∉ ext.toList ∧ EndsIn path (stem ++ "." ++ ext)

theorem fileName?_eq_some_iff : fileName? path = some name ↔ EndsIn path name := by
  -- the last of the names that count is the first one from behind
  have hfind : ((path.splitToList (· == '/')).reverse.find? fun part => part != "" && part != ".")
      = some name ↔ (name ≠ "" ∧ name ≠ ".") ∧
        ∃ before after, path.splitToList (· == '/') = before ++ name :: after ∧
          ∀ part ∈ after, part = "" ∨ part = "." := by
    rw [List.find?_eq_some_iff_append]
    refine and_congr (by simp) ⟨?_, ?_⟩
    · rintro ⟨after, before, hparts, hafter⟩
      refine ⟨before.reverse, after.reverse, by simp [List.reverse_eq_iff.1 hparts], ?_⟩
      intro part hpart
      simpa [or_iff_not_imp_left] using hafter part (List.mem_reverse.1 hpart)
    · rintro ⟨before, after, hparts, hafter⟩
      refine ⟨after.reverse, before.reverse, by simp [hparts], ?_⟩
      intro part hpart
      simpa [or_iff_not_imp_left] using hafter part (List.mem_reverse.1 hpart)
  have hdots : fileName? path = some name ↔ ((path.splitToList (· == '/')).reverse.find?
      fun part => part != "" && part != ".") = some name ∧ name ≠ ".." := by
    rw [fileName?, List.getLast?_filter]
    split
    · next h => simp [h, eq_comm]
    · next h =>
        refine ⟨fun hname => ⟨hname, ?_⟩, And.left⟩
        rintro rfl
        exact h hname
  rw [hdots, hfind]
  constructor
  · rintro ⟨⟨⟨hempty, hdot⟩, hparts⟩, hdots⟩
    exact ⟨hempty, hdot, hdots, hparts⟩
  · rintro ⟨hempty, hdot, hdots, hparts⟩
    exact ⟨⟨⟨hempty, hdot⟩, hparts⟩, hdots⟩

/-- What stands behind the last dot of a name, if that is not its first character. -/
def behindDot? (name : String) : Option String :=
  let ending := name.toList.reverse.takeWhile (· != '.')
  if ending.length + 1 < name.length then some (String.ofList ending.reverse) else none

/-- The characters behind the last dot are found by going back to it. -/
theorem takeWhile_reverse {ending : List Char} (h : '.' ∉ ending) (front : List Char) :
    (front ++ '.' :: ending).reverse.takeWhile (· != '.') = ending.reverse := by
  rw [List.reverse_append, List.reverse_cons, List.append_assoc]
  refine Grammar.takeWhile_run ?_ ?_
  · intro c hc
    exact bne_iff_ne.2 fun heq => h (heq ▸ List.mem_reverse.1 hc)
  · rintro c ⟨⟩
    rfl

/-- The last dot of a text parts it in two. -/
theorem exists_last_dot {text : List Char} (h : '.' ∈ text) :
    ∃ front ending, text = front ++ '.' :: ending ∧ '.' ∉ ending := by
  obtain ⟨ending, front, htext, hending⟩ := List.eq_append_cons_of_mem (List.mem_reverse.2 h)
  refine ⟨front.reverse, ending.reverse, ?_, by simpa using hending⟩
  rw [← List.reverse_reverse text, htext, List.reverse_append, List.reverse_cons,
    List.append_assoc, List.singleton_append]

theorem behindDot?_ofList {front ending : List Char} (h : '.' ∉ ending) :
    behindDot? (String.ofList (front ++ '.' :: ending)) =
      if front = [] then none else some (String.ofList ending) := by
  have hlength : ending.reverse.length + 1 < (String.ofList (front ++ '.' :: ending)).length ↔
      ¬ front = [] := by
    rw [String.length_ofList, List.length_append, List.length_cons, List.length_reverse,
      ← List.length_eq_zero_iff]
    omega
  rw [behindDot?, String.toList_ofList, takeWhile_reverse h, if_congr hlength rfl rfl, ite_not,
    List.reverse_reverse]

theorem behindDot?_eq_none (h : '.' ∉ name.toList) : behindDot? name = none := by
  have hall : name.toList.reverse.takeWhile (· != '.') = name.toList.reverse :=
    List.takeWhile_eq_self_iff.2 fun c hc =>
      bne_iff_ne.2 fun heq => h (heq ▸ List.mem_reverse.1 hc)
  rw [behindDot?, hall, List.length_reverse, String.length_toList]
  exact if_neg (by omega)

theorem behindDot?_eq_some_iff :
    behindDot? name = some ext ↔
      ∃ stem, stem ≠ "" ∧ '.' ∉ ext.toList ∧ name = stem ++ "." ++ ext := by
  constructor
  · intro h
    have hdot : '.' ∈ name.toList := by
      by_contra hdot
      rw [behindDot?_eq_none hdot] at h
      cases h
    obtain ⟨front, ending, hname, hending⟩ := exists_last_dot hdot
    obtain rfl : name = String.ofList (front ++ '.' :: ending) := by
      rw [← hname, String.ofList_toList]
    rw [behindDot?_ofList hending] at h
    split at h
    · cases h
    · next hfront =>
        cases h
        exact ⟨String.ofList front, by simpa using hfront, by simpa using hending,
          String.toList_injective (by simp)⟩
  · rintro ⟨stem, hstem, hlast, rfl⟩
    have hname : stem ++ "." ++ ext = String.ofList (stem.toList ++ '.' :: ext.toList) :=
      String.toList_injective (by simp)
    rw [hname, behindDot?_ofList hlast, if_neg (by simpa using hstem), String.ofList_toList]

theorem extension?_eq_some_iff : extension? path = some ext ↔ HasExtension path ext := by
  show (fileName? path).bind behindDot? = some ext ↔ _
  rw [Option.bind_eq_some_iff]
  constructor
  · rintro ⟨name, hname, hext⟩
    obtain ⟨stem, hstem, hlast, rfl⟩ := behindDot?_eq_some_iff.1 hext
    exact ⟨stem, hstem, hlast, fileName?_eq_some_iff.1 hname⟩
  · rintro ⟨stem, hstem, hlast, hends⟩
    exact ⟨_, fileName?_eq_some_iff.2 hends, behindDot?_eq_some_iff.2 ⟨stem, hstem, hlast, rfl⟩⟩

end Extensions

theorem languageOf?_eq_some_iff {file : String} {l : Language} :
    languageOf? file = some l ↔
      ∃ ext, HasExtension file ext ∧ Language.ofExtension? ext = some l := by
  simp only [languageOf?, Option.bind_eq_some_iff, extension?_eq_some_iff]

theorem languageOf?_eq_none_iff {file : String} :
    languageOf? file = none ↔
      ∀ ext, HasExtension file ext → Language.ofExtension? ext = none := by
  simp only [languageOf?, Option.bind_eq_none_iff, extension?_eq_some_iff]

/-! ## The command -/

/-- The configuration of an invocation: the default one, unless it names a file. -/
def Invocation.configuration (files : FileSystem) (i : Invocation) : Except ConfigError Config :=
  match i.config with
  | none => .ok .default
  | some path => Config.load files path

theorem runInvocation_eq (files : FileSystem) (colours : Bool) (i : Invocation) :
    runInvocation files colours i =
      match i.configuration files with
      | .error error => .failure usageCode (.config error)
      | .ok config => runCommand files colours config i.command := by
  rw [runInvocation, Invocation.configuration]
  cases i.config <;> rfl

/-- What the command `parse` is asked to do. -/
structure Reading where
  file : String
  language : Option Language
  production : Production
  lenient : Bool
  json : Bool
  noValidate : Bool

namespace Reading

variable (files : FileSystem) (colours : Bool) (config : Config) (c : Reading) {l : Language}

/-- The command. -/
def command : Command :=
  .parse c.file c.language c.production c.lenient c.json c.noValidate

/-- The language that the file is read in: the one that is given, or else that of the
extension. -/
def ReadIn (l : Language) : Prop :=
  c.language = some l ∨
    c.language = none ∧ ∃ ext, HasExtension c.file ext ∧ Language.ofExtension? ext = some l

/-- No language is given, and the extension names none. -/
def Unknown : Prop :=
  c.language = none ∧ ∀ ext, HasExtension c.file ext → Language.ofExtension? ext = none

/-- The constraints of the call: none without validation, or else those of the configuration,
or else those of the production. -/
def constraints (target : Target) : ConstraintSet Empty :=
  if c.noValidate then .empty
  else (config.settings.configured? target).getD (.forProduction target.production)

/-- The outcome of the one call of the adapter, if the file is read in a language. -/
def outcome (l : Language) : Outcome :=
  let target : Target := ⟨l, c.production⟩
  let adapter : Adapter Empty := Adapter.default.withStrict (config.strict && !c.lenient)
  (adapter.parse files ⟨.file c.file, target⟩ (some (c.constraints config target))).outcome

/-- The result of a command is what the adapter makes of the file, printed whole or not at
all. -/
structure IsAnswer (r : Result) : Prop where
  usage : r.code = 2 ↔ c.Unknown
  success : ∀ l, c.ReadIn l → (r.code = 0 ↔ ∃ n, c.outcome files config l = .ok n)
  output : ∀ l, c.ReadIn l → ∀ n, c.outcome files config l = .ok n →
    r.output = if c.json then n.toValue.pretty ++ "\n" else n.pretty
  silent : r.code ≠ 0 → r.output = ""
  /-- What the adapter objects to is what is reported. -/
  problems : ∀ l, c.ReadIn l → ∀ rejection, c.outcome files config l = .error rejection →
    r.problems = [.rejected rejection]

theorem readIn_iff : c.ReadIn l ↔ c.language.or (languageOf? c.file) = some l := by
  rw [Option.or_eq_some_iff, languageOf?_eq_some_iff, ReadIn]

theorem unknown_iff : c.Unknown ↔ c.language.or (languageOf? c.file) = none := by
  rw [Option.or_eq_none_iff, languageOf?_eq_none_iff, Unknown]

/-- The adapter of the command. -/
def adapter : Adapter Empty :=
  if c.lenient then (Adapter.ofConfig config).withStrict false else Adapter.ofConfig config

theorem registry_adapter : (c.adapter config).registry = .bundled := by
  rw [adapter]
  split <;> exact Adapter.registry_ofSettings config.settings

theorem strict_adapter : (c.adapter config).strict = (config.strict && !c.lenient) := by
  rw [adapter]
  cases c.lenient with
  | false => exact (Adapter.strict_ofSettings config.settings).trans (Bool.and_true _).symm
  | true => exact (Bool.and_false _).symm

theorem constraintsFor_adapter (target : Target) :
    (c.adapter config).constraintsFor target =
      (config.settings.configured? target).getD (.forProduction target.production) := by
  rw [adapter]
  split <;> exact Adapter.constraintsFor_ofSettings config.settings target

/-- The switches and the configuration come to a strictness and a constraint set. -/
theorem parse_adapter (l : Language) :
    ((c.adapter config).parse files ⟨.file c.file, ⟨l, c.production⟩⟩
      (if c.noValidate then some .empty else none)).outcome = c.outcome files config l := by
  refine congrArg Attempt.outcome (Adapter.parse_congr files _ _
    (c.registry_adapter config) (c.strict_adapter config) ?_)
  rw [constraints, constraintsFor_adapter]
  split <;> rfl

theorem unknown_or_readIn : c.Unknown ∨ ∃ l, c.ReadIn l := by
  simp only [unknown_iff, readIn_iff]
  exact Option.eq_none_or_eq_some _

theorem ReadIn.not_unknown (h : c.ReadIn l) : ¬ c.Unknown := by
  rw [unknown_iff, c.readIn_iff.1 h]
  nofun

theorem runCommand_of_unknown (h : c.Unknown) :
    runCommand files colours config c.command = .failure usageCode (.unknownLanguage c.file) := by
  rw [command, runCommand, runParse, c.unknown_iff.1 h]

theorem runCommand_of_readIn (h : c.ReadIn l) :
    runCommand files colours config c.command =
      match c.outcome files config l with
      | .ok n => .success (showNode c.json n)
      | .error rejection => .failure 1 (.rejected rejection) := by
  rw [command, runCommand, runParse, c.readIn_iff.1 h, ← parse_adapter]
  rfl

theorem isAnswer_runCommand :
    c.IsAnswer files config (runCommand files colours config c.command) where
  usage := by
    obtain h | ⟨l, hl⟩ := c.unknown_or_readIn
    · rw [runCommand_of_unknown files colours config c h]
      exact ⟨fun _ => h, fun _ => rfl⟩
    · rw [runCommand_of_readIn files colours config c hl]
      refine ⟨fun hcode => ?_, fun h => absurd h hl.not_unknown⟩
      cases houtcome : c.outcome files config l <;> rw [houtcome] at hcode <;> cases hcode
  success l hl := by
    rw [runCommand_of_readIn files colours config c hl]
    cases c.outcome files config l with
    | ok n => exact ⟨fun _ => ⟨n, rfl⟩, fun _ => rfl⟩
    | error rejection => exact ⟨nofun, nofun⟩
  output l hl n hn := by
    rw [runCommand_of_readIn files colours config c hl, hn]
    rfl
  silent := by
    obtain h | ⟨l, hl⟩ := c.unknown_or_readIn
    · rw [runCommand_of_unknown files colours config c h]
      exact fun _ => rfl
    · rw [runCommand_of_readIn files colours config c hl]
      cases c.outcome files config l with
      | ok n => exact fun h => absurd rfl h
      | error rejection => exact fun _ => rfl
  problems l hl rejection hrejection := by
    rw [runCommand_of_readIn files colours config c hl, hrejection]
    rfl

end Reading

/-- A command line that asks to read a file gets the answer, if there is no configuration or
one that loads; and no command runs under a configuration that does not load. -/
theorem run_parse (files : FileSystem) (colours : Bool) (args : List String) (i : Invocation)
    (hargs : Arguments.ofList args = .run i) :
    (∀ error, i.configuration files = .error error →
      let r := run files colours args
      r.code = 2 ∧ r.output = "") ∧
    ∀ config, i.configuration files = .ok config → ∀ c : Reading, i.command = c.command →
      c.IsAnswer files config (run files colours args) := by
  rw [run, hargs]
  dsimp only
  rw [runInvocation_eq]
  refine ⟨fun error herror => ?_, fun config hconfig c hcommand => ?_⟩
  · rw [herror]
    exact ⟨rfl, rfl⟩
  · rw [hconfig, hcommand]
    exact c.isAnswer_runCommand files colours config

/-- Two fields in one file. The configuration forbids the first one, and strict reading the
second one, but the switches overrule both. A configuration that is not there ends another
command. -/
theorem run_parse_overruled :
    let yaml := "targets:\n- language: java\n  production: field\n" ++
      "  constraints:\n  - forbid-kind: variable\n"
    let files := (FileTree.directory [("A.java", .file "int x; int y;".toUTF8),
      ("c.yaml", .file yaml.toUTF8)]).system
    let args := ["--config", "c.yaml", "parse", "A.java", "-p", "field", "--lenient", "--json",
      "--no-validate"]
    let config : Config := ⟨true, [⟨⟨.java, .field⟩, [.forbidKind .variable]⟩]⟩
    let c : Reading := ⟨"A.java", none, .field, true, true, true⟩
    let i : Invocation := ⟨some "c.yaml", 0, c.command⟩
    let text := "\x7b\n  \"kind\": \"field\",\n  \"name\": \"x\",\n  \"children\": [\n    \x7b\n" ++
      "      \"kind\": \"variable\",\n      \"name\": \"x\",\n      \"span\": \x7b\n" ++
      "        \"start\": 4,\n        \"end\": 5\n      \x7d\n    \x7d\n  ],\n" ++
      "  \"span\": \x7b\n    \"start\": 0,\n    \"end\": 6\n  \x7d\n\x7d\n"
    let missing := ["--config", "d.yaml", "productions"]
    let j : Invocation := ⟨some "d.yaml", 0, .productions⟩
    (Arguments.ofList args = .run i ∧ i.configuration files = .ok config ∧
      c.IsAnswer files config (run files false args) ∧ (run files false args).code = 0 ∧
      (run files false args).output = text) ∧
    Arguments.ofList missing = .run j ∧
      j.configuration files = .error (.unreadable "d.yaml" .notFound) ∧
      (run files false missing).code = 2 ∧ (run files false missing).output = "" := by
  intro yaml files args config c i text missing j
  have hargs : Arguments.ofList args = .run i := by decide +kernel
  have hconfig : i.configuration files = .ok config := by decide +kernel
  have hresult : run files false args = .success text := by
    rw [run, hargs]
    dsimp only
    rw [runInvocation_eq, hconfig]
    decide +kernel
  have hmissing : Arguments.ofList missing = .run j := by decide +kernel
  have herror : j.configuration files = .error (.unreadable "d.yaml" .notFound) := by
    decide +kernel
  have hanswer := (run_parse files false args i hargs).2 config hconfig c rfl
  exact ⟨⟨hargs, hconfig, hanswer, congrArg Result.code hresult, congrArg Result.output hresult⟩,
    hmissing, herror, (run_parse files false missing j hmissing).1 _ herror⟩

end FeatureTree.CommandLine
