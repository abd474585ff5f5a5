import FeatureTree.Target

/-!
# Arguments of the command line

A command line names a command, with options before and after the name. An
option can be written as a long name or as a letter after a dash; letters can
be put together. A value follows its option as the next argument, after an equals
sign, or right after the letter, and as the next argument it must not look like
an option itself. Two dashes end the options.

The arguments are cut into pieces first, by what options there are, and then
read from left to right. A command line that breaks a rule is refused as a
whole.
-/

namespace FeatureTree.CommandLine

/-- The options. -/
inductive Opt
  | config | verbose | version | help
  | language | production | lenient | json | noValidate
  deriving DecidableEq, Repr

namespace Opt

/-- The long name. -/
def long : Opt → String
  | .config => "config"
  | .verbose => "verbose"
  | .version => "version"
  | .help => "help"
  | .language => "language"
  | .production => "production"
  | .lenient => "lenient"
  | .json => "json"
  | .noValidate => "no-validate"

/-- The letter. -/
def letter? : Opt → Option Char
  | .verbose => some 'v'
  | .version => some 'V'
  | .help => some 'h'
  | .language => some 'l'
  | .production => some 'p'
  | _ => none

/-- The option has a value. -/
def takesValue : Opt → Bool
  | .config | .language | .production => true
  | _ => false

/-- The option is answered at once, whatever follows. -/
def isImmediate : Opt → Bool
  | .version | .help => true
  | _ => false

end Opt

/-- The names of the commands. -/
inductive Verb
  | parse | query | batch | productions
  deriving DecidableEq, Repr

namespace Verb

/-- The command with a name. -/
def ofName? : String → Option Verb
  | "parse" => some .parse
  | "query" => some .query
  | "batch" => some .batch
  | "productions" => some .productions
  | _ => none

/-- The options that can follow the name of the command. -/
def options : Verb → List Opt
  | .parse => [.config, .verbose, .help, .language, .production, .lenient, .json, .noValidate]
  | .query => [.config, .verbose, .help, .json]
  | .batch => [.config, .verbose, .help, .production]
  | .productions => [.config, .verbose, .help]

/-- The number of operands that the command can have. -/
def operandLimit : Verb → Nat
  | .parse | .query | .batch => 1
  | .productions => 0

/-- The operands of the command are paths, which are never empty. -/
def takesPaths : Verb → Bool
  | .parse | .batch => true
  | .query | .productions => false

/-- The command can have an operand after those that it already has. -/
def allows (verb : Verb) (earlier : List String) (operand : String) : Bool :=
  earlier.length < verb.operandLimit && !(verb.takesPaths && operand.isEmpty)

end Verb

/-- The options that can stand in front of the name of the command. -/
def leadingOptions : List Opt := [.config, .verbose, .version, .help]

/-- A piece of a command line: an option with its value, which is empty for one
that has none, or an operand. -/
inductive Piece
  | option (opt : Opt) (value : String)
  | operand (text : String)
  deriving DecidableEq, Repr

/-- The options in one argument, where the last one may still lack its value. -/
structure Cluster where
  pieces : List Piece
  pending : Option Opt

/-- The options that a row of letters stands for. -/
def letters (options : List Opt) : List Char → Option Cluster
  | [] => some ⟨[], none⟩
  | c :: rest =>
    match options.find? (·.letter? == some c) with
    | none => none
    | some opt =>
      if opt.isImmediate then some ⟨[.option opt ""], none⟩
      else if opt.takesValue then
        match rest with
        | [] => some ⟨[], some opt⟩
        | '=' :: value => some ⟨[.option opt (String.ofList value)], none⟩
        | value => some ⟨[.option opt (String.ofList value)], none⟩
      else (letters options rest).map fun c => { c with pieces := .option opt "" :: c.pieces }

/-- The option that a long name stands for, perhaps with a value after an equals
sign. -/
def longName (options : List Opt) (text : List Char) : Option Cluster :=
  let name := String.ofList (text.takeWhile (· != '='))
  match options.find? (·.long == name), text.dropWhile (· != '=') with
  | none, _ => none
  | some opt, [] =>
    if opt.takesValue then some ⟨[], some opt⟩ else some ⟨[.option opt ""], none⟩
  | some opt, _ :: value =>
    if opt.takesValue then some ⟨[.option opt (String.ofList value)], none⟩ else none

/-- The argument looks like an option. -/
def isOption (arg : String) : Bool := arg.startsWith "-" && arg != "-"

/-- The options in an argument that looks like one. -/
def cluster (options : List Opt) (arg : String) : Option Cluster :=
  match arg.toList with
  | '-' :: '-' :: name => longName options name
  | '-' :: row => letters options row
  | _ => none

/-- An option among the pieces is answered at once. -/
def hasImmediate (pieces : List Piece) : Bool :=
  pieces.any fun
    | .option opt _ => opt.isImmediate
    | .operand _ => false

/-- Cuts the arguments of a command into pieces. An immediate option makes the
rest count for nothing. -/
def cut (options : List Opt) : List String → Option (List Piece)
  | [] => some []
  | arg :: rest =>
    if arg == "--" then some (rest.map .operand)
    else if isOption arg then
      match cluster options arg, rest with
      | none, _ => none
      | some ⟨pieces, none⟩, rest =>
        if hasImmediate pieces then some pieces
        else (cut options rest).map (pieces ++ ·)
      | some ⟨_, some _⟩, [] => none
      | some ⟨pieces, some opt⟩, value :: rest =>
        if isOption value then none
        else (cut options rest).map (pieces ++ .option opt value :: ·)
    else (cut options rest).map (.operand arg :: ·)

/-- Cuts off the pieces in front of the name of the command. Answers with them,
and with the rest from the name on. -/
def cutLeading : List String → Option (List Piece × List String)
  | [] => some ([], [])
  | arg :: rest =>
    if arg == "--" then some ([], [])
    else if isOption arg then
      match cluster leadingOptions arg, rest with
      | none, _ => none
      | some ⟨pieces, none⟩, rest =>
        if hasImmediate pieces then some (pieces, [])
        else (cutLeading rest).map fun (more, rest) => (pieces ++ more, rest)
      | some ⟨_, some _⟩, [] => none
      | some ⟨pieces, some opt⟩, value :: rest =>
        if isOption value then none
        else (cutLeading rest).map fun (more, rest) => (pieces ++ .option opt value :: more, rest)
    else some ([], arg :: rest)

/-- What the pieces of a command line say. -/
structure Settings where
  config : Option String
  verbosity : Nat
  language : Option Language
  production : Option Production
  lenient : Bool
  json : Bool
  noValidate : Bool
  operands : List String
  /-- The option that is answered at once. -/
  immediate : Option Opt

namespace Settings

/-- Nothing said yet. -/
def none : Settings := ⟨.none, 0, .none, .none, false, false, false, [], .none⟩

/-- Reads one more piece, where operands are those of a command. Only `verbose`
may be repeated. -/
def add (verb : Option Verb) (s : Settings) : Piece → Option Settings
  | .operand text =>
    if verb.any (·.allows s.operands text) then some { s with operands := s.operands ++ [text] }
    else .none
  | .option .verbose _ => some { s with verbosity := s.verbosity + 1 }
  | .option .version _ => some { s with immediate := some .version }
  | .option .help _ => some { s with immediate := some .help }
  | .option .config value =>
    if s.config.isSome || value.isEmpty then .none else some { s with config := some value }
  | .option .language value =>
    if s.language.isSome then .none
    else (Language.ofNameIgnoringCase? value).map fun l => { s with language := some l }
  | .option .production value =>
    if s.production.isSome then .none
    else (Production.ofName? value).map fun p => { s with production := some p }
  | .option .lenient _ => if s.lenient then .none else some { s with lenient := true }
  | .option .json _ => if s.json then .none else some { s with json := true }
  | .option .noValidate _ => if s.noValidate then .none else some { s with noValidate := true }

/-- Reads all pieces. -/
def ofPieces (verb : Option Verb) (pieces : List Piece) : Option Settings :=
  pieces.foldlM (add verb) none

end Settings

/-- A command with its parameters. -/
inductive Command
  /-- Read one file and show its tree. -/
  | parse (file : String) (language : Option Language) (production : Production)
      (lenient json noValidate : Bool)
  /-- Read an expression and show its plan. -/
  | query (expression : String) (json : Bool)
  /-- Read every snippet below a directory. -/
  | batch (directory : String) (production : Option Production)
  /-- Show the targets that there are. -/
  | productions
  deriving DecidableEq, Repr

/-- A command to run, and the options that all commands have. -/
structure Invocation where
  config : Option String
  verbosity : Nat
  command : Command
  deriving DecidableEq, Repr

/-- What a command line asks for. -/
inductive Arguments
  | run (invocation : Invocation)
  | version
  | help
  /-- The command line breaks a rule. -/
  | refused
  deriving DecidableEq, Repr

/-- The command that settings describe, if nothing is missing. -/
def commandOf? (verb : Verb) (s : Settings) : Option Command :=
  match verb, s.operands with
  | .parse, file :: _ =>
    s.production.map fun p => .parse file s.language p s.lenient s.json s.noValidate
  | .query, expression :: _ => some (.query expression s.json)
  | .batch, [] => some (.batch "." s.production)
  | .batch, directory :: _ => some (.batch directory s.production)
  | .productions, _ => some .productions
  | .parse, [] | .query, [] => none

/-- The answer to an immediate option. -/
def Arguments.ofImmediate : Opt → Arguments
  | .version => .version
  | _ => .help

/-- Reads the arguments after the name of a command, given the settings in
front of it. A value after the name wins over one in front. -/
def Arguments.ofCommand (leading : Settings) (verb : Verb) (args : List String) : Arguments :=
  match (cut verb.options args).bind (Settings.ofPieces (some verb)) with
  | none => .refused
  | some s =>
    match s.immediate with
    | some opt => ofImmediate opt
    | none =>
      match commandOf? verb s with
      | none => .refused
      | some command =>
        .run ⟨s.config.or leading.config, leading.verbosity + s.verbosity, command⟩

/-- Help can be had on the program, and on one of its commands. -/
def isHelpTopic : List String → Bool
  | [] => true
  | [name] => name == "help" || (Verb.ofName? name).isSome
  | _ => false

/-- Reads a command line. -/
def Arguments.ofList (args : List String) : Arguments :=
  match cutLeading args with
  | none => .refused
  | some (pieces, rest) =>
    match Settings.ofPieces none pieces with
    | none => .refused
    | some leading =>
      match leading.immediate, rest with
      | some opt, _ => ofImmediate opt
      | none, [] => .refused
      | none, name :: args =>
        match Verb.ofName? name with
        | some verb => ofCommand leading verb args
        | none => if name == "help" && isHelpTopic args then .help else .refused

end FeatureTree.CommandLine
