import FeatureTree.Config.OfYaml
import FeatureTree.Config.Value
import FeatureTree.FileSystem
import FeatureTree.Yaml.Printer

/-!
# Configuration files

A configuration is loaded from a YAML file. It can be unreadable or malformed,
or name a target that does not exist; of several such targets the first one is
reported.
-/

namespace FeatureTree

/-- Why a configuration could not be loaded. -/
inductive ConfigError
  /-- The file cannot be read. -/
  | unreadable (path : String) (reason : ReadError)
  /-- The text is no configuration. -/
  | malformed (path : String)
  /-- A target is named that its language does not have. -/
  | unsupportedTarget (target : Target)
  deriving DecidableEq, Repr

namespace ConfigError

/-- The sentence that reports the error. -/
def message : ConfigError → String
  | unreadable path _ => s!"cannot read config file {path}"
  | malformed path => s!"malformed config file {path}"
  | unsupportedTarget target =>
    s!"config targets {target.language} {target.production}, which {target.language} does not have"

/-- The code of the diagnostic. -/
def code : ConfigError → String
  | unreadable _ _ => "fstparse::config::io"
  | malformed _ => "fstparse::config::yaml"
  | unsupportedTarget _ => "fstparse::config::target"

/-- The advice that goes with the diagnostic. -/
def help : ConfigError → Option String
  | unreadable _ _ => none
  | malformed _ => some "expected a mapping with optional `strict` and `targets` keys"
  | unsupportedTarget _ => none

end ConfigError

namespace Config

/-- A configuration as YAML text. -/
def toYaml (c : Config) : String := Yaml.print c.toValue

/-- Loads a configuration from a file. -/
def load (files : FileSystem) (path : String) : Except ConfigError Config :=
  match files.readText path with
  | .error reason => .error (.unreadable path reason)
  | .ok text =>
    match ofYaml? text with
    | none => .error (.malformed path)
    | some c =>
      match c.unsupported? with
      | some target => .error (.unsupportedTarget target)
      | none => .ok c

end Config

end FeatureTree
