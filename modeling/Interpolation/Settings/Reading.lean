import Interpolation.Settings.Basic
import Interpolation.Toml.Table

/-!
# Settings from text

Settings are written in TOML. Each may be left out, and no others are known.
-/

namespace Interpolation

/-- Why a text holds no settings. -/
inductive SettingsError where
  /-- The text is no TOML, or what it says is not about these settings. -/
  | toml
  /-- An env path has an empty segment. -/
  | badPath (path : String)
  deriving DecidableEq, Repr

namespace SettingsError

/-- The wording of the error; what is wrong with a TOML text is not told. -/
def message : SettingsError → String
  | toml => "TOML error"
  | badPath p => "Configuration error: Invalid env path '" ++ p ++ "'"

end SettingsError

namespace Policy

def ofName? (s : String) : Option Policy :=
  if s = "fail" then some fail else if s = "preserve" then some preserve else none

/-- A policy is a name, or a table with the name as its only key and nothing under it. -/
def ofToml? : Toml.Value → Option Policy
  | .string s => ofName? s
  | .table _ [(k, .table _ [])] => ofName? k
  | .table _ [(k, .array [])] => ofName? k
  | _ => none

end Policy

namespace Settings

/-- Env paths are an array of strings. -/
def pathsOfToml? : Toml.Value → Option (List String)
  | .array vs => vs.mapM fun
    | .string s => some s
    | _ => none
  | _ => none

/-- The settings with one of them changed. -/
def set? (s : Settings) (field : String × Toml.Value) : Option Settings :=
  if field.1 = "env_paths" then (pathsOfToml? field.2).map fun ps ↦ { s with envPaths := ps }
  else if field.1 = "on_invalid" then (Policy.ofToml? field.2).map s.withPolicy
  else none

/-- The settings of a text. -/
def ofToml (text : String) : Except SettingsError Settings :=
  match (Toml.ofText? text.toList).bind fun fs ↦ fs.foldlM set? default with
  | none => .error .toml
  | some s =>
    match s.badPath? with
    | some p => .error (.badPath p)
    | none => .ok s

end Settings

end Interpolation
