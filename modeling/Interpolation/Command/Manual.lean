import Interpolation.Command.Usage

/-!
# The manual

What is told to someone who asks for a description of the program or of one of its commands, or for
the version. A description names all that a command line can hold, each thing with a few words; the
flags are in the order in which `Flag.general` and `Verb.flags` have them.
-/

namespace Interpolation

namespace Verb

/-- All commands. -/
def all : List Verb := [render, vars, resolve, secrets]

/-- The name of a command. -/
def name : Verb → String
  | render => "render"
  | vars => "vars"
  | resolve => "resolve"
  | secrets => "secrets"

/-- What a command does. -/
def summary : Verb → String
  | render => "Substitute the expressions of a template string"
  | vars => "List the variables a template reads"
  | resolve => "Resolve the env sections of a manifest and print it as YAML"
  | secrets => "List the secrets referenced by a manifest's env sections"

/-- What a command is about: how it is called, and what it is. -/
def subject : Verb → String × String
  | render =>
    ("<TEMPLATE>", "Template text, e.g. \"postgres://$\x7b\x7b secrets.DB_USER \x7d\x7d@host\"")
  | vars => ("<TEMPLATE>", "Template text")
  | resolve => ("<MANIFEST>", "Manifest file (YAML or JSON)")
  | secrets => ("<MANIFEST>", "Manifest file (YAML or JSON)")

/-- What the dotted prefix of a command is for. -/
def scopeSummary : Verb → String
  | vars => "Only report names read under this dotted prefix, e.g. \"secrets\""
  | _ => "Dotted prefix the variables are read under [default: secrets]"

end Verb

namespace Switch

/-- A switch: how it is written, and what it does. -/
def row : Switch → String × String
  | help => ("-h, --help", "Print help")
  | version => ("-V, --version", "Print version")
  | verbose => ("-v, --verbose...", "Enable verbose output (-v for debug, -vv for trace)")
  | lossy => ("    --lossy", "Keep failing spans as written instead of failing")
  | preserve => ("    --preserve", "Keep the raw text of values that fail to resolve")

end Switch

namespace Verb

/-- A parameter of a command: how it is written, and what it is for. -/
def parameterRow (v : Verb) : Parameter → String × String
  | .subject => v.subject
  | .context => ("-c, --context <FILE>", "YAML or JSON file providing the evaluation context")
  | .settings => ("    --config <FILE>", "Resolver configuration (TOML)")
  | .scope => ("-p, --prefix <PREFIX>", v.scopeSummary)

/-- A flag of a command: how it is written, and what it is for. -/
def flagRow (v : Verb) : Flag → String × String
  | .switch s => s.row
  | .parameter p => v.parameterRow p

end Verb

namespace Manual

/-- The name of the program. -/
def program : String := "manifest-expr"

/-- The version of the program. -/
def version : String := program ++ " 0.1.0\n"

/-- What the program does. -/
def summary : String :=
  program ++ " - Evaluate $\x7b\x7b \x7d\x7d expressions in templates and manifests"

/-- Rows under a heading; their second parts begin in one column. -/
def table (heading : String) (rows : List (String × String)) : List String :=
  let width := (rows.map (·.1.length)).foldl max 0
  let line := fun (row : String × String) ↦
    "  " ++ row.1 ++ String.ofList (List.replicate (width + 2 - row.1.length) ' ') ++ row.2
  ["", heading ++ ":"] ++ rows.map line

/-- The description of the program. -/
def general : List String :=
  [summary, "", "Usage: " ++ program ++ " [OPTIONS] <COMMAND>"] ++
    table "Commands" (Verb.all.map (fun v ↦ (v.name, v.summary)) ++
      [("help", "Print this message or the help of the given subcommand(s)")]) ++
    table "Options" (Flag.general.filterMap fun
      | .switch s => some s.row
      | .parameter _ => none)

/-- The description of a command. -/
def specific (v : Verb) : List String :=
  [v.summary, "", "Usage: " ++ program ++ " " ++ v.name ++ " [OPTIONS] " ++ v.subject.1] ++
    table "Arguments" [v.subject] ++ table "Options" (v.flags.map v.flagRow)

/-- The description of a command, or of the whole program. -/
def description (topic : Option Verb) : String :=
  String.join (((topic.map specific).getD general).map (· ++ "\n"))

end Manual

namespace UsageError

/-- What is printed where something else is asked for than a command. -/
def answer : UsageError → String
  | help topic => Manual.description topic
  | version => Manual.version
  | _ => ""

/-- What is told about a mistake. -/
def complaint (e : UsageError) : String :=
  if e.exitCode = 0 then "" else "error: " ++ e.message ++ "\n\n" ++ Manual.description none

end UsageError

end Interpolation
