import Interpolation.Command.Basic

/-!
# Command lines

A command line names a command and gives it arguments: one subject, and flags in any order. A flag
either stands alone or takes a value. It has a long name, which goes behind two dashes, and perhaps
a letter, which goes behind one and can be followed by further letters.
-/

namespace Interpolation

/-- What a command line calls a command. -/
inductive Verb where
  | render
  | vars
  | resolve
  | secrets
  deriving DecidableEq, Repr

/-- Why a list of arguments is no invocation. -/
inductive UsageError where
  /-- A description is asked for instead, of a command or of the whole program. -/
  | help (topic : Option Verb)
  /-- The version is asked for instead. -/
  | version
  /-- There is nothing. -/
  | noArguments
  | missingCommand
  | unknownCommand
  | missingSubject
  | unknownArgument
  /-- A flag lacks its value, or a file has an empty name. -/
  | missingValue
  /-- A flag that stands alone has a value. -/
  | unwantedValue
  | repeatedFlag
  deriving DecidableEq, Repr

namespace UsageError

/-- What the program ends with: to ask for a description or the version is no mistake. -/
def exitCode : UsageError → Nat
  | help _ => 0
  | version => 0
  | _ => 2

/-- The wording of the error. -/
def message : UsageError → String
  | help _ => "A description is asked for"
  | version => "The version is asked for"
  | noArguments => "Nothing is asked for"
  | missingCommand => "A command is missing"
  | unknownCommand => "There is no such command"
  | missingSubject => "The template or manifest is missing"
  | unknownArgument => "There is an argument that means nothing here"
  | missingValue => "A value is missing"
  | unwantedValue => "A value is given to a flag that takes none"
  | repeatedFlag => "A flag is given twice"

end UsageError

/-- A flag that stands alone. -/
inductive Switch where
  | help
  | version
  | verbose
  | lossy
  | preserve
  deriving DecidableEq, Repr

/-- What is given by a value. -/
inductive Parameter where
  /-- The template or manifest; it goes without a flag. -/
  | subject
  | context
  | settings
  | scope
  deriving DecidableEq, Repr

/-- A flag of a command line. -/
inductive Flag where
  | switch (s : Switch)
  | parameter (p : Parameter)
  deriving DecidableEq, Repr

namespace Flag

/-- The flag of a long name. -/
def ofName? (name : String) : Option Flag :=
  match name with
  | "help" => some (switch .help)
  | "version" => some (switch .version)
  | "verbose" => some (switch .verbose)
  | "lossy" => some (switch .lossy)
  | "preserve" => some (switch .preserve)
  | "context" => some (parameter .context)
  | "config" => some (parameter .settings)
  | "prefix" => some (parameter .scope)
  | _ => none

/-- The flag of a letter. -/
def ofLetter? (letter : Char) : Option Flag :=
  match letter with
  | 'h' => some (switch .help)
  | 'V' => some (switch .version)
  | 'v' => some (switch .verbose)
  | 'c' => some (parameter .context)
  | 'p' => some (parameter .scope)
  | _ => none

/-- The flags that can stand in front of every command. -/
def general : List Flag := [switch .verbose, switch .help, switch .version]

end Flag

namespace Verb

def ofName? (name : String) : Option Verb :=
  match name with
  | "render" => some render
  | "vars" => some vars
  | "resolve" => some resolve
  | "secrets" => some secrets
  | _ => none

/-- The flags that can stand behind a command. -/
def flags : Verb → List Flag
  | render => [.parameter .context, .switch .verbose, .switch .lossy, .switch .help]
  | vars => [.parameter .scope, .switch .verbose, .switch .help]
  | resolve =>
    [.parameter .context, .switch .verbose, .parameter .settings, .switch .preserve, .switch .help]
  | secrets => [.parameter .scope, .switch .verbose, .parameter .settings, .switch .help]

/-- Whether a parameter of the command is a file name, which cannot be empty. -/
def isFile (v : Verb) (p : Parameter) : Bool :=
  match p with
  | .context => true
  | .settings => true
  | .scope => false
  | .subject => v = resolve || v = secrets

/-- Whether a word is a command or asks for a description. -/
def isTopic (name : String) : Bool := name = "help" || (ofName? name).isSome

end Verb

end Interpolation
