import Interpolation.Command.Usage

/-!
# Reading command lines

Arguments are read from left to right, and the first mistake that shows is the one that counts. A
value in an argument of its own is only looked at when the next flag or subject comes, or the end:
a mistake in it shows later than one in the very next argument can.

Two dashes alone mean that no flags follow. Requests to tell more are counted in front of the
command and behind it; where there are some behind it, those in front do not count.
-/

namespace Interpolation

/-- What has been read behind a command. -/
structure Reading where
  /-- Whether there can be no more flags. -/
  closed : Bool
  /-- The parameter that came last, with its value once that has come too. -/
  pending : Option (Parameter × Option String)
  values : List (Parameter × String)
  switches : List Switch
  verbosity : Nat
  deriving Repr

namespace Reading

/-- Nothing read yet. -/
def start : Reading := ⟨false, none, [], [], 0⟩

/-- The value of a parameter. -/
def value? (r : Reading) (p : Parameter) : Option String := r.values.lookup p

/-- Whether the subject has come. -/
def hasSubject (r : Reading) : Bool :=
  (r.value? .subject).isSome || r.pending.any fun q ↦ q.1 = .subject

/-- Takes over a value, unless something is wrong with it. -/
def assign (r : Reading) (v : Verb) (p : Parameter) (s : String) : Except UsageError Reading :=
  if (r.value? p).isSome then .error .repeatedFlag
  else if v.isFile p ∧ s = "" then .error .missingValue
  else .ok { r with values := (p, s) :: r.values }

/-- Takes over what is pending. -/
def settle (r : Reading) (v : Verb) : Except UsageError Reading :=
  match r.pending with
  | none => .ok r
  | some (_, none) => .error .missingValue
  | some (p, some s) => { r with pending := none }.assign v p s

/-- The greatest number of requests to tell more. -/
def maxVerbosity : Nat := 255

/-- Reads a flag that stands alone. -/
def turn (r : Reading) (v : Verb) (s : Switch) : Except UsageError Reading := do
  let r ← r.settle v
  match s with
  | .help => .error (.help (some v))
  | .version => .error .version
  | .verbose => .ok { r with verbosity := min (r.verbosity + 1) maxVerbosity }
  | s => if s ∈ r.switches then .error .repeatedFlag else .ok { r with switches := s :: r.switches }

/-- Reads a flag that takes a value, and the value if it is in the same argument. -/
def give (r : Reading) (v : Verb) (p : Parameter) (s : Option String) :
    Except UsageError Reading := do
  let r ← r.settle v
  match s with
  | none => .ok { r with pending := some (p, none) }
  | some s => r.assign v p s

/-- Reads what stands behind two dashes: a name, perhaps with an equals sign and a value. -/
def named (r : Reading) (v : Verb) (cs : List Char) : Except UsageError Reading :=
  let name := String.ofList (cs.takeWhile (· ≠ '='))
  let value := match cs.dropWhile (· ≠ '=') with
    | [] => none
    | _ :: s => some (String.ofList s)
  match (Flag.ofName? name).filter (· ∈ v.flags) with
  | none => .error .unknownArgument
  | some (.switch s) => if value = none then r.turn v s else .error .unwantedValue
  | some (.parameter p) => r.give v p value

/-- Reads what stands behind one dash: letters, and perhaps the value of the last one. -/
def letters (r : Reading) (v : Verb) : List Char → Except UsageError Reading
  | [] => .ok r
  | c :: cs =>
    match (Flag.ofLetter? c).filter (· ∈ v.flags) with
    | none => .error .unknownArgument
    | some (.switch s) =>
      match r.turn v s with
      | .error e => .error e
      | .ok r => r.letters v cs
    | some (.parameter p) =>
      match cs with
      | [] => r.give v p none
      | '=' :: cs => r.give v p (some (String.ofList cs))
      | cs => r.give v p (some (String.ofList cs))

/-- Reads the subject. -/
def subject (r : Reading) (v : Verb) (arg : String) : Except UsageError Reading := do
  if r.hasSubject then .error .unknownArgument
  else
    let r ← r.settle v
    .ok { r with pending := some (.subject, some arg) }

/-- Reads an argument. -/
def argument (v : Verb) (r : Reading) (arg : String) : Except UsageError Reading :=
  if r.closed then r.subject v arg
  else match arg.toList with
    | ['-', '-'] => .ok { r with closed := true }
    | '-' :: '-' :: cs => r.named v cs
    | '-' :: c :: cs => r.letters v (c :: cs)
    | _ =>
      match r.pending with
      | some (p, none) => .ok { r with pending := some (p, some arg) }
      | _ => r.subject v arg

/-- The command that has been read. -/
def command (r : Reading) (v : Verb) : Except UsageError Command :=
  match r.value? .subject with
  | none => .error .missingSubject
  | some s =>
    .ok <| match v with
      | .render => .render s (r.value? .context) (.lossy ∈ r.switches)
      | .vars => .vars s (r.value? .scope)
      | .resolve => .resolve s (r.value? .context) (r.value? .settings) (.preserve ∈ r.switches)
      | .secrets => .secrets s ((r.value? .scope).getD "secrets") (r.value? .settings)

end Reading

namespace Invocation

/-- Reads what is behind a command. -/
def behind (verbosity : Nat) (v : Verb) (args : List String) : Except UsageError Invocation := do
  let r ← args.foldlM (Reading.argument v) .start
  let r ← r.settle v
  let c ← r.command v
  .ok ⟨c, if r.verbosity = 0 then verbosity else r.verbosity⟩

/-- Reads a flag in front of the command. -/
def turn (verbosity : Nat) : Switch → Except UsageError Nat
  | .help => .error (.help none)
  | .version => .error .version
  | .verbose => .ok (min (verbosity + 1) Reading.maxVerbosity)
  | _ => .error .unknownArgument

/-- Reads a letter in front of the command. -/
def letter (verbosity : Nat) (c : Char) : Except UsageError Nat :=
  match (Flag.ofLetter? c).filter (· ∈ Flag.general) with
  | some (.switch s) => turn verbosity s
  | _ => .error .unknownArgument

/-- Reads what stands behind two dashes in front of the command. -/
def named (verbosity : Nat) (cs : List Char) : Except UsageError Nat :=
  match (Flag.ofName? (String.ofList (cs.takeWhile (· ≠ '=')))).filter (· ∈ Flag.general) with
  | some (.switch s) => if '=' ∈ cs then .error .unwantedValue else turn verbosity s
  | _ => .error .unknownArgument

/-- What is wrong when the arguments end without a command. -/
def ended (verbosity : Nat) : UsageError :=
  if verbosity = 0 then .noArguments else .missingCommand

/-- What is wrong with arguments that follow two dashes alone in the place of a command. -/
def closed (verbosity : Nat) : List String → UsageError
  | [] => ended verbosity
  | arg :: _ => if Verb.isTopic arg then .unknownArgument else .unknownCommand

/-- The answer to a request for the description of a command. -/
def topic : List String → UsageError
  | [] => .help none
  | [arg] => if Verb.isTopic arg then .help (Verb.ofName? arg) else .unknownCommand
  | _ => .unknownCommand

/-- Reads arguments from in front of the command on. -/
def read (verbosity : Nat) : List String → Except UsageError Invocation
  | [] => .error (ended verbosity)
  | arg :: args =>
    match Verb.ofName? arg with
    | some v => behind verbosity v args
    | none =>
      if arg = "help" then .error (topic args)
      else match arg.toList with
        | ['-', '-'] => .error (closed verbosity args)
        | '-' :: '-' :: cs => do read (← named verbosity cs) args
        | '-' :: c :: cs => do read (← (c :: cs).foldlM letter verbosity) args
        | _ => .error .unknownCommand

/-- The invocation that a list of arguments stands for. -/
def ofArguments (args : List String) : Except UsageError Invocation := read 0 args

end Invocation

end Interpolation
