/-!
# Sessions

A session is what a command does: it prints, it logs, and it either ends with a result or with
trouble. What it has printed and logged before the trouble stays.
-/

namespace Interpolation

/-- Why a file cannot be read as text. -/
inductive ReadError where
  /-- The system refuses, for a reason that it has a number for. -/
  | refused (reason : String) (number : Nat)
  /-- The name holds a zero byte. -/
  | badName
  /-- The bytes of the file are no text. -/
  | undecodable
  deriving DecidableEq, Repr

namespace ReadError

/-- The wording of the error. -/
def message : ReadError → String
  | refused reason number => reason ++ " (os error " ++ number.repr ++ ")"
  | badName => "file name contained an unexpected NUL byte"
  | undecodable => "stream did not contain valid UTF-8"

/-- There is no such file. -/
def missing : ReadError := refused "No such file or directory" 2

end ReadError

/-- What reading a file gives, for every name. -/
abbrev Files := String → Except ReadError String

/-- Why something cannot be done, and what that comes from, nearest cause first. -/
structure Trouble where
  message : String
  causes : List String
  deriving DecidableEq, Repr

namespace Trouble

/-- The message and all that it comes from. -/
def chain (t : Trouble) : List String := t.message :: t.causes

/-- Trouble that comes from nothing else. -/
def plain (message : String) : Trouble := ⟨message, []⟩

/-- Trouble that comes from other trouble. -/
def within (message : String) (t : Trouble) : Trouble := ⟨message, t.chain⟩

end Trouble

/-- How much is told besides the answer, from the least on. -/
inductive Level where
  | error
  | warn
  | info
  | debug
  | trace
  deriving DecidableEq, Repr

namespace Level

/-- The place of a level among the others. -/
def rank : Level → Nat
  | error => 0
  | warn => 1
  | info => 2
  | debug => 3
  | trace => 4

/-- The level for a number of requests to tell more. -/
def ofVerbosity : Nat → Level
  | 0 => info
  | 1 => debug
  | _ => trace

end Level

/-- A message on the side. -/
structure Notice where
  level : Level
  text : String
  deriving DecidableEq, Repr

/-- What a session has given so far. -/
structure Output where
  printed : String
  notices : List Notice
  deriving DecidableEq, Repr

namespace Output

def empty : Output := ⟨"", []⟩

end Output

/-- A computation that prints, logs, and can end with trouble. -/
abbrev Session := ExceptT Trouble (StateM Output)

namespace Session

/-- Prints a text. -/
def print (text : String) : Session Unit :=
  modify fun o ↦ { o with printed := o.printed ++ text }

/-- Prints texts, each with the end of a line. -/
def printLines (texts : List String) : Session Unit :=
  print (String.join (texts.map (· ++ "\n")))

/-- Logs messages. -/
def log (level : Level) (texts : List String) : Session Unit :=
  modify fun o ↦ { o with notices := o.notices ++ texts.map (Notice.mk level) }

/-- Takes a result, or is in trouble because there is none. -/
def expect {ε α : Type} (trouble : ε → Trouble) : Except ε α → Session α
  | .ok a => pure a
  | .error e => throw (trouble e)

end Session

end Interpolation
