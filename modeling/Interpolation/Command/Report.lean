import Interpolation.Command.Execution

/-!
# Reports

What goes to the error stream: the notices of a command that are wanted, and what the trouble is if
there is any. Control characters with which a notice could take hold of a terminal are spelled out;
trouble is told as it is.
-/

namespace Interpolation

namespace Level

/-- The name of a level in front of a notice. -/
def name : Level → String
  | error => "ERROR"
  | warn => " WARN"
  | info => " INFO"
  | debug => "DEBUG"
  | trace => "TRACE"

end Level

namespace Notice

/-- A character of a notice as it is shown. -/
def shown (c : Char) : List Char :=
  match c with
  | '\x07' => "\\x07".toList
  | '\x08' => "\\x08".toList
  | '\x0c' => "\\x0c".toList
  | '\x1b' => "\\x1b".toList
  | '\x7f' => "\\x7f".toList
  | c =>
    if '\u0080' ≤ c ∧ c ≤ '\u009f' then
      '\\' :: 'u' :: '\x7b' :: (Nat.toDigits 16 c.toNat ++ ['\x7d'])
    else [c]

/-- The text of a notice as it is shown. -/
def body (n : Notice) : String := String.ofList (n.text.toList.flatMap shown)

end Notice

/-- The lines that tell of trouble, with all that it comes from if that is wanted. -/
def Trouble.report (detailed : Bool) (t : Trouble) : String :=
  let causes := t.chain.zipIdx.map fun (m, i) ↦ "  " ++ i.repr ++ ": " ++ m ++ "\n"
  "Error: " ++ t.message ++ "\n" ++
    if detailed then "\nError chain:\n" ++ String.join causes else ""

namespace Execution

/-- What the program ends with. -/
def exitCode (x : Execution) : Nat := if x.trouble = none then 0 else 1

/-- The notices of an execution, the last of them about the trouble. -/
def notices (x : Execution) : List Notice :=
  x.output.notices ++ x.trouble.toList.map fun t ↦ ⟨.error, "Fatal error: " ++ t.message⟩

/-- What is told to someone who asks `verbosity` times to be told more. -/
def report (verbosity : Nat) (x : Execution) : String :=
  let wanted := x.notices.filter fun n ↦ n.level.rank ≤ (Level.ofVerbosity verbosity).rank
  String.join (wanted.map fun n ↦ n.level.name ++ " " ++ n.body ++ "\n") ++
    String.join (x.trouble.toList.map (Trouble.report (verbosity ≠ 0)))

end Execution

end Interpolation
