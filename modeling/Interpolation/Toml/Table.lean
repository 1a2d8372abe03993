import Interpolation.Toml.Text

/-!
# Tables of TOML

A TOML text is a table. Of its values only strings, arrays and tables are read, which is all that
settings are made of; a text with any other value is refused as a whole, as is one with an array of
tables. A table is written in one place: only a table that exists merely because of the headers of
its parts may still get a header of its own, and only dotted keys may add to a table of dotted
keys.
-/

namespace Interpolation.Toml

/-- How a table came about. -/
inductive Origin where
  /-- By the header of one of its parts. -/
  | implied
  /-- By its own header. -/
  | header
  /-- By dotted keys. -/
  | dotted
  /-- In braces. -/
  | inline
  deriving DecidableEq, Repr

/-- A value. -/
inductive Value where
  | string (s : String)
  | array (items : List Value)
  | table (origin : Origin) (fields : List (String × Value))
  deriving Repr

abbrev Fields := List (String × Value)

/-! ## Building tables -/

/-- Sets a field, in its place if it is there already. -/
def setField (key : String) (v : Value) : Fields → Fields
  | [] => [(key, v)]
  | (k, w) :: rest => if k = key then (k, v) :: rest else (k, w) :: setField key v rest

/-- Adds a value under dotted keys. -/
def addValue (v : Value) : List String → Fields → Option Fields
  | [], _ => none
  | [k], fs => if (fs.lookup k).isSome then none else some (setField k v fs)
  | k :: ks, fs =>
    match fs.lookup k with
    | none => (addValue v ks []).map fun sub ↦ setField k (.table .dotted sub) fs
    | some (.table .dotted sub) =>
      (addValue v ks sub).map fun sub ↦ setField k (.table .dotted sub) fs
    | some _ => none

/-- Opens the table of a header. -/
def addHeader : List String → Fields → Option Fields
  | [], _ => none
  | [k], fs =>
    match fs.lookup k with
    | none => some (setField k (.table .header []) fs)
    | some (.table .implied sub) => some (setField k (.table .header sub) fs)
    | some _ => none
  | k :: ks, fs =>
    match fs.lookup k with
    | none => (addHeader ks []).map fun sub ↦ setField k (.table .implied sub) fs
    | some (.table .inline _) => none
    | some (.table origin sub) => (addHeader ks sub).map fun sub ↦ setField k (.table origin sub) fs
    | some _ => none

/-- Adds a value under dotted keys to the table of a header. -/
def addUnder (v : Value) (keys : List String) : List String → Fields → Option Fields
  | [], fs => addValue v keys fs
  | k :: ks, fs =>
    match fs.lookup k with
    | some (.table origin sub) =>
      (addUnder v keys ks sub).map fun sub ↦ setField k (.table origin sub) fs
    | _ => none

/-! ## Reading values -/

/-- The text behind a comment, if one stands here. -/
def skipComment? : List Char → Option (List Char)
  | '#' :: cs =>
    let rest := cs.dropWhile isPrintable
    if rest = [] ∨ (lineEnd? rest).isSome then some rest else none
  | cs => some cs

/-- The text behind blanks, comments and line ends. -/
def skipLines? (cs : List Char) : Option (List Char) :=
  match skipComment? (cs.dropWhile isBlank) with
  | none => none
  | some rest =>
    match lineEnd? rest with
    | some next => if next.length < cs.length then skipLines? next else none
    | none => some rest
termination_by cs.length

/-- Reads items between commas up to `stop`; blanks, comments and line ends may stand around each,
and a comma behind the last. -/
def items {α : Type} (item : Reader α) (stop : Char) (cs : List Char) :
    Option (List α × List Char) :=
  match skipLines? cs with
  | none => none
  | some [] => none
  | some (c :: rest) =>
    if c = stop then some ([], rest)
    else match item (c :: rest) with
      | none => none
      | some (a, next) =>
        match skipLines? next with
        | some (d :: next) =>
          if d = stop then some ([a], next)
          else if d = ',' ∧ next.length < cs.length then
            (items item stop next).map fun (as, r) ↦ (a :: as, r)
          else none
        | _ => none
termination_by cs.length

/-- The text behind blanks. -/
def skipBlanks? (cs : List Char) : Option (List Char) := some (cs.dropWhile isBlank)

/-- Reads a value behind its key and the equals sign between them; `skip?` passes what may stand
around that sign. -/
def keyed (skip? : List Char → Option (List Char)) (value : Reader Value) :
    Reader (List String × Value) := fun cs ↦ do
  let (keys, rest) ← dottedKey cs
  match ← skip? rest with
  | '=' :: rest => do
    let (v, rest) ← value (← skip? rest)
    some ((keys, v), rest)
  | _ => none

/-- Reads a value that is nested at most so deep. Between brackets and braces, comments and line
ends may stand wherever blanks may, but not within dotted keys. -/
def value : Nat → Reader Value
  | 0, _ => none
  | n + 1, cs =>
    match cs with
    | '[' :: rest => (items (value n) ']' rest).map fun (vs, r) ↦ (.array vs, r)
    | '{' :: rest => do
      let (kvs, r) ← items (keyed skipLines? (value n)) '}' rest
      let fs ← kvs.foldlM (fun fs (keys, v) ↦ addValue v keys fs) []
      some (.table .inline fs, r)
    | _ => (string cs).map fun (s, r) ↦ (.string s, r)

/-- How deep values may be nested. -/
def maxNesting : Nat := 80

/-! ## Reading texts -/

/-- Reads a header. -/
def header : Reader (List String) := fun cs ↦ do
  let (keys, rest) ← dottedKey cs
  match rest with
  | ']' :: rest => some (keys, rest)
  | _ => none

/-- A statement: a header, or a value under keys. -/
inductive Statement where
  | header (keys : List String)
  | value (keys : List String) (v : Value)

/-- Reads a statement. -/
def statement : Reader Statement
  | '[' :: cs => (header cs).map fun (keys, r) ↦ (.header keys, r)
  | cs => (keyed skipBlanks? (value maxNesting) cs).map fun ((keys, v), r) ↦ (.value keys v, r)

/-- Reads all statements; each stands on a line of its own. -/
def statements (cs : List Char) : Option (List Statement) :=
  match skipLines? cs with
  | none => none
  | some [] => some []
  | some rest =>
    match statement rest with
    | none => none
    | some (s, next) =>
      match skipComment? (next.dropWhile isBlank) with
      | none => none
      | some [] => some [s]
      | some rest =>
        match lineEnd? rest with
        | some next => if next.length < cs.length then (statements next).map (s :: ·) else none
        | none => none
termination_by cs.length

/-- Carries out a statement in a table, below the keys of the last header. -/
def Statement.apply (at_ : List String × Fields) : Statement → Option (List String × Fields)
  | .header keys => (addHeader keys at_.2).map fun fs ↦ (keys, fs)
  | .value keys v => (addUnder v keys at_.1 at_.2).map fun fs ↦ (at_.1, fs)

/-- The table of a text. -/
def ofText? (text : List Char) : Option Fields := do
  let text := match text with
    | '\uFEFF' :: cs => cs
    | cs => cs
  let ss ← statements text
  let (_, fs) ← ss.foldlM Statement.apply ([], [])
  some fs

end Interpolation.Toml
