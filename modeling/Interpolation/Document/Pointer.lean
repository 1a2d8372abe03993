import Interpolation.Document.Basic
import Interpolation.Text.Basic

/-!
# Places in documents

A place is reached from the root by steps to elements of arrays and to fields of objects. A JSON
pointer writes the steps as text, each after a slash; a tilde and a slash in a key are written `~0`
and `~1`. Reading a pointer gives names only: whether a name is a key or the number of an element
depends on what is met on the way.
-/

namespace Interpolation

open Text

/-- One step downwards in a document. -/
inductive Step where
  | index (i : Nat)
  | key (name : String)
  deriving DecidableEq, Repr

namespace Step

/-- The name that stands for the step in a pointer. -/
def name : Step → String
  | index i => i.repr
  | key k => k

/-- The step in a path for reading. -/
def display : Step → String
  | index i => "[" ++ i.repr ++ "]"
  | key k => k

end Step

namespace Pointer

/-- The written form of a name. -/
def escape : List Char → List Char
  | [] => []
  | '~' :: cs => '~' :: '0' :: escape cs
  | '/' :: cs => '~' :: '1' :: escape cs
  | c :: cs => c :: escape cs

/-- The name of a written form. -/
def unescape : List Char → List Char
  | [] => []
  | '~' :: '0' :: cs => '~' :: unescape cs
  | '~' :: '1' :: cs => '/' :: unescape cs
  | c :: cs => c :: unescape cs

theorem unescape_escape (cs : List Char) : unescape (escape cs) = cs := by
  fun_induction escape cs <;> simp_all [unescape]

/-- The pointer to a place. -/
def ofSteps (steps : List Step) : String :=
  String.ofList (steps.flatMap fun s ↦ '/' :: escape s.name.toList)

/-- The names in a pointer. -/
def names? (pointer : String) : Option (List String) :=
  match pointer.toList with
  | [] => some []
  | '/' :: cs => some ((pieces '/' cs).map fun p ↦ String.ofList (unescape p))
  | _ => none

/-- The number of an element: decimal digits without a leading zero. -/
def index? (name : String) : Option Nat :=
  match name.toList with
  | ['0'] => some 0
  | '0' :: _ => none
  | cs => if cs.all Char.isDigit then Decimal.natOfDigits? 10 cs else none

end Pointer

namespace Document

/-- What lies one step below. -/
def child? : Step → Document → Option Document
  | .index i, array items => items[i]?
  | .key k, object fs => fs.lookup k
  | _, _ => none

/-- What lies at a place. -/
def get? : List Step → Document → Option Document
  | [], d => some d
  | s :: steps, d => (d.child? s).bind (get? steps)

/-- What is reached by following names. -/
def follow? : List String → Document → Option Document
  | [], d => some d
  | n :: ns, object fs => (fs.lookup n).bind (follow? ns)
  | n :: ns, array items => (Pointer.index? n).bind fun i ↦ items[i]?.bind (follow? ns)
  | _ :: _, _ => none

/-- What a pointer addresses. -/
def atPointer? (d : Document) (pointer : String) : Option Document :=
  (Pointer.names? pointer).bind fun ns ↦ d.follow? ns

/-- Replaces the value of the first field with the key. -/
def setField (key : String) (value : Document) :
    List (String × Document) → List (String × Document)
  | [] => []
  | (k, v) :: rest => if key = k then (k, value) :: rest else (k, v) :: setField key value rest

/-- Replaces what is reached by following names. -/
def replace? (new : Document) : List String → Document → Option Document
  | [], _ => some new
  | n :: ns, object fs => do
    let child ← fs.lookup n
    let child ← replace? new ns child
    some (object (setField n child fs))
  | n :: ns, array items => do
    let i ← Pointer.index? n
    let child ← items[i]?
    let child ← replace? new ns child
    some (array (items.set i child))
  | _ :: _, _ => none

/-- Replaces what a pointer addresses. -/
def replaceAt? (d : Document) (pointer : String) (new : Document) : Option Document :=
  (Pointer.names? pointer).bind fun ns ↦ replace? new ns d

end Document

end Interpolation
