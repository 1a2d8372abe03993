import Interpolation.Decimal.Binary64

/-!
# Documents

The data that expressions are evaluated against and that manifests consist of. Numbers are kept
exactly: an integer is never taken for a binary fraction, nor the other way round.

The fields of an object are a list with strictly increasing keys. `ofFields` brings any list of
fields into this form; `WellFormed` says that a document has it everywhere.
-/

namespace Interpolation

/-- A number of a document. -/
inductive Number where
  | integer (i : Int)
  | float (b : Binary64)
  deriving DecidableEq, Repr

namespace Number

def isZero : Number → Bool
  | integer i => i = 0
  | float b => b.isZero

end Number

/-- A tree of data. -/
inductive Document where
  | null
  | bool (b : Bool)
  | number (n : Number)
  | string (s : String)
  | array (items : List Document)
  | object (fields : List (String × Document))
  deriving Repr, Inhabited

namespace Document

/-- The fields of an object; nothing else has any. -/
def fields : Document → List (String × Document)
  | object fs => fs
  | _ => []

/-- The value of an object's field. -/
def field? (d : Document) (key : String) : Option Document := d.fields.lookup key

/-- Adds a field at its place in the order of keys; a field of the same key is replaced. -/
def insertField (key : String) (value : Document) :
    List (String × Document) → List (String × Document)
  | [] => [(key, value)]
  | (k, v) :: rest =>
    if key < k then (key, value) :: (k, v) :: rest
    else if key = k then (key, value) :: rest
    else (k, v) :: insertField key value rest

/-- The object of some fields in any order; of two fields with one key the later counts. -/
def ofFields (fs : List (String × Document)) : Document :=
  object (fs.foldl (fun acc f ↦ insertField f.1 f.2 acc) [])

/-- The document without any content. -/
def empty : Document := object []

/-- In every object of the document, the keys strictly increase. -/
inductive WellFormed : Document → Prop where
  | null : WellFormed null
  | bool (b : Bool) : WellFormed (bool b)
  | number (n : Number) : WellFormed (number n)
  | string (s : String) : WellFormed (string s)
  | array {items : List Document} (h : ∀ d ∈ items, WellFormed d) : WellFormed (array items)
  | object {fs : List (String × Document)} (hk : (fs.map Prod.fst).Pairwise (· < ·))
      (h : ∀ f ∈ fs, WellFormed f.2) : WellFormed (object fs)

@[simp] theorem field?_object (fs : List (String × Document)) (key : String) :
    (object fs).field? key = fs.lookup key := rfl

theorem lookup_cons_eq (k key : String) (value : Document) (fs : List (String × Document)) :
    ((key, value) :: fs).lookup k = if k = key then some value else fs.lookup k := by
  by_cases h : k = key
  · simp [h]
  · have : (k == key) = false := by simp [h]
    simp [List.lookup_cons, this, h]

/-- After an insertion the key has the new value, and every other key what it had. -/
theorem lookup_insertField (key k : String) (value : Document) (fs : List (String × Document)) :
    (insertField key value fs).lookup k = if k = key then some value else fs.lookup k := by
  induction fs with
  | nil => simp [insertField, lookup_cons_eq]
  | cons f rest ih =>
    obtain ⟨k', v⟩ := f
    rw [insertField]
    split
    · rw [lookup_cons_eq]
    · split
      · rename_i h
        subst h
        grind [lookup_cons_eq]
      · grind [lookup_cons_eq]

end Document

end Interpolation
