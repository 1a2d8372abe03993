import Interpolation.Document.Basic

/-!
# Equality as data

Binary fractions have two zeros, which are equal as data although they are written differently.
`unsigned` drops the sign of every zero, so two documents are equal as data if their unsigned forms
are the same.
-/

namespace Interpolation

namespace Number

/-- The number, with the sign of a zero dropped. -/
def unsigned : Number → Number
  | integer i => integer i
  | float b => if b.isZero then float ⟨false, 0, Binary64.leastExponent⟩ else float b

@[simp] theorem isZero_unsigned (n : Number) : n.unsigned.isZero = n.isZero := by
  cases n with
  | integer i => rfl
  | float b =>
    rw [unsigned]
    split
    · rename_i h
      rw [isZero, isZero, h]
      rfl
    · rfl

end Number

namespace Document

mutual

/-- The document, with the signs of its zeros dropped. -/
def unsigned : Document → Document
  | null => null
  | bool b => bool b
  | number n => number n.unsigned
  | string s => string s
  | array items => array (unsignedItems items)
  | object fs => object (unsignedFields fs)

/-- The elements of an array, with the signs of their zeros dropped. -/
def unsignedItems : List Document → List Document
  | [] => []
  | d :: ds => unsigned d :: unsignedItems ds

/-- The fields of an object, with the signs of their zeros dropped. -/
def unsignedFields : List (String × Document) → List (String × Document)
  | [] => []
  | (k, d) :: fs => (k, unsigned d) :: unsignedFields fs

end

@[simp] theorem lookup_unsignedFields (fs : List (String × Document)) (key : String) :
    (unsignedFields fs).lookup key = (fs.lookup key).map unsigned := by
  induction fs with
  | nil => rfl
  | cons f fs ih =>
    obtain ⟨k, d⟩ := f
    rw [unsignedFields, lookup_cons_eq, lookup_cons_eq, ih]
    split <;> rfl

@[simp] theorem field?_unsigned (d : Document) (key : String) :
    d.unsigned.field? key = (d.field? key).map unsigned := by
  cases d with
  | object fs => rw [unsigned, field?_object, field?_object, lookup_unsignedFields]
  | _ => rfl

/-- Objects agree on a key: both lack it, or their values are equal as data. -/
def AgreeOn (key : String) (fs gs : List (String × Document)) : Prop :=
  (fs.lookup key).map unsigned = (gs.lookup key).map unsigned

theorem agreeOn_iff {key : String} {fs gs : List (String × Document)} :
    AgreeOn key fs gs ↔ (unsignedFields fs).lookup key = (unsignedFields gs).lookup key := by
  rw [AgreeOn, lookup_unsignedFields, lookup_unsignedFields]

end Document

end Interpolation
