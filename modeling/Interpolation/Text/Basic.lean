/-!
# Texts

Every position that this library reports counts bytes of the UTF-8 form, while all scanning goes
character by character. This file holds the passage between the two: the length of a text in
bytes, and cuts at a byte position, which exist only where a character begins or the text ends.

A text can also be cut at every occurrence of one character; `n` occurrences give `n + 1` pieces, of
which any may be empty. Joining the pieces with that character gives the text back.
-/

namespace Interpolation.Text

/-! ## Bytes -/

/-- The number of bytes of the UTF-8 form of a text. -/
def byteLength : List Char → Nat
  | [] => 0
  | c :: cs => c.utf8Size + byteLength cs

@[simp] theorem byteLength_nil : byteLength [] = 0 := rfl

@[simp] theorem byteLength_cons (c : Char) (cs : List Char) :
    byteLength (c :: cs) = c.utf8Size + byteLength cs := rfl

@[simp] theorem byteLength_append (xs ys : List Char) :
    byteLength (xs ++ ys) = byteLength xs + byteLength ys := by
  induction xs with
  | nil => simp
  | cons c cs ih => simp [ih, Nat.add_assoc]

/-- The text from byte `n` on, if a character begins there or the text ends there. -/
def dropBytes? : Nat → List Char → Option (List Char)
  | 0, cs => some cs
  | _ + 1, [] => none
  | n + 1, c :: cs => if c.utf8Size ≤ n + 1 then dropBytes? (n + 1 - c.utf8Size) cs else none

/-- The first `n` bytes of a text, if no character is cut by that. -/
def takeBytes? : Nat → List Char → Option (List Char)
  | 0, _ => some []
  | _ + 1, [] => none
  | n + 1, c :: cs =>
    if c.utf8Size ≤ n + 1 then (takeBytes? (n + 1 - c.utf8Size) cs).map (c :: ·) else none

/-- The bytes from `start` up to `stop`, if both lie on character boundaries in this order. -/
def slice? (start stop : Nat) (cs : List Char) : Option (List Char) :=
  if start ≤ stop then (dropBytes? start cs).bind (takeBytes? (stop - start)) else none

/-- Passes `n` bytes without regard to character boundaries. The answer is the text from the last
boundary passed, and how many bytes of its first character are passed as well. -/
def passBytes : Nat → List Char → List Char × Nat
  | 0, cs => (cs, 0)
  | _ + 1, [] => ([], 0)
  | n + 1, c :: cs =>
    if c.utf8Size ≤ n + 1 then passBytes (n + 1 - c.utf8Size) cs else (c :: cs, n + 1)

theorem dropBytes?_byteLength (xs ys : List Char) :
    dropBytes? (byteLength xs) (xs ++ ys) = some ys := by
  induction xs with
  | nil => simp [dropBytes?]
  | cons c cs ih =>
    have hpos : 0 < c.utf8Size := c.utf8Size_pos
    obtain ⟨m, hm⟩ : ∃ m, byteLength (c :: cs) = m + 1 := ⟨byteLength (c :: cs) - 1, by
      simp only [byteLength_cons]; omega⟩
    rw [hm, List.cons_append, dropBytes?, if_pos (by simp only [byteLength_cons] at hm; omega),
      ← hm, byteLength_cons, Nat.add_sub_cancel_left, ih]

/-- A cut exists exactly where the text falls into two parts, the first of `n` bytes. -/
theorem dropBytes?_eq_some_iff {n : Nat} {cs r : List Char} :
    dropBytes? n cs = some r ↔ ∃ p, cs = p ++ r ∧ byteLength p = n := by
  constructor
  · intro h
    fun_induction dropBytes? n cs with
    | case1 => exact ⟨[], by simp_all⟩
    | case2 => simp at h
    | case3 n c cs hle ih =>
      obtain ⟨p, hp, hl⟩ := ih h
      exact ⟨c :: p, by simp [hp], by simp only [byteLength_cons, hl]; omega⟩
    | case4 => simp at h
  · rintro ⟨p, rfl, rfl⟩
    exact dropBytes?_byteLength p r

/-! ## White space -/

/-- Whether a character counts as white space in Unicode: it has the property `White_Space`. -/
def isSpace (c : Char) : Bool :=
  let n := c.toNat
  (0x09 ≤ n && n ≤ 0x0D) || n = 0x20 || n = 0x85 || n = 0xA0 || n = 0x1680 ||
    (0x2000 ≤ n && n ≤ 0x200A) || n = 0x2028 || n = 0x2029 || n = 0x202F || n = 0x205F ||
    n = 0x3000

/-! ## Pieces -/

/-- The pieces between the occurrences of `sep`. -/
def pieces (sep : Char) : List Char → List (List Char)
  | [] => [[]]
  | c :: cs =>
    if c = sep then [] :: pieces sep cs
    else match pieces sep cs with
      | [] => [[c]]
      | p :: ps => (c :: p) :: ps

theorem pieces_ne_nil (sep : Char) (cs : List Char) : pieces sep cs ≠ [] := by
  fun_cases pieces sep cs <;> simp_all

/-- The pieces of a string between its dots. -/
def dotted (s : String) : List String := (pieces '.' s.toList).map String.ofList

/-- The pieces of a string between its dots that are not empty. -/
def segments (s : String) : List String := (dotted s).filter (· ≠ "")

end Interpolation.Text
