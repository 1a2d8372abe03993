import Interpolation.Text.Basic

/-!
# The bytes of a text

The UTF-8 form of an ASCII character is one byte, its code point; all bytes of any other character
are 128 or more. So whoever looks for ASCII characters may look at the bytes one by one: none of
them is inside of another character, and the place where such a search stops is the beginning of a
character.

Parts of a text by byte positions exist between any two such places.
-/

namespace Interpolation.Text

variable {c : Char} {cs : List Char} {p : Char → Bool}

/-! ## Parts -/

theorem byteLength_pos (h : cs ≠ []) : 0 < byteLength cs := by
  obtain ⟨c, cs, rfl⟩ := List.exists_cons_of_ne_nil h
  have := c.utf8Size_pos
  rw [byteLength_cons]
  omega

/-- The length of a text is not zero if there is a character, and covers it. -/
theorem exists_byteLength_cons (c : Char) (cs : List Char) : ∃ m, byteLength (c :: cs) = m + 1 ∧
    c.utf8Size ≤ m + 1 ∧ m + 1 - c.utf8Size = byteLength cs := by
  have hpos : 0 < c.utf8Size := c.utf8Size_pos
  refine ⟨c.utf8Size + byteLength cs - 1, ?_⟩
  rw [byteLength_cons]
  omega

theorem takeBytes?_byteLength (xs ys : List Char) :
    takeBytes? (byteLength xs) (xs ++ ys) = some xs := by
  induction xs with
  | nil => rw [byteLength, takeBytes?]
  | cons c cs ih =>
    obtain ⟨m, hm, hle, hsub⟩ := exists_byteLength_cons c cs
    rw [hm, List.cons_append, takeBytes?, if_pos hle, hsub, ih, Option.map_some]

theorem passBytes_byteLength (xs ys : List Char) :
    passBytes (byteLength xs) (xs ++ ys) = (ys, 0) := by
  induction xs with
  | nil => rw [byteLength, List.nil_append, passBytes]
  | cons c cs ih =>
    obtain ⟨m, hm, hle, hsub⟩ := exists_byteLength_cons c cs
    rw [hm, List.cons_append, passBytes, if_pos hle, hsub, ih]

theorem slice?_append (xs ys zs : List Char) :
    slice? (byteLength xs) (byteLength xs + byteLength ys) (xs ++ (ys ++ zs)) = some ys := by
  rw [slice?, if_pos (Nat.le_add_right _ _), dropBytes?_byteLength, Option.bind_some,
    Nat.add_sub_cancel_left, takeBytes?_byteLength]

/-! ## Bytes -/

/-- The UTF-8 form of a text. -/
def utf8 (cs : List Char) : List UInt8 := cs.flatMap String.utf8EncodeChar

@[simp] theorem utf8_nil : utf8 [] = [] := rfl

@[simp] theorem utf8_cons (c : Char) (cs : List Char) :
    utf8 (c :: cs) = String.utf8EncodeChar c ++ utf8 cs := List.flatMap_cons

@[simp] theorem utf8_append (xs ys : List Char) : utf8 (xs ++ ys) = utf8 xs ++ utf8 ys :=
  List.flatMap_append

@[simp] theorem length_utf8 (cs : List Char) : (utf8 cs).length = byteLength cs := by
  induction cs with
  | nil => rfl
  | cons c cs ih => rw [utf8_cons, List.length_append, String.length_utf8EncodeChar, ih,
      byteLength_cons]

theorem drop_utf8_append (xs ys : List Char) :
    (utf8 (xs ++ ys)).drop (byteLength xs) = utf8 ys := by
  rw [utf8_append, ← length_utf8, List.drop_left]

/-! ## Looking for ASCII characters -/

/-- A test that ASCII characters only can pass. -/
def Ascii (p : Char → Bool) : Prop := ∀ c, p c → c.toNat < 128

/-- The test of a byte as the code point of a character. -/
def onByte (p : Char → Bool) (b : UInt8) : Bool := p (Char.ofUInt8 b)

theorem toNat_ofUInt8 (b : UInt8) : (Char.ofUInt8 b).toNat = b.toNat := UInt8.toNat_toUInt32 b

theorem ofUInt8_toUInt8 (h : c.toNat < 128) : Char.ofUInt8 c.toUInt8 = c := by
  have hval : c.val.toNat < 256 := Nat.lt_trans h (by decide)
  refine Char.ext (UInt32.toNat_inj.mp ?_)
  calc c.toUInt8.toUInt32.toNat = c.val.toUInt8.toNat := UInt8.toNat_toUInt32 _
    _ = c.val.toNat % 256 := UInt32.toNat_toUInt8 _
    _ = c.val.toNat := Nat.mod_eq_of_lt hval

theorem utf8Size_of_lt (h : c.toNat < 128) : c.utf8Size = 1 :=
  Char.utf8Size_eq_one_iff.mpr (UInt32.le_iff_toNat_le.mpr (Nat.le_of_lt_succ h))

theorem utf8EncodeChar_of_lt (h : c.toNat < 128) : String.utf8EncodeChar c = [c.toUInt8] :=
  String.utf8EncodeChar_eq_singleton (utf8Size_of_lt h)

theorem le_of_mem_utf8EncodeChar (h : 128 ≤ c.toNat) {b : UInt8}
    (hb : b ∈ String.utf8EncodeChar c) : 128 ≤ b.toNat := by
  have hone : ¬ c.val.toNat ≤ 127 := Nat.not_le.mpr h
  simp only [String.utf8EncodeChar, if_neg hone] at hb
  split at hb
  · simp only [List.mem_cons, List.not_mem_nil, or_false] at hb
    rcases hb with rfl | rfl <;> simp only [UInt8.toNat_ofNat'] <;> omega
  · split at hb
    · simp only [List.mem_cons, List.not_mem_nil, or_false] at hb
      rcases hb with rfl | rfl | rfl <;> simp only [UInt8.toNat_ofNat'] <;> omega
    · simp only [List.mem_cons, List.not_mem_nil, or_false] at hb
      rcases hb with rfl | rfl | rfl | rfl <;> simp only [UInt8.toNat_ofNat'] <;> omega

theorem onByte_toUInt8 (h : c.toNat < 128) (p : Char → Bool) : onByte p c.toUInt8 = p c := by
  rw [onByte, ofUInt8_toUInt8 h]

theorem utf8_cons_of_pos (hp : Ascii p) (h : p c) (cs : List Char) :
    utf8 (c :: cs) = c.toUInt8 :: utf8 cs := by
  rw [utf8_cons, utf8EncodeChar_of_lt (hp c h), List.singleton_append]

/-- **No byte of another character passes the test.** -/
theorem not_of_mem_utf8EncodeChar (hp : Ascii p) (h : ¬ p c) {b : UInt8}
    (hb : b ∈ String.utf8EncodeChar c) : ¬ onByte p b := by
  by_cases hc : c.toNat < 128
  · rw [utf8EncodeChar_of_lt hc, List.mem_singleton] at hb
    rwa [hb, onByte_toUInt8 hc]
  · intro hb'
    have hlow := hp _ hb'
    rw [toNat_ofUInt8] at hlow
    exact Nat.not_lt.mpr (le_of_mem_utf8EncodeChar (Nat.not_lt.mp hc) hb) hlow

theorem exists_utf8_cons_of_neg (hp : Ascii p) (h : ¬ p c) (cs : List Char) :
    ∃ b bs, utf8 (c :: cs) = b :: bs ∧ ¬ onByte p b := by
  obtain ⟨b, bs, hbs⟩ : ∃ b bs, String.utf8EncodeChar c = b :: bs := by
    refine List.exists_cons_of_length_pos ?_
    rw [String.length_utf8EncodeChar]
    exact c.utf8Size_pos
  refine ⟨b, bs ++ utf8 cs, by rw [utf8_cons, hbs, List.cons_append], ?_⟩
  exact not_of_mem_utf8EncodeChar hp h (by rw [hbs]; exact List.mem_cons_self)

/-- The first byte passes the test just if the first character does. -/
theorem head?_utf8_any (hp : Ascii p) (cs : List Char) :
    (utf8 cs).head?.any (onByte p) = cs.head?.any p := by
  cases cs with
  | nil => rfl
  | cons c cs =>
    by_cases h : p c
    · rw [utf8_cons_of_pos hp h, List.head?_cons, List.head?_cons, Option.any_some, Option.any_some,
        onByte_toUInt8 (hp c h)]
    · obtain ⟨b, bs, hbs, hb⟩ := exists_utf8_cons_of_neg hp h cs
      rw [hbs, List.head?_cons, List.head?_cons, Option.any_some, Option.any_some]
      rw [Bool.eq_false_iff.mpr hb, Bool.eq_false_iff.mpr h]

/-- **A run of bytes is a run of characters.** -/
theorem takeWhile_utf8 (hp : Ascii p) (cs : List Char) :
    (utf8 cs).takeWhile (onByte p) = utf8 (cs.takeWhile p) := by
  induction cs with
  | nil => rfl
  | cons c cs ih =>
    by_cases h : p c
    · have hb : onByte p c.toUInt8 = true := by rw [onByte_toUInt8 (hp c h), h]
      rw [List.takeWhile_cons_of_pos h, utf8_cons_of_pos hp h, utf8_cons_of_pos hp h,
        List.takeWhile_cons_of_pos hb, ih]
    · obtain ⟨b, bs, hbs, hb⟩ := exists_utf8_cons_of_neg hp h cs
      rw [List.takeWhile_cons_of_neg h, hbs, List.takeWhile_cons_of_neg hb, utf8_nil]

end Interpolation.Text
