import BurnDragon.Rust.Ascii

/-!
# Texts as bytes

`str::as_bytes`. The bytes that occur in texts are those of `isUtf8Byte` (`mem_utf8Bytes_iff`), and a
text of ASCII characters has one byte for each of them (`utf8Bytes_of_ascii`).
-/

namespace BurnDragon.Rust

open List

/-- `str::as_bytes`. -/
def utf8Bytes (text : List Char) : List UInt8 := text.flatMap String.utf8EncodeChar

theorem uint8_forall {P : UInt8 → Prop} (h : ∀ n < 256, P (UInt8.ofNat n)) (b : UInt8) : P b := by
  have hb := h b.toNat b.toNat_lt
  rwa [UInt8.ofNat_toNat] at hb

theorem ascii_forall {P : Char → Prop} (h : ∀ n < 128, P (Char.ofNat n)) {c : Char}
    (hc : c.toNat < 128) : P c := by
  have hp := h c.toNat hc
  rwa [Char.ofNat_toNat] at hp

/-! ## ASCII texts -/

theorem utf8EncodeChar_of_ascii {c : Char} (hc : c.toNat < 128) :
    String.utf8EncodeChar c = [byte c] := by
  have hle : c.val.toNat ≤ 127 := Nat.le_of_lt_succ hc
  simp only [String.utf8EncodeChar, hle, if_true, byte, Char.toUInt8]
  rfl

theorem utf8Bytes_of_ascii {text : List Char} (h : ∀ c ∈ text, c.toNat < 128) :
    utf8Bytes text = text.map byte := by
  induction text with
  | nil => rfl
  | cons c text ih =>
    rw [utf8Bytes, flatMap_cons, utf8EncodeChar_of_ascii (h c (by simp)), map_cons,
      ← ih fun d hd => h d (by simp [hd])]
    rfl

theorem ofNat_byte {c : Char} (hc : c.toNat < 128) : Char.ofNat (byte c).toNat = c :=
  ascii_forall (P := fun c => Char.ofNat (byte c).toNat = c) (by decide +kernel) hc

/-! ## The bytes of texts -/

/-- The bytes that the encoding uses. -/
def isUtf8Byte (b : UInt8) : Bool := b < 0xC0 || (0xC2 ≤ b && b ≤ 0xF4)

theorem isUtf8Byte_ofNat_iff {n : ℕ} (hn : n < 256) :
    isUtf8Byte (UInt8.ofNat n) ↔ n < 192 ∨ 194 ≤ n ∧ n ≤ 244 := by
  simp only [isUtf8Byte, Bool.or_eq_true, Bool.and_eq_true, decide_eq_true_eq, UInt8.lt_iff_toNat_lt,
    UInt8.le_iff_toNat_le, UInt8.toNat_ofNat', Nat.mod_eq_of_lt hn]
  rfl

theorem isUtf8Byte_of_mem {c : Char} {b : UInt8} (hb : b ∈ String.utf8EncodeChar c) :
    isUtf8Byte b := by
  have hc : c.val.toNat < 0x110000 := by
    rcases c.valid with h | h <;> omega
  have hbyte : ∀ n : ℕ, n < 192 ∨ 194 ≤ n ∧ n ≤ 244 → isUtf8Byte (UInt8.ofNat n) :=
    fun n hn => (isUtf8Byte_ofNat_iff (by omega)).2 hn
  simp only [String.utf8EncodeChar] at hb
  split at hb
  · obtain rfl := mem_singleton.1 hb
    exact hbyte _ (by omega)
  split at hb
  · simp only [mem_cons, not_mem_nil, or_false] at hb
    rcases hb with rfl | rfl <;> exact hbyte _ (by omega)
  split at hb
  · simp only [mem_cons, not_mem_nil, or_false] at hb
    rcases hb with rfl | rfl | rfl <;> exact hbyte _ (by omega)
  · simp only [mem_cons, not_mem_nil, or_false] at hb
    rcases hb with rfl | rfl | rfl | rfl <;> exact hbyte _ (by omega)

/-- A character whose encoding has the byte: the byte itself where it is ASCII, a character of two
bytes that ends with it where it continues one, and else one that begins with it. -/
def charWithByte (b : UInt8) : Char :=
  let n := b.toNat
  Char.ofNat <|
    if n < 0xC0 then n
    else if n < 0xE0 then (n - 0xC0) * 0x40
    else if n < 0xF0 then (n - 0xE0) * 0x1000 + (if n = 0xE0 then 0x800 else 0)
    else (n - 0xF0) * 0x40000 + (if n = 0xF0 then 0x10000 else 0)

theorem mem_utf8EncodeChar_charWithByte {b : UInt8} (hb : isUtf8Byte b) :
    b ∈ String.utf8EncodeChar (charWithByte b) :=
  uint8_forall (P := fun b => isUtf8Byte b → b ∈ String.utf8EncodeChar (charWithByte b))
    (by decide +kernel) b hb

/-- **The bytes of texts** are those that the encoding uses. -/
theorem mem_utf8Bytes_iff (b : UInt8) : (∃ text, b ∈ utf8Bytes text) ↔ isUtf8Byte b := by
  constructor
  · rintro ⟨text, hb⟩
    obtain ⟨c, -, hb⟩ := mem_flatMap.1 hb
    exact isUtf8Byte_of_mem hb
  · intro hb
    exact ⟨[charWithByte b], by simpa [utf8Bytes] using mem_utf8EncodeChar_charWithByte hb⟩

end BurnDragon.Rust
