import Mathlib

/-!
# RIFF files

A RIFF file is a tree. A chunk is an identifier of four bytes, the length of its data as a
little-endian number of four bytes, and the data, with one more byte behind an odd number of them. A
list is a chunk whose data is a type of four bytes and the nodes of the list one after the other.

* `Riff.encode` writes a tree; `Riff.WellFormed` says that identifiers and lengths have the room
  that the format gives them.
* `Riff.childStart` is the place of a node among the nodes of its list.
-/

namespace BurnDragon.Layout

open List

/-! ## Fields of four bytes -/

/-- A number as a field of four bytes. -/
def field32 (n : ℕ) : List UInt8 := (List.range 4).map fun k => UInt8.ofNat (n / 256 ^ k)

/-- The number in a field. -/
def readField (bytes : List UInt8) : ℕ := Nat.ofDigits 256 (bytes.map UInt8.toNat)

@[simp] theorem length_field32 (n : ℕ) : (field32 n).length = 4 := rfl

theorem readField_field32 (n : ℕ) : readField (field32 n) = n % 2 ^ 32 := by
  have hbytes : (field32 n).map UInt8.toNat =
      [n % 256, n / 256 % 256, n / 65536 % 256, n / 16777216 % 256] := by
    simp [field32, range_succ]
  simp only [readField, hbytes, Nat.ofDigits_cons, Nat.ofDigits_nil]
  omega

theorem readField_field32_of_lt {n : ℕ} (h : n < 2 ^ 32) : readField (field32 n) = n := by
  rw [readField_field32, Nat.mod_eq_of_lt h]

theorem field32_inj {m n : ℕ} (hm : m < 2 ^ 32) (hn : n < 2 ^ 32) (h : field32 m = field32 n) :
    m = n := by
  rw [← readField_field32_of_lt hm, h, readField_field32_of_lt hn]

/-! ## Trees -/

/-- A node of a RIFF file. -/
inductive Riff
  | chunk (id data : List UInt8)
  | list (id type : List UInt8) (nodes : List Riff)

namespace Riff

/-- `RIFF`, the identifier of the whole file. -/
def riffId : List UInt8 := [82, 73, 70, 70]

/-- `LIST` -/
def listId : List UInt8 := [76, 73, 83, 84]

/-- The byte behind an odd number of bytes. -/
def pad (data : List UInt8) : List UInt8 := List.replicate (data.length % 2) 0

mutual

/-- The bytes of a node. -/
def encode : Riff → List UInt8
  | .chunk id data => id ++ field32 data.length ++ data ++ pad data
  | .list id type nodes => id ++ field32 (4 + (encodeAll nodes).length) ++ type ++ encodeAll nodes

/-- The bytes of the nodes of a list. -/
def encodeAll : List Riff → List UInt8
  | [] => []
  | node :: nodes => encode node ++ encodeAll nodes

end

mutual

/-- Every node occupies its declared size, and only lists have the identifiers of lists. -/
def WellFormed : Riff → Prop
  | .chunk id data => id.length = 4 ∧ id ≠ riffId ∧ id ≠ listId ∧ data.length < 2 ^ 32
  | .list id type nodes => (id = riffId ∨ id = listId) ∧ type.length = 4 ∧
      4 + (encodeAll nodes).length < 2 ^ 32 ∧ AllWellFormed nodes

def AllWellFormed : List Riff → Prop
  | [] => True
  | node :: nodes => WellFormed node ∧ AllWellFormed nodes

end

/-- Where a node begins, counted from the first node of its list. -/
def childStart (nodes : List Riff) (i : ℕ) : ℕ := (encodeAll (nodes.take i)).length

theorem length_pad (data : List UInt8) : (pad data).length = data.length % 2 :=
  length_replicate

/-! ## Reading a node -/

mutual

theorem even_length_encode {node : Riff} (h : node.WellFormed) : Even node.encode.length := by
  match node with
  | .chunk id data =>
    rw [WellFormed] at h
    simp only [encode, length_append, length_field32, length_pad, h.1]
    exact Nat.even_iff.mpr (by omega)
  | .list id type nodes =>
    rw [WellFormed] at h
    obtain ⟨hid, htype, -, hnodes⟩ := h
    have hlength : id.length = 4 := by rcases hid with rfl | rfl <;> rfl
    have heven := Nat.even_iff.mp (even_length_encodeAll hnodes)
    simp only [encode, length_append, length_field32, hlength, htype]
    exact Nat.even_iff.mpr (by omega)

theorem even_length_encodeAll {nodes : List Riff} (h : AllWellFormed nodes) :
    Even (encodeAll nodes).length := by
  match nodes with
  | [] => exact ⟨0, rfl⟩
  | node :: nodes =>
    rw [AllWellFormed] at h
    rw [encodeAll, length_append]
    exact (even_length_encode h.1).add (even_length_encodeAll h.2)

end

/-- A node begins with its identifier and its length, and this length with the padding is that of
the rest. -/
theorem exists_header {node : Riff} (h : node.WellFormed) :
    ∃ id size body, node.encode = id ++ field32 size ++ body ∧ id.length = 4 ∧ size < 2 ^ 32 ∧
      body.length = size + size % 2 := by
  match node with
  | .chunk id data =>
    rw [WellFormed] at h
    obtain ⟨hid, -, -, hsize⟩ := h
    refine ⟨id, data.length, data ++ pad data, ?_, hid, hsize, ?_⟩
    · rw [encode, append_assoc _ data]
    · rw [length_append, length_pad]
  | .list id type nodes =>
    rw [WellFormed] at h
    obtain ⟨hid, htype, hsize, hnodes⟩ := h
    have heven := Nat.even_iff.mp (even_length_encodeAll hnodes)
    refine ⟨id, _, type ++ encodeAll nodes, ?_, ?_, hsize, ?_⟩
    · rw [encode, append_assoc _ type]
    · rcases hid with rfl | rfl <;> rfl
    · rw [length_append, htype]
      omega

/-- A node with the identifier of a list is a list. -/
theorem exists_list {node : Riff} (h : node.WellFormed) {id more rest : List UInt8}
    (hid : id = riffId ∨ id = listId) (hencode : node.encode ++ more = id ++ rest) :
    ∃ type nodes, node = .list id type nodes := by
  match node with
  | .chunk id' data =>
    rw [WellFormed] at h
    have hlength : id.length = 4 := by rcases hid with rfl | rfl <;> rfl
    rw [encode] at hencode
    simp only [append_assoc] at hencode
    obtain ⟨rfl, -⟩ := append_inj hencode (h.1.trans hlength.symm)
    exact absurd hid (not_or.mpr ⟨h.2.1, h.2.2.1⟩)
  | .list id' type nodes =>
    rw [WellFormed] at h
    have hlength : id.length = 4 := by rcases hid with rfl | rfl <;> rfl
    have hlength' : id'.length = 4 := by rcases h.1 with rfl | rfl <;> rfl
    rw [encode] at hencode
    simp only [append_assoc] at hencode
    obtain ⟨rfl, -⟩ := append_inj hencode (hlength'.trans hlength.symm)
    exact ⟨type, nodes, rfl⟩

/-- The nodes of a list fill it. -/
theorem encodeAll_of_list {id type : List UInt8} {nodes : List Riff} {more rest : List UInt8}
    {size : ℕ} (h : (Riff.list id type nodes).WellFormed) (hsize : size < 2 ^ 32)
    (hencode : (Riff.list id type nodes).encode ++ more = id ++ field32 size ++ rest) :
    4 + (encodeAll nodes).length = size ∧ type ++ encodeAll nodes ++ more = rest := by
  rw [WellFormed] at h
  rw [encode] at hencode
  simp only [append_assoc] at hencode ⊢
  have hencode' := append_cancel_left hencode
  obtain ⟨hfield, hrest⟩ := append_inj hencode' rfl
  exact ⟨field32_inj h.2.2.1 hsize hfield, hrest⟩

end Riff

end BurnDragon.Layout
