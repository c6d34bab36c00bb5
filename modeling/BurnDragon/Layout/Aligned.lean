import Mathlib

/-!
# Aligned blocks

Blocks of bytes written one after the other, each from the next multiple of an alignment on, with a
fill byte in the gaps. `starts` are their offsets and `extent` is where the last one ends; `pack`
writes them behind what is already there. Every block is found at its offset (`pack_holds`), the
offsets are multiples of the alignment (`dvd_of_mem_starts`) and a block ends before the next one
starts (`starts_pairwise`).
-/

namespace BurnDragon.Layout

open List

/-! ## Rounding up -/

/-- The first multiple of `a` from `n` on. -/
def alignUp (a n : ℕ) : ℕ := (n + a - 1) / a * a

section AlignUp

variable {a m n : ℕ}

theorem dvd_alignUp : a ∣ alignUp a n := Nat.dvd_mul_left _ _

theorem alignUp_lt (ha : 0 < a) : alignUp a n < n + a := by
  have := Nat.div_mul_le_self (n + a - 1) a
  unfold alignUp
  omega

theorem le_alignUp (ha : 0 < a) : n ≤ alignUp a n := by
  have hdiv := Nat.div_add_mod (n + a - 1) a
  have hmod := Nat.mod_lt (n + a - 1) ha
  rw [Nat.mul_comm] at hdiv
  unfold alignUp
  omega

/-- Rounding up is relative to a multiple of the alignment. -/
theorem alignUp_add (ha : 0 < a) (hm : a ∣ m) : alignUp a (m + n) = m + alignUp a n := by
  obtain ⟨k, rfl⟩ := hm
  unfold alignUp
  rw [show a * k + n + a - 1 = n + a - 1 + a * k by omega, Nat.add_mul_div_left _ _ ha,
    Nat.add_mul, Nat.mul_comm k, Nat.add_comm]

end AlignUp

/-! ## Offsets -/

/-- The offsets of blocks of the given sizes, the first one from `offset` on. -/
def starts (a : ℕ) : ℕ → List ℕ → List ℕ
  | _, [] => []
  | offset, size :: sizes => alignUp a offset :: starts a (alignUp a offset + size) sizes

/-- The end of the last block. -/
def extent (a : ℕ) : ℕ → List ℕ → ℕ
  | offset, [] => offset
  | offset, size :: sizes => extent a (alignUp a offset + size) sizes

section Offsets

variable {a m offset : ℕ} {sizes : List ℕ}

theorem le_extent (ha : 0 < a) : offset ≤ extent a offset sizes := by
  induction sizes generalizing offset with
  | nil => exact le_rfl
  | cons size sizes ih =>
    have hle := le_alignUp (n := offset) ha
    exact (hle.trans (Nat.le_add_right _ _)).trans ih

theorem dvd_of_mem_starts {start : ℕ} (h : start ∈ starts a offset sizes) : a ∣ start := by
  induction sizes generalizing offset with
  | nil => simp [starts] at h
  | cons size sizes ih =>
    rcases mem_cons.1 h with rfl | h
    · exact dvd_alignUp
    · exact ih h

theorem le_of_mem_starts (ha : 0 < a) {start : ℕ} (h : start ∈ starts a offset sizes) :
    offset ≤ start := by
  induction sizes generalizing offset with
  | nil => simp [starts] at h
  | cons size sizes ih =>
    have hle := le_alignUp (n := offset) ha
    rcases mem_cons.1 h with rfl | h
    · exact hle
    · exact (hle.trans (Nat.le_add_right _ _)).trans (ih h)

/-- A block ends before the next one starts. -/
theorem starts_pairwise (ha : 0 < a) :
    ((starts a offset sizes).zip sizes).Pairwise fun x y => x.1 + x.2 ≤ y.1 := by
  induction sizes generalizing offset with
  | nil => simp [starts]
  | cons size sizes ih =>
    rw [starts, zip_cons_cons, pairwise_cons]
    exact ⟨fun y hy => le_of_mem_starts ha (of_mem_zip hy).1, ih⟩

/-- Offsets are relative to a multiple of the alignment. -/
theorem starts_add (ha : 0 < a) (hm : a ∣ m) :
    starts a (m + offset) sizes = (starts a offset sizes).map (m + ·) := by
  induction sizes generalizing offset with
  | nil => rfl
  | cons size sizes ih => rw [starts, starts, map_cons, alignUp_add ha hm, Nat.add_assoc, ih]

theorem extent_add (ha : 0 < a) (hm : a ∣ m) :
    extent a (m + offset) sizes = m + extent a offset sizes := by
  induction sizes generalizing offset with
  | nil => rfl
  | cons size sizes ih => rw [extent, extent, alignUp_add ha hm, Nat.add_assoc, ih]

end Offsets

/-! ## Bytes -/

variable {β : Type*}

/-- The block stands in `bytes` from `start` on. -/
def Holds (bytes : List β) (start : ℕ) (block : List β) : Prop :=
  ∃ before after, bytes = before ++ block ++ after ∧ before.length = start

namespace Holds

variable {bytes block : List β} {start : ℕ}

theorem append (h : Holds bytes start block) (more : List β) : Holds (bytes ++ more) start block := by
  obtain ⟨before, after, rfl, hlen⟩ := h
  exact ⟨before, after ++ more, by simp, hlen⟩

end Holds

/-- Append bytes from the next multiple of the alignment on. -/
def appendAligned (a : ℕ) (fill : β) (out block : List β) : List β :=
  out ++ List.replicate (alignUp a out.length - out.length) fill ++ block

/-- Append the blocks one after the other. -/
def pack (a : ℕ) (fill : β) (out : List β) (blocks : List (List β)) : List β :=
  blocks.foldl (appendAligned a fill) out

section Pack

variable {a : ℕ} {fill : β} {out block : List β} {blocks : List (List β)}

theorem length_appendAligned (ha : 0 < a) (fill : β) (out block : List β) :
    (appendAligned a fill out block).length = alignUp a out.length + block.length := by
  have hle := le_alignUp (n := out.length) ha
  simp only [appendAligned, length_append, length_replicate]
  omega

theorem holds_appendAligned (ha : 0 < a) :
    Holds (appendAligned a fill out block) (alignUp a out.length) block := by
  have hle := le_alignUp (n := out.length) ha
  refine ⟨_, [], (append_nil _).symm, ?_⟩
  rw [length_append, length_replicate]
  omega

theorem length_pack (ha : 0 < a) :
    (pack a fill out blocks).length = extent a out.length (blocks.map List.length) := by
  induction blocks generalizing out with
  | nil => rfl
  | cons block blocks ih =>
    rw [pack, foldl_cons, map_cons, extent, ← length_appendAligned ha fill]
    exact ih

theorem prefix_pack : out <+: pack a fill out blocks := by
  induction blocks generalizing out with
  | nil => exact prefix_refl out
  | cons block blocks ih =>
    have hout : out <+: appendAligned a fill out block := ⟨_, (append_assoc ..).symm⟩
    exact hout.trans ih

/-- **Every block is found at its offset.** -/
theorem pack_holds (ha : 0 < a) :
    List.Forall₂ (Holds (pack a fill out blocks))
      (starts a out.length (blocks.map List.length)) blocks := by
  induction blocks generalizing out with
  | nil => exact .nil
  | cons block blocks ih =>
    rw [map_cons, starts, ← length_appendAligned ha fill]
    refine .cons ?_ ih
    obtain ⟨more, hmore⟩ : appendAligned a fill out block <+: pack a fill out (block :: blocks) :=
      prefix_pack
    exact hmore ▸ (holds_appendAligned ha).append more

end Pack

end BurnDragon.Layout
