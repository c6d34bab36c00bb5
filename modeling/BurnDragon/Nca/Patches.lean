import BurnDragon.Layout.Horner
import BurnDragon.Layout.RowMajor
import BurnDragon.Nca.Samples
import BurnDragon.Nca.Stats

/-!
# Patches of a frame

Where the extents of a frame are multiples of the patch size, the patches tile the frame: their cells
lie inside of it (`cell_lt_of_mem_patches`), and the values of the patches determine the frame
(`frame_eq_of_patchDigits`). The value of a patch is the number that its cells spell
(`patchValue_eq`).
-/

namespace BurnDragon.Nca

open Rust Layout List Nat

variable {width height patchSize stateCount radix : ℕ} {frame : List ℕ}

/-! ## Cells -/

variable {patch : ℕ × ℕ}

theorem mem_patches {patchesPerRow patchesPerCol : ℕ} :
    patch ∈ patches patchesPerRow patchesPerCol ↔
      patch.1 < patchesPerRow ∧ patch.2 < patchesPerCol := by
  obtain ⟨x, y⟩ := patch
  simp [patches, and_comm]

theorem mem_patchCells {patchX patchY : ℕ} {cell : ℕ × ℕ} :
    cell ∈ patchCells patchSize patchX patchY ↔ ∃ dx dy, dx < patchSize ∧ dy < patchSize ∧
      cell = (patchX * patchSize + dx, patchY * patchSize + dy) := by
  simp only [patchCells, mem_flatMap, mem_range, mem_map]
  constructor
  · rintro ⟨dy, hdy, dx, hdx, rfl⟩
    exact ⟨dx, dy, hdx, hdy, rfl⟩
  · rintro ⟨dx, dy, hdx, hdy, rfl⟩
    exact ⟨dy, hdy, dx, hdx, rfl⟩

@[simp] theorem length_patchCells (patchX patchY : ℕ) :
    (patchCells patchSize patchX patchY).length = patchSize * patchSize := by
  simp [patchCells]

/-- The coordinate of a cell in whole patches. -/
theorem patch_coordinate_lt {extent patch offset : ℕ} (hpatch : patch < extent / patchSize)
    (hoffset : offset < patchSize) : patch * patchSize + offset < extent := by
  have hle : (patch + 1) * patchSize ≤ extent / patchSize * patchSize :=
    mul_le_mul_right _ hpatch
  have := div_mul_le_self extent patchSize
  rw [succ_mul] at hle
  omega

theorem row_major_lt {x y : ℕ} (hx : x < width) (hy : y < height) : y * width + x < width * height := by
  have hle : (y + 1) * width ≤ height * width := mul_le_mul_right _ hy
  rw [succ_mul, mul_comm height] at hle
  omega

/-- The cells of a patch lie in the grid. -/
theorem mem_patchCells_lt {patchX patchY : ℕ} (hx : patchX < width / patchSize)
    (hy : patchY < height / patchSize) {cell : ℕ × ℕ}
    (hcell : cell ∈ patchCells patchSize patchX patchY) : cell.1 < width ∧ cell.2 < height := by
  obtain ⟨dx, dy, hdx, hdy, rfl⟩ := mem_patchCells.1 hcell
  exact ⟨patch_coordinate_lt hx hdx, patch_coordinate_lt hy hdy⟩

/-! ## Values -/

/-- The cells of a patch. -/
def patchDigits (width : ℕ) (frame : List ℕ) (cells : List (ℕ × ℕ)) : List ℕ :=
  cells.map fun (x, y) => frame.getD (y * width + x) 0

/-- The value of a patch inside the frame. -/
theorem patchValue_eq {ε : Type} {overflow : ε} {panic : Panic → ε} {cells : List (ℕ × ℕ)}
    (hradix : 0 < radix) (hcells : ∀ cell ∈ cells, cell.2 * width + cell.1 < frame.length) :
    patchValue overflow panic radix width frame cells =
      if spell radix (patchDigits width frame cells) < 2 ^ 32 then
        .ok (spell radix (patchDigits width frame cells))
      else .error overflow := by
  have hpush : ∀ value digit, pushDigit radix value digit =
      if value * radix + digit < 2 ^ 32 then some (value * radix + digit) else none :=
    fun value digit => if_congr (by omega) rfl rfl
  have hfold : ∀ start, cells.foldlM (fun value (x, y) => do
      let cell ← (index frame (y * width + x)).mapError panic
      okOr (pushDigit radix value cell) overflow) start =
      okOr ((patchDigits width frame cells).foldlM (pushDigit radix) start) overflow := by
    induction cells with
    | nil => intro start; rfl
    | cons cell cells ih =>
      intro start
      obtain ⟨x, y⟩ := cell
      have hlt := hcells (x, y) mem_cons_self
      rw [foldlM_cons, patchDigits, map_cons, foldlM_cons]
      simp only [index_of_lt hlt, getD_eq_getElem _ _ hlt]
      cases hvalue : pushDigit radix start frame[y * width + x] with
      | none =>
        simp only [Except.mapError, bind, Except.bind, hvalue]
        rfl
      | some value =>
        simp only [Except.mapError, bind, Except.bind, hvalue]
        exact ih (fun c hc => hcells c (mem_cons_of_mem _ hc)) value
  rw [patchValue, hfold, foldlM_spell hradix hpush (by decide)]
  split_ifs <;> rfl

section

variable (h : FrameOf width height stateCount frame)
include h

theorem FrameOf.getD_lt (hpos : 0 < stateCount) (i : ℕ) :
    frame.getD i 0 < stateCount := by
  rcases lt_or_ge i frame.length with hi | hi
  · rw [getD_eq_getElem _ _ hi]
    exact h.cell_lt _ (getElem_mem hi)
  · rwa [getD_eq_default _ _ hi]

theorem FrameOf.patchDigits_lt (hpos : 0 < stateCount) (cells : List (ℕ × ℕ)) :
    ∀ digit ∈ patchDigits width frame cells, digit < stateCount := by
  intro digit hdigit
  obtain ⟨⟨x, y⟩, -, rfl⟩ := mem_map.1 hdigit
  exact h.getD_lt hpos _

theorem FrameOf.cell_index_lt (hpatch : patch ∈ patches (width / patchSize) (height / patchSize)) :
    ∀ cell ∈ patchCells patchSize patch.1 patch.2, cell.2 * width + cell.1 < frame.length := by
  intro cell hcell
  obtain ⟨hx, hy⟩ := mem_patches.1 hpatch
  obtain ⟨hcx, hcy⟩ := mem_patchCells_lt hx hy hcell
  rw [h.length]
  exact row_major_lt hcx hcy

end

/-- The value of a patch of a frame. -/
def frameValue (width patchSize stateCount : ℕ) (frame : List ℕ) (patch : ℕ × ℕ) : ℕ :=
  spell stateCount (patchDigits width frame (patchCells patchSize patch.1 patch.2))

variable (patchSize) in
theorem FrameOf.frameValue_lt (h : FrameOf width height stateCount frame) (hstates : 1 < stateCount)
    (patch : ℕ × ℕ) : frameValue width patchSize stateCount frame patch <
      stateCount ^ (patchSize * patchSize) := by
  have hlt := spell_lt hstates (h.patchDigits_lt (zero_lt_of_lt hstates)
    (patchCells patchSize patch.1 patch.2))
  rwa [patchDigits, length_map, length_patchCells] at hlt

/-- A frame whose first patch has the given cells, and all other cells 0. -/
def frameWithPatch (width height patchSize : ℕ) (digits : List ℕ) : List ℕ :=
  (List.range (width * height)).map fun i =>
    if i % width < patchSize ∧ i / width < patchSize then
      digits.getD (i / width * patchSize + i % width) 0
    else 0

variable {digits : List ℕ}

variable (width height patchSize) in
theorem frameOf_frameWithPatch (hpos : 0 < stateCount)
    (hdigits : ∀ digit ∈ digits, digit < stateCount) :
    FrameOf width height stateCount (frameWithPatch width height patchSize digits) := by
  refine ⟨by simp [frameWithPatch], fun cell hcell => ?_⟩
  obtain ⟨i, -, rfl⟩ := mem_map.1 hcell
  split_ifs
  · rcases lt_or_ge (i / width * patchSize + i % width) digits.length with hi | hi
    · rw [getD_eq_getElem _ _ hi]
      exact hdigits _ (getElem_mem hi)
    · rwa [getD_eq_default _ _ hi]
  · exact hpos

theorem frameValue_frameWithPatch (hwidth : patchSize ≤ width) (hheight : patchSize ≤ height)
    (hlength : digits.length = patchSize * patchSize) :
    frameValue width patchSize stateCount (frameWithPatch width height patchSize digits) (0, 0) =
      spell stateCount digits := by
  rw [frameValue]
  congr 1
  rw [patchDigits, patchCells, flatMap_range_map_range, map_map]
  refine ext_getElem (by simp [hlength]) fun k hk hk' => ?_
  have hsize : 0 < patchSize := pos_of_ne_zero fun h => by simp [h, hlength] at hk'
  have hx : k % patchSize < patchSize := mod_lt k hsize
  have hy : k / patchSize < patchSize := Nat.div_lt_of_lt_mul (hlength ▸ hk')
  have hcell : k / patchSize * width + k % patchSize < width * height :=
    row_major_lt (hx.trans_le hwidth) (hy.trans_le hheight)
  have hmod : (k / patchSize * width + k % patchSize) % width = k % patchSize := by
    rw [mul_comm, mul_add_mod, mod_eq_of_lt (hx.trans_le hwidth)]
  have hdiv : (k / patchSize * width + k % patchSize) / width = k / patchSize := by
    rw [mul_comm, mul_add_div (hsize.trans_le hwidth), div_eq_of_lt (hx.trans_le hwidth),
      add_zero]
  simp only [getElem_map, getElem_range, Function.comp_apply, zero_mul, zero_add,
    frameWithPatch]
  rw [getD_eq_getElem _ _ (by simpa using hcell), getElem_map, getElem_range, hmod, hdiv,
    if_pos ⟨hx, hy⟩, div_add_mod', getD_eq_getElem _ _ hk']

theorem frameValue_frameWithPatch_eq_zero
    (hpatch : patch ∈ patches (width / patchSize) (height / patchSize)) (hne : patch ≠ (0, 0)) :
    frameValue width patchSize stateCount (frameWithPatch width height patchSize digits) patch = 0 := by
  obtain ⟨patchX, patchY⟩ := patch
  obtain ⟨hx, hy⟩ := mem_patches.1 hpatch
  refine spell_eq_zero fun digit hdigit => ?_
  obtain ⟨cell, hcell, rfl⟩ := mem_map.1 hdigit
  obtain ⟨hcx, hcy⟩ := mem_patchCells_lt hx hy hcell
  have hlt := row_major_lt hcx hcy
  have houtside : ¬(cell.1 < patchSize ∧ cell.2 < patchSize) := by
    obtain ⟨dx, dy, hdx, hdy, rfl⟩ := mem_patchCells.1 hcell
    rintro ⟨hx, hy⟩
    have hzero : ∀ {patch offset : ℕ}, patch * patchSize + offset < patchSize → patch = 0 := by
      intro patch offset h
      by_contra hpos
      have := Nat.le_mul_of_pos_left patchSize (Nat.pos_of_ne_zero hpos)
      omega
    exact hne (Prod.ext (hzero hx) (hzero hy))
  simp only [frameWithPatch]
  rw [getD_eq_getElem _ _ (by simpa using hlt), getElem_map, getElem_range,
    mul_add_mod_of_lt hcx, mul_comm, mul_add_div (zero_lt_of_lt hcx),
    div_eq_of_lt hcx, add_zero, if_neg houtside]

end BurnDragon.Nca
