import BurnDragon.Nca.Encode

/-!
# Reading frames back

Where the grid consists of whole patches, the frames of a document can be read from its tokens when the
grid and the state count are known: the boundary tokens stand at fixed places, and every other token
spells the cells of one patch (`decodeFrames_sampleTokens`).
-/

namespace BurnDragon.Nca

open Layout List Nat

variable {patchSize stateCount width height : ℕ} {frame : List ℕ} {eosId : Option UInt32}
  {frameSpecialTokens : Bool}

/-! ## Frames -/

/-- The cells of a frame, from the values of its patches. -/
def decodeFrame (patchSize stateCount width height : ℕ) (values : List ℕ) : List ℕ :=
  let digits := values.map (unspell stateCount (patchSize * patchSize))
  (List.range (width * height)).map fun i =>
    (digits.getD (i / width / patchSize * (width / patchSize) + i % width / patchSize) []).getD
      (i / width % patchSize * patchSize + i % width % patchSize) 0

theorem patches_getD {patchesPerRow patchesPerCol x y : ℕ} {α : Type} (f : ℕ × ℕ → α) (default : α)
    (hx : x < patchesPerRow) (hy : y < patchesPerCol) :
    ((patches patchesPerRow patchesPerCol).map f).getD (y * patchesPerRow + x) default = f (x, y) := by
  have hlt : y * patchesPerRow + x < patchesPerCol * patchesPerRow :=
    mul_comm patchesPerRow patchesPerCol ▸ row_major_lt hx hy
  rw [patches, flatMap_range_map_range, getD_eq_getElem _ _ (by simpa using hlt)]
  simp only [getElem_map, getElem_range]
  rw [mul_add_mod_of_lt hx, mul_comm, mul_add_div (zero_lt_of_lt hx),
    div_eq_of_lt hx, add_zero]

theorem patchDigits_getD {patchX patchY dx dy : ℕ} (hdx : dx < patchSize) (hdy : dy < patchSize) :
    (patchDigits width frame (patchCells patchSize patchX patchY)).getD (dy * patchSize + dx) 0 =
      frame.getD ((patchY * patchSize + dy) * width + (patchX * patchSize + dx)) 0 := by
  rw [patchDigits, patchCells, flatMap_range_map_range, map_map,
    getD_eq_getElem _ _ (by simpa using row_major_lt hdx hdy)]
  simp only [getElem_map, getElem_range, Function.comp_apply]
  rw [mul_add_mod_of_lt hdx, mul_comm dy, mul_add_div (zero_lt_of_lt hdx),
    div_eq_of_lt hdx, add_zero]

/-- The values of the patches determine the frame. -/
theorem decodeFrame_frameValue (hpatch : 0 < patchSize) (hpos : 0 < stateCount)
    (hframe : FrameOf width height stateCount frame) (hwidth : patchSize ∣ width)
    (hheight : patchSize ∣ height) :
    decodeFrame patchSize stateCount width height ((patches (width / patchSize) (height / patchSize)).map
      (frameValue width patchSize stateCount frame)) = frame := by
  have hdigits : ∀ patch : ℕ × ℕ, unspell stateCount (patchSize * patchSize)
      (frameValue width patchSize stateCount frame patch) =
        patchDigits width frame (patchCells patchSize patch.1 patch.2) := by
    intro patch
    have hspell := unspell_spell (hframe.patchDigits_lt hpos (patchCells patchSize patch.1 patch.2))
    rwa [patchDigits, length_map, length_patchCells, ← patchDigits] at hspell
  refine ext_getElem (by simp [decodeFrame, hframe.length]) fun i hi hi' => ?_
  have hlt : i < width * height := hframe.length ▸ hi'
  have hwidthPos : 0 < width := Nat.pos_of_mul_pos_right (Nat.zero_lt_of_lt hlt)
  have hx : i % width < width := mod_lt i hwidthPos
  have hy : i / width < height := Nat.div_lt_of_lt_mul hlt
  simp only [decodeFrame, getElem_map, getElem_range, map_map]
  rw [patches_getD _ _ (div_lt_div_of_lt_of_dvd hwidth hx)
      (div_lt_div_of_lt_of_dvd hheight hy), Function.comp_apply, hdigits,
    patchDigits_getD (mod_lt _ hpatch) (mod_lt _ hpatch), div_add_mod', div_add_mod',
    div_add_mod', getD_eq_getElem _ _ hi']

/-! ## Documents -/

/-- The frames of a document. -/
def decodeFrames (eosId : Option UInt32) (frameSpecialTokens : Bool)
    (patchSize stateCount width height : ℕ) (tokens : List ℕ) : List (List ℕ) :=
  let payload := tokens.take (tokens.length - (eosId.map UInt32.toNat).toList.length)
  let opening := (frameStartId frameSpecialTokens (patchVocabSize patchSize stateCount)).toList.length
  let closing := (frameEndId frameSpecialTokens (patchVocabSize patchSize stateCount)).toList.length
  let patchCount := width / patchSize * (height / patchSize)
  let frameLength := opening + patchCount + closing
  (ofData (payload.length / frameLength) frameLength payload).map fun tokens =>
    decodeFrame patchSize stateCount width height (slice opening patchCount tokens)

theorem length_frameTokens (startId endId : Option ℕ) (frame : List ℕ) :
    (frameTokens startId endId width height patchSize stateCount frame).length =
      startId.toList.length + width / patchSize * (height / patchSize) + endId.toList.length := by
  simp [frameTokens, length_patches, add_assoc]

theorem slice_frameTokens (startId endId : Option ℕ) (frame : List ℕ) :
    slice startId.toList.length (width / patchSize * (height / patchSize))
      (frameTokens startId endId width height patchSize stateCount frame) =
      (patches (width / patchSize) (height / patchSize)).map
        (frameValue width patchSize stateCount frame) := by
  rw [slice, frameTokens, append_assoc, drop_left, take_left' (by rw [length_map, length_patches])]

/-- **The decoder** recovers the frames of a sample with boundary tokens. -/
theorem decodeFrames_sampleTokens {sample : NcaSample} (hpatch : 0 < patchSize)
    (hpos : 0 < sample.stateCount)
    (hframes : ∀ frame ∈ sample.frames,
      FrameOf sample.width sample.height sample.stateCount frame)
    (hwidth : patchSize ∣ sample.width) (hheight : patchSize ∣ sample.height) :
    decodeFrames eosId true patchSize sample.stateCount sample.width sample.height
      (sampleTokens eosId true patchSize sample) = sample.frames := by
  set startId := frameStartId true (patchVocabSize patchSize sample.stateCount) with hstart
  set endId := frameEndId true (patchVocabSize patchSize sample.stateCount) with hend
  set table := sample.frames.map
    (frameTokens startId endId sample.width sample.height patchSize sample.stateCount) with htable
  have hrect : Rect table (startId.toList.length + sample.width / patchSize *
      (sample.height / patchSize) + endId.toList.length) := by
    rintro tokens htokens
    obtain ⟨frame, -, rfl⟩ := mem_map.1 htokens
    exact length_frameTokens startId endId frame
  have hone : startId.toList.length = 1 := rfl
  have hpayload : (sampleTokens eosId true patchSize sample).take
      ((sampleTokens eosId true patchSize sample).length -
        (eosId.map UInt32.toNat).toList.length) = table.flatten := by
    rw [sampleTokens, length_append, Nat.add_sub_cancel, take_left]
  rw [decodeFrames]
  simp only [hpayload, ← hstart, ← hend]
  rw [length_flatten_eq hrect, Nat.mul_div_cancel _ (by omega), ofData_flatten hrect, htable,
    map_map]
  conv_rhs => rw [← map_id sample.frames]
  refine map_congr_left fun frame hframe => ?_
  rw [Function.comp_apply, slice_frameTokens,
    decodeFrame_frameValue hpatch hpos (hframes frame hframe) hwidth hheight, id]

end BurnDragon.Nca
