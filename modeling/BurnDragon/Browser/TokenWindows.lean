import BurnDragon.Browser.Records

/-!
# Windows of a document

Two ways to cut the tokens of a document into windows of a block. `token_windows_from_tokens` takes full
windows only and moves the last one back to the end of the document. The windows of
`stream_aligned_token_windows_from_tokens` follow each other, and the last one is padded with a mask over
what is valid. Either way no target of the document is lost.
-/

namespace BurnDragon.Browser

open Rust Layout List Option

/-! ## Stream-aligned windows -/

section Model

variable (overflowChecks : Bool) (tokens : List ℕ) (blockSize : ℕ)

/-- The record of a window whose first targets are valid. -/
def alignedRecord (validTargets start : ℕ) (window : List ℕ) : TokenWindowRecord where
  inputs := (window.take blockSize).map Int.ofNat
  targets := (window.drop 1).map Int.ofNat
  lossMask :=
    if validTargets < blockSize then
      some (List.replicate validTargets 1 ++ List.replicate (blockSize - validTargets) 0)
    else
      none
  resetStreamState := start = 0
  streamGroupId := none
  streamRow := none
  chunkIndex := none

/-- The window of the targets from a position on. A block that no buffer holds is a panic. -/
def alignedWindow (padToken targetCount start : ℕ) : Run TokenWindowRecord := do
  let validTargets := min (targetCount - start) blockSize
  let size ← usizeResult overflowChecks (blockSize + 1)
  withCapacity 4 size
  -- the range `..=valid_targets` of a buffer whose size has wrapped around
  if size ≤ validTargets then throw .indexOutOfBounds
  let window := copyFromSlice 0 (slice start (validTargets + 1) tokens) (List.replicate size padToken)
  withCapacity 8 blockSize
  return alignedRecord blockSize validTargets start window

/-- `stream_aligned_token_windows_from_tokens`. -/
def streamAlignedTokenWindowsFromTokens : Run (List TokenWindowRecord) :=
  if tokens.length ≤ 1 || blockSize = 0 then
    .ok []
  else
    let targetCount := tokens.length - 1
    let padToken := tokens.getLast?.getD 0
    let starts := (List.range ((targetCount + blockSize - 1) / blockSize)).map (· * blockSize)
    starts.mapM (alignedWindow overflowChecks tokens blockSize padToken targetCount)

end Model

/-! ## What windows hold -/

/-- The entries at the valid targets of a window. -/
def TokenWindowRecord.valid (record : TokenWindowRecord) (xs : List ℤ) : List ℤ :=
  match record.lossMask with
  | none => xs
  | some mask => ((xs.zip mask).filter fun entry => entry.2 ≠ 0).map Prod.fst

/-- Windows that follow each other and hold every target once. -/
structure Aligned (tokens : List ℕ) (blockSize : ℕ) (records : List TokenWindowRecord) : Prop where
  targets : (records.flatMap fun record => record.valid record.targets) =
    (tokens.drop 1).map Int.ofNat
  inputs : (records.flatMap fun record => record.valid record.inputs) = tokens.dropLast.map Int.ofNat
  length_inputs : ∀ record ∈ records, record.inputs.length = blockSize
  length_targets : ∀ record ∈ records, record.targets.length = blockSize
  resets : ∀ i record, records[i]? = some record → (record.resetStreamState = true ↔ i = 0)

/-- Windows that are slices of the document, with a window over every target. -/
structure Overlapping (tokens : List ℕ) (blockSize : ℕ) (records : List TokenWindowRecord) : Prop where
  slices : ∀ record ∈ records, ∃ start, start + blockSize < tokens.length ∧
    record.inputs = (slice start blockSize tokens).map Int.ofNat ∧
    record.targets = (slice (start + 1) blockSize tokens).map Int.ofNat
  covers : blockSize < tokens.length → ∀ position, 1 ≤ position → position < tokens.length →
    ∃ record ∈ records, ∃ start, start < position ∧ position ≤ start + blockSize ∧
      start + blockSize < tokens.length ∧
      record.targets = (slice (start + 1) blockSize tokens).map Int.ofNat

section Aligned

variable {overflowChecks : Bool} {tokens : List ℕ} {blockSize padToken start : ℕ}

theorem slice_dropLast (start n : ℕ) (tokens : List ℕ) :
    slice start n tokens.dropLast = slice start (min (tokens.length - 1 - start) n) tokens := by
  rw [slice, slice, dropLast_eq_take, drop_take, take_take, min_comm]

theorem slice_drop_one (start n : ℕ) (tokens : List ℕ) :
    slice start n (tokens.drop 1) = slice (start + 1) (min (tokens.length - 1 - start) n) tokens := by
  rw [slice, slice, drop_drop, Nat.add_comm 1, min_comm, ← take_take]
  refine (congrArg _ (take_of_length_le ?_)).symm
  rw [length_drop]
  omega

/-- The entries under the ones of a mask. -/
theorem filter_zip_mask (xs : List ℤ) (valid : ℕ) :
    ((xs.zip (List.replicate valid 1 ++ List.replicate (xs.length - valid) 0)).filter fun entry =>
      entry.2 ≠ (0 : ℤ)).map Prod.fst = xs.take valid := by
  induction xs generalizing valid with
  | nil => simp
  | cons x xs ih =>
    cases valid with
    | zero =>
      have hrest := ih 0
      rw [replicate_zero, nil_append, Nat.sub_zero, take_zero] at hrest ⊢
      rw [length_cons, replicate_succ, zip_cons_cons, filter_cons_of_neg (by simp), hrest]
    | succ valid =>
      rw [replicate_succ, length_cons, Nat.add_sub_add_right, cons_append, zip_cons_cons,
        filter_cons_of_pos (by simp), map_cons, ih, take_succ_cons]

/-- The valid part of a window. -/
theorem valid_alignedRecord {valid : ℕ} (hvalid : valid ≤ blockSize) (window : List ℕ) {xs : List ℤ}
    (hlength : xs.length = blockSize) :
    (alignedRecord blockSize valid start window).valid xs = xs.take valid := by
  unfold TokenWindowRecord.valid alignedRecord
  dsimp only
  rcases hvalid.lt_or_eq with hlt | rfl
  · rw [if_pos hlt, ← hlength]
    exact filter_zip_mask xs valid
  · rw [if_neg (lt_irrefl _), take_of_length_le hlength.le]

/-- The window of the block at a position. -/
structure HoldsBlock (tokens : List ℕ) (blockSize start : ℕ) (record : TokenWindowRecord) : Prop where
  targets : record.valid record.targets = (slice start blockSize (tokens.drop 1)).map Int.ofNat
  inputs : record.valid record.inputs = (slice start blockSize tokens.dropLast).map Int.ofNat
  length_inputs : record.inputs.length = blockSize
  length_targets : record.targets.length = blockSize
  reset : record.resetStreamState = decide (start = 0)

/-- There is a window at every position but the last. -/
theorem exists_alignedWindow (hblock : 1 ≤ blockSize) (hmax : blockSize * 8 ≤ isizeMax)
    (hstart : start + 1 < tokens.length) (padToken : ℕ) : ∃ record,
      alignedWindow overflowChecks tokens blockSize padToken (tokens.length - 1) start = .ok record ∧
      HoldsBlock tokens blockSize start record := by
  obtain ⟨valid, hvalid⟩ : ∃ v, v = min (tokens.length - 1 - start) blockSize := ⟨_, rfl⟩
  obtain ⟨window, hwindow⟩ : ∃ w, w = copyFromSlice 0 (slice start (valid + 1) tokens)
    (List.replicate (blockSize + 1) padToken) := ⟨_, rfl⟩
  have hsource : (slice start (valid + 1) tokens).length = valid + 1 := length_slice (by omega)
  have happend : window = slice start (valid + 1) tokens ++
      List.replicate (blockSize - valid) padToken := by
    rw [hwindow, copyFromSlice, take_zero, nil_append, Nat.zero_add, hsource,
      drop_replicate, Nat.add_sub_add_right]
  have hlength : window.length = blockSize + 1 := by
    rw [happend, length_append, hsource, length_replicate]
    omega
  have hinputs : ((window.take blockSize).map Int.ofNat).take valid =
      (slice start valid tokens).map Int.ofNat := by
    rw [← map_take, take_take, min_eq_left (by omega), happend,
      take_append_of_le_length (by omega), slice, take_take, min_eq_left (Nat.le_succ _)]
    rfl
  have htargets : ((window.drop 1).map Int.ofNat).take valid =
      (slice (start + 1) valid tokens).map Int.ofNat := by
    rw [← map_take, happend, drop_append_of_le_length (by omega),
      take_append_of_le_length (by rw [length_drop]; omega), slice, drop_take,
      drop_drop, take_take, Nat.add_sub_cancel, min_self]
    rfl
  have hlengthInputs : ((window.take blockSize).map Int.ofNat).length = blockSize := by
    rw [length_map, length_take]
    omega
  have hlengthTargets : ((window.drop 1).map Int.ofNat).length = blockSize := by
    rw [length_map, length_drop]
    omega
  have hle : valid ≤ blockSize := by omega
  have hok : alignedWindow overflowChecks tokens blockSize padToken (tokens.length - 1) start =
      .ok (alignedRecord blockSize valid start window) := by
    unfold isizeMax at hmax
    have hcapacity : withCapacity 4 (blockSize + 1) = .ok () := if_pos (by unfold isizeMax; omega)
    have hcapacity' : withCapacity 8 blockSize = .ok () := if_pos (by unfold isizeMax; omega)
    rw [alignedWindow, usizeResult_of_le (by unfold usizeMax; omega), ← hvalid]
    simp only [bind, Except.bind, hcapacity, hcapacity', if_neg (show ¬ blockSize + 1 ≤ valid by omega)]
    rw [hwindow]
    rfl
  refine ⟨_, hok, ?_, ?_, hlengthInputs, hlengthTargets, rfl⟩
  · rw [slice_drop_one, ← hvalid, ← htargets]
    exact valid_alignedRecord hle window hlengthTargets
  · rw [slice_dropLast, ← hvalid, ← hinputs]
    exact valid_alignedRecord hle window hlengthInputs

/-- Every target is in the window of its block. -/
theorem exists_aligned (h : tokens.length ≤ 1 ∨ 1 ≤ blockSize ∧ blockSize * 8 ≤ isizeMax) :
    ∃ records, streamAlignedTokenWindowsFromTokens overflowChecks tokens blockSize = .ok records ∧
      Aligned tokens blockSize records := by
  unfold streamAlignedTokenWindowsFromTokens
  by_cases hshort : tokens.length ≤ 1
  · have hdrop : tokens.drop 1 = [] := drop_eq_nil_of_le hshort
    have hlast : tokens.dropLast = [] := eq_nil_of_length_eq_zero (by simp; omega)
    refine ⟨[], by simp [hshort], ?_, ?_, nofun, nofun, nofun⟩
    · rw [hdrop]
      rfl
    · rw [hlast]
      rfl
  obtain ⟨hblock, hmax⟩ := h.resolve_left hshort
  rw [if_neg (by simp [hshort]; omega)]
  dsimp only
  generalize hcount : (tokens.length - 1 + blockSize - 1) / blockSize = count
  have hle : tokens.length - 1 ≤ count * blockSize := by
    have := Nat.lt_div_mul_add hblock (a := tokens.length - 1 + blockSize - 1)
    rw [hcount] at this
    omega
  have hstart : ∀ i < count, i * blockSize + 1 < tokens.length := fun i hi => by
    have := Nat.mul_le_of_le_div blockSize (i + 1) _ (hcount ▸ hi)
    rw [Nat.succ_mul] at this
    omega
  obtain ⟨padToken, hpad⟩ : ∃ p, p = tokens.getLast?.getD 0 := ⟨_, rfl⟩
  have hwindow : ∀ s ∈ (List.range count).map (· * blockSize), ∃ record,
      alignedWindow overflowChecks tokens blockSize padToken (tokens.length - 1) s = .ok record ∧
      HoldsBlock tokens blockSize s record := by
    intro s hs
    obtain ⟨i, hi, rfl⟩ := mem_map.1 hs
    exact exists_alignedWindow hblock hmax (hstart i (mem_range.1 hi)) padToken
  have hholds : ∀ s ∈ (List.range count).map (· * blockSize), ∀ record,
      alignedWindow overflowChecks tokens blockSize padToken (tokens.length - 1) s = .ok record →
      HoldsBlock tokens blockSize s record := by
    intro s hs record hrecord
    obtain ⟨record', hrecord', hfacts⟩ := hwindow s hs
    obtain rfl := Except.ok.inj (hrecord.symm.trans hrecord')
    exact hfacts
  obtain ⟨records, hrecords⟩ := mapM_returns fun s hs => (hwindow s hs).imp fun _ h => h.1
  have hblocks : ∀ {i record}, records[i]? = some record →
      HoldsBlock tokens blockSize (i * blockSize) record := by
    intro i record hi
    obtain ⟨s, hs, hrecord⟩ := getElem?_of_mapM hrecords hi
    have hmem := hholds s (mem_of_getElem? hs) record hrecord
    rw [getElem?_map] at hs
    obtain ⟨i', hi', rfl⟩ := map_eq_some_iff.1 hs
    obtain ⟨hlt, rfl⟩ := List.getElem?_eq_some_iff.1 hi'
    rwa [getElem_range] at hmem
  refine ⟨records, hpad ▸ hrecords, ?_, ?_, fun record hrecord => ?_, fun record hrecord => ?_,
    fun i record hi => ?_⟩
  · rw [flatMap_def, map_of_mapM hrecords fun s hs record hrecord =>
      (hholds s hs record hrecord).targets, ← flatMap_def, flatMap_map, ← map_flatMap,
      flatMap_slice, take_of_length_le (by rw [length_drop]; exact hle)]
  · rw [flatMap_def, map_of_mapM hrecords fun s hs record hrecord =>
      (hholds s hs record hrecord).inputs, ← flatMap_def, flatMap_map, ← map_flatMap,
      flatMap_slice, take_of_length_le (by rw [length_dropLast]; exact hle)]
  · obtain ⟨i, hi⟩ := mem_iff_getElem?.1 hrecord
    exact (hblocks hi).length_inputs
  · obtain ⟨i, hi⟩ := mem_iff_getElem?.1 hrecord
    exact (hblocks hi).length_targets
  · rw [(hblocks hi).reset, decide_eq_true_eq, Nat.mul_eq_zero]
    omega

end Aligned

/-! ## Overlapping windows -/

section Overlapping

variable {tokens : List ℕ} {blockSize maxStart fuel start : ℕ} {records : List TokenWindowRecord}

theorem windowRecord_inputs (tokens : List ℕ) (blockSize start : ℕ) :
    (windowRecord tokens blockSize start).inputs = (slice start blockSize tokens).map Int.ofNat := by
  unfold windowRecord
  dsimp only
  rw [slice, take_take, min_eq_left (Nat.le_succ _)]
  rfl

theorem windowRecord_targets (tokens : List ℕ) (blockSize start : ℕ) :
    (windowRecord tokens blockSize start).targets =
      (slice (start + 1) blockSize tokens).map Int.ofNat := by
  unfold windowRecord
  dsimp only
  rw [slice, drop_take, drop_drop, Nat.add_sub_cancel]
  rfl

/-- The loop makes windows inside of the document, over every target from its start on. -/
theorem of_windowLoop (hlength : tokens.length = maxStart + blockSize + 1) (hstart : start ≤ maxStart)
    (h : windowLoop tokens blockSize maxStart fuel start = some records) :
    (∀ record ∈ records, ∃ s ≤ maxStart, record = windowRecord tokens blockSize s) ∧
    ∀ position, start < position → position < tokens.length →
      ∃ s, s ≤ maxStart ∧ windowRecord tokens blockSize s ∈ records ∧ s < position ∧
        position ≤ s + blockSize := by
  induction fuel generalizing start records with
  | zero => cases h
  | succ fuel ih =>
    rw [windowLoop] at h
    split_ifs at h with hdone
    · obtain rfl := some.inj h
      refine ⟨fun record hrecord => ⟨start, hstart, mem_singleton.1 hrecord⟩,
        fun position hposition hlt => ⟨start, hstart, mem_singleton_self _, hposition, ?_⟩⟩
      omega
    · obtain ⟨rest, hrest, h⟩ := bind_eq_some_iff.1 h
      obtain rfl := some.inj h
      obtain ⟨hslices, hcovers⟩ := ih (min_le_right _ _) hrest
      refine ⟨fun record hrecord => ?_, fun position hposition hlt => ?_⟩
      · rcases mem_cons.1 hrecord with rfl | hrecord
        · exact ⟨start, hstart, rfl⟩
        · exact hslices record hrecord
      · by_cases hnear : position ≤ start + blockSize
        · exact ⟨start, hstart, mem_cons_self, hposition, hnear⟩
        · have hnext : min (saturatingAdd start blockSize) maxStart < position :=
            (min_le_left _ _).trans_lt ((saturatingAdd_le _ _).trans_lt (not_le.1 hnear))
          obtain ⟨s, hs, hmem, hfacts⟩ := hcovers position hnext hlt
          exact ⟨s, hs, mem_cons_of_mem _ hmem, hfacts⟩

/-- A loop that ends does so with more fuel. -/
theorem windowLoop_mono (h : windowLoop tokens blockSize maxStart fuel start = some records)
    {fuel' : ℕ} (hfuel : fuel ≤ fuel') :
    windowLoop tokens blockSize maxStart fuel' start = some records := by
  induction fuel generalizing start records fuel' with
  | zero => cases h
  | succ fuel ih =>
    obtain ⟨fuel', rfl⟩ : ∃ n, fuel' = n + 1 := ⟨fuel' - 1, by omega⟩
    rw [windowLoop] at h ⊢
    split_ifs at h ⊢ with hdone
    · exact h
    · obtain ⟨rest, hrest, h⟩ := bind_eq_some_iff.1 h
      exact bind_eq_some_iff.2 ⟨rest, ih hrest (by omega), h⟩

theorem tokenWindowsFromTokens_mono
    (h : tokenWindowsFromTokens fuel tokens blockSize = some records) {fuel' : ℕ}
    (hfuel : fuel ≤ fuel') : tokenWindowsFromTokens fuel' tokens blockSize = some records := by
  unfold tokenWindowsFromTokens at h ⊢
  split_ifs at h ⊢ with hshort
  · exact h
  · exact windowLoop_mono h hfuel

/-- The windows of a document whose loop ends. -/
theorem overlapping_of_tokenWindows (h : tokenWindowsFromTokens fuel tokens blockSize = some records) :
    Overlapping tokens blockSize records := by
  unfold tokenWindowsFromTokens at h
  split_ifs at h with hshort
  · obtain rfl := some.inj h
    exact ⟨nofun, fun hlt => absurd hlt (not_lt.2 hshort)⟩
  · obtain ⟨hslices, hcovers⟩ := of_windowLoop (by omega) (Nat.zero_le _) h
    constructor
    · intro record hrecord
      obtain ⟨s, hs, rfl⟩ := hslices record hrecord
      have hlt : s + blockSize < tokens.length := by omega
      exact ⟨s, hlt, windowRecord_inputs _ _ _, windowRecord_targets _ _ _⟩
    · intro hlt position hfirst hposition
      obtain ⟨s, hs, hmem, hbefore, hafter⟩ := hcovers position (by omega) hposition
      exact ⟨_, hmem, s, hbefore, hafter, by omega, windowRecord_targets _ _ _⟩

/-- The loop ends for every block, and for short lists also without one. -/
theorem exists_tokenWindows (h : tokens.length ≤ 1 ∨ 1 ≤ blockSize)
    (hlength : tokens.length ≤ usizeMax) : ∃ records, ∀ fuel, tokens.length ≤ fuel →
      tokenWindowsFromTokens fuel tokens blockSize = some records := by
  suffices hends : ∃ records, tokenWindowsFromTokens tokens.length tokens blockSize = some records from
    hends.imp fun records hrecords _ hfuel => tokenWindowsFromTokens_mono hrecords hfuel
  rcases Nat.eq_zero_or_pos blockSize with rfl | hblock
  · unfold tokenWindowsFromTokens
    split_ifs with hempty
    · exact ⟨_, rfl⟩
    · obtain hone : tokens.length = 1 := by omega
      rw [hone]
      exact ⟨_, rfl⟩
  · exact tokenWindowsFromTokens_returns hblock hlength le_rfl

end Overlapping

/-! ## No target is lost -/

section Main

variable {overflowChecks : Bool} {tokens : List ℕ} {blockSize : ℕ}

/-- **Windowing loses no target.** For every block that a buffer holds, and for documents of at most one
token also for the others, both ways to cut a document end, one with every target once and the other with
a window over every target. Without a block there are no stream-aligned windows. -/
theorem windows_lose_no_target (overflowChecks : Bool) (hlength : tokens.length ≤ usizeMax)
    (h : tokens.length ≤ 1 ∨ 1 ≤ blockSize ∧ blockSize * 8 ≤ isizeMax) :
    (∃ records, streamAlignedTokenWindowsFromTokens overflowChecks tokens blockSize = .ok records ∧
      Aligned tokens blockSize records) ∧
    (∃ records, (∀ fuel, tokens.length ≤ fuel →
        tokenWindowsFromTokens fuel tokens blockSize = some records) ∧
      Overlapping tokens blockSize records) ∧
    streamAlignedTokenWindowsFromTokens overflowChecks tokens 0 = .ok [] := by
  refine ⟨exists_aligned h, ?_, if_pos (by simp)⟩
  obtain ⟨records, hrecords⟩ := exists_tokenWindows (h.imp_right And.left) hlength
  exact ⟨records, hrecords, overlapping_of_tokenWindows (hrecords _ le_rfl)⟩

theorem windows_lose_no_target_ten :
    (∃ records, streamAlignedTokenWindowsFromTokens true (List.range 10) 4 = .ok records ∧
      Aligned (List.range 10) 4 records) ∧
    (∃ records, (∀ fuel, 10 ≤ fuel →
        tokenWindowsFromTokens fuel (List.range 10) 4 = some records) ∧
      Overlapping (List.range 10) 4 records) ∧
    streamAlignedTokenWindowsFromTokens true (List.range 10) 0 = .ok [] :=
  windows_lose_no_target true (by decide) (.inr (by decide))

/-- Without a block the stream-aligned windows hold no target and the other loop does not end; a block
that no buffer holds is a panic. -/
theorem windows_without_block :
    (¬ ∃ records, streamAlignedTokenWindowsFromTokens true [1, 2] 0 = .ok records ∧
      Aligned [1, 2] 0 records) ∧
    (∀ fuel, tokenWindowsFromTokens fuel [1, 2] 0 = none) ∧
    streamAlignedTokenWindowsFromTokens true [1, 2] (2 ^ 60) = .error .capacityOverflow := by
  refine ⟨?_, fun fuel => ?_, ?_⟩
  · rintro ⟨records, hrecords, haligned⟩
    obtain rfl := Except.ok.inj hrecords
    exact absurd haligned.targets (by simp)
  · have hloop : windowLoop [1, 2] 0 1 fuel 0 = none := by
      induction fuel with
      | zero => rfl
      | succ fuel ih =>
        rw [windowLoop, if_neg (by decide)]
        exact Option.bind_eq_none_iff.2 fun rest hrest => absurd (ih.symm.trans hrest) (by simp)
    exact hloop
  · rfl

end Main

end BurnDragon.Browser
