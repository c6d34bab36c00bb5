import BurnDragon.Nca.Patches

/-!
# What the encoder writes

`encodePatchSample_eq_ok` says for which samples `encode_patch_sample` succeeds, and what it writes
then: for every frame the boundary tokens around the values of the patches, and the end of sequence.
-/

namespace BurnDragon.Nca

open Rust Layout

variable {vocabSize patchSize stateCount width height : ℕ} {startId endId : Option ℕ}
  {sample : NcaSample} {frame tokens : List ℕ} {ext : Type}

theorem reject_eq_ok {condition : Bool} {message : String} {u : Unit} :
    reject condition message = .ok u ↔ condition = false := by
  cases condition <;> simp [reject]

/-- The tokens that an optional id adds. -/
theorem encodeBoundary_eq_ok {label : String} {id : Option ℕ} :
    encodeBoundary label vocabSize id = .ok tokens ↔
      (∀ i ∈ id, i < vocabSize) ∧ tokens = id.toList := by
  cases id with
  | none => simp [encodeBoundary, eq_comm]
  | some i =>
    simp only [encodeBoundary, bind_eq_ok, reject_eq_ok, decide_eq_false_iff_not, not_le]
    constructor
    · rintro ⟨-, hlt, ⟨⟩⟩
      exact ⟨by simpa using hlt, rfl⟩
    · rintro ⟨hlt, rfl⟩
      exact ⟨(), hlt i rfl, rfl⟩

theorem encodeEos_eq_ok {eosId : Option UInt32} :
    encodeEos startId endId eosId = .ok tokens ↔
      (∀ id ∈ eosId, some id.toNat ≠ startId ∧ some id.toNat ≠ endId) ∧
        tokens = (eosId.map UInt32.toNat).toList := by
  cases eosId with
  | none => simp [encodeEos, eq_comm]
  | some id =>
    simp only [encodeEos, bind_eq_ok, reject_eq_ok, Bool.or_eq_false_iff, decide_eq_false_iff_not]
    constructor
    · rintro ⟨-, hne, ⟨⟩⟩
      exact ⟨by simpa using hne, rfl⟩
    · rintro ⟨hne, rfl⟩
      exact ⟨(), hne id rfl, rfl⟩

/-- The value of a patch that the encoder accepts. -/
def PatchFits (vocabSize width patchSize stateCount : ℕ) (frame : List ℕ) (patch : ℕ × ℕ) : Prop :=
  frameValue width patchSize stateCount frame patch < 2 ^ 32 ∧
    frameValue width patchSize stateCount frame patch < vocabSize

theorem encodePatch_eq_ok (hframe : FrameOf width height stateCount frame) (hpos : 0 < stateCount)
    {patch : ℕ × ℕ} (hpatch : patch ∈ patches (width / patchSize) (height / patchSize)) {value : ℕ} :
    encodePatch vocabSize stateCount width frame (patchCells patchSize patch.1 patch.2) = .ok value ↔
      PatchFits vocabSize width patchSize stateCount frame patch ∧
        value = frameValue width patchSize stateCount frame patch := by
  rw [encodePatch, patchValue_eq hpos (hframe.cell_index_lt hpatch), ← frameValue, PatchFits]
  split_ifs with hlt
  · simp only [bind_eq_ok, reject_eq_ok, decide_eq_false_iff_not, not_le]
    constructor
    · rintro ⟨_, ⟨⟩, -, hvocab, ⟨⟩⟩
      exact ⟨⟨hlt, hvocab⟩, rfl⟩
    · rintro ⟨⟨-, hvocab⟩, rfl⟩
      exact ⟨_, rfl, (), hvocab, rfl⟩
  · constructor
    · intro h
      cases h
    · rintro ⟨⟨h, -⟩, -⟩
      exact absurd h hlt

/-- The tokens of a frame. -/
def frameTokens (startId endId : Option ℕ) (width height patchSize stateCount : ℕ) (frame : List ℕ) :
    List ℕ :=
  startId.toList ++ (patches (width / patchSize) (height / patchSize)).map
    (frameValue width patchSize stateCount frame) ++ endId.toList

/-- The boundary tokens that the encoder accepts. -/
def BoundariesFit (vocabSize : ℕ) (startId endId : Option ℕ) : Prop :=
  (∀ id ∈ startId, id < vocabSize) ∧ ∀ id ∈ endId, id < vocabSize

theorem encodeFrame_eq_ok (hframe : FrameOf sample.width sample.height sample.stateCount frame)
    (hpos : 0 < sample.stateCount) (hstates : sample.stateCount < 2 ^ 32) :
    encodeFrame vocabSize patchSize startId endId sample frame = .ok tokens ↔
      (BoundariesFit vocabSize startId endId ∧
        ∀ patch ∈ patches (sample.width / patchSize) (sample.height / patchSize),
          PatchFits vocabSize sample.width patchSize sample.stateCount frame patch) ∧
      tokens = frameTokens startId endId sample.width sample.height patchSize sample.stateCount frame := by
  have hvalues : ∀ values, (patches (sample.width / patchSize) (sample.height / patchSize)).mapM
      (fun patch => encodePatch vocabSize sample.stateCount sample.width frame
        (patchCells patchSize patch.1 patch.2)) = .ok values ↔ _ :=
    fun values => mapM_eq_ok_iff fun patch hpatch value => encodePatch_eq_ok hframe hpos hpatch
  rw [encodeFrame, Nat.mod_eq_of_lt hstates]
  simp only [bind_eq_ok, encodeBoundary_eq_ok]
  constructor
  · rintro ⟨_, ⟨hstart, rfl⟩, values, hmap, _, ⟨hend, rfl⟩, ⟨⟩⟩
    obtain ⟨hpatches, rfl⟩ := (hvalues values).1 hmap
    exact ⟨⟨⟨hstart, hend⟩, hpatches⟩, rfl⟩
  · rintro ⟨⟨⟨hstart, hend⟩, hpatches⟩, rfl⟩
    exact ⟨_, ⟨hstart, rfl⟩, _, (hvalues _).2 ⟨hpatches, rfl⟩, _, ⟨hend, rfl⟩, rfl⟩

/-! ## Samples -/

/-- The number of patches, from which the boundary tokens are made. -/
def patchVocabSize (patchSize stateCount : ℕ) : ℕ := stateCount ^ (patchSize * patchSize % 2 ^ 32)

/-- What the encoder checks once for a sample. -/
structure SampleFits (vocabSize : ℕ) (eosId : Option UInt32) (frameSpecialTokens : Bool)
    (patchSize stateCount : ℕ) : Prop where
  cells : patchSize * patchSize ≤ usizeMax
  patchVocab : patchVocabSize patchSize stateCount < 2 ^ 32
  eos : ∀ id ∈ eosId,
    some id.toNat ≠ frameStartId frameSpecialTokens (patchVocabSize patchSize stateCount) ∧
      some id.toNat ≠ frameEndId frameSpecialTokens (patchVocabSize patchSize stateCount)

/-- What the encoder checks in every frame. -/
structure FrameFits (vocabSize : ℕ) (frameSpecialTokens : Bool) (patchSize : ℕ) (sample : NcaSample)
    (frame : List ℕ) : Prop where
  boundaries : BoundariesFit vocabSize
    (frameStartId frameSpecialTokens (patchVocabSize patchSize sample.stateCount))
    (frameEndId frameSpecialTokens (patchVocabSize patchSize sample.stateCount))
  patches : ∀ patch ∈ patches (sample.width / patchSize) (sample.height / patchSize),
    PatchFits vocabSize sample.width patchSize sample.stateCount frame patch

/-- The tokens of a sample. -/
def sampleTokens (eosId : Option UInt32) (frameSpecialTokens : Bool) (patchSize : ℕ)
    (sample : NcaSample) : List ℕ :=
  (sample.frames.map (frameTokens
    (frameStartId frameSpecialTokens (patchVocabSize patchSize sample.stateCount))
    (frameEndId frameSpecialTokens (patchVocabSize patchSize sample.stateCount))
    sample.width sample.height patchSize sample.stateCount)).flatten ++
    (eosId.map UInt32.toNat).toList

/-- **The encoder.** It succeeds exactly on the samples that pass its checks, and then writes the
tokens of the sample. -/
theorem encodePatchSample_eq_ok {eosId : Option UInt32} {frameSpecialTokens : Bool}
    {serialization : NcaSerializationConfig} (hpatch : 0 < serialization.patchSize)
    (hframes : ∀ frame ∈ sample.frames,
      FrameOf sample.width sample.height sample.stateCount frame)
    (hpos : 0 < sample.stateCount) (hstates : sample.stateCount < 2 ^ 32) :
    (CorpusTokenizer.patchTokenIds vocabSize eosId frameSpecialTokens).encodePatchSample sample
        serialization = .ok tokens ↔
      (SampleFits vocabSize eosId frameSpecialTokens serialization.patchSize sample.stateCount ∧
        ∀ frame ∈ sample.frames,
          FrameFits vocabSize frameSpecialTokens serialization.patchSize sample frame) ∧
      tokens = sampleTokens eosId frameSpecialTokens serialization.patchSize sample := by
  have hcells : ∀ cells, okOr (checkedMul serialization.patchSize serialization.patchSize)
      (Fault.error "patch cell count overflow") = .ok cells ↔
      serialization.patchSize * serialization.patchSize ≤ usizeMax ∧
        cells = serialization.patchSize * serialization.patchSize := by
    intro cells
    rw [okOr_eq_ok, checkedMul]
    split_ifs with h <;> simp [h, eq_comm]
  have hmap : ∀ frames, sample.frames.mapM (encodeFrame vocabSize serialization.patchSize
      (frameStartId frameSpecialTokens (patchVocabSize serialization.patchSize sample.stateCount))
      (frameEndId frameSpecialTokens (patchVocabSize serialization.patchSize sample.stateCount))
      sample) = .ok frames ↔ _ :=
    fun frames => mapM_eq_ok_iff fun frame hframe value =>
      encodeFrame_eq_ok (hframes frame hframe) hpos hstates
  have hmax : max serialization.patchSize 1 = serialization.patchSize := max_eq_left hpatch
  rw [CorpusTokenizer.encodePatchSample]
  simp only [hmax, bind_eq_ok, hcells, Nat.mod_eq_of_lt hstates, reject_eq_ok,
    decide_eq_false_iff_not, not_le, encodeEos_eq_ok]
  constructor
  · rintro ⟨_, ⟨hcells, rfl⟩, -, hvocab, frames, hframes', _, ⟨heos, rfl⟩, ⟨⟩⟩
    obtain ⟨hfits, rfl⟩ := (hmap frames).1 hframes'
    exact ⟨⟨⟨hcells, hvocab, heos⟩, fun frame hframe => ⟨(hfits frame hframe).1, (hfits frame hframe).2⟩⟩,
      rfl⟩
  · rintro ⟨⟨⟨hcells, hvocab, heos⟩, hfits⟩, rfl⟩
    exact ⟨_, ⟨hcells, rfl⟩, (), hvocab, _,
      (hmap _).2 ⟨fun frame hframe => ⟨(hfits frame hframe).1, (hfits frame hframe).2⟩, rfl⟩, _,
      ⟨heos, rfl⟩, rfl⟩

end BurnDragon.Nca
