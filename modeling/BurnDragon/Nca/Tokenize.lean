import BurnDragon.Nca.Config

/-!
# Tokens of a sample

A sample is a list of frames; a frame lists its cells row by row. `patch_token_ids` and
`encode_patch_sample` cut every frame into square patches and turn a patch into the number that its
cells spell in the base of the state count (`patchValue`). With frame special tokens the encoding puts
two boundary tokens around every frame: the number of patches that the state count of the sample allows,
and its successor.
-/

namespace BurnDragon.Nca

open Rust

structure NcaSample where
  familyKind : NcaFamilyKind
  complexityBand : NcaComplexityBand
  width : ℕ
  height : ℕ
  stateCount : ℕ
  frames : List (List ℕ)
  ruleSeed : Option UInt64
  complexityFilterMatched : Bool
  identityBias : Float32
  temperature : Float32
  stepStride : ℕ
  startStep : ℕ
  gzipComplexityRatio : Float32

/-! ## Patches -/

/-- The next digit of a patch: `checked_mul` and `checked_add` of `u32`. -/
def pushDigit (radix value cell : ℕ) : Option ℕ :=
  if value * radix < 2 ^ 32 ∧ value * radix + cell < 2 ^ 32 then some (value * radix + cell) else none

/-- The coordinates of the cells of a patch, in the order of the loops. -/
def patchCells (patchSize patchX patchY : ℕ) : List (ℕ × ℕ) :=
  (List.range patchSize).flatMap fun dy => (List.range patchSize).map fun dx =>
    (patchX * patchSize + dx, patchY * patchSize + dy)

/-- The patches of a frame, in the order of the loops. -/
def patches (patchesPerRow patchesPerCol : ℕ) : List (ℕ × ℕ) :=
  (List.range patchesPerCol).flatMap fun patchY => (List.range patchesPerRow).map fun patchX =>
    (patchX, patchY)

theorem length_patches (perRow perCol : ℕ) : (patches perRow perCol).length = perRow * perCol := by
  simp [patches, Nat.mul_comm]

/-- The value of a patch. -/
def patchValue {ε : Type} (overflow : ε) (panic : Panic → ε) (radix width : ℕ) (frame : List ℕ)
    (cells : List (ℕ × ℕ)) : Except ε ℕ :=
  cells.foldlM (fun value (x, y) => do
    let cell ← (index frame (y * width + x)).mapError panic
    okOr (pushDigit radix value cell) overflow) 0

/-- `patch_token_ids`. -/
def patchTokenIds (sample : NcaSample) (serialization : NcaSerializationConfig) : Run (List ℕ) := do
  let patchSize := max serialization.patchSize 1
  let frames ← sample.frames.mapM fun frame =>
    (patches (sample.width / patchSize) (sample.height / patchSize)).mapM fun (patchX, patchY) =>
      patchValue .arithmeticOverflow id (sample.stateCount % 2 ^ 32) sample.width frame
        (patchCells patchSize patchX patchY)
  return frames.flatten

/-! ## Encoding -/

inductive CorpusTokenizer
  | gpt2ByteCompatible (vocabSize : ℕ) (eosId : Option UInt32)
  | patchTokenIds (vocabSize : ℕ) (eosId : Option UInt32) (frameSpecialTokens : Bool)
  | rustBpe (mergeableVocabSize : ℕ) (bosId eosId padId unkId : Option UInt32) (tokenizerId : String)
  deriving DecidableEq

/-- The boundary tokens of a sample. -/
def frameStartId (frameSpecialTokens : Bool) (patchVocabSize : ℕ) : Option ℕ :=
  if frameSpecialTokens then some patchVocabSize else none

def frameEndId (frameSpecialTokens : Bool) (patchVocabSize : ℕ) : Option ℕ :=
  (frameStartId frameSpecialTokens patchVocabSize).bind checkedSucc

/-- A boundary token, which must be below the vocabulary size. -/
def encodeBoundary (label : String) (vocabSize : ℕ) (id : Option ℕ) : Fallible String (List ℕ) :=
  match id with
  | none => .ok []
  | some id => do
    reject (decide (vocabSize ≤ id))
      s!"frame {label} token id {id} exceeds configured vocab_size {vocabSize}"
    return [id]

def encodePatch (vocabSize radix width : ℕ) (frame : List ℕ) (cells : List (ℕ × ℕ)) :
    Fallible String ℕ := do
  let value ← patchValue (.error "patch token id overflow") .panic radix width frame cells
  reject (decide (vocabSize ≤ value))
    s!"patch token id {value} exceeds configured vocab_size {vocabSize}"
  return value

def encodeFrame (vocabSize patchSize : ℕ) (startId endId : Option ℕ) (sample : NcaSample)
    (frame : List ℕ) : Fallible String (List ℕ) := do
  let opening ← encodeBoundary "start" vocabSize startId
  let values ← (patches (sample.width / patchSize) (sample.height / patchSize)).mapM
    fun (patchX, patchY) =>
      encodePatch vocabSize (sample.stateCount % 2 ^ 32) sample.width frame
        (patchCells patchSize patchX patchY)
  let closing ← encodeBoundary "end" vocabSize endId
  return opening ++ values ++ closing

/-- The last token, which must not be a boundary token. -/
def encodeEos (startId endId : Option ℕ) (eosId : Option UInt32) : Fallible String (List ℕ) :=
  match eosId with
  | none => .ok []
  | some eosId => do
    reject (decide (some eosId.toNat = startId) || decide (some eosId.toNat = endId))
      s!"patch document eos_id {eosId.toNat} collides with frame boundary token ids"
    return [eosId.toNat]

/-- `encode_patch_sample`. -/
def CorpusTokenizer.encodePatchSample (tokenizer : CorpusTokenizer) (sample : NcaSample)
    (serialization : NcaSerializationConfig) : Fallible String (List ℕ) :=
  match tokenizer with
  | .patchTokenIds vocabSize eosId frameSpecialTokens => do
    let patchSize := max serialization.patchSize 1
    let patchCells ← okOr (checkedMul patchSize patchSize) (.error "patch cell count overflow")
    let patchVocabSize := (sample.stateCount % 2 ^ 32) ^ (patchCells % 2 ^ 32)
    reject (decide (2 ^ 32 ≤ patchVocabSize)) "patch token vocabulary overflow"
    let startId := frameStartId frameSpecialTokens patchVocabSize
    let endId := frameEndId frameSpecialTokens patchVocabSize
    let frames ← sample.frames.mapM (encodeFrame vocabSize patchSize startId endId sample)
    let eos ← encodeEos startId endId eosId
    return frames.flatten ++ eos
  | .gpt2ByteCompatible .. | .rustBpe .. =>
    .error (.error "tokenizer does not support direct NCA patch-sample encoding")

end BurnDragon.Nca
