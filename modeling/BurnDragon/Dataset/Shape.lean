import BurnDragon.Corpus.Storage
import BurnDragon.Dataset.Prefetch
import BurnDragon.Dataset.StreamingLoader

/-!
# Shapes of datasets

What the constructors of the datasets make of their data: the number of tokens, the boundary between the
splits, the block size and the length of the logical documents, as `HuggingFaceDataset::new`,
`UniversalityDataset::new` and the constructors of the on-the-fly datasets check and set them. From these
the loaders compute the range of a split and the layout of its documents.
-/

namespace BurnDragon.Dataset

open Rust Corpus

structure TokenDataset where
  storage : TokenStorage
  tokenCount : ℕ
  trainLen : ℕ
  blockSize : ℕ
  /-- `preferred_logical_document_tokens`, for both splits. -/
  logicalDocumentTokens : Option ℕ

namespace TokenDataset

/-! ## Constructors -/

/-- `HuggingFaceDataset::new`, from the tokens that it has loaded. `ratioLen` is the product of the token
count and the split ratio, rounded down. -/
def newHuggingFace (tokens : TokenStorage)
    (tokenCount trainTokenCount valTokenCount ratioLen blockSize : ℕ) :
    Except String TokenDataset :=
  if tokenCount ≤ blockSize + 1 then
    .error "encoded huggingface dataset smaller than block size"
  else
    let minLen := blockSize + 1
    let maxLen := tokenCount - 1
    let trainLen :=
      if valTokenCount = 0 then
        if ratioLen < minLen then minLen else if maxLen < ratioLen then maxLen else ratioLen
      else if trainTokenCount ≤ blockSize then min minLen maxLen
      else trainTokenCount
    .ok
      { storage := tokens
        tokenCount := tokenCount
        trainLen := trainLen
        blockSize := blockSize
        logicalDocumentTokens := none }

inductive CorpusKind
  | nca
  | ruliad
  deriving DecidableEq

/-- The fields of a corpus manifest that a dataset is made from. -/
structure UniversalityCorpusManifest where
  corpusKind : CorpusKind
  trainTokenCount : ℕ
  valTokenCount : ℕ
  tokenCount : ℕ
  trainSamples : ℕ
  validationSamples : ℕ
  chunks : List UniversalityChunkManifest

/-- The length of the documents of a split, when all could have the same. -/
def documentTokens (tokenCount samples : ℕ) : Option ℕ :=
  if samples ≠ 0 ∧ tokenCount % samples = 0 then some (tokenCount / samples) else none

def fixedManifestLogicalDocumentTokens (manifest : UniversalityCorpusManifest) :
    Except String (Option ℕ) := do
  let documentTokenCount ←
    match documentTokens manifest.trainTokenCount manifest.trainSamples,
      documentTokens manifest.valTokenCount manifest.validationSamples with
    | some train, some val =>
      if train = val then .ok (some train)
      else .error "universality manifest has inconsistent prepared document lengths across splits"
    | some train, none => .ok (some train)
    | none, some val => .ok (some val)
    | none, none => .ok none
  match documentTokenCount with
  | some 0 => .error "universality manifest document token count must be > 0"
  | some count => .ok (some (count - 1))
  | none => .ok none

/-- `UniversalityDataset::new`. -/
def newManifest (dir : ChunkDir) (manifest : UniversalityCorpusManifest) (blockSize : ℕ) :
    Except String TokenDataset := do
  let logicalDocumentTokens ← fixedManifestLogicalDocumentTokens manifest
  if manifest.corpusKind = .nca ∧ logicalDocumentTokens.any (· < blockSize) then
    .error "training.block_size exceeds prepared NCA logical document length"
  else do
    let chunks ← manifest.chunks.mapM fun chunk =>
      match dir chunk.fileName with
      | none => .error "universality chunk missing"
      | some bytes =>
        if bytes.length ≠ saturatingMul chunk.tokenCount 4 then
          .error "universality chunk size mismatch"
        else .ok chunk.toFile
    return {
      storage := .chunked dir chunks
      tokenCount := manifest.tokenCount
      trainLen := manifest.trainTokenCount
      blockSize := blockSize
      logicalDocumentTokens := logicalDocumentTokens }

/-- The constructors of the on-the-fly datasets, from the corpus that they have loaded. -/
def newOnTheFly (corpus : OnTheFlyStorage) (blockSize : ℕ) : Except String TokenDataset :=
  let logicalDocumentTokens := corpus.documentTokenCount - 1
  if logicalDocumentTokens = 0 then
    .error "on-the-fly corpus must yield at least one input token per document"
  else if logicalDocumentTokens < blockSize then
    .error "training.block_size exceeds on-the-fly logical document length"
  else
    let trainLen := saturatingMul corpus.trainSamples corpus.documentTokenCount
    .ok
      { storage := .onTheFly corpus
        tokenCount := saturatingAdd trainLen
          (saturatingMul corpus.validationSamples corpus.documentTokenCount)
        trainLen := trainLen
        blockSize := blockSize
        logicalDocumentTokens := some logicalDocumentTokens }

/-- A constructor makes the dataset. -/
inductive Constructed (dataset : TokenDataset) : Prop
  | huggingFace (tokens : TokenStorage)
      (tokenCount trainTokenCount valTokenCount ratioLen blockSize : ℕ) :
    newHuggingFace tokens tokenCount trainTokenCount valTokenCount ratioLen blockSize = .ok dataset →
    Constructed dataset
  | manifest (dir : ChunkDir) (manifest : UniversalityCorpusManifest) (blockSize : ℕ) :
    newManifest dir manifest blockSize = .ok dataset → Constructed dataset
  | onTheFly (corpus : OnTheFlyStorage) (blockSize : ℕ) :
    newOnTheFly corpus blockSize = .ok dataset → Constructed dataset

/-! ## Splits and documents -/

variable (dataset : TokenDataset)

def splitOffsetAndSpan : DatasetSplit → ℕ × ℕ
  | .train => (0, dataset.trainLen)
  | .val =>
    let remaining := dataset.tokenCount - dataset.trainLen
    if remaining ≤ dataset.blockSize + 1 then (0, dataset.trainLen)
    else (dataset.trainLen, remaining)

/-- The block size of a loader. -/
def loaderBlockSize : ℕ := max dataset.blockSize 1

def resolveStreamLogicalDocumentTokens (split : DatasetSplit)
    (requestedMinLogicalBlockSize : Option ℕ) : ℕ :=
  let blockSize := dataset.loaderBlockSize
  match dataset.logicalDocumentTokens with
  | some documentTokens => max documentTokens blockSize
  | none =>
    let maxInputs := (dataset.splitOffsetAndSpan split).2 - 1
    let desired := max (requestedMinLogicalBlockSize.getD blockSize) blockSize
    let roundedUp := saturatingMul ((desired + blockSize - 1) / blockSize) blockSize
    let maxMultiple := saturatingMul (max (maxInputs / blockSize) 1) blockSize
    max (min roundedUp maxMultiple) blockSize

end TokenDataset

/-- A dataset that a constructor makes, and the number of tokens that it can copy from. -/
structure AdmittedDataset extends TokenDataset where
  dataLen : ℕ
  constructed : toTokenDataset.Constructed
  holds : storage.Holds trainLen dataLen
  tokenCount_le : tokenCount ≤ usizeMax
  trainLen_le : trainLen ≤ usizeMax
  blockSize_le : blockSize ≤ usizeMax
  logicalDocumentTokens_lt : ∀ documentTokens ∈ logicalDocumentTokens, documentTokens < usizeMax

namespace AdmittedDataset

variable (dataset : AdmittedDataset) {split : DatasetSplit}

theorem loaderBlockSize_pos : 0 < dataset.loaderBlockSize :=
  Nat.lt_of_lt_of_le Nat.zero_lt_one (le_max_right ..)

theorem loaderBlockSize_le : dataset.loaderBlockSize ≤ usizeMax :=
  max_le dataset.blockSize_le (by decide)

theorem splitSpan_le (split : DatasetSplit) :
    (dataset.splitOffsetAndSpan split).2 ≤ usizeMax := by
  have htrain := dataset.trainLen_le
  have htokens := dataset.tokenCount_le
  cases split with
  | train => exact htrain
  | val =>
    rw [TokenDataset.splitOffsetAndSpan]
    split_ifs
    · exact htrain
    · exact (Nat.sub_le ..).trans htokens

/-- Documents of a length of the loader's own choice are a multiple of the block size and fit into the
split. -/
theorem resolveStreamLogicalDocumentTokens_spec (hnone : dataset.logicalDocumentTokens = none)
    (hspan : dataset.loaderBlockSize + 1 ≤ (dataset.splitOffsetAndSpan split).2)
    (requestedMinLogicalBlockSize : Option ℕ) :
    dataset.loaderBlockSize ∣
        dataset.resolveStreamLogicalDocumentTokens split requestedMinLogicalBlockSize ∧
      dataset.resolveStreamLogicalDocumentTokens split requestedMinLogicalBlockSize + 1 ≤
        (dataset.splitOffsetAndSpan split).2 := by
  have hpos := dataset.loaderBlockSize_pos
  have hle := dataset.splitSpan_le split
  rw [TokenDataset.resolveStreamLogicalDocumentTokens, hnone]
  generalize dataset.loaderBlockSize = b at *
  generalize (dataset.splitOffsetAndSpan split).2 = span at *
  dsimp only
  have hquot : 1 ≤ (span - 1) / b := (Nat.le_div_iff_mul_le hpos).2 (by omega)
  have hmul : (span - 1) / b * b ≤ span - 1 := Nat.div_mul_le_self ..
  have hmax : saturatingMul (max ((span - 1) / b) 1) b = (span - 1) / b * b := by
    rw [max_eq_left hquot, saturatingMul, min_eq_left (by omega)]
  rw [hmax]
  have hbounded : ∀ tokens, b ∣ tokens → tokens ≤ (span - 1) / b * b →
      b ∣ max tokens b ∧ max tokens b + 1 ≤ span := by
    intro tokens hdvd htokens
    refine ⟨?_, by omega⟩
    rcases max_choice tokens b with heq | heq
    · rwa [heq]
    · rw [heq]
  rcases min_choice (saturatingMul ((max (requestedMinLogicalBlockSize.getD b) b + b - 1) / b) b)
    ((span - 1) / b * b) with heq | heq
  · -- A product that is not above the other one is not saturated.
    have hroundedUp := min_eq_left_iff.1 heq
    rw [heq]
    refine hbounded _ ?_ hroundedUp
    rcases min_choice ((max (requestedMinLogicalBlockSize.getD b) b + b - 1) / b * b) usizeMax with
      hmin | hmin
    · rw [saturatingMul, hmin]
      exact Nat.dvd_mul_left b _
    · rw [saturatingMul, hmin] at hroundedUp
      omega
  · rw [heq]
    exact hbounded _ (Nat.dvd_mul_left b _) le_rfl

end AdmittedDataset

end BurnDragon.Dataset
