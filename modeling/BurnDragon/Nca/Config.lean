import BurnDragon.Rust.Text

/-!
# Configurations of NCA corpora

The configuration of a corpus of cellular automata samples, and `validate`. A corpus has families; a
family says which automaton makes its samples and from which ranges the sizes of a sample are drawn.
A tokenization with `patch_token_ids` turns every patch of a frame into the number that its cells spell
in the base of the state count.

A build with overflow checks panics where the patch size squared does not fit in a `usize`, the others
wrap around (`patchExponent`).
-/

namespace BurnDragon.Nca

open Rust

/-! ## Data -/

inductive NcaComplexityBand
  | simple
  | medium
  | complex
  deriving DecidableEq, Repr

inductive NcaFamilyKind
  | neuralStochastic
  | lifeLikeBinary
  | cyclic
  | neuralTotalistic
  deriving DecidableEq, Repr

structure UsizeRangeConfig where
  min : ℕ
  max : ℕ
  deriving DecidableEq, Repr

structure FloatRangeConfig where
  min : Float32
  max : Float32

structure NcaRuleFilterConfig where
  threshold : Option Float32
  upperBound : Option Float32
  maxAttempts : ℕ
  scoringExamples : Option ℕ

structure NcaFamilyConfig where
  kind : NcaFamilyKind
  weight : ℕ
  complexity : NcaComplexityBand
  gridSize : Option UsizeRangeConfig
  steps : Option UsizeRangeConfig
  stateCount : Option UsizeRangeConfig
  stepStride : Option UsizeRangeConfig
  startStep : Option UsizeRangeConfig
  identityBias : Option FloatRangeConfig
  temperature : Option FloatRangeConfig
  ruleFilter : Option NcaRuleFilterConfig

structure NcaSerializationConfig where
  patchSize : ℕ
  includeObservableHeader : Bool
  previewSamples : ℕ
  deriving DecidableEq, Repr

inductive NcaTokenizationConfig
  | gpt2ByteCompatible (vocabSize : ℕ) (eosId : Option UInt32)
  | patchTokenIds (vocabSize : ℕ) (eosId : Option UInt32) (frameSpecialTokens : Bool)
  | rustBpe (vocabPath : String) (mergeableVocabSize : ℕ) (bosId eosId padId unkId : Option UInt32)
  deriving DecidableEq

structure NcaCorpusConfig where
  outputDir : String
  seed : UInt64
  name : String
  trainSamples : ℕ
  validationSamples : ℕ
  chunkTokenCapacity : ℕ
  serialization : NcaSerializationConfig
  tokenization : NcaTokenizationConfig
  families : List NcaFamilyConfig

/-! ## Ranges -/

/-- A check of `validate`. -/
def reject (condition : Bool) (message : String) : Fallible String Unit :=
  if condition then .error (.error message) else .ok ()

/-- The check of a field that may be left out. -/
def checkSome {α : Type} (field : Option α) (check : α → Fallible String Unit) :
    Fallible String Unit :=
  match field with
  | none => .ok ()
  | some value => check value

def UsizeRangeConfig.validate (range : UsizeRangeConfig) (label : String) : Fallible String Unit :=
  reject (decide (range.max < range.min)) s!"{label}.min must be <= {label}.max"

/-- A range whose bounds must not be 0. -/
def UsizeRangeConfig.validatePositive (range : UsizeRangeConfig) (label : String) :
    Fallible String Unit := do
  range.validate label
  reject (range.min = 0 || range.max = 0) s!"{label} bounds must be > 0"

def FloatRangeConfig.validate (range : FloatRangeConfig) (label : String) : Fallible String Unit := do
  reject (!range.min.isFinite || !range.max.isFinite) s!"{label} bounds must be finite"
  reject (decide (range.max < range.min)) s!"{label}.min must be <= {label}.max"

/-- A bound of the complexity ratio lies between 0 and 1. -/
def checkRatio (label field : String) (ratio : Float32) : Fallible String Unit :=
  reject (!ratio.isFinite || !(decide (0 ≤ ratio) && decide (ratio ≤ 1)))
    s!"{label}.{field} must be within [0, 1]"

def NcaRuleFilterConfig.validate (filter : NcaRuleFilterConfig) (label : String) :
    Fallible String Unit := do
  checkSome filter.threshold (checkRatio label "threshold")
  checkSome filter.upperBound (checkRatio label "upper_bound")
  checkSome filter.threshold fun lower => checkSome filter.upperBound fun upper =>
    reject (decide (upper < lower)) s!"{label}.threshold must be <= {label}.upper_bound"
  reject (filter.maxAttempts = 0) s!"{label}.max_attempts must be > 0"
  reject (filter.scoringExamples = some 0) s!"{label}.scoring_examples must be > 0"

def NcaFamilyConfig.validate (family : NcaFamilyConfig) (index : ℕ) : Fallible String Unit := do
  let label := s!"families[{index}]"
  reject (family.weight = 0) s!"{label}.weight must be > 0"
  checkSome family.gridSize (·.validatePositive s!"{label}.grid_size")
  checkSome family.steps (·.validatePositive s!"{label}.steps")
  checkSome family.stateCount (·.validatePositive s!"{label}.state_count")
  checkSome family.stepStride (·.validatePositive s!"{label}.step_stride")
  checkSome family.startStep (·.validate s!"{label}.start_step")
  checkSome family.identityBias (·.validate s!"{label}.identity_bias")
  checkSome family.temperature (·.validate s!"{label}.temperature")
  checkSome family.ruleFilter (·.validate s!"{label}.rule_filter")

/-! ## The vocabulary -/

def maxStateCountForFamily (family : NcaFamilyConfig) : ℕ :=
  match family.stateCount with
  | some range => max range.max 1
  | none =>
    match family.kind, family.complexity with
    | .neuralStochastic, _ => 10
    | .lifeLikeBinary, _ => 2
    | .cyclic, .simple => 4
    | .cyclic, .medium => 6
    | .cyclic, .complex => 8
    | .neuralTotalistic, .simple => 6
    | .neuralTotalistic, .medium => 10
    | .neuralTotalistic, .complex => 16

def maxPatchStateCount (families : List NcaFamilyConfig) : ℕ :=
  (families.map maxStateCountForFamily).max?.getD 1

/-- `usize::checked_pow`. -/
def checkedPow (base exponent : ℕ) : Option ℕ :=
  if base ^ exponent ≤ usizeMax then some (base ^ exponent) else none

/-- `(patch_size * patch_size) as u32`. -/
def patchExponent (overflowChecks : Bool) (patchSize : ℕ) : Run ℕ := do
  let cells ← usizeResult overflowChecks (patchSize * patchSize)
  return cells % 2 ^ 32

/-- `u32::checked_add(1)`. -/
def checkedSucc (id : ℕ) : Option ℕ := if id + 1 < 2 ^ 32 then some (id + 1) else none

/-- The `eos_id` must be below a vocabulary size. -/
def checkEos (eosId : Option UInt32) (vocabSize : ℕ) : Fallible String Unit :=
  reject (eosId.any fun id => decide (vocabSize ≤ id.toNat))
    "tokenization.eos_id must be < tokenization.vocab_size"

/-- The arm of `patch_token_ids`. -/
def checkPatchTokenIds (overflowChecks : Bool) (config : NcaCorpusConfig) (vocabSize : ℕ)
    (eosId : Option UInt32) (frameSpecialTokens : Bool) : Fallible String Unit := do
  reject (vocabSize < 2) "tokenization.vocab_size must be >= 2 for patch_token_ids"
  checkEos eosId vocabSize
  let patchStates := maxPatchStateCount config.families
  let exponent ← (patchExponent overflowChecks config.serialization.patchSize).mapError .panic
  let patchVocabSize ← okOr (checkedPow patchStates exponent)
    (.error "patch token vocabulary overflow")
  let frameSpecialBudget := frameSpecialTokens.toNat * 2
  let specialBudget := eosId.isSome.toNat + frameSpecialBudget
  if vocabSize < saturatingAdd patchVocabSize specialBudget then
    let needed ← (usizeResult overflowChecks (patchVocabSize + specialBudget)).mapError .panic
    throw (.error (s!"tokenization.vocab_size={vocabSize} is too small for patch_token_ids " ++
      s!"(need at least {patchStates} states^patch_cells + specials = {needed})"))
  if frameSpecialTokens then
    let frameStartId := patchVocabSize % 2 ^ 32
    let frameEndId ← okOr (checkedSucc frameStartId) (.error "patch frame special token overflow")
    reject (eosId.any fun id => id.toNat = frameStartId || id.toNat = frameEndId)
      "tokenization.eos_id collides with patch frame special token ids"

/-- The tokenization must fit the families. -/
def checkTokenization (overflowChecks : Bool) (config : NcaCorpusConfig) : Fallible String Unit :=
  match config.tokenization with
  | .gpt2ByteCompatible vocabSize eosId => do
    reject (vocabSize < 257) "tokenization.vocab_size must be >= 257 for gpt2_byte_compatible"
    checkEos eosId vocabSize
  | .patchTokenIds vocabSize eosId frameSpecialTokens =>
    checkPatchTokenIds overflowChecks config vocabSize eosId frameSpecialTokens
  | .rustBpe vocabPath mergeableVocabSize bosId eosId padId unkId => do
    reject (mergeableVocabSize < 256) "tokenization.mergeable_vocab_size must be >= 256 for rust_bpe"
    reject vocabPath.isEmpty "tokenization.vocab_path must not be empty"
    let specialMax := (([bosId, eosId, padId, unkId].filterMap id).map UInt32.toNat).max?.getD 0
    reject (decide (mergeableVocabSize ≤ specialMax) && decide (usizeMax - 1 ≤ specialMax))
      "tokenization special token ids overflow"

/-- `NcaCorpusConfig::validate`. -/
def NcaCorpusConfig.validate (overflowChecks : Bool) (config : NcaCorpusConfig) :
    Fallible String Unit := do
  reject (trim config.name.toList = []) "name must not be empty"
  reject (config.trainSamples = 0) "train_samples must be > 0"
  reject (config.chunkTokenCapacity = 0) "chunk_token_capacity must be > 0"
  reject (config.serialization.patchSize = 0) "serialization.patch_size must be > 0"
  reject (config.serialization.previewSamples = 0) "serialization.preview_samples must be > 0"
  reject config.families.isEmpty "families must not be empty"
  config.families.zipIdx.forM fun (family, index) => family.validate index
  checkTokenization overflowChecks config

end BurnDragon.Nca
