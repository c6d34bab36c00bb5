import BurnDragon.Corpus.Chunks
import BurnDragon.Nca.Generate

/-!
# Corpora generated on the fly

`OnlineNcaCorpus` makes the documents of a corpus when they are asked for. All documents of a corpus
have the same number of tokens, so grids and steps must be fixed; when longer documents are wanted, the
steps of every family are raised to a common length (`adaptConfigForMinLogicalDocumentTokens`). A document is a
function of the seed, the split and its index.
-/

namespace BurnDragon.Nca

open Rust Corpus

variable {ρ : Type}

/-! ## Document lengths -/

def fixedRangeValue (range : Option UsizeRangeConfig) (label : String) : Fallible String ℕ :=
  match range with
  | none => .error (.error s!"{label} must be specified explicitly for on-the-fly NCA training")
  | some range => do
    reject (range.min ≠ range.max) s!"{label} must have min == max for on-the-fly NCA training"
    return range.min

/-- The number of patches of a frame, for a grid that must consist of whole patches. -/
def patchesPerFrame (overflowChecks : Bool) (patchSize index grid : ℕ) : Fallible String ℕ := do
  let rest ← (remainder grid patchSize).mapError .panic
  reject (rest ≠ 0)
    (s!"families[{index}].grid_size={grid} must be divisible by " ++
      s!"serialization.patch_size={patchSize}")
  (usizeResult overflowChecks (grid / patchSize * (grid / patchSize))).mapError .panic

def fixedDocumentTokenCount (overflowChecks : Bool) (config : NcaCorpusConfig) :
    Fallible String ℕ :=
  match config.tokenization with
  | .patchTokenIds _ eosId frameSpecialTokens => do
    let expected ← config.families.zipIdx.foldlM (fun (expected : Option ℕ) (family, index) => do
      let grid ← fixedRangeValue family.gridSize s!"families[{index}].grid_size"
      let steps ← fixedRangeValue family.steps s!"families[{index}].steps"
      let patches ← patchesPerFrame overflowChecks config.serialization.patchSize index grid
      let frameTokenCount := saturatingAdd patches (frameSpecialTokens.toNat * 2)
      let tokenCount ← okOr
        ((checkedMul steps frameTokenCount).bind (checkedAdd · eosId.isSome.toNat))
        (.error "on-the-fly NCA token length overflow")
      match expected with
      | some previous => do
        reject (previous ≠ tokenCount)
          ("on-the-fly NCA training currently requires fixed document length across families " ++
            s!"(got {previous} and {tokenCount})")
        return expected
      | none => return some tokenCount) none
    okOr expected (.error "on-the-fly NCA training requires at least one family")
  | _ => .error (.error
    "on-the-fly NCA training currently requires tokenization.type = `patch_token_ids`")

def gcdUsize (lhs rhs : ℕ) : ℕ :=
  if h : rhs = 0 then lhs else gcdUsize rhs (lhs % rhs)
termination_by rhs
decreasing_by exact Nat.mod_lt lhs (Nat.pos_of_ne_zero h)

def lcmUsize (lhs rhs : ℕ) : Option ℕ :=
  if lhs = 0 ∨ rhs = 0 then some 0 else checkedMul (lhs / gcdUsize lhs rhs) rhs

/-- The tokens of a frame of every family, and their least common multiple. -/
def frameTokenCounts (overflowChecks : Bool) (config : NcaCorpusConfig) (frameSpecialTokens : Bool) :
    Fallible String (List ℕ × ℕ) :=
  config.families.zipIdx.foldlM (fun (counts, alignment) (family, index) => do
    let grid ← fixedRangeValue family.gridSize s!"families[{index}].grid_size"
    let patches ← patchesPerFrame overflowChecks config.serialization.patchSize index grid
    let frameTokens ←
      (usizeResult overflowChecks (patches + frameSpecialTokens.toNat * 2)).mapError .panic
    let alignment ← okOr (lcmUsize alignment frameTokens)
      (.error "on-the-fly NCA payload alignment overflow")
    return (counts ++ [frameTokens], alignment)) ([], 1)

/-- `usize::div_ceil`. -/
def divCeil (a b : ℕ) : Run ℕ := if b = 0 then .error .divisionByZero else .ok ((a + b - 1) / b)

/-- The number of steps that makes a payload of the given length. -/
def stepsForPayload (target frameTokens : ℕ) : Fallible String UsizeRangeConfig :=
  if frameTokens = 0 then .error (.error "invalid per-family on-the-fly NCA step layout")
  else .ok ⟨target / frameTokens, target / frameTokens⟩

/-- The steps raised so that a document has the payload. -/
def raiseSteps (overflowChecks : Bool) (config : NcaCorpusConfig) (eosId : Option UInt32)
    (frameSpecialTokens : Bool) (minTokens : ℕ) : Fallible String NcaCorpusConfig := do
  let desiredTokens ← okOr (checkedAdd minTokens 1)
    (.error "requested on-the-fly NCA logical document length overflow")
  let desiredPayload ← okOr
    (if eosId.isSome.toNat ≤ desiredTokens then some (desiredTokens - eosId.isSome.toNat) else none)
    (.error "invalid on-the-fly NCA tokenization layout")
  let (counts, alignment) ← frameTokenCounts overflowChecks config frameSpecialTokens
  let units ← (divCeil desiredPayload alignment).mapError .panic
  let target ← okOr (checkedMul units alignment)
    (.error "on-the-fly NCA target payload length overflow")
  let families ← (config.families.zip counts).mapM fun (family, frameTokens) => do
    let steps ← stepsForPayload target frameTokens
    return { family with steps := some steps }
  return { config with families }

def adaptConfigForMinLogicalDocumentTokens (overflowChecks : Bool) (config : NcaCorpusConfig)
    (minLogicalDocumentTokens : Option ℕ) : Fallible String NcaCorpusConfig :=
  match minLogicalDocumentTokens.filter (0 < ·) with
  | none => .ok config
  | some minTokens => do
    let baseTokenCount ← fixedDocumentTokenCount overflowChecks config
    match config.tokenization with
    | .patchTokenIds _ eosId frameSpecialTokens =>
      if minTokens ≤ baseTokenCount - 1 then return config
      else raiseSteps overflowChecks config eosId frameSpecialTokens minTokens
    | _ => return config

/-! ## Corpora -/

/-- `CorpusTokenizer::from_config`. A byte pair encoding is read from a file. -/
def CorpusTokenizer.fromConfig (loadRustBpe : NcaTokenizationConfig → Fallible String CorpusTokenizer)
    (config : NcaTokenizationConfig) : Fallible String CorpusTokenizer :=
  match config with
  | .gpt2ByteCompatible vocabSize eosId => .ok (.gpt2ByteCompatible vocabSize eosId)
  | .patchTokenIds vocabSize eosId frameSpecialTokens =>
    .ok (.patchTokenIds vocabSize eosId frameSpecialTokens)
  | .rustBpe .. => loadRustBpe config

structure OnlineNcaCorpus where
  config : NcaCorpusConfig
  tokenizer : CorpusTokenizer
  documentTokenCount : ℕ

namespace OnlineNcaCorpus

/-- `OnlineNcaCorpus::new_with_min_logical_document_tokens`. -/
def newWithMinLogicalDocumentTokens (overflowChecks : Bool)
    (loadRustBpe : NcaTokenizationConfig → Fallible String CorpusTokenizer) (config : NcaCorpusConfig)
    (minLogicalDocumentTokens : Option ℕ) : Fallible String OnlineNcaCorpus := do
  let adjustedConfig ←
    adaptConfigForMinLogicalDocumentTokens overflowChecks config minLogicalDocumentTokens
  adjustedConfig.validate overflowChecks
  let tokenizer ← CorpusTokenizer.fromConfig loadRustBpe adjustedConfig.tokenization
  let documentTokenCount ← fixedDocumentTokenCount overflowChecks adjustedConfig
  return { config := adjustedConfig, tokenizer, documentTokenCount }

def sampleCount (corpus : OnlineNcaCorpus) : SampleSplit → ℕ
  | .train => corpus.config.trainSamples
  | .validation => corpus.config.validationSamples

end OnlineNcaCorpus

/-! ## Documents -/

/-- A computation that may fail or never return. -/
abbrev Job (α : Type) := ExceptT (Fault String) Option α

/-- A draw from a new generator. -/
def Job.ofDraw {α : Type} (draw : Draw ρ α) (rng : ρ) : Job α :=
  ExceptT.mk ((draw rng).run.map fun result => (result.map Prod.fst).mapError .panic)

def Job.ofFallible {α : Type} (result : Fallible String α) : Job α := ExceptT.mk (some result)

/-- The family at a position of the weights, if there is one. -/
def familyAt : List NcaFamilyConfig → ℕ → Option NcaFamilyConfig
  | [], _ => none
  | family :: families, cursor =>
    if cursor < family.weight then some family else familyAt families (cursor - family.weight)

def chooseFamily (overflowChecks : Bool) (ext : Externals ρ) (config : NcaCorpusConfig) :
    Draw ρ NcaFamilyConfig := do
  let sum ← Draw.lift (usizeResult overflowChecks (config.families.map NcaFamilyConfig.weight).sum)
  let totalWeight := max sum 1
  let cursor ← Draw.sample (ext.genUsize 0 (totalWeight - 1))
  match familyAt config.families cursor with
  | some family => return family
  | none => Draw.lift (index config.families 0)

def splitmix64 (value : UInt64) : UInt64 :=
  let value := value + 0x9E3779B97F4A7C15
  let value := (value ^^^ (value >>> 30)) * 0xBF58476D1CE4E5B9
  let value := (value ^^^ (value >>> 27)) * 0x94D049BB133111EB
  value ^^^ (value >>> 31)

def deriveSampleSeed (baseSeed : UInt64) (split : SampleSplit) (sampleIndex : ℕ) : UInt64 :=
  let splitTag := match split with
    | .train => 0xA8A79B1CD3E4F501
    | .validation => 0x5EEDCAFE13572468
  splitmix64 (baseSeed ^^^ splitTag ^^^ (UInt64.ofNat sampleIndex * 0x9E3779B97F4A7C15))

/-- A split in a message. -/
def splitDebug : SampleSplit → String
  | .train => "Train"
  | .validation => "Validation"

namespace OnlineNcaCorpus

variable (overflowChecks : Bool) (fuel : ℕ) (ext : Externals ρ) (corpus : OnlineNcaCorpus)

def generateRawSample (split : SampleSplit) (epochIndex sampleIndex : ℕ) : Job NcaSample := do
  let sampleCount := corpus.sampleCount split
  Job.ofFallible (reject (decide (sampleCount ≤ sampleIndex))
    (s!"sample_index {sampleIndex} out of range for {splitDebug split} split with " ++
      s!"{sampleCount} samples"))
  let effectiveSampleIndex := match split with
    | .train => saturatingAdd (saturatingMul epochIndex sampleCount) sampleIndex
    | .validation => sampleIndex
  let seed := deriveSampleSeed corpus.config.seed split effectiveSampleIndex
  Job.ofDraw (do
    let family ← chooseFamily overflowChecks ext corpus.config
    generateSample overflowChecks fuel ext family corpus.config.serialization)
    (ext.seedFromU64 seed)

def encodeTokensFromSample (sample : NcaSample) : Fallible String (List ℕ) :=
  match corpus.tokenizer with
  | .patchTokenIds .. => corpus.tokenizer.encodePatchSample sample corpus.config.serialization
  | _ => .error (.error
    "on-the-fly NCA training currently requires patch_token_ids tokenization")

def generateDocumentTokensForEpoch (split : SampleSplit) (epochIndex sampleIndex : ℕ) :
    Job (List ℕ) := do
  let sample ← corpus.generateRawSample overflowChecks fuel ext split epochIndex sampleIndex
  let tokens ← Job.ofFallible (corpus.encodeTokensFromSample sample)
  Job.ofFallible (reject (tokens.length ≠ corpus.documentTokenCount)
    (s!"on-the-fly NCA document token length drifted (expected={corpus.documentTokenCount} " ++
      s!"actual={tokens.length})"))
  return tokens

/-- `generate_document_tokens`. -/
def generateDocumentTokens (split : SampleSplit) (sampleIndex : ℕ) : Job (List ℕ) :=
  corpus.generateDocumentTokensForEpoch overflowChecks fuel ext split 0 sampleIndex

end OnlineNcaCorpus

end BurnDragon.Nca
