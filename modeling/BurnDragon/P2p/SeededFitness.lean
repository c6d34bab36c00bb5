import BurnDragon.Browser.Records
import BurnDragon.Rust.Utf8

/-!
# Updates made of seeded fitness values

`seeded_fitness.rs`: a peer sends the fitness values of the generations that it has run, and not the
parameters that they lead to. `replay_dragon_seeded_fitness_update` applies the values to the model.
`validate_and_replay_dragon_seeded_fitness_update` also rebuilds the batch of every generation from
records, perturbs the model for some of the pairs, and compares what the perturbed model scores
with the values sent.

What comes from the crates `burn_eggroll`, `burn_p2p` and from the model itself are functions of a
`ReplayHost`. Floating point numbers are any type with the operations of `FloatFormat`, of which no
law is used.
-/

namespace BurnDragon.P2p

open Rust Browser

/-! ## Data -/

structure ContentId where
  asStr : String
  deriving DecidableEq

/-- The values whose content is hashed. -/
inductive Content (MatrixNoise : Type)
  | record (record : TokenWindowRecord)
  | batch (tag : String) (records : List TokenWindowRecord) (blockSize : ℕ)
    (resetStreamState : Bool)
  | parameters (catalog : List (String × UInt64 × ℕ × List ℕ))
  | generator (tag : String) (seed : UInt64) (rank : ℕ) (matrixNoise : MatrixNoise)
    (parameterCatalogHash : ContentId)
  deriving DecidableEq

/-- The operations on an IEEE format. -/
class FloatFormat (F : Type) extends Zero F, Neg F, Add F, Sub F, Mul F, Div F, Max F, LE F,
    OfScientific F where
  abs : F → F
  ofNat : ℕ → F
  decidableLE : DecidableLE F

attribute [reducible, instance] FloatFormat.decidableLE

inductive CompactScalarEncoding
  | fp32
  | symmetricInt8
  | symmetricInt16
  deriving DecidableEq

inductive AntitheticSign
  | plus
  | minus
  deriving DecidableEq, Repr

structure AntitheticFitness (F32 : Type) where
  pairIndex : UInt64
  plus : F32
  minus : F32

structure MatrixParam where
  path : String
  paramId : UInt64
  perturbationKey : UInt64
  rank : ℕ
  shape : List ℕ

structure Population (MatrixNoise : Type) where
  populationSize : ℕ
  seed : UInt64
  rank : ℕ
  matrixNoise : MatrixNoise

structure SeededFitnessGeneration (Scalars : Type) where
  generation : UInt64
  batchDigest : ContentId
  recordDigests : List ContentId
  resetStreamState : Bool
  fitness : Scalars

/-- The body of an update; the other codecs are not told apart. -/
inductive CompactUpdateBody (Scalars : Type)
  | seededFitness (perturbationGeneratorHash optimizerUpdateHash : ContentId)
    (generations : List (SeededFitnessGeneration Scalars))
  | other

structure CompactUpdatePayload (Scalars : Type) where
  parameterCatalogHash : ContentId
  parameterCount : ℕ
  body : CompactUpdateBody Scalars

structure ValidatedCompactUpdate (Scalars : Type) where
  payloadId : ContentId
  payload : CompactUpdatePayload Scalars

structure SeededFitnessReplayPolicy (F64 : Type) where
  pairsPerGeneration : ℕ
  absoluteTolerance : F64
  relativeTolerance : F64

structure UpdateReplayStats (F64 : Type) where
  generationsChecked : ℕ
  pairsChecked : ℕ
  totalPairs : ℕ
  maxAbsoluteError : F64
  maxRelativeError : F64
  deriving DecidableEq

/-- What the replay takes from other crates. A tensor of token ids is the list of its rows. -/
structure ReplayHost (Model Optimizer State Hidden Loss Config MatrixNoise Scalars F32 F64 : Type)
    where
  derive : Content MatrixNoise → Except String ContentId
  encoding : Scalars → CompactScalarEncoding
  scale : Scalars → F32
  decode : Scalars → Except String (List F32)
  validate : Config → Except String Unit
  population : Config → Population MatrixNoise
  collectMatrixParams : Model → List MatrixParam
  newOptimizerState : Optimizer
  perturbModule : Model → Config → UInt64 → UInt64 → AntitheticSign → Option (Finset UInt64) → Model
  applyAntitheticUpdate : Model → Config → UInt64 → List (AntitheticFitness F32) → Optimizer →
    Option (Finset UInt64) → Except String (Model × Optimizer)
  initState : Model → State
  initStateEphemeral : Model → State
  detach : State → State
  forwardHiddenWithState : Model → List (List ℤ) → State → Hidden × State
  languageLossFromHidden : Model → Hidden → List (List ℤ) → Loss
  mulScalar : Loss → F32 → Loss
  sumLosses : List Loss → Except String (List F32)
  f64From : F32 → F64
  display : F64 → String

structure DragonSeededFitnessCatalog where
  allowedParamIds : Finset UInt64
  parameterCatalogHash : ContentId
  parameterCount : ℕ
  perturbationGeneratorHash : ContentId

variable {Model Optimizer State Hidden Loss Config MatrixNoise Scalars F32 F64 : Type}
  (host : ReplayHost Model Optimizer State Hidden Loss Config MatrixNoise Scalars F32 F64)

/-! ## The catalog of the model -/

def dragonSeededFitnessCatalog (model : Model) (config : Config) :
    Except String DragonSeededFitnessCatalog := do
  host.validate config
  let catalog := (host.collectMatrixParams model).filter fun parameter =>
    parameter.path ∈ ["encoder", "encoder_v", "decoder"]
  let catalog := sortByKey MatrixParam.path catalog
  if catalog.length ≠ 3 then
    throw s!"Dragon seeded-fitness contract expected encoder, encoder_v, and decoder; found {
      reprStr (catalog.map MatrixParam.path)}"
  let allowedParamIds := (catalog.map MatrixParam.paramId).toFinset
  let parameterCount := (catalog.map fun parameter => parameter.shape.prod).sum
  let wireCatalog := catalog.map fun parameter =>
    (parameter.path, parameter.perturbationKey, parameter.rank, parameter.shape)
  let parameterCatalogHash ← host.derive (.parameters wireCatalog)
  let population := host.population config
  let perturbationGeneratorHash ← host.derive (.generator "burn-dragon-eggroll-generator-v2"
    population.seed population.rank population.matrixNoise parameterCatalogHash)
  return ⟨allowedParamIds, parameterCatalogHash, parameterCount, perturbationGeneratorHash⟩

/-- What both functions check first: the catalog of the model and the generations of the update. -/
def openUpdate (model : Model) (config : Config) (optimizerUpdateHash : ContentId)
    (update : ValidatedCompactUpdate Scalars) :
    Except String (DragonSeededFitnessCatalog × List (SeededFitnessGeneration Scalars)) := do
  let catalog ← dragonSeededFitnessCatalog host model config
  if update.payload.parameterCatalogHash ≠ catalog.parameterCatalogHash then
    throw "seeded-fitness parameter catalog hash mismatch"
  if update.payload.parameterCount ≠ catalog.parameterCount then
    throw "seeded-fitness parameter count mismatch"
  match update.payload.body with
  | .other => throw "Dragon seeded-fitness replay received a different compact update codec"
  | .seededFitness perturbationGeneratorHash payloadOptimizerHash generations =>
    if perturbationGeneratorHash ≠ catalog.perturbationGeneratorHash then
      throw "seeded-fitness perturbation generator hash mismatch"
    if payloadOptimizerHash ≠ optimizerUpdateHash then
      throw "seeded-fitness optimizer update hash mismatch"
    return (catalog, generations)

/-! ## The replay -/

/-- `as_chunks::<2>`, without the remainder. -/
def asPairs {α : Type} : List α → List (α × α)
  | x :: y :: rest => (x, y) :: asPairs rest
  | _ => []

def antitheticFitness (values : List F32) : List (AntitheticFitness F32) :=
  (asPairs values).mapIdx fun pairIndex pair => ⟨UInt64.ofNat pairIndex, pair.1, pair.2⟩

/-- One turn of the loop of `replay_dragon_seeded_fitness_update`. -/
def replayGeneration (config : Config) (allowedParamIds : Finset UInt64)
    (state : Model × Optimizer) (generation : SeededFitnessGeneration Scalars) :
    Except String (Model × Optimizer) := do
  let values ← host.decode generation.fitness
  if values.length % 2 ≠ 0 then
    throw "seeded-fitness population must contain antithetic pairs"
  host.applyAntitheticUpdate state.1 config generation.generation (antitheticFitness values) state.2
    (some allowedParamIds)

def replayDragonSeededFitnessUpdate (model : Model) (config : Config)
    (optimizerUpdateHash : ContentId) (update : ValidatedCompactUpdate Scalars) :
    Except String Model := do
  let (catalog, generations) ← openUpdate host model config optimizerUpdateHash update
  let (model, _) ← generations.foldlM (replayGeneration host config catalog.allowedParamIds)
    (model, host.newOptimizerState)
  return model

/-! ## Batches -/

structure DragonReplayBatch where
  inputs : List (List ℤ)
  targets : List (List ℤ)
  blockSize : ℕ
  batchDigest : ContentId
  resetStreamState : Bool

/-- One turn of the loop of `build_replay_record_catalog`. -/
def insertReplayRecord (catalog : Map ContentId TokenWindowRecord) (record : TokenWindowRecord) :
    Except String (Map ContentId TokenWindowRecord) := do
  let digest ← host.derive (.record record)
  match catalog digest with
  | some existing =>
    if existing ≠ record then
      throw s!"token-window record digest collision for {digest.asStr}"
    return catalog.insert digest record
  | none => return catalog.insert digest record

def buildReplayRecordCatalog (records : List TokenWindowRecord) :
    Except String (Map ContentId TokenWindowRecord) :=
  records.foldlM (insertReplayRecord host) .empty

def replayBatchFromGeneration (generation : SeededFitnessGeneration Scalars)
    (recordCatalog : Map ContentId TokenWindowRecord) : Except String DragonReplayBatch := do
  let records ← generation.recordDigests.mapM fun digest => okOr (recordCatalog digest)
    s!"seeded-fitness replay record {digest.asStr} was not present in the authenticated lease"
  let blockSize := (records.head?.map fun record => record.inputs.length).getD 0
  if ¬ (0 < blockSize ∧ ∀ record ∈ records,
      record.inputs.length = blockSize ∧ record.targets.length = blockSize) then
    throw "seeded-fitness replay records have inconsistent token-window shapes"
  let batchDigest ← host.derive (.batch "dragon-token-window-batch-v2" records blockSize
    generation.resetStreamState)
  if batchDigest ≠ generation.batchDigest then
    throw "seeded-fitness replay batch digest mismatch"
  return ⟨records.map (·.inputs), records.map (·.targets), blockSize, batchDigest,
    generation.resetStreamState⟩

/-! ## Fitness -/

section Fitness

variable [FloatFormat F32]

def chunkSize (tbpttChunkSize : Option ℕ) (blockSize : ℕ) : ℕ :=
  min ((tbpttChunkSize.filter (0 < ·)).getD (max blockSize 1)) (max blockSize 1)

/-- `(0..block_size).step_by(chunk_size)`. -/
def chunkStarts (blockSize chunkSize : ℕ) : List ℕ :=
  (List.range ((blockSize + chunkSize - 1) / chunkSize)).map (· * chunkSize)

/-- The columns `start..end` of a tensor. -/
def sliceColumns (rows : List (List ℤ)) (start stop : ℕ) : List (List ℤ) :=
  rows.map fun row => (row.drop start).take (stop - start)

/-- One turn of the loop of `visit_replay_next_token_chunks`. -/
def visitChunk (model : Model) (batch : DragonReplayBatch) (chunkSize : ℕ)
    (visited : List Loss × State) (start : ℕ) : List Loss × State :=
  let stop := min (start + chunkSize) batch.blockSize
  let (hidden, state) :=
    host.forwardHiddenWithState model (sliceColumns batch.inputs start stop) visited.2
  let chunkWeight : F32 :=
    FloatFormat.ofNat (stop - start) / FloatFormat.ofNat (max batch.blockSize 1)
  let loss := host.languageLossFromHidden model hidden (sliceColumns batch.targets start stop)
  (visited.1 ++ [host.mulScalar loss chunkWeight],
    if stop < batch.blockSize then host.detach state else state)

/-- The losses that are visited, and the state behind the batch. -/
def visitReplayNextTokenChunks (model : Model) (batch : DragonReplayBatch) (state : State)
    (tbpttChunkSize : Option ℕ) : List Loss × State :=
  let chunkSize := chunkSize tbpttChunkSize batch.blockSize
  (chunkStarts batch.blockSize chunkSize).foldl (visitChunk host model batch chunkSize) ([], state)

variable [FloatFormat F64]

def replayFitness (model : Model) (batch : DragonReplayBatch) (state : State)
    (tbpttChunkSize : Option ℕ) : Except String F64 := do
  let losses := (visitReplayNextTokenChunks host model batch (host.detach state) tbpttChunkSize).1
  let values ← host.sumLosses losses
  return -host.f64From (values.head?.getD 0)

def splitmix64 (value : UInt64) : UInt64 :=
  let value := value + 0x9e3779b97f4a7c15
  let value := (value ^^^ (value >>> 30)) * 0xbf58476d1ce4e5b9
  let value := (value ^^^ (value >>> 27)) * 0x94d049bb133111eb
  value ^^^ (value >>> 31)

/-- `u64::to_le_bytes`. -/
def toLeBytes (value : UInt64) : List UInt8 :=
  (List.range 8).map fun i => UInt8.ofNat (value.toNat / 2 ^ (8 * i))

def replayPairIndices (payloadId : ContentId) (generation : UInt64) (pairCount requested : ℕ) :
    List ℕ :=
  let seed := (utf8Bytes payloadId.asStr.toList ++ toLeBytes generation).foldl
    (fun seed byte => (seed ^^^ byte.toUInt64) * 0x100000001b3) (0xcbf29ce484222325 : UInt64)
  let indices := sortByKey (fun index => (splitmix64 (seed ^^^ UInt64.ofNat index)).toNat)
    (List.range pairCount)
  sortByKey id (indices.take (min requested pairCount))

/-- Whether the values agree, and how far they are apart. -/
def fitnessMatches (observed expected : F64) (policy : SeededFitnessReplayPolicy F64)
    (quantizationTolerance : F64) : Bool × F64 × F64 :=
  let absoluteError := FloatFormat.abs (observed - expected)
  let scale := max (max (FloatFormat.abs observed) (FloatFormat.abs expected)) 1.0e-12
  let relativeError := absoluteError / scale
  let allowed :=
    policy.absoluteTolerance + policy.relativeTolerance * scale + quantizationTolerance
  (absoluteError ≤ allowed, absoluteError, relativeError)

def quantizationTolerance (fitness : Scalars) : F64 :=
  match host.encoding fitness with
  | .fp32 => 0.0
  | .symmetricInt8 | .symmetricInt16 =>
    host.f64From (FloatFormat.abs (host.scale fitness)) * 0.51

end Fitness

/-! ## The validation -/

section Validation

variable [FloatFormat F32] [FloatFormat F64] (config : Config) (allowedParamIds : Finset UInt64)
  (policy : SeededFitnessReplayPolicy F64) (tbpttChunkSize : Option ℕ)

/-- What the loops over the pairs count. -/
structure PairChecks (F64 : Type) where
  pairsChecked : ℕ
  maxAbsoluteError : F64
  maxRelativeError : F64

/-- The comparison for one sign of a pair. -/
def checkSign (model : Model) (generation : SeededFitnessGeneration Scalars)
    (batch : DragonReplayBatch) (baseState : State) (values : List F32) (pairIndex : ℕ)
    (checks : PairChecks F64) (signed : ℕ × AntitheticSign) : Fallible String (PairChecks F64) := do
  let (offset, sign) := signed
  let candidate := host.perturbModule model config generation.generation (UInt64.ofNat pairIndex)
    sign (some allowedParamIds)
  let observed ← (replayFitness host candidate batch baseState tbpttChunkSize).mapError .error
  let expected := host.f64From (← (index values (pairIndex * 2 + offset)).mapError .panic)
  let (agrees, absoluteError, relativeError) := fitnessMatches observed expected policy
    (quantizationTolerance host generation.fitness)
  if ¬ agrees then
    throw (.error s!"seeded-fitness replay mismatch at generation {generation.generation} pair {
      pairIndex} sign {reprStr sign}: observed={host.display observed} transmitted={
      host.display expected} absolute_error={host.display absoluteError} relative_error={
      host.display relativeError}")
  return { checks with
    maxAbsoluteError := max checks.maxAbsoluteError absoluteError
    maxRelativeError := max checks.maxRelativeError relativeError }

/-- `u32::saturating_add` of one. -/
def saturatingSucc (count : ℕ) : ℕ := min (count + 1) (2 ^ 32 - 1)

/-- One turn of the loop over the selected pairs. -/
def checkPair (model : Model) (generation : SeededFitnessGeneration Scalars)
    (batch : DragonReplayBatch) (baseState : State) (values : List F32) (checks : PairChecks F64)
    (pairIndex : ℕ) : Fallible String (PairChecks F64) := do
  let checks ← [(0, AntitheticSign.plus), (1, AntitheticSign.minus)].foldlM
    (checkSign host config allowedParamIds policy tbpttChunkSize model generation batch baseState
      values pairIndex) checks
  return { checks with pairsChecked := saturatingSucc checks.pairsChecked }

/-- The state of the loop over the generations. -/
structure ReplayLoop (Model Optimizer State F64 : Type) where
  model : Model
  optimizer : Optimizer
  stateSlot : Option State
  checks : PairChecks F64

variable (persistAcrossSteps : Bool)

/-- The state that a generation starts from. -/
def takeBaseState (model : Model) (batch : DragonReplayBatch) (stateSlot : Option State) : State :=
  if persistAcrossSteps then
    (if batch.resetStreamState then none else stateSlot).getD (host.initState model)
  else host.initStateEphemeral model

/-- One turn of the loop of `validate_and_replay_dragon_seeded_fitness_update`. -/
def validateGeneration (recordCatalog : Map ContentId TokenWindowRecord) (payloadId : ContentId)
    (loop : ReplayLoop Model Optimizer State F64) (generation : SeededFitnessGeneration Scalars) :
    Fallible String (ReplayLoop Model Optimizer State F64) := do
  let pairCount := (host.population config).populationSize / 2
  let batch ← (replayBatchFromGeneration host generation recordCatalog).mapError .error
  if batch.batchDigest ≠ generation.batchDigest then
    throw (.error "seeded-fitness replay batch changed after reconstruction")
  let baseState := takeBaseState host persistAcrossSteps loop.model batch loop.stateSlot
  let values ← (host.decode generation.fitness).mapError .error
  if values.length ≠ pairCount * 2 then
    throw (.error "seeded-fitness population does not match replay configuration")
  let selectedPairs := replayPairIndices payloadId generation.generation pairCount
    policy.pairsPerGeneration
  let checks ← selectedPairs.foldlM
    (checkPair host config allowedParamIds policy tbpttChunkSize loop.model generation batch
      baseState values) loop.checks
  let (model, optimizer) ← (host.applyAntitheticUpdate loop.model config generation.generation
    (antitheticFitness values) loop.optimizer (some allowedParamIds)).mapError .error
  let stateSlot :=
    if persistAcrossSteps then
      some (host.detach (visitReplayNextTokenChunks host model batch baseState tbpttChunkSize).2)
    else loop.stateSlot
  return ⟨model, optimizer, stateSlot, checks⟩

def validateAndReplayDragonSeededFitnessUpdate (model : Model) (optimizerUpdateHash : ContentId)
    (update : ValidatedCompactUpdate Scalars) (records : List TokenWindowRecord) :
    Fallible String (Model × UpdateReplayStats F64) := do
  let (catalog, generations) ←
    (openUpdate host model config optimizerUpdateHash update).mapError .error
  let recordCatalog ← (buildReplayRecordCatalog host records).mapError .error
  let loop ← generations.foldlM
    (validateGeneration host config catalog.allowedParamIds policy tbpttChunkSize
      persistAcrossSteps recordCatalog update.payloadId)
    ⟨model, host.newOptimizerState, none, ⟨0, 0.0, 0.0⟩⟩
  let pairCount := (host.population config).populationSize / 2
  return (loop.model,
    { generationsChecked := generations.length % 2 ^ 32
      pairsChecked := loop.checks.pairsChecked
      totalPairs := generations.length * pairCount % 2 ^ 32
      maxAbsoluteError := loop.checks.maxAbsoluteError
      maxRelativeError := loop.checks.maxRelativeError })

end Validation

end BurnDragon.P2p
