import BurnDragon.Nca.Draw
import BurnDragon.Nca.Tokenize

/-!
# The generators of NCA samples

`generate_sample` draws the sizes of a sample from the ranges of its family, a first frame and a rule,
and rolls the automaton out. Frames live on a torus. The numbers of the neural automaton are `f32`, of
which the model uses nothing but the operations.

The cells of a frame are counted without overflow: a frame of more cells than a `usize` counts is
never built.
-/

namespace BurnDragon.Nca

open Rust

variable {ρ : Type}

/-! ## Sizes -/

def sampleRange (ext : Externals ρ) (range : UsizeRangeConfig) : Draw ρ ℕ :=
  if range.min = range.max then pure range.min
  else .sample (ext.genUsize range.min range.max)

def gridDefault (family : NcaFamilyConfig) : UsizeRangeConfig :=
  match family.kind, family.complexity with
  | .neuralStochastic, _ => ⟨12, 12⟩
  | _, .simple => ⟨8, 12⟩
  | _, .medium => ⟨12, 16⟩
  | _, .complex => ⟨16, 20⟩

def sampleGridExtent (ext : Externals ρ) (family : NcaFamilyConfig) : Draw ρ ℕ :=
  sampleRange ext (family.gridSize.getD (gridDefault family))

def stepsDefault (family : NcaFamilyConfig) : UsizeRangeConfig :=
  match family.kind, family.complexity with
  | .neuralStochastic, _ => ⟨10, 10⟩
  | _, .simple => ⟨8, 14⟩
  | _, .medium => ⟨12, 20⟩
  | _, .complex => ⟨16, 28⟩

def sampleSteps (ext : Externals ρ) (family : NcaFamilyConfig) : Draw ρ ℕ :=
  sampleRange ext (family.steps.getD (stepsDefault family))

def stateCountDefault (family : NcaFamilyConfig) : UsizeRangeConfig :=
  match family.kind, family.complexity with
  | .neuralStochastic, _ => ⟨10, 10⟩
  | .lifeLikeBinary, _ => ⟨2, 2⟩
  | .cyclic, .simple => ⟨3, 4⟩
  | .cyclic, .medium => ⟨4, 6⟩
  | .cyclic, .complex => ⟨6, 8⟩
  | .neuralTotalistic, .simple => ⟨4, 6⟩
  | .neuralTotalistic, .medium => ⟨6, 10⟩
  | .neuralTotalistic, .complex => ⟨10, 16⟩

def sampleStateCount (ext : Externals ρ) (family : NcaFamilyConfig) : Draw ρ ℕ :=
  sampleRange ext (family.stateCount.getD (stateCountDefault family))

def stepStrideDefault (family : NcaFamilyConfig) : UsizeRangeConfig :=
  match family.kind with
  | .neuralStochastic => ⟨2, 2⟩
  | _ => ⟨1, 1⟩

def sampleStepStride (ext : Externals ρ) (family : NcaFamilyConfig) : Draw ρ ℕ :=
  sampleRange ext (family.stepStride.getD (stepStrideDefault family))

def sampleStartStep (ext : Externals ρ) (family : NcaFamilyConfig) : Draw ρ ℕ :=
  sampleRange ext (family.startStep.getD ⟨0, 0⟩)

/-- `f32::EPSILON`. -/
def floatEpsilon : Float32 := 1.1920929e-7

def sampleFloat (ext : Externals ρ) (range : FloatRangeConfig) : Draw ρ Float32 :=
  if (range.min - range.max).abs < floatEpsilon then pure range.min
  else .sample (ext.genFloatInclusive range.min range.max)

/-- `Ord::clamp`. -/
def clamp (value lower upper : ℕ) : ℕ := min (max value lower) upper

/-! ## Grids -/

/-- The coordinates of a grid, in the order of the loops. -/
def coordinates (width height : ℕ) : List (ℕ × ℕ) :=
  (List.range height).flatMap fun y => (List.range width).map fun x => (x, y)

/-- The place of the cell that lies `dx` to the right of and `dy` below a cell, on the torus. -/
def torusIndex (width height x y : ℕ) (dx dy : ℤ) : ℕ :=
  (((y : ℤ) + dy) % height).toNat * width + (((x : ℤ) + dx) % width).toNat

/-- The offsets of the eight neighbours. -/
def mooreOffsets : List (ℤ × ℤ) :=
  [(-1, -1), (0, -1), (1, -1), (-1, 0), (1, 0), (-1, 1), (0, 1), (1, 1)]

/-- The cells of the eight neighbours. -/
def mooreNeighbors (current : List ℕ) (width height x y : ℕ) : Run (List ℕ) :=
  mooreOffsets.mapM fun (dx, dy) => index current (torusIndex width height x y dx dy)

def mooreNeighborCount (current : List ℕ) (width height x y targetState : ℕ) : Run ℕ := do
  let neighbors ← mooreNeighbors current width height x y
  return neighbors.count targetState

def randomBinaryGrid (ext : Externals ρ) (width height : ℕ) : Draw ρ (List ℕ) := do
  let density ← Draw.sample (ext.genFloat 0.15 0.45)
  Draw.times (do
    let alive ← Draw.sample (ext.genBool density)
    return alive.toNat) (width * height)

def randomStateGrid (ext : Externals ρ) (width height stateCount : ℕ) : Draw ρ (List ℕ) :=
  Draw.times (do
    let state ← Draw.sample (ext.genUsize 0 (stateCount - 1))
    return state % 256) (width * height)

/-- `rollout`: the frames of an automaton. -/
def rollout (step : List ℕ → Run (List ℕ)) : ℕ → List ℕ → Run (List (List ℕ))
  | 0, current => .ok [current]
  | n + 1, current => do
    let next ← step current
    let frames ← rollout step n next
    return current :: frames

/-! ## Life-like automata -/

/-- The loop of `sample_mask`, which draws bits until enough are set. -/
def fillMask (ext : Externals ρ) (count : ℕ) : ℕ → List ℕ → Draw ρ (List ℕ)
  | 0, _ => .diverge
  | fuel + 1, mask =>
    if mask.length < count then do
      let bit ← Draw.sample (ext.genUsize 0 8)
      fillMask ext count fuel (if bit ∈ mask then mask else bit :: mask)
    else pure mask

/-- `sample_mask`: the set bits. -/
def sampleMask (ext : Externals ρ) (fuel : ℕ) (band : NcaComplexityBand) (birth : Bool) :
    Draw ρ (List ℕ) := do
  let count ← match band, birth with
    | .simple, true => Draw.sample (ext.genUsize 1 2)
    | .simple, false => Draw.sample (ext.genUsize 2 3)
    | .medium, true => Draw.sample (ext.genUsize 2 3)
    | .medium, false => Draw.sample (ext.genUsize 2 4)
    | .complex, true => Draw.sample (ext.genUsize 2 4)
    | .complex, false => Draw.sample (ext.genUsize 3 5)
  fillMask ext count fuel []

def applyLifeLike (birthMask surviveMask : List ℕ) (width height : ℕ) (current : List ℕ) :
    Run (List ℕ) :=
  (coordinates width height).mapM fun (x, y) => do
    let aliveNeighbors ← mooreNeighborCount current width height x y 1
    let cell ← index current (y * width + x)
    return if cell ≠ 0 then (surviveMask.contains aliveNeighbors).toNat
      else (birthMask.contains aliveNeighbors).toNat

/-! ## Cyclic automata -/

def applyCyclic (stateCount threshold width height : ℕ) (current : List ℕ) : Run (List ℕ) :=
  (coordinates width height).mapM fun (x, y) => do
    let state ← index current (y * width + x)
    let target ← remainder (state + 1) stateCount
    let neighbors ← mooreNeighborCount current width height x y target
    return if threshold ≤ neighbors then target else state

/-! ## Neural totalistic automata -/

structure NeuralTotalisticRule where
  weights : List (List ℤ)
  biases : List ℤ
  stayBias : ℤ

def sampleNeuralTotalisticRule (ext : Externals ρ) (stateCount : ℕ) (band : NcaComplexityBand) :
    Draw ρ NeuralTotalisticRule := do
  let magnitude : ℤ := match band with
    | .simple => 2
    | .medium => 3
    | .complex => 4
  let weights ← Draw.times (Draw.times (Draw.sample (ext.genInt (-magnitude) magnitude)) stateCount)
    stateCount
  let biases ← Draw.times (Draw.sample (ext.genInt (-magnitude) magnitude)) stateCount
  let stayBias := match band with
    | .simple => 2
    | .medium => 1
    | .complex => 0
  return { weights, biases, stayBias }

/-- The score of a next state, for the numbers of neighbours in each state. -/
def totalisticScore (rule : NeuralTotalisticRule) (currentState : ℕ) (histogram : List ℕ)
    (nextState : ℕ) : Run ℤ := do
  let bias ← index rule.biases nextState
  let row ← index rule.weights nextState
  let terms ← histogram.zipIdx.mapM fun (count, stateIdx) => do
    let weight ← index row stateIdx
    return weight * (count : ℤ)
  return bias + (if nextState = currentState then rule.stayBias else 0) + terms.sum

def applyNeuralTotalistic (rule : NeuralTotalisticRule) (width height : ℕ) (current : List ℕ) :
    Run (List ℕ) :=
  let stateCount := rule.weights.length
  (coordinates width height).mapM fun (x, y) => do
    let currentState ← index current (y * width + x)
    let neighbors ← mooreNeighbors current width height x y
    neighbors.forM fun state => if state < stateCount then .ok () else .error .indexOutOfBounds
    let histogram := (List.range stateCount).map neighbors.count
    let best ← (List.range stateCount).foldlM (fun (best : ℕ × ℤ) nextState => do
      let score ← totalisticScore rule currentState histogram nextState
      return if best.2 < score then (nextState, score) else best) (currentState, -2 ^ 31)
    return best.1 % 256

/-! ## Neural stochastic automata -/

structure NeuralStochasticRule where
  conv3Weights : List Float32
  conv3Bias : List Float32
  conv1Weights : List Float32
  conv1Bias : List Float32
  conv2Weights : List Float32
  conv2Bias : List Float32
  initLogits : List Float32

def sampleWeight (ext : Externals ρ) (fanIn : ℕ) : Draw ρ Float32 :=
  let scale := (1.0 / Float32.ofNat (max fanIn 1)).sqrt
  .sample (ext.genFloatInclusive (-scale) scale)

def sampleNeuralStochasticRule (ext : Externals ρ) (stateCount : ℕ) :
    Draw ρ NeuralStochasticRule := do
  let conv3Weights ← Draw.times (sampleWeight ext (stateCount * 9)) (4 * stateCount * 9)
  let conv3Bias ← Draw.times (sampleWeight ext (stateCount * 9)) 4
  let conv1Weights ← Draw.times (sampleWeight ext 4) (16 * 4)
  let conv1Bias ← Draw.times (sampleWeight ext 4) 16
  let conv2Weights ← Draw.times (sampleWeight ext 16) (stateCount * 16)
  let conv2Bias ← Draw.times (sampleWeight ext 16) stateCount
  let initLogits ← Draw.times (sampleWeight ext stateCount) stateCount
  return { conv3Weights, conv3Bias, conv1Weights, conv1Bias, conv2Weights, conv2Bias, initLogits }

/-- `f32::NEG_INFINITY`. -/
def floatNegInfinity : Float32 := -1.0 / 0.0

/-- `f32::max`. -/
def floatMax (a b : Float32) : Float32 :=
  if a.isNaN then b else if b.isNaN then a else if a < b then b else a

def argmax (values : List Float32) : ℕ :=
  (values.zipIdx.foldl (fun (best : ℕ × Float32) (value, index) =>
    if best.2 < value then (index, value) else best) (0, floatNegInfinity)).1

/-- The search of `sample_categorical`: the first index at which the target is used up. -/
def spendTarget : Float32 → ℕ → List Float32 → Option ℕ
  | _, _, [] => none
  | target, index, weight :: weights =>
    if target - weight ≤ 0.0 then some index else spendTarget (target - weight) (index + 1) weights

def sampleCategorical (ext : Externals ρ) (logits : List Float32) : Draw ρ ℕ :=
  let maxLogit := logits.foldl floatMax floatNegInfinity
  let weights := logits.map fun logit => (logit - maxLogit).exp
  let total := weights.foldl (· + ·) 0.0
  if !total.isFinite || decide (total ≤ 0.0) then pure (argmax logits)
  else do
    let target ← Draw.sample (ext.genFloat 0.0 total)
    return (spendTarget target 0 weights).getD (logits.length - 1)

def initNeuralStochasticState (ext : Externals ρ) (rule : NeuralStochasticRule) (width height : ℕ) :
    Draw ρ (List ℕ) :=
  Draw.times (do
    let state ← sampleCategorical ext rule.initLogits
    return state % 256) (width * height)

/-- The first layer at a cell: one channel of the 3 by 3 convolution. -/
def conv3Channel (rule : NeuralStochasticRule) (current : List ℕ) (width height x y : ℕ)
    (outChannel : ℕ) : Run Float32 := do
  let stateCount := rule.conv2Bias.length
  let bias ← index rule.conv3Bias outChannel
  (coordinates 3 3).foldlM (fun sum (kx, ky) => do
    let state ← index current (torusIndex width height x y ((kx : ℤ) - 1) ((ky : ℤ) - 1))
    let weight ← index rule.conv3Weights ((outChannel * stateCount + state) * 9 + ky * 3 + kx)
    return sum + weight) bias

/-- A unit of a dense layer: the weights of the unit start at `unit * inputs.length`. -/
def denseUnit (weights biases inputs : List Float32) (unit : ℕ) : Run Float32 := do
  let bias ← index biases unit
  inputs.zipIdx.foldlM (fun sum (input, inputIdx) => do
    let weight ← index weights (unit * inputs.length + inputIdx)
    return sum + weight * input) bias

/-- The logits of the next state of a cell. -/
def cellLogits (rule : NeuralStochasticRule) (current : List ℕ) (width height : ℕ)
    (identityBias : Float32) (x y : ℕ) : Run (List Float32) := do
  let conv3 ← (List.range 4).mapM (conv3Channel rule current width height x y)
  let hidden ← (List.range 16).mapM fun hiddenIdx => do
    let sum ← denseUnit rule.conv1Weights rule.conv1Bias conv3 hiddenIdx
    return floatMax sum 0.0
  let currentState ← index current (y * width + x)
  (List.range rule.conv2Bias.length).mapM fun stateIdx => do
    let sum ← denseUnit rule.conv2Weights rule.conv2Bias hidden stateIdx
    return if stateIdx = currentState then sum + identityBias else sum

def applyNeuralStochastic (ext : Externals ρ) (rule : NeuralStochasticRule)
    (identityBias temperature : Float32) (width height : ℕ) (current : List ℕ) :
    Draw ρ (List ℕ) :=
  (coordinates width height).mapM fun (x, y) => do
    let logits ← Draw.lift (cellLogits rule current width height identityBias x y)
    let nextState ← if temperature ≤ 1.0e-6 then pure (argmax logits)
      else sampleCategorical ext (logits.map (· / temperature))
    return nextState % 256

/-- The loop of `rollout_neural_stochastic`, with the number of iterations that are left. -/
def neuralStochasticLoop (step : List ℕ → Draw ρ (List ℕ)) (sampledSteps startStep stepStride : ℕ) :
    ℕ → ℕ → List ℕ → List (List ℕ) → Draw ρ (List (List ℕ))
  | 0, _, _, frames => pure frames
  | left + 1, iteration, current, frames =>
    let frames := if startStep ≤ iteration ∧ (iteration - startStep) % stepStride = 0 then
      frames ++ [current] else frames
    if frames.length = sampledSteps ∧ startStep ≤ iteration ∧
      (iteration - startStep) % stepStride = 0 then pure frames
    else do
      let next ← step current
      neuralStochasticLoop step sampledSteps startStep stepStride left (iteration + 1) next frames

def rolloutNeuralStochastic (ext : Externals ρ) (rule : NeuralStochasticRule)
    (width height sampledSteps startStep stepStride : ℕ) (identityBias temperature : Float32)
    (rolloutSeed : UInt64) : Draw ρ (List (List ℕ)) :=
  Draw.withRng (ext.seedFromU64 rolloutSeed) do
    let current ← initNeuralStochasticState ext rule width height
    let totalIterations := saturatingAdd startStep (saturatingMul sampledSteps stepStride)
    neuralStochasticLoop (applyNeuralStochastic ext rule identityBias temperature width height)
      sampledSteps startStep stepStride totalIterations 0 current []

/-! ## Samples -/

/-- `u32::to_le_bytes`. -/
def toLeBytes (token : ℕ) : List UInt8 :=
  [UInt8.ofNat token, UInt8.ofNat (token / 2 ^ 8), UInt8.ofNat (token / 2 ^ 16),
    UInt8.ofNat (token / 2 ^ 24)]

def computeGzipComplexityRatio (ext : Externals ρ) (sample : NcaSample)
    (serialization : NcaSerializationConfig) : Run Float32 := do
  let patchTokens ← patchTokenIds sample serialization
  if patchTokens.isEmpty then
    return 0.0
  let compressed := ext.gzip (patchTokens.flatMap toLeBytes)
  return Float32.ofNat compressed.length / Float32.ofNat (patchTokens.length * 4)

def complexityDistance (value lower upper target : Float32) : Float32 :=
  if value < lower then lower - value
  else if upper < value then value - upper
  else (value - target).abs

def defaultRuleFilterForBand (band : NcaComplexityBand) : NcaRuleFilterConfig :=
  let (threshold, upperBound) : Option Float32 × Option Float32 := match band with
    | .simple => (some 0.0, some 0.30)
    | .medium => (some 0.30, some 0.50)
    | .complex => (some 0.50, some 1.0)
  { threshold, upperBound, maxAttempts := 256, scoringExamples := none }

/-- What one attempt of the rule search makes. -/
structure Attempt where
  candidate : NcaSample
  matched : Bool
  distance : Float32

/-- One attempt of the rule search, for a sample without frames that has the drawn sizes. -/
def neuralStochasticAttempt (ext : Externals ρ) (serialization : NcaSerializationConfig)
    (shape : NcaSample) (steps scoringExamples : ℕ) (lower upper : Float32) : Draw ρ Attempt := do
  let target := 0.5 * (lower + upper)
  let ruleSeed ← Draw.sample ext.nextU64
  let rule ← Draw.withRng (ext.seedFromU64 ruleSeed) (sampleNeuralStochasticRule ext shape.stateCount)
  let rollout := fun sampledSteps seed => rolloutNeuralStochastic ext rule shape.width shape.height
    sampledSteps shape.startStep shape.stepStride shape.identityBias shape.temperature seed
  let frames ← rollout scoringExamples (ruleSeed ^^^ 0x9E3779B97F4A7C15)
  let scoringRatio ← Draw.lift (computeGzipComplexityRatio ext { shape with frames } serialization)
  let matched := decide (lower ≤ scoringRatio) && decide (scoringRatio ≤ upper)
  let outputFrames ← if scoringExamples = steps then pure frames
    else rollout steps (ruleSeed ^^^ 0xA24BAED4963EE407)
  let candidate := { shape with
    frames := outputFrames, ruleSeed := some ruleSeed, complexityFilterMatched := matched }
  let ratio ← Draw.lift (computeGzipComplexityRatio ext candidate serialization)
  return {
    candidate := { candidate with gzipComplexityRatio := ratio }
    matched
    distance := complexityDistance scoringRatio lower upper target }

/-- The rule search, with the number of attempts that are left. -/
def searchRule (attempt : Draw ρ Attempt) : ℕ → Float32 → Option NcaSample → Draw ρ NcaSample
  | 0, _, best => Draw.lift (match best with
    | some sample => .ok sample
    | none => .error .missingKey)
  | left + 1, bestDistance, best => do
    let result ← attempt
    if result.matched then return result.candidate
    else if result.distance < bestDistance then
      searchRule attempt left result.distance (some result.candidate)
    else searchRule attempt left bestDistance best

def generateNeuralStochasticSample (ext : Externals ρ) (family : NcaFamilyConfig)
    (serialization : NcaSerializationConfig) : Draw ρ NcaSample := do
  let gridExtent ← sampleGridExtent ext family
  let sampledSteps ← sampleSteps ext family
  let steps := max sampledSteps 2
  let sampledStateCount ← sampleStateCount ext family
  let stateCount := clamp sampledStateCount 2 10
  let sampledStride ← sampleStepStride ext family
  let stepStride := max sampledStride 1
  let startStep ← sampleStartStep ext family
  let identityBias ← sampleFloat ext (family.identityBias.getD ⟨0.0, 0.0⟩)
  let temperature ← sampleFloat ext (family.temperature.getD ⟨0.0, 0.0⟩)
  let bandFilter := defaultRuleFilterForBand family.complexity
  let filter := family.ruleFilter.getD bandFilter
  let lower := (filter.threshold.or bandFilter.threshold).getD 0.0
  let upper := (filter.upperBound.or bandFilter.upperBound).getD 1.0
  let scoringExamples := max (filter.scoringExamples.getD steps) 1
  let shape : NcaSample :=
    { familyKind := family.kind
      complexityBand := family.complexity
      width := gridExtent
      height := gridExtent
      stateCount
      frames := []
      ruleSeed := none
      complexityFilterMatched := false
      identityBias
      temperature
      stepStride
      startStep
      gzipComplexityRatio := 0.0 }
  searchRule (neuralStochasticAttempt ext serialization shape steps scoringExamples lower upper)
    (max filter.maxAttempts 1) (1.0 / 0.0) none

/-- The extent of a grid, rounded up to whole patches. -/
def roundToPatches (overflowChecks : Bool) (patchSize extent : ℕ) : Run ℕ :=
  usizeResult overflowChecks ((extent + patchSize - 1) / patchSize * patchSize)

/-- A sample of an automaton whose rule is not searched for. -/
def plainSample (family : NcaFamilyConfig) (width height stateCount : ℕ) (frames : List (List ℕ)) :
    NcaSample :=
  { familyKind := family.kind
    complexityBand := family.complexity
    width
    height
    stateCount
    frames
    ruleSeed := none
    complexityFilterMatched := true
    identityBias := 0.0
    temperature := 0.0
    stepStride := 1
    startStep := 0
    gzipComplexityRatio := 0.0 }

/-- The grid of a sample whose extents are rounded. -/
def sampleRoundedGrid (overflowChecks : Bool) (ext : Externals ρ) (family : NcaFamilyConfig)
    (serialization : NcaSerializationConfig) : Draw ρ (ℕ × ℕ) := do
  let patchSize := max serialization.patchSize 1
  let width ← sampleGridExtent ext family
  let height ← sampleGridExtent ext family
  let width ← Draw.lift (roundToPatches overflowChecks patchSize width)
  let height ← Draw.lift (roundToPatches overflowChecks patchSize height)
  return (width, height)

def generateLifeLikeSample (overflowChecks : Bool) (fuel : ℕ) (ext : Externals ρ)
    (family : NcaFamilyConfig) (serialization : NcaSerializationConfig) : Draw ρ NcaSample := do
  let (width, height) ← sampleRoundedGrid overflowChecks ext family serialization
  let steps ← sampleSteps ext family
  let initial ← randomBinaryGrid ext width height
  let birth ← sampleMask ext fuel family.complexity true
  let survive ← sampleMask ext fuel family.complexity false
  let frames ← Draw.lift (rollout (applyLifeLike birth survive width height) (max steps 2 - 1) initial)
  return plainSample family width height 2 frames

def generateCyclicSample (overflowChecks : Bool) (ext : Externals ρ) (family : NcaFamilyConfig)
    (serialization : NcaSerializationConfig) : Draw ρ NcaSample := do
  let (width, height) ← sampleRoundedGrid overflowChecks ext family serialization
  let steps ← sampleSteps ext family
  let sampledStateCount ← sampleStateCount ext family
  let stateCount := clamp sampledStateCount 3 16
  let threshold ← match family.complexity with
    | .simple => Draw.sample (ext.genUsize 1 2)
    | .medium => Draw.sample (ext.genUsize 2 4)
    | .complex => Draw.sample (ext.genUsize 3 5)
  let initial ← randomStateGrid ext width height stateCount
  let frames ← Draw.lift
    (rollout (applyCyclic (stateCount % 256) threshold width height) (max steps 2 - 1) initial)
  return plainSample family width height stateCount frames

def generateNeuralTotalisticSample (overflowChecks : Bool) (ext : Externals ρ)
    (family : NcaFamilyConfig) (serialization : NcaSerializationConfig) : Draw ρ NcaSample := do
  let (width, height) ← sampleRoundedGrid overflowChecks ext family serialization
  let steps ← sampleSteps ext family
  let sampledStateCount ← sampleStateCount ext family
  let stateCount := clamp sampledStateCount 4 16
  let rule ← sampleNeuralTotalisticRule ext stateCount family.complexity
  let initial ← randomStateGrid ext width height stateCount
  let frames ← Draw.lift
    (rollout (applyNeuralTotalistic rule width height) (max steps 2 - 1) initial)
  return plainSample family width height stateCount frames

/-- `generate_sample`. -/
def generateSample (overflowChecks : Bool) (fuel : ℕ) (ext : Externals ρ) (family : NcaFamilyConfig)
    (serialization : NcaSerializationConfig) : Draw ρ NcaSample := do
  let sample ← match family.kind with
    | .neuralStochastic => generateNeuralStochasticSample ext family serialization
    | .lifeLikeBinary => generateLifeLikeSample overflowChecks fuel ext family serialization
    | .cyclic => generateCyclicSample overflowChecks ext family serialization
    | .neuralTotalistic => generateNeuralTotalisticSample overflowChecks ext family serialization
  if sample.gzipComplexityRatio == 0.0 then do
    let ratio ← Draw.lift (computeGzipComplexityRatio ext sample serialization)
    return { sample with gzipComplexityRatio := ratio }
  else return sample

end BurnDragon.Nca
