import BurnDragon.Rust.Machine

/-!
# Continual backpropagation

The optimizer replaces features that are of little use. It counts its steps and the age of every
feature, averages the activations, and saves up a budget. Where the step is a multiple of the
interval, it selects the mature features of least utility, as many as the budget and the maximum of
the interval allow; these are initialized again, and a cooldown begins.

The numbers are those of an ordered field in place of `f32`, and `powf` is a parameter. The modules,
their gradients and the records of the inner optimizer are those of an adapter. The feature count is
that of the module, which keeps it from step to step, so the vectors of a state have this length.
-/

namespace BurnDragon.Training

open Rust List

/-! ## Data -/

inductive ContinualBackpropLrCoupling
  | none
  | globalRatio
  | targetGroupRatio
  deriving DecidableEq

structure ContinualBackpropConfig (K : Type) where
  utilityDecay : K
  replacementRate : K
  maturitySteps : ℕ
  replaceIntervalSteps : ℕ
  utilityEpsilon : K
  lrCoupling : ContinualBackpropLrCoupling
  lrCouplingPower : K
  warmupSteps : ℕ
  cooldownSteps : ℕ
  maxReplacementsPerInterval : ℕ

structure ContinualBackpropFeatureMetrics (K : Type) where
  incomingL1 : List K
  outgoingL1 : List K

structure ContinualBackpropTelemetry (K : Type) where
  optimizerStep : ℕ
  featureCount : ℕ
  eligibleCount : ℕ
  replacementCount : ℕ
  replacementBudget : K
  lrMultiplier : K
  replacementRateScale : K
  effectiveReplacementRate : K
  effectiveMaxReplacementsPerInterval : ℕ
  paused : Bool
  pauseReason : Option String
  utilityMin : K
  utilityMean : K
  utilityMax : K
  ageMean : K
  ageMax : K
  batchStatSamples : ℕ
  activationAbsMean : K
  zeroUtilityFraction : K

/-- What an adapter reads from the batch statistics of a module. -/
structure BatchStats (K : Type) where
  mean : List K
  meanAbs : List K
  sampleCount : ℕ

/-- The adapter of a module, together with the inner optimizer: `adamw` is the pass of the mapper
over the module, `resetOptimizerState` clears the records of selected features, and `retainRecords`
drops the records of parameters that the module does not have. -/
structure ContinualBackpropAdapter (K Module Grads FreshModel Records : Type) where
  adamw : K → Module → Grads → Records → Module × Records
  takeBatchStats : Module → Option (BatchStats K)
  targetLrScale : Module → K
  featureMetrics : Module → ContinualBackpropFeatureMetrics K
  reinitializeFeatures : Module → FreshModel → List ℕ → Module
  resetOptimizerState : Module → Records → List ℕ → Records
  retainRecords : Module → Records → Records

structure ContinualBackpropState (K : Type) (featureCount : ℕ) where
  step : ℕ
  replacementBudget : K
  age : List K
  avgActivation : List K
  avgAbsActivation : List K
  batchStatSamples : ℕ
  activationAbsMean : K
  length_age : age.length = featureCount
  length_avgActivation : avgActivation.length = featureCount
  length_avgAbsActivation : avgAbsActivation.length = featureCount

structure ContinualBackpropAdamWRecord (K Records : Type) (featureCount : ℕ) where
  records : Records
  state : Option (ContinualBackpropState K featureCount)

structure ContinualBackpropAdamWOptimizer (K FreshModel Records : Type) (featureCount : ℕ) where
  records : Records
  state : Option (ContinualBackpropState K featureCount)
  config : ContinualBackpropConfig K
  baseLearningRate : K
  freshModel : FreshModel
  pauseUntilStep : ℕ
  pauseReason : Option String
  cooldownUntilStep : ℕ
  replacementRateScale : K
  maxReplacementsPerIntervalOverride : Option ℕ
  lastTelemetry : Option (ContinualBackpropTelemetry K)

variable {K : Type} [Field K]
variable {Module Grads FreshModel Records : Type} {featureCount : ℕ}

def meanF32 (values : List K) : K := if values.isEmpty then 0 else values.sum / values.length

namespace ContinualBackpropState

/-- The state before the first step. -/
def initial : ContinualBackpropState K featureCount where
  step := 0
  replacementBudget := 0
  age := List.replicate featureCount 0
  avgActivation := List.replicate featureCount 0
  avgAbsActivation := List.replicate featureCount 0
  batchStatSamples := 0
  activationAbsMean := 0
  length_age := List.length_replicate
  length_avgActivation := List.length_replicate
  length_avgAbsActivation := List.length_replicate

/-- The next step: everything is one step older. -/
def advance (state : ContinualBackpropState K featureCount) :
    ContinualBackpropState K featureCount :=
  { state with
    step := saturatingAdd state.step 1
    age := state.age.map (· + 1)
    length_age := (List.length_map _).trans state.length_age }

/-- An exponential average of tensors of one length. -/
def average (keep : K) (old new : List K) : List K :=
  List.zipWith (fun old new => old * keep + new * (1 - keep)) old new

theorem length_average (keep : K) {old new : List K} (hold : old.length = featureCount)
    (hnew : new.length = featureCount) : (average keep old new).length = featureCount := by
  rw [average, length_zipWith, hold, hnew, min_self]

/-- `update_state_from_batch_stats` -/
def updateFromBatchStats (config : ContinualBackpropConfig K)
    (state : ContinualBackpropState K featureCount) (batchStats : BatchStats K) :
    ContinualBackpropState K featureCount :=
  if h : batchStats.mean.length = featureCount ∧ batchStats.meanAbs.length = featureCount then
    { state with
      batchStatSamples := saturatingAdd state.batchStatSamples batchStats.sampleCount
      activationAbsMean := meanF32 batchStats.meanAbs
      avgActivation := average config.utilityDecay state.avgActivation batchStats.mean
      avgAbsActivation := average config.utilityDecay state.avgAbsActivation batchStats.meanAbs
      length_avgActivation := length_average _ state.length_avgActivation h.1
      length_avgAbsActivation := length_average _ state.length_avgAbsActivation h.2 }
  else state

/-- The assignment of 0 to the elements at the given indices. -/
def clear (indices : List ℕ) (values : List K) : List K :=
  indices.foldl (fun values idx => values.set idx 0) values

theorem length_clear (indices : List ℕ) (values : List K) :
    (clear indices values).length = values.length := by
  induction indices generalizing values with
  | nil => rfl
  | cons idx indices ih => rw [clear, foldl_cons, ← clear, ih, length_set]

/-- `expand_state_vector` -/
def expandVector (count : ℕ) (values : List K) : List K :=
  values.take count ++ List.replicate (count - values.length) 0

theorem length_expandVector (count : ℕ) (values : List K) :
    (expandVector count values).length = count := by
  rw [expandVector, length_append, length_take, length_replicate]
  omega

theorem expandVector_of_length {values : List K} (h : values.length = featureCount) :
    expandVector featureCount values = values := by
  rw [expandVector, h, Nat.sub_self, replicate_zero, append_nil,
    take_of_length_le h.le]

/-- `expand_continual_backprop_state` -/
def expand (count : ℕ) (state : ContinualBackpropState K featureCount) :
    ContinualBackpropState K count :=
  { state with
    age := expandVector count state.age
    avgActivation := expandVector count state.avgActivation
    avgAbsActivation := expandVector count state.avgAbsActivation
    length_age := length_expandVector _ _
    length_avgActivation := length_expandVector _ _
    length_avgAbsActivation := length_expandVector _ _ }

/-- `reset_state_for_features` -/
def resetForFeatures (state : ContinualBackpropState K featureCount) (selected : List ℕ) :
    ContinualBackpropState K featureCount :=
  let indices := selected.filter (· < featureCount)
  { state with
    age := clear indices state.age
    avgActivation := clear indices state.avgActivation
    avgAbsActivation := clear indices state.avgAbsActivation
    length_age := (length_clear _ _).trans state.length_age
    length_avgActivation := (length_clear _ _).trans state.length_avgActivation
    length_avgAbsActivation := (length_clear _ _).trans state.length_avgAbsActivation }

end ContinualBackpropState

variable [LinearOrder K]

def minF32 : List K → K
  | [] => 0
  | value :: values => values.foldl min value

def maxF32 : List K → K
  | [] => 0
  | value :: values => values.foldl max value

namespace ContinualBackpropAdamWOptimizer

variable [FloorSemiring K]

/-! ## The selection -/

/-- `continual_backprop_lr_multiplier` -/
def lrMultiplier (powf : K → K → K)
    (optimizer : ContinualBackpropAdamWOptimizer K FreshModel Records featureCount)
    (lr targetLrScale : K) : K :=
  let baseRatio :=
    if 0 < optimizer.baseLearningRate then max (lr / optimizer.baseLearningRate) 0 else 1
  let multiplier := match optimizer.config.lrCoupling with
    | .none => 1
    | .globalRatio => baseRatio
    | .targetGroupRatio => baseRatio * max targetLrScale 0
  powf multiplier (max optimizer.config.lrCouplingPower 0)

open scoped Rust.Instances in
/-- The limit is above 1 by the distance of `f32::EPSILON`. -/
def recoveryPlasticityActive
    (optimizer : ContinualBackpropAdamWOptimizer K FreshModel Records featureCount) : Bool :=
  1 + (2 ^ 23)⁻¹ < optimizer.replacementRateScale ||
    optimizer.maxReplacementsPerIntervalOverride.any
      (optimizer.config.maxReplacementsPerInterval < ·)

def effectiveReplacementRate
    (optimizer : ContinualBackpropAdamWOptimizer K FreshModel Records featureCount) : K :=
  optimizer.config.replacementRate * max optimizer.replacementRateScale 0

def effectiveMaxReplacementsPerInterval
    (optimizer : ContinualBackpropAdamWOptimizer K FreshModel Records featureCount) : ℕ :=
  max (optimizer.maxReplacementsPerIntervalOverride.getD
    optimizer.config.maxReplacementsPerInterval) 1

/-- Why nothing is replaced at a step. -/
def pausedReason
    (optimizer : ContinualBackpropAdamWOptimizer K FreshModel Records featureCount) (step : ℕ) :
    Option String :=
  if !optimizer.recoveryPlasticityActive && step ≤ optimizer.config.warmupSteps then some "warmup"
  else if !optimizer.recoveryPlasticityActive && step < optimizer.pauseUntilStep then
    optimizer.pauseReason.orElse fun _ => some "paused"
  else if !optimizer.recoveryPlasticityActive && step < optimizer.cooldownUntilStep then
    some "cooldown"
  else none

/-- The features that are old enough. -/
def eligible (config : ContinualBackpropConfig K) (age : List K) : List ℕ :=
  (age.zipIdx.filter fun (age, _) => (config.maturitySteps : K) ≤ age).map Prod.snd

/-- The utility of a feature that has all its data. -/
def score (config : ContinualBackpropConfig K)
    (metrics : ContinualBackpropFeatureMetrics K) (state : ContinualBackpropState K featureCount)
    (idx : ℕ) : Option K := do
  let _ ← state.avgActivation[idx]?
  let avgAbs ← state.avgAbsActivation[idx]?
  let incoming ← metrics.incomingL1[idx]?
  let outgoing ← metrics.outgoingL1[idx]?
  return max avgAbs 0 * outgoing / max incoming config.utilityEpsilon

/-- The eligible features with their utilities. -/
def ranked (config : ContinualBackpropConfig K)
    (metrics : ContinualBackpropFeatureMetrics K) (state : ContinualBackpropState K featureCount) :
    List (ℕ × K) :=
  (eligible config state.age).filterMap fun idx => (score config metrics state idx).map (idx, ·)

/-- What a selection returns, with the state and the reason of the pause that it leaves. -/
structure Selection (K : Type) (featureCount : ℕ) where
  selected : List ℕ
  telemetry : ContinualBackpropTelemetry K
  state : ContinualBackpropState K featureCount
  pauseReason : Option String

/-- `select_features_to_replace` -/
def selectFeaturesToReplace (powf : K → K → K)
    (optimizer : ContinualBackpropAdamWOptimizer K FreshModel Records featureCount)
    (metrics : ContinualBackpropFeatureMetrics K) (state : ContinualBackpropState K featureCount)
    (lr targetLrScale : K) : Selection K featureCount :=
  let config := optimizer.config
  let mature := eligible config state.age
  let telemetry : ContinualBackpropTelemetry K :=
    { optimizerStep := state.step
      featureCount := metrics.incomingL1.length
      eligibleCount := mature.length
      replacementCount := 0
      replacementBudget := state.replacementBudget
      lrMultiplier := lrMultiplier powf optimizer lr targetLrScale
      replacementRateScale := max optimizer.replacementRateScale 0
      effectiveReplacementRate := optimizer.effectiveReplacementRate
      effectiveMaxReplacementsPerInterval := optimizer.effectiveMaxReplacementsPerInterval
      paused := false
      pauseReason := none
      utilityMin := 0
      utilityMean := 0
      utilityMax := 0
      ageMean := meanF32 state.age
      ageMax := maxF32 state.age
      batchStatSamples := state.batchStatSamples
      activationAbsMean := state.activationAbsMean
      zeroUtilityFraction := 0 }
  match optimizer.pausedReason state.step with
  | some reason =>
    ⟨[], { telemetry with paused := true, pauseReason := some reason }, state,
      optimizer.pauseReason⟩
  | none =>
    let pauseReason :=
      if optimizer.pauseUntilStep ≤ state.step then none else optimizer.pauseReason
    if mature.isEmpty then ⟨[], telemetry, state, pauseReason⟩
    else
      let budget := state.replacementBudget + optimizer.effectiveReplacementRate *
        lrMultiplier powf optimizer lr targetLrScale * mature.length * config.replaceIntervalSteps
      let state := { state with replacementBudget := budget }
      let pairs := ranked config metrics state
      let utilityValues := pairs.map Prod.snd
      let telemetry := { telemetry with
        replacementBudget := budget
        utilityMin := minF32 utilityValues
        utilityMean := meanF32 utilityValues
        utilityMax := maxF32 utilityValues
        zeroUtilityFraction :=
          if utilityValues.isEmpty then 0
          else (utilityValues.countP (· ≤ config.utilityEpsilon) : K) / utilityValues.length }
      let nReplace := min (min ⌊budget⌋₊ usizeMax) optimizer.effectiveMaxReplacementsPerInterval
      if nReplace = 0 then ⟨[], telemetry, state, pauseReason⟩
      else
        let selected := ((sortByKey Prod.snd pairs).take
          (min nReplace metrics.incomingL1.length)).map Prod.fst
        let budget := if selected.isEmpty then budget else budget - selected.length
        let telemetry := { telemetry with
          replacementCount := selected.length
          replacementBudget := budget }
        ⟨selected, telemetry, { state with replacementBudget := budget }, pauseReason⟩

/-! ## Steps -/

/-- The state with which a step looks for features to replace. -/
def advanced (adapter : ContinualBackpropAdapter K Module Grads FreshModel Records)
    (optimizer : ContinualBackpropAdamWOptimizer K FreshModel Records featureCount)
    (module : Module) : ContinualBackpropState K featureCount :=
  let state := (optimizer.state.getD .initial).advance
  match adapter.takeBatchStats module with
  | some batchStats => state.updateFromBatchStats optimizer.config batchStats
  | none => state

/-- `apply_continual_backprop`, with the features that it replaces. -/
def applyContinualBackprop (powf : K → K → K)
    (adapter : ContinualBackpropAdapter K Module Grads FreshModel Records)
    (optimizer : ContinualBackpropAdamWOptimizer K FreshModel Records featureCount)
    (module : Module) (lr : K) :
    (Module × List ℕ) × ContinualBackpropAdamWOptimizer K FreshModel Records featureCount :=
  let state := advanced adapter optimizer module
  if optimizer.config.replaceIntervalSteps ∣ state.step then
    let selection := selectFeaturesToReplace powf optimizer (adapter.featureMetrics module) state lr
      (adapter.targetLrScale module)
    let optimizer := { optimizer with
      pauseReason := selection.pauseReason
      lastTelemetry := some selection.telemetry }
    if selection.selected.isEmpty then
      ((module, []), { optimizer with state := some selection.state })
    else
      let updated := adapter.reinitializeFeatures module optimizer.freshModel selection.selected
      ((updated, selection.selected),
        { optimizer with
          records := adapter.resetOptimizerState updated optimizer.records selection.selected
          state := some (selection.state.resetForFeatures selection.selected)
          cooldownUntilStep :=
            saturatingAdd selection.state.step optimizer.config.cooldownSteps })
  else ((module, []), { optimizer with state := some state })

/-- `step_impl` -/
def stepImpl (powf : K → K → K)
    (adapter : ContinualBackpropAdapter K Module Grads FreshModel Records)
    (optimizer : ContinualBackpropAdamWOptimizer K FreshModel Records featureCount)
    (lr : K) (module : Module) (grads : Grads) :
    (Module × List ℕ) × ContinualBackpropAdamWOptimizer K FreshModel Records featureCount :=
  let (updated, records) := adapter.adamw lr module grads optimizer.records
  applyContinualBackprop powf adapter { optimizer with records := records } updated lr

/-! ## Records and control -/

/-- `new`, for an accepted configuration. -/
def new (config : ContinualBackpropConfig K) (learningRate : K) (noRecords : Records)
    (freshModel : FreshModel) :
    ContinualBackpropAdamWOptimizer K FreshModel Records featureCount where
  records := noRecords
  state := none
  config := config
  baseLearningRate := learningRate
  freshModel := freshModel
  pauseUntilStep := 0
  pauseReason := none
  cooldownUntilStep := 0
  replacementRateScale := 1
  maxReplacementsPerIntervalOverride := none
  lastTelemetry := none

def toRecord (optimizer : ContinualBackpropAdamWOptimizer K FreshModel Records featureCount) :
    ContinualBackpropAdamWRecord K Records featureCount :=
  ⟨optimizer.records, optimizer.state⟩

def loadRecord (optimizer : ContinualBackpropAdamWOptimizer K FreshModel Records featureCount)
    (record : ContinualBackpropAdamWRecord K Records featureCount) :
    ContinualBackpropAdamWOptimizer K FreshModel Records featureCount :=
  { optimizer with records := record.records, state := record.state }

/-- The step counter. -/
def currentStep (optimizer : ContinualBackpropAdamWOptimizer K FreshModel Records featureCount) :
    ℕ :=
  (optimizer.state.map (·.step)).getD 0

def pauseForSteps (optimizer : ContinualBackpropAdamWOptimizer K FreshModel Records featureCount)
    (steps : ℕ) (reason : String) :
    ContinualBackpropAdamWOptimizer K FreshModel Records featureCount :=
  if steps = 0 then optimizer
  else { optimizer with
    pauseUntilStep := max optimizer.pauseUntilStep (saturatingAdd optimizer.currentStep steps)
    pauseReason := some reason }

def clearPause (optimizer : ContinualBackpropAdamWOptimizer K FreshModel Records featureCount) :
    ContinualBackpropAdamWOptimizer K FreshModel Records featureCount :=
  { optimizer with pauseUntilStep := 0, pauseReason := none }

def setRuntimeControl
    (optimizer : ContinualBackpropAdamWOptimizer K FreshModel Records featureCount)
    (replacementRateScale : K) (maxReplacementsPerInterval : Option ℕ) :
    ContinualBackpropAdamWOptimizer K FreshModel Records featureCount :=
  { optimizer with
    replacementRateScale := max replacementRateScale 0
    maxReplacementsPerIntervalOverride := maxReplacementsPerInterval }

def refreshFreshModel
    (optimizer : ContinualBackpropAdamWOptimizer K FreshModel Records featureCount)
    (freshModel : FreshModel) :
    ContinualBackpropAdamWOptimizer K FreshModel Records featureCount :=
  { optimizer with freshModel := freshModel }

/-- `prepare_after_module_scale`, for a module with `count` features. -/
def prepareAfterModuleScale
    (adapter : ContinualBackpropAdapter K Module Grads FreshModel Records)
    (optimizer : ContinualBackpropAdamWOptimizer K FreshModel Records featureCount)
    (module : Module) (count : ℕ) :
    ContinualBackpropAdamWOptimizer K FreshModel Records count :=
  { optimizer with
    records := adapter.retainRecords module optimizer.records
    state := optimizer.state.map fun state => { state.expand count with replacementBudget := 0 } }

end ContinualBackpropAdamWOptimizer

/-! ## Calls -/

/-- A call of the optimizer, with modules of one feature count. -/
inductive OptimizerCall (K Module Grads FreshModel : Type)
  | step (lr : K) (module : Module) (grads : Grads)
  | pauseForSteps (steps : ℕ) (reason : String)
  | clearPause
  | setRuntimeControl (replacementRateScale : K) (maxReplacementsPerInterval : Option ℕ)
  | refreshFreshModel (freshModel : FreshModel)
  | prepareAfterModuleScale (module : Module)

variable [FloorSemiring K]

/-- A call of the optimizer, with the features that it replaces. -/
def optimizerCall (powf : K → K → K)
    (adapter : ContinualBackpropAdapter K Module Grads FreshModel Records)
    (optimizer : ContinualBackpropAdamWOptimizer K FreshModel Records featureCount) :
    OptimizerCall K Module Grads FreshModel →
      List ℕ × ContinualBackpropAdamWOptimizer K FreshModel Records featureCount
  | .step lr module grads =>
    let ((_, selected), optimizer) := optimizer.stepImpl powf adapter lr module grads
    (selected, optimizer)
  | .pauseForSteps steps reason => ([], optimizer.pauseForSteps steps reason)
  | .clearPause => ([], optimizer.clearPause)
  | .setRuntimeControl scale max => ([], optimizer.setRuntimeControl scale max)
  | .refreshFreshModel freshModel => ([], optimizer.refreshFreshModel freshModel)
  | .prepareAfterModuleScale module =>
    ([], optimizer.prepareAfterModuleScale adapter module featureCount)

end BurnDragon.Training
