import BurnDragon.Corpus.Chunks
import BurnDragon.Dataset.SourceWeights
import BurnDragon.Ruliad.Supervision
import BurnDragon.Transition.Trace

/-!
# Live source selection

The dataset of `universality.rs` that chooses a source bucket for every step. A request for data draws a
bucket from the weights of the sampler and generates documents of the bucket; for the training split it
also enters the bucket into the pending table. A loss report takes the entry of its step out of the table
and updates the candidate of the bucket, so that later requests draw from other weights.

The numbers are exact. What a seeded generator draws is an arbitrary function of what it is seeded with,
and so are the documents of a bucket; the cache of generated documents only saves their regeneration.
-/

namespace BurnDragon.Dataset

open Rust Ruliad Corpus Transition

variable {K : Type} [Field K] [LinearOrder K]

/-- What does not change. -/
structure LiveSourceSelection (K : Type) where
  library : FloatLibrary K
  samplerConfig : RuliadSamplerConfig K
  coldStart : RuliadSourceSelectionColdStartConfig K
  frontierExtension : RuliadFrontierExtensionConfig K
  feedbackUpdatesEnabled : Bool
  pendingLimit : ℕ
  /-- `difficulty_levels.min` of the corpus. -/
  configuredMin : ℕ
  /-- `ruliad_sampler_candidates_for_difficulty`. -/
  candidatesForDifficulty : ℕ → List (RuliadSamplerCandidate K)
  /-- `candidate_matches_capability_feedback`. -/
  matchesLabel : RuliadSamplerCandidate K → String → Bool
  /-- What is drawn for an epoch, an effective step and a number of buckets. -/
  draw : ℕ → ℕ → ℕ → K

structure LiveSourceSelectionState (K : Type) where
  sampler : RuliadFrontierSampler K
  frontierExtensionCount : ℕ
  absoluteStepOffset : ℕ
  pending : BTreeMap ℕ String
  control : LiveSourceSelectionControl K

namespace LiveSourceSelectionState

variable (config : LiveSourceSelection K) (state : LiveSourceSelectionState K)

/-! ## Weights -/

def effectiveAbsoluteStep (absoluteStep : ℕ) : ℕ := saturatingAdd absoluteStep state.absoluteStepOffset

/-- The probabilities after the cold start, the constraints and the control. -/
def selectionProbabilities (absoluteStep : Option ℕ) : List K :=
  let probabilities := applySourceSelectionColdStart (state.sampler.probabilities config.library)
    state.sampler.candidates config.coldStart (absoluteStep.map state.effectiveAbsoluteStep)
  applySourceSelectionControl (applyProbabilityConstraints state.sampler probabilities)
    state.sampler.candidates state.control

/-- `snapshot_locked`. -/
def snapshotLocked : RuliadMetricSnapshot K :=
  snapshotWithProbabilities config.library state.sampler (state.selectionProbabilities config none)

/-- The number of levels that an extension adds. -/
def allowedLevels (snapshot : RuliadMetricSnapshot K) : ℕ :=
  let requested := max config.frontierExtension.levelsPerExtension 1
  if config.frontierExtension.maxMaterializedLevels = 0 then requested
  else min (config.frontierExtension.maxMaterializedLevels -
    snapshot.materializedLevels config.configuredMin) requested

/-- The candidates that extend the frontier; none without feedback, extension or pressure. -/
def frontierCandidates : List (RuliadSamplerCandidate K) :=
  if !config.feedbackUpdatesEnabled || !config.frontierExtension.enabled then []
  else
    let snapshot := state.snapshotLocked config
    let masteryEscapeThreshold := config.samplerConfig.masteryEscapeThreshold
    if !snapshot.pressureAtConfiguredEdge config.frontierExtension masteryEscapeThreshold ||
        snapshot.frontierSaturated config.frontierExtension masteryEscapeThreshold config.configuredMin
    then []
    else
      let nextLevel := saturatingAdd snapshot.maxDifficultyLevel 1
      let allowed := saturatingAdd nextLevel (allowedLevels config snapshot) - nextLevel
      (List.range' nextLevel allowed).flatMap config.candidatesForDifficulty

/-- `maybe_extend_frontier_locked`. -/
def maybeExtendFrontier : LiveSourceSelectionState K :=
  let sampler := (state.frontierCandidates config).foldl .addCandidate state.sampler
  { state with
    sampler := sampler
    frontierExtensionCount :=
      if state.sampler.candidates.length < sampler.candidates.length then
        state.frontierExtensionCount + 1
      else state.frontierExtensionCount }

open scoped Rust.Instances in
/-- `weighted_bucket_labels` after the frontier was extended. -/
def weightedBucketLabels (absoluteStep : ℕ) : List (String × K) :=
  state.sampler.candidates.zipWith (fun candidate weight =>
      (candidate.oracleHash, if 0 < weight then weight else 1 / 10 ^ 9))
    (state.selectionProbabilities config (some absoluteStep))

/-! ## The pending table -/

/-- The pending table after a bucket was entered for a step. Beyond the limit the entries of the smallest
steps are removed. -/
def pendingWith (pending : BTreeMap ℕ String) (absoluteStep : ℕ) (bucketLabel : String) :
    BTreeMap ℕ String :=
  if !config.feedbackUpdatesEnabled then pending
  else
    let pending := pending.insert absoluteStep bucketLabel
    let removeCount := pending.keys.length - config.pendingLimit
    (pending.keys.take removeCount).foldl .remove pending

def recordPending (absoluteStep : ℕ) (bucketLabel : String) : LiveSourceSelectionState K :=
  { state with pending := pendingWith config state.pending absoluteStep bucketLabel }

/-! ## The choice of a bucket -/

/-- The first bucket at which the cumulated weight reaches the ticket. -/
def pickBucket (ticket : K) : K → List (String × K) → Option String
  | _, [] => none
  | cumulative, (label, weight) :: weighted =>
    if ticket ≤ cumulative + weight then some label
    else pickBucket ticket (cumulative + weight) weighted

open scoped Rust.Instances in
/-- The bucket that is drawn for a step among those to keep, from the weights of the state. -/
def drawBucket (keep : String → Bool) (epochIndex absoluteStep : ℕ) : Option String :=
  let weighted := (state.weightedBucketLabels config absoluteStep).filter fun entry => keep entry.1
  let total := (weighted.map Prod.snd).sum
  let drawn := config.draw epochIndex (state.effectiveAbsoluteStep absoluteStep) weighted.length
  pickBucket (drawn * max total (1 / 10 ^ 12)) 0 weighted

/-- The choice of a bucket, which extends the frontier first. The bucket becomes pending for the step
`pendingStep`, if one is given. -/
def chooseBucket (keep : String → Bool) (epochIndex absoluteStep : ℕ) (pendingStep : Option ℕ) :
    Option String × LiveSourceSelectionState K :=
  let extended := state.maybeExtendFrontier config
  let label := extended.drawBucket config keep epochIndex absoluteStep
  (label, match label, pendingStep with
    | some label, some pendingStep => extended.recordPending config pendingStep label
    | _, _ => extended)

def chooseBucketForStep (available : BTreeMap String (List ℕ)) (epochIndex absoluteStep : ℕ) :
    Option String × LiveSourceSelectionState K :=
  state.chooseBucket config
    (fun label => (available.get? label).any fun documents => !documents.isEmpty)
    epochIndex absoluteStep (some absoluteStep)

def chooseBucketLabelForStep (epochIndex absoluteStep : ℕ) :
    Option String × LiveSourceSelectionState K :=
  state.chooseBucket config (fun _ => true) epochIndex absoluteStep (some absoluteStep)

def chooseBucketLabelForValidationStep (epochIndex absoluteStep : ℕ) :
    Option String × LiveSourceSelectionState K :=
  state.chooseBucket config (fun _ => true) epochIndex absoluteStep none

def chooseBucketLabelForStreamStep (epochIndex selectionStep feedbackStep : ℕ) :
    Option String × LiveSourceSelectionState K :=
  state.chooseBucket config (fun _ => true) epochIndex selectionStep (some feedbackStep)

/-! ## Reports -/

/-- The telemetry of a loss report. -/
def lossTelemetry (bucketLabel : String) (loss : K) : RuliadSampleTelemetry K where
  oracleHash := bucketLabel
  loss := loss
  previousLoss := none
  gradientAlignment := none
  verificationCost := 1
  accepted := true

/-- The state after the entry of a step was removed and its bucket updated. -/
def credit (absoluteStep : ℕ) (bucketLabel : String) (loss : K) : LiveSourceSelectionState K :=
  { state with
    pending := state.pending.remove absoluteStep
    sampler := state.sampler.recordTelemetry (lossTelemetry bucketLabel loss) }

/-- `record_loss`, without the snapshot that it returns. -/
def recordLoss (absoluteStep : ℕ) (loss : K) : LiveSourceSelectionState K :=
  if !config.feedbackUpdatesEnabled then state.maybeExtendFrontier config
  else
    match state.pending.get? absoluteStep with
    | none => state
    | some bucketLabel => (state.credit absoluteStep bucketLabel loss).maybeExtendFrontier config

/-- The state after the capability feedback was recorded. -/
def recordFeedback (feedback : List (RuliadCapabilityFeedback K)) : LiveSourceSelectionState K :=
  { state with
    sampler := feedback.foldl (.recordCapabilityFeedback config.matchesLabel) state.sampler }

/-- `record_capability_feedback_batch`, without the snapshot that it returns. -/
def recordCapabilityFeedbackBatch (feedback : List (RuliadCapabilityFeedback K)) :
    LiveSourceSelectionState K :=
  if !config.feedbackUpdatesEnabled then state.maybeExtendFrontier config
  else (state.recordFeedback config feedback).maybeExtendFrontier config

def applyDynamicsControl (difficultyPressure hashNoiseMaxProbability : K) :
    LiveSourceSelectionState K :=
  if !config.feedbackUpdatesEnabled then state
  else { state with
    control := ⟨max difficultyPressure 0, clamp hashNoiseMaxProbability 0 1⟩ }

end LiveSourceSelectionState

/-! ## Construction -/

/-- The fields of `RuliadSourceSelectionStateSnapshot` other than the version. -/
structure RuliadSourceSelectionStateSnapshot (K : Type) where
  absoluteStepOffset : ℕ
  frontierExtensionCount : ℕ
  control : LiveSourceSelectionControl K
  candidates : List (RuliadSamplerCandidate K)
  capabilityPosteriors : BTreeMap String (RuliadCapabilityPosterior K)
  verifierFailures : ℕ

namespace LiveSourceSelectionState

variable (config : LiveSourceSelection K)

/-- `export_state`, which keeps the step offset that it is given. -/
def exportState (state : LiveSourceSelectionState K) (absoluteStepOffset : ℕ) :
    RuliadSourceSelectionStateSnapshot K × LiveSourceSelectionState K :=
  ({ absoluteStepOffset := absoluteStepOffset
     frontierExtensionCount := state.frontierExtensionCount
     control := state.control
     candidates := state.sampler.candidates
     capabilityPosteriors := state.sampler.capabilityPosteriors
     verifierFailures := state.sampler.verifierFailures },
   { state with absoluteStepOffset := absoluteStepOffset })

/-- `new`. -/
def start (candidates : List (RuliadSamplerCandidate K)) : Option (LiveSourceSelectionState K) :=
  if candidates.isEmpty then none
  else some
    { sampler := .start config.samplerConfig candidates
      frontierExtensionCount := 0
      absoluteStepOffset := 0
      pending := .empty
      control := .initial }

/-- `from_snapshot` for a snapshot of the current version. -/
def fromSnapshot (configuredCandidates : List (RuliadSamplerCandidate K))
    (snapshot : RuliadSourceSelectionStateSnapshot K) : Option (LiveSourceSelectionState K) :=
  let restored : RuliadFrontierSampler K :=
    ⟨config.samplerConfig, snapshot.candidates, snapshot.capabilityPosteriors,
      snapshot.verifierFailures⟩
  let levels := List.range' config.configuredMin
    (restored.maxDifficultyLevel + 1 - config.configuredMin)
  let current := configuredCandidates ++ levels.flatMap config.candidatesForDifficulty
  let sampler := current.foldl .addCandidate restored
  if sampler.candidates.isEmpty then none
  else some
    { sampler := sampler
      frontierExtensionCount := snapshot.frontierExtensionCount
      absoluteStepOffset := snapshot.absoluteStepOffset
      pending := .empty
      control := snapshot.control }

/-- The states in which a dataset starts. -/
inductive Started : LiveSourceSelectionState K → Prop
  | start {candidates : List (RuliadSamplerCandidate K)} {state : LiveSourceSelectionState K}
    (h : start config candidates = some state) : Started state
  | fromSnapshot {candidates : List (RuliadSamplerCandidate K)}
    {snapshot : RuliadSourceSelectionStateSnapshot K} {state : LiveSourceSelectionState K}
    (h : fromSnapshot config candidates snapshot = some state) : Started state

/-- At the start nothing is pending. -/
theorem Started.pending_eq {state : LiveSourceSelectionState K} (h : Started config state) :
    state.pending = .empty := by
  cases h with
  | start h =>
    rw [LiveSourceSelectionState.start] at h
    split_ifs at h
    exact (Option.some.inj h) ▸ rfl
  | fromSnapshot h =>
    rw [LiveSourceSelectionState.fromSnapshot] at h
    simp only [Option.ite_none_left_eq_some] at h
    exact (Option.some.inj h.2) ▸ rfl

end LiveSourceSelectionState

end BurnDragon.Dataset
