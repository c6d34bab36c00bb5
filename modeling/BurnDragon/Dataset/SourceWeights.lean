import BurnDragon.Ruliad.FrontierSampler

/-!
# The weights of the source buckets

What `universality.rs` makes of the probabilities of the frontier sampler before a bucket is drawn: the
cold start forbids the difficult candidates for some steps, the limits on the answer contracts are
enforced again, and the dynamics control scales candidates. When the snapshot of the sampler shows enough
pressure on the most difficult level, the frontier is extended by new candidates.
-/

namespace BurnDragon.Dataset

open Rust Ruliad

variable {K : Type} [Field K] [LinearOrder K]

/-! ## The cold start -/

structure RuliadSourceSelectionColdStartConfig (K : Type) where
  enabled : Bool
  maxDifficultyLevel : ℕ
  holdSteps : ℕ
  rampSteps : ℕ
  releaseRequiresMastery : Bool
  masteryMinFeedbackCount : ℕ
  masteryVerifierMin : K
  masteryCompletionHealthMin : K
  masterySchemaWrongMax : K
  masteryMalformedMax : K
  masteryMissingMax : K

/-- `normalize_source_probabilities`, which normalizes as the sampler does. -/
def normalizeSourceProbabilities (probabilities : List K) : List K :=
  normalizeDistribution probabilities

namespace RuliadSourceSelectionColdStartConfig

variable (coldStart : RuliadSourceSelectionColdStartConfig K)
  (candidates : List (RuliadSamplerCandidate K))

/-- `timed_cold_start_max_difficulty`. -/
def timedMaxDifficulty (startCap maxDifficulty absoluteStep : ℕ) : ℕ :=
  if absoluteStep ≤ coldStart.holdSteps then startCap
  else
    let rampSteps := max coldStart.rampSteps 1
    let rampStep := absoluteStep - coldStart.holdSteps
    if rampSteps ≤ rampStep then maxDifficulty
    else
      let increment := saturatingMul (maxDifficulty - startCap) rampStep / rampSteps
      min (saturatingAdd startCap increment) maxDifficulty

/-- `cold_start_difficulty_mastered`. -/
def difficultyMastered (difficultyLevel : ℕ) : Bool :=
  let level := candidates.filter fun candidate => candidate.difficultyLevel = difficultyLevel
  !level.isEmpty && level.all fun candidate =>
    coldStart.masteryMinFeedbackCount ≤ candidate.capabilityFeedbackCount &&
    coldStart.masteryVerifierMin ≤ candidate.capabilityVerifierEma &&
    coldStart.masteryCompletionHealthMin ≤ candidate.capabilityCompletionHealthEma &&
    candidate.capabilitySchemaWrongEma ≤ coldStart.masterySchemaWrongMax &&
    candidate.capabilityMalformedEma ≤ coldStart.masteryMalformedMax &&
    candidate.capabilityMissingEma ≤ coldStart.masteryMissingMax

/-- The loop of `mastery_gated_cold_start_max_difficulty`, with the number of levels that are left. -/
def masteryGatedFrom : ℕ → ℕ → ℕ
  | 0, allowed => allowed
  | left + 1, allowed =>
    if coldStart.difficultyMastered candidates allowed then masteryGatedFrom left (allowed + 1)
    else allowed

/-- `mastery_gated_cold_start_max_difficulty`. -/
def masteryGatedMaxDifficulty (startCap maxDifficulty : ℕ) : ℕ :=
  coldStart.masteryGatedFrom candidates (maxDifficulty - startCap) startCap

/-- `current_cold_start_max_difficulty`. -/
def currentMaxDifficulty (absoluteStep : Option ℕ) : Option ℕ := do
  let absoluteStep ← absoluteStep
  let levels := candidates.map fun candidate => candidate.difficultyLevel
  let minDifficulty := levels.min?.getD 0
  let maxDifficulty := levels.max?.getD minDifficulty
  let startCap := min (max coldStart.maxDifficultyLevel minDifficulty) maxDifficulty
  if maxDifficulty ≤ startCap then none
  else
    let timeCap := coldStart.timedMaxDifficulty startCap maxDifficulty absoluteStep
    let maxAllowedDifficulty :=
      if coldStart.releaseRequiresMastery then
        min timeCap (coldStart.masteryGatedMaxDifficulty candidates startCap maxDifficulty)
      else timeCap
    if maxDifficulty ≤ maxAllowedDifficulty then none else some maxAllowedDifficulty

end RuliadSourceSelectionColdStartConfig

def applySourceSelectionColdStart (probabilities : List K)
    (candidates : List (RuliadSamplerCandidate K))
    (coldStart : RuliadSourceSelectionColdStartConfig K) (absoluteStep : Option ℕ) : List K :=
  if probabilities.isEmpty || probabilities.length ≠ candidates.length || !coldStart.enabled then
    probabilities
  else
    match coldStart.currentMaxDifficulty candidates absoluteStep with
    | none => probabilities
    | some maxAllowedDifficulty =>
      if candidates.any fun candidate => maxAllowedDifficulty < candidate.difficultyLevel then
        normalizeSourceProbabilities (probabilities.zipWith (fun probability candidate =>
          if maxAllowedDifficulty < candidate.difficultyLevel then 0 else probability) candidates)
      else probabilities

/-! ## Constraints and control -/

/-- `apply_probability_constraints`. -/
def applyProbabilityConstraints (sampler : RuliadFrontierSampler K) (probabilities : List K) :
    List K :=
  if probabilities.length ≠ sampler.candidates.length then probabilities
  else sampler.enforceAnswerContractBalance (normalizeDistribution probabilities)

structure LiveSourceSelectionControl (K : Type) where
  difficultyPressure : K
  hashNoiseMaxProbability : K

/-- `LiveSourceSelectionControl::default`. -/
def LiveSourceSelectionControl.initial : LiveSourceSelectionControl K := ⟨1, 1⟩

/-- The first part of `apply_source_selection_control`: the difficult candidates are boosted. -/
def applyDifficultyPressure (probabilities : List K) (candidates : List (RuliadSamplerCandidate K))
    (pressure : K) : List K :=
  let maxDifficulty : K :=
    (max ((candidates.map fun candidate => candidate.difficultyLevel).max?.getD 0) 1 : ℕ)
  if |pressure - 1| ≤ floatEpsilon K then probabilities
  else probabilities.zipWith (fun probability candidate =>
    if candidate.isHashNoise then probability
    else probability *
      max (1 + (pressure - 1) * ((candidate.difficultyLevel : K) / maxDifficulty)) 0) candidates

/-- The second part of `apply_source_selection_control`: the hash noise is capped. -/
def capHashNoise (probabilities : List K) (candidates : List (RuliadSamplerCandidate K))
    (hashMax : K) : List K :=
  let hashProbability := probabilityOf (fun candidate => candidate.isHashNoise) probabilities
    candidates
  if hashProbability ≤ hashMax || hashProbability ≤ floatEpsilon K then probabilities
  else
    let nonHashProbability := probabilityOf (fun candidate => !candidate.isHashNoise) probabilities
      candidates
    let scale :=
      if hashMax ≤ floatEpsilon K then 0
      else if 1 - floatEpsilon K ≤ hashMax || nonHashProbability ≤ floatEpsilon K then 1
      else hashMax * nonHashProbability / (hashProbability * (1 - hashMax))
    probabilities.zipWith (fun probability candidate =>
      if candidate.isHashNoise then probability * scale else probability) candidates

def applySourceSelectionControl (probabilities : List K)
    (candidates : List (RuliadSamplerCandidate K)) (control : LiveSourceSelectionControl K) :
    List K :=
  if probabilities.isEmpty || probabilities.length ≠ candidates.length then probabilities
  else normalizeSourceProbabilities
    (capHashNoise
      (applyDifficultyPressure probabilities candidates (max control.difficultyPressure 0))
      candidates (clamp control.hashNoiseMaxProbability 0 1))

/-! ## The pressure on the frontier -/

structure RuliadFrontierExtensionConfig (K : Type) where
  enabled : Bool
  levelsPerExtension : ℕ
  extendWhenNormalizedDifficultyAtLeast : K
  extendWhenMaxDifficultyProbabilityAtLeast : K
  maxMaterializedLevels : ℕ

/-- The fields of `RuliadMetricSnapshot` that decide on an extension. -/
structure RuliadMetricSnapshot (K : Type) where
  frontierLoss : K
  targetLoss : K
  maxDifficultyLevel : ℕ
  normalizedDifficultyScore : K
  maxDifficultyProbability : K
  masteredProbability : K

/-- `snapshot_with_probabilities`. -/
def snapshotWithProbabilities (library : FloatLibrary K) (sampler : RuliadFrontierSampler K)
    (probabilities : List K) : RuliadMetricSnapshot K :=
  let probs :=
    if probabilities.length = sampler.candidates.length then probabilities
    else sampler.probabilities library
  let maxDifficultyLevel := sampler.maxDifficultyLevel
  let meanDifficultyLevel : K :=
    ((probs.zip sampler.candidates).map fun entry => entry.1 * (entry.2.difficultyLevel : K)).sum
  { frontierLoss := ((probs.zip sampler.candidates).map fun entry => entry.1 * entry.2.lossEma).sum
    targetLoss := sampler.config.targetLoss
    maxDifficultyLevel := maxDifficultyLevel
    normalizedDifficultyScore :=
      if maxDifficultyLevel = 0 then 0 else meanDifficultyLevel / maxDifficultyLevel
    maxDifficultyProbability := probabilityOf
      (fun candidate => candidate.difficultyLevel = maxDifficultyLevel) probs sampler.candidates
    masteredProbability := probabilityOf
      (fun candidate => candidate.mastered sampler.config.targetLoss) probs sampler.candidates }

namespace RuliadMetricSnapshot

variable (snapshot : RuliadMetricSnapshot K) (extension : RuliadFrontierExtensionConfig K)

/-- `frontier_pressure_at_configured_edge`. -/
def pressureAtConfiguredEdge (masteryEscapeThreshold : K) : Bool :=
  extension.extendWhenMaxDifficultyProbabilityAtLeast ≤ snapshot.maxDifficultyProbability &&
  (extension.extendWhenNormalizedDifficultyAtLeast ≤ snapshot.normalizedDifficultyScore ||
    clamp masteryEscapeThreshold 0 1 ≤ snapshot.masteredProbability ||
    (0 < snapshot.targetLoss && snapshot.frontierLoss ≤ snapshot.targetLoss))

/-- The levels from the configured one up to the most difficult one. -/
def materializedLevels (configuredMin : ℕ) : ℕ :=
  saturatingAdd (snapshot.maxDifficultyLevel - configuredMin) 1

/-- `frontier_saturated`. -/
def frontierSaturated (masteryEscapeThreshold : K) (configuredMin : ℕ) : Bool :=
  if !snapshot.pressureAtConfiguredEdge extension masteryEscapeThreshold then false
  else if !extension.enabled then true
  else if extension.maxMaterializedLevels = 0 then false
  else extension.maxMaterializedLevels ≤ snapshot.materializedLevels configuredMin

end RuliadMetricSnapshot

end BurnDragon.Dataset
