import BurnDragon.Probability.Distribution
import BurnDragon.Ruliad.Spec
import BurnDragon.Rust.BTreeMap

/-!
# The frontier sampler

`RuliadFrontierSampler` of `search.rs` in exact arithmetic: the numbers are those of an ordered field, in
which every value is finite, and `exp`, `ln` and `sqrt` are parameters. `probabilities` takes the softmax
of the logits of the candidates and then moves mass for three reasons one after the other: mastery, the
capability frontier, and the limits on the answer contracts.
-/

namespace BurnDragon.Ruliad

open Rust Probability

/-- The functions of the floating-point library. -/
structure FloatLibrary (K : Type*) where
  exp : K → K
  ln : K → K
  sqrt : K → K

open scoped Rust.Instances in
/-- `f32::EPSILON`. -/
def floatEpsilon (K : Type*) [Field K] : K := 1 / 2 ^ 23

section

variable {K : Type*} [Field K] [LinearOrder K]

def clamp (x lo hi : K) : K := max lo (min x hi)

/-! ## Evidence -/

/-- The observation mass counts items, so rounding it does nothing. -/
structure BernoulliEvidence (K : Type*) where
  successMass : K
  observationMass : ℕ

structure RuliadCapabilityMasteryThresholds (K : Type*) where
  minimumItems : ℕ
  confidenceZ : K
  verifierMin : K
  completionHealthMin : K
  schemaWrongMax : K
  malformedMax : K
  missingMax : K

namespace BernoulliEvidence

def observeRate (evidence : BernoulliEvidence K) (rate : K) (itemCount : ℕ) : BernoulliEvidence K :=
  if itemCount = 0 then evidence
  else
    { successMass := evidence.successMass + clamp rate 0 1 * itemCount
      observationMass := evidence.observationMass + itemCount }

def mean (evidence : BernoulliEvidence K) : K :=
  if evidence.observationMass = 0 then 0
  else clamp (evidence.successMass / evidence.observationMass) 0 1

open scoped Rust.Instances in
def wilsonInterval (library : FloatLibrary K) (evidence : BernoulliEvidence K) (z : K) : K × K :=
  if evidence.observationMass = 0 then (0, 1)
  else
    let n : K := evidence.observationMass
    let p := evidence.mean
    let z := max z 0
    let z2 := z * z
    let denominator := 1 + z2 / n
    let center := (p + z2 / (2 * n)) / denominator
    let radius := z * library.sqrt (max (p * (1 - p) / n + z2 / (4 * n * n)) 0) / denominator
    (clamp (center - radius) 0 1, clamp (center + radius) 0 1)

def wilsonLower (library : FloatLibrary K) (evidence : BernoulliEvidence K) (z : K) : K :=
  (evidence.wilsonInterval library z).1

def wilsonUpper (library : FloatLibrary K) (evidence : BernoulliEvidence K) (z : K) : K :=
  (evidence.wilsonInterval library z).2

end BernoulliEvidence

structure RuliadCapabilityPosterior (K : Type*) where
  verifier : BernoulliEvidence K
  partialCredit : BernoulliEvidence K
  completionHealth : BernoulliEvidence K
  schemaWrong : BernoulliEvidence K
  malformed : BernoulliEvidence K
  missing : BernoulliEvidence K

structure RuliadCapabilityFeedback (K : Type*) where
  groupLabel : String
  itemCount : ℕ
  verifierRate : K
  partialCreditRate : K
  schemaValidWrongRate : K
  malformedRate : K
  missingRate : K
  completionHealthRate : K

namespace RuliadCapabilityPosterior

/-- `default`, without any observation. -/
def unobserved : RuliadCapabilityPosterior K :=
  let none : BernoulliEvidence K := ⟨0, 0⟩
  ⟨none, none, none, none, none, none⟩

def mastered (library : FloatLibrary K) (posterior : RuliadCapabilityPosterior K)
    (thresholds : RuliadCapabilityMasteryThresholds K) : Bool :=
  thresholds.minimumItems ≤ posterior.verifier.observationMass &&
  thresholds.verifierMin ≤ posterior.verifier.wilsonLower library thresholds.confidenceZ &&
  thresholds.completionHealthMin ≤
    posterior.completionHealth.wilsonLower library thresholds.confidenceZ &&
  posterior.schemaWrong.wilsonUpper library thresholds.confidenceZ ≤ thresholds.schemaWrongMax &&
  posterior.malformed.wilsonUpper library thresholds.confidenceZ ≤ thresholds.malformedMax &&
  posterior.missing.wilsonUpper library thresholds.confidenceZ ≤ thresholds.missingMax

/-- `record_capability_posterior`. -/
def record (posterior : RuliadCapabilityPosterior K) (feedback : RuliadCapabilityFeedback K) :
    RuliadCapabilityPosterior K where
  verifier := posterior.verifier.observeRate feedback.verifierRate feedback.itemCount
  partialCredit := posterior.partialCredit.observeRate feedback.partialCreditRate feedback.itemCount
  completionHealth :=
    posterior.completionHealth.observeRate feedback.completionHealthRate feedback.itemCount
  schemaWrong := posterior.schemaWrong.observeRate feedback.schemaValidWrongRate feedback.itemCount
  malformed := posterior.malformed.observeRate feedback.malformedRate feedback.itemCount
  missing := posterior.missing.observeRate feedback.missingRate feedback.itemCount

end RuliadCapabilityPosterior

/-! ## Candidates -/

structure RuliadSamplerConfig (K : Type*) where
  temperature : K
  explorationFloor : K
  targetLoss : K
  hashNoisePenalty : K
  masteryEscapeWeight : K
  masteryEscapeThreshold : K
  masteryMinNormalizedDifficulty : K
  masteryMinMaxDifficultyProbability : K
  masteryHashNoiseMaxProbability : K
  maxAnswerContractProbability : K
  minAnswerContractProbability : K
  capabilityFrontierMaxAhead : ℕ
  capabilityFrontierMaxUnverifiedProbability : K
  capabilityRemediationWeight : K
  capabilityFrontierMinCoverage : K
  capabilityMastery : RuliadCapabilityMasteryThresholds K

structure RuliadSamplerCandidate (K : Type*) where
  oracleHash : String
  family : String
  taskKind : String
  answerContract : String
  difficultyLevel : ℕ
  prior : K
  cost : K
  lossEma : K
  previousLossEma : K
  gradientAlignment : K
  isHashNoise : Bool
  capabilityFeedbackCount : ℕ
  capabilityVerifierEma : K
  capabilityPartialEma : K
  capabilityCompletionHealthEma : K
  capabilitySchemaWrongEma : K
  capabilityMalformedEma : K
  capabilityMissingEma : K
  difficultyLevel_le : difficultyLevel ≤ usizeMax

def difficultyGate (lossEma targetLoss : K) : K := 1 / (1 + |lossEma - targetLoss|)

namespace RuliadSamplerCandidate

variable (candidate : RuliadSamplerCandidate K) (config : RuliadSamplerConfig K)

def capabilityRemediationUtility : K :=
  if candidate.capabilityFeedbackCount = 0 then 0
  else
    let verifier := clamp candidate.capabilityVerifierEma 0 1
    let completion := clamp candidate.capabilityCompletionHealthEma 0 1
    let schemaWrong := clamp candidate.capabilitySchemaWrongEma 0 1
    let malformed := clamp candidate.capabilityMalformedEma 0 1
    let missing := clamp candidate.capabilityMissingEma 0 1
    let parseHealth := (1 - malformed) ^ 2 * (1 - missing) ^ 2
    let answerable := completion * parseHealth
    if answerable ≤ 5 / 100 then 0
    else
      let verifierGap := clamp ((50 / 100 - verifier) / (50 / 100)) 0 1
      let completionGap := clamp ((75 / 100 - completion) / (75 / 100)) 0 1
      let remediationNeed :=
        clamp (schemaWrong * (70 / 100) + verifierGap * (25 / 100) + completionGap * (5 / 100)) 0 1
      max config.capabilityRemediationWeight 0 * answerable * remediationNeed

def utility : K :=
  let learningProgress := max (candidate.previousLossEma - candidate.lossEma) 0
  let gate := difficultyGate candidate.lossEma config.targetLoss
  let gradient := max candidate.gradientAlignment 0
  let capabilityRemediation := candidate.capabilityRemediationUtility config
  let hashPenalty := if candidate.isHashNoise then config.hashNoisePenalty else 0
  (learningProgress + gate + gradient + capabilityRemediation - hashPenalty) /
    max candidate.cost (1 / 10 ^ 6)

/-- `candidate_capability_mastered`. -/
def capabilityMastered : Bool :=
  candidate.capabilityFeedbackCount ≠ 0 &&
  50 / 100 ≤ candidate.capabilityVerifierEma && 75 / 100 ≤ candidate.capabilityCompletionHealthEma &&
  candidate.capabilitySchemaWrongEma ≤ 25 / 100 && candidate.capabilityMalformedEma ≤ 5 / 100 &&
  candidate.capabilityMissingEma ≤ 5 / 100

/-- `candidate_mastered`. -/
def mastered (targetLoss : K) : Bool :=
  candidate.lossEma ≤ targetLoss && candidate.capabilityMastered

/-- The weight of a candidate among those that mass is moved to. -/
def priorWeight : K := max candidate.prior (1 / 10 ^ 9) / max candidate.cost (1 / 10 ^ 6)

end RuliadSamplerCandidate

/-! ## Answer contracts -/

def RuliadFamilyKind.fromLabel : String → Option RuliadFamilyKind
  | "eca" => some .eca
  | "simulation" => some .simulation
  | "automaton" => some .automaton
  | "rewrite" => some .rewrite
  | "algebra" => some .algebra
  | "category" => some .category
  | "proof_tree" => some .proofTree
  | "formal_proof" => some .formalProof
  | "lean_task" => some .leanTask
  | "hash_noise" => some .hashNoise
  | _ => none

def RuliadTaskKind.fromLabel : String → Option RuliadTaskKind
  | "next_state" => some .nextState
  | "multi_step_state" => some .multiStepState
  | "verify_simulation" => some .verifySimulation
  | "evaluate_automaton" => some .evaluateAutomaton
  | "rewrite_normal_form" => some .rewriteNormalForm
  | "check_algebra_law" => some .checkAlgebraLaw
  | "compose_category_path" => some .composeCategoryPath
  | "verify_category_law" => some .verifyCategoryLaw
  | "verify_functor_preservation" => some .verifyFunctorPreservation
  | "verify_naturality_square" => some .verifyNaturalitySquare
  | "prove_theorem" => some .proveTheorem
  | "construct_proof" => some .constructProof
  | "advance_proof" => some .advanceProof
  | "select_proof_action" => some .selectProofAction
  | "check_proof" => some .checkProof
  | "complete_proof" => some .completeProof
  | "hash_canary" => some .hashCanary
  | _ => none

def sourceAnswerContract (family : RuliadFamilyKind) (taskKind : RuliadTaskKind)
    (proofActionContract : RuliadProofActionAnswerContract) : Option String :=
  match family, taskKind with
  | .eca, _ => some "xlen,xalpha,xcounts,xedge"
  | .simulation, .verifySimulation => some "ok"
  | .automaton, .evaluateAutomaton => some "acc"
  | .rewrite, .rewriteNormalForm => some "nflen,nfalpha,nfcounts,nfedge"
  | .algebra, .checkAlgebraLaw => some "ok"
  | .category, _ | .proofTree, _ => some "ok,l,r"
  | .formalProof, .advanceProof => some "proof_step"
  | .formalProof, .selectProofAction =>
    match proofActionContract with
    | .presentationIndex => some "action_index"
    | .semanticStep => some "proof_action_step"
  | .formalProof, .constructProof => some "certificate"
  | .formalProof, .checkProof => some "ok,vg,vs,g,s,k"
  | .leanTask, .completeProof | .hashNoise, .hashCanary => some "sha"
  | _, _ => none

/-- `candidate_answer_contract`. -/
def RuliadSamplerCandidate.contract (candidate : RuliadSamplerCandidate K) : Option String :=
  if candidate.answerContract ≠ "" then some candidate.answerContract
  else do
    let family ← RuliadFamilyKind.fromLabel candidate.family
    let taskKind ← RuliadTaskKind.fromLabel candidate.taskKind
    sourceAnswerContract family taskKind .presentationIndex

/-! ## Distributions -/

/-- `normalize_distribution`. -/
def normalizeDistribution (values : List K) : List K :=
  let sum := (values.filter (0 < ·)).sum
  if sum ≤ floatEpsilon K then values.map fun _ => 1 / (values.length : K)
  else values.map fun value => if 0 < value then value / sum else 0

/-- `mix_probabilities`. -/
def mixProbabilities (left right : List K) (alpha : K) : List K :=
  let alpha := clamp alpha 0 1
  left.zipWith (fun l r => l * (1 - alpha) + r * alpha) right

/-- The probability of the candidates with a property. -/
def probabilityOf (p : RuliadSamplerCandidate K → Bool) (probs : List K)
    (candidates : List (RuliadSamplerCandidate K)) : K :=
  mass p (probs.zip candidates)

/-! ## The sampler -/

structure RuliadFrontierSampler (K : Type*) where
  config : RuliadSamplerConfig K
  candidates : List (RuliadSamplerCandidate K)
  capabilityPosteriors : BTreeMap String (RuliadCapabilityPosterior K)
  verifierFailures : ℕ

def coverageRatio (mastered total : ℕ) : K := if total = 0 then 1 else mastered / total

namespace RuliadFrontierSampler

variable (library : FloatLibrary K) (sampler : RuliadFrontierSampler K)

/-- `new`. -/
def start (config : RuliadSamplerConfig K) (candidates : List (RuliadSamplerCandidate K)) :
    RuliadFrontierSampler K :=
  ⟨config, candidates, .empty, 0⟩

def maxDifficultyLevel : ℕ :=
  (sampler.candidates.map fun candidate => candidate.difficultyLevel).foldl max 0

/-- The logits of the candidates. -/
def logits : List K :=
  let config := sampler.config
  let temperature := max config.temperature (1 / 10 ^ 6)
  let maxDifficulty : K := (max sampler.maxDifficultyLevel 1 : ℕ)
  let masteredFraction : K :=
    (sampler.candidates.countP fun candidate => candidate.mastered config.targetLoss) /
      (sampler.candidates.length : K)
  let masteryPressure := clamp ((masteredFraction - config.masteryEscapeThreshold) /
    max (1 - config.masteryEscapeThreshold) (1 / 10 ^ 6)) 0 1
  sampler.candidates.map fun candidate =>
    let normalizedDifficulty := candidate.difficultyLevel / maxDifficulty
    let masteryEscape := masteryPressure * max config.masteryEscapeWeight 0 * normalizedDifficulty
    library.ln (max candidate.prior (1 / 10 ^ 9)) +
      (candidate.utility config + masteryEscape) / temperature

/-- The softmax of the logits, mixed with the uniform distribution. -/
def exploring : List K :=
  let logits := sampler.logits library
  let maxLogit := logits.max?.getD 0
  let weights := logits.map fun logit => library.exp (logit - maxLogit)
  let sum := max weights.sum (1 / 10 ^ 12)
  let floor := clamp sampler.config.explorationFloor 0 1
  let uniform := 1 / (weights.length : K)
  weights.map fun weight => weight / sum * (1 - floor) + uniform * floor

/-! ### Mastery -/

def highDifficultyDistribution (maxDifficulty : ℕ) : List K :=
  normalizeDistribution (sampler.candidates.map fun candidate =>
    if candidate.difficultyLevel = maxDifficulty && !candidate.isHashNoise then candidate.priorWeight
    else 0)

/-- `satisfies` in `enforce_mastery_frontier`. -/
def satisfiesMastery (maxDifficulty : ℕ) (probs : List K) : Bool :=
  let config := sampler.config
  let normalizedDifficulty : K := if maxDifficulty = 0 then 0 else
    ((probs.zip sampler.candidates).map fun entry => entry.1 * (entry.2.difficultyLevel : K)).sum /
      maxDifficulty
  let maxDifficultyProbability := probabilityOf
    (fun candidate => candidate.difficultyLevel = maxDifficulty) probs sampler.candidates
  let hashNoiseProbability := probabilityOf (fun candidate => candidate.isHashNoise) probs
    sampler.candidates
  clamp config.masteryMinNormalizedDifficulty 0 1 ≤ normalizedDifficulty &&
  clamp config.masteryMinMaxDifficultyProbability 0 1 ≤ maxDifficultyProbability &&
  hashNoiseProbability ≤ clamp config.masteryHashNoiseMaxProbability 0 1

open scoped Rust.Instances in
/-- The bisection for the least mixture that satisfies the targets. -/
def masteryBisection (satisfies : List K → Bool) (original high : List K) :
    ℕ → List K → K → K → List K
  | 0, best, _, _ => best
  | n + 1, best, lo, hi =>
    let alpha := (lo + hi) * (1 / 2)
    let mixed := mixProbabilities original high alpha
    if satisfies mixed then masteryBisection satisfies original high n mixed lo alpha
    else masteryBisection satisfies original high n best alpha hi

def enforceMasteryFrontier (probs : List K) : List K :=
  let config := sampler.config
  let maxDifficulty := sampler.maxDifficultyLevel
  if maxDifficulty = 0 || probs.isEmpty then probs
  else if probabilityOf (fun candidate => candidate.mastered config.targetLoss) probs
      sampler.candidates < config.masteryEscapeThreshold then probs
  else if clamp config.masteryMinNormalizedDifficulty 0 1 ≤ 0 &&
      clamp config.masteryMinMaxDifficultyProbability 0 1 ≤ 0 then probs
  else
    let high := sampler.highDifficultyDistribution maxDifficulty
    if high.isEmpty then probs
    else if sampler.satisfiesMastery maxDifficulty probs then probs
    else
      let best := masteryBisection (sampler.satisfiesMastery maxDifficulty) probs high 24 probs 0 1
      if sampler.satisfiesMastery maxDifficulty best then best else high

/-! ### The capability frontier -/

/-- `grouped_mastery_coverage`. -/
def groupedMasteryCoverage (candidates : List (RuliadSamplerCandidate K)) (mastered : List String)
    (key : RuliadSamplerCandidate K → String) : K :=
  let allGroups := (candidates.map key).dedup
  let masteredGroups :=
    ((candidates.filter fun candidate => candidate.oracleHash ∈ mastered).map key).dedup
  coverageRatio masteredGroups.length allGroups.length

/-- `mastered` of the coverage of the candidates of one difficulty. -/
def coverageMastered (candidates : List (RuliadSamplerCandidate K)) : Bool :=
  let minimum := clamp sampler.config.capabilityFrontierMinCoverage 0 1
  let mastered := ((candidates.filter fun candidate =>
    (sampler.capabilityPosteriors.get? candidate.oracleHash).any fun posterior =>
      posterior.mastered library sampler.config.capabilityMastery).map
        fun candidate => candidate.oracleHash).dedup
  minimum ≤ (coverageRatio mastered.length candidates.length : K) &&
  minimum ≤ groupedMasteryCoverage candidates mastered (fun candidate => candidate.family) &&
  minimum ≤ groupedMasteryCoverage candidates mastered (fun candidate => candidate.taskKind) &&
  minimum ≤ groupedMasteryCoverage candidates mastered fun candidate =>
    if candidate.answerContract = "" then "untyped" else candidate.answerContract

/-- The candidates by difficulty, without hash noise. -/
def difficultyLevels : BTreeMap ℕ (List (RuliadSamplerCandidate K)) :=
  (sampler.candidates.filter fun candidate => !candidate.isHashNoise).foldl
    (fun levels candidate => levels.push candidate.difficultyLevel candidate) .empty

/-- The last of the levels that are mastered one after the other. -/
def masteredBase (base : ℕ) : List (ℕ × Bool) → ℕ
  | [] => base
  | (difficulty, mastered) :: levels => if mastered then masteredBase difficulty levels else base

def capabilityFrontierAllowedMaxDifficulty : Option ℕ :=
  let coverage := sampler.difficultyLevels.entries.map fun level =>
    (level.1, sampler.coverageMastered library level.2)
  match coverage with
  | [] => none
  | (minDifficulty, backedMastered) :: levels =>
    let base := if backedMastered then masteredBase minDifficulty levels else minDifficulty
    some (saturatingAdd base sampler.config.capabilityFrontierMaxAhead)

def allowedCapabilityFrontierDistribution (allowedMax : ℕ) : List K :=
  normalizeDistribution (sampler.candidates.map fun candidate =>
    if candidate.difficultyLevel ≤ allowedMax then candidate.priorWeight else 0)

/-- The candidate is above the allowed difficulty. -/
def blocked (allowedMax : ℕ) (candidate : RuliadSamplerCandidate K) : Bool :=
  allowedMax < candidate.difficultyLevel

/-- The cap on the probability of the blocked candidates. -/
def maxUnverifiedProbability : K :=
  clamp sampler.config.capabilityFrontierMaxUnverifiedProbability 0 1

def enforceCapabilityFrontier (probs : List K) : List K :=
  if probs.isEmpty || sampler.capabilityPosteriors.entries.isEmpty then probs
  else
    match sampler.capabilityFrontierAllowedMaxDifficulty library with
    | none => probs
    | some allowedMax =>
      let maxUnverified := sampler.maxUnverifiedProbability
      let blockedMass := probabilityOf (blocked allowedMax) probs sampler.candidates
      let allowed := sampler.allowedCapabilityFrontierDistribution allowedMax
      if sampler.maxDifficultyLevel ≤ allowedMax then probs
      else if 1 ≤ maxUnverified then probs
      else if blockedMass ≤ maxUnverified then probs
      else if allowed.isEmpty then probs
      else
        let excess := blockedMass - maxUnverified
        let blockedScale := if blockedMass ≤ floatEpsilon K then 0 else maxUnverified / blockedMass
        normalizeDistribution (((probs.zip sampler.candidates).zip allowed).map fun entry =>
          if blocked allowedMax entry.1.2 then entry.1.1 * blockedScale
          else entry.1.1 + excess * entry.2)

/-! ### The limits on the answer contracts -/

/-- The candidates of an answer contract, with the probability of the contract. -/
structure AnswerContractGroup (K : Type*) where
  indices : List ℕ
  mass : K

/-- The indices of the candidates by answer contract. -/
def answerContractIndices : BTreeMap String (List ℕ) :=
  sampler.candidates.zipIdx.foldl (fun groups entry =>
    match entry.1.contract with
    | some contract => groups.push contract entry.2
    | none => groups) .empty

/-- The probability of the candidates at indices. -/
def massAt (probs : List K) (indices : List ℕ) : K :=
  (indices.map fun index => max (probs.getD index 0) 0).sum

def answerContractGroups (probs : List K) : List (AnswerContractGroup K) :=
  sampler.answerContractIndices.entries.map fun entry => ⟨entry.2, massAt probs entry.2⟩

/-- `probs[*index] *= scale` for all indices. -/
def scaleAt (probs : List K) (indices : List ℕ) (scale : K) : List K :=
  indices.foldl (fun probs index => probs.modify index (· * scale)) probs

/-- `distribute_probability_addition`. -/
def distributeProbabilityAddition (probs : List K) (indices : List ℕ) (addition : K) : List K :=
  if indices.isEmpty || addition ≤ floatEpsilon K then probs
  else
    let existingMass := massAt probs indices
    if floatEpsilon K < existingMass then
      indices.foldl (fun probs index =>
        probs.modify index fun prob => prob + addition * max prob 0 / existingMass) probs
    else
      let weight (index : ℕ) : K := (sampler.candidates[index]?.map fun c => c.priorWeight).getD 0
      let priorMass := max (indices.map weight).sum (1 / 10 ^ 12)
      indices.foldl (fun probs index =>
        probs.modify index (· + addition * weight index / priorMass)) probs

/-- The first loop over the groups: a group above the cap is scaled down to it. -/
def scaleDownToCap (cap : K) : List (AnswerContractGroup K) → List K →
    List K × List (AnswerContractGroup K) × K
  | [], probs => (probs, [], 0)
  | group :: groups, probs =>
    if group.mass ≤ cap || group.mass ≤ floatEpsilon K then
      let (probs, groups, excess) := scaleDownToCap cap groups probs
      (probs, group :: groups, excess)
    else
      let (probs, groups, excess) :=
        scaleDownToCap cap groups (scaleAt probs group.indices (cap / group.mass))
      (probs, { group with mass := cap } :: groups, group.mass - cap + excess)

def enforceAnswerContractCap (cap : K) (groups : List (AnswerContractGroup K)) (probs : List K) :
    List K :=
  let (probs, groups, excess) := scaleDownToCap cap groups probs
  let headroom := (groups.map fun group => max (cap - group.mass) 0).sum
  normalizeDistribution <|
    if excess ≤ floatEpsilon K || headroom ≤ floatEpsilon K then probs
    else groups.foldl (fun probs group =>
      let room := max (cap - group.mass) 0
      if room ≤ floatEpsilon K then probs
      else sampler.distributeProbabilityAddition probs group.indices (excess * room / headroom)) probs

def enforceAnswerContractFloor (floor : K) (groups : List (AnswerContractGroup K))
    (probs : List K) : List K :=
  if floor ≤ floatEpsilon K || groups.isEmpty then probs
  else
    let deficit (group : AnswerContractGroup K) := max (floor - group.mass) 0
    let surplus (group : AnswerContractGroup K) := max (group.mass - floor) 0
    let deficits := groups.filter fun group => floatEpsilon K < deficit group
    let deficitTotal := (deficits.map deficit).sum
    let surplusTotal := (groups.map surplus).sum
    let transfer := min deficitTotal surplusTotal
    if deficits.isEmpty || transfer ≤ floatEpsilon K then probs
    else
      let taken := groups.foldl (fun probs group =>
        if surplus group ≤ floatEpsilon K || group.mass ≤ floatEpsilon K then probs
        else
          let removal := transfer * surplus group / max surplusTotal (1 / 10 ^ 12)
          scaleAt probs group.indices (clamp ((group.mass - removal) / group.mass) 0 1)) probs
      deficits.foldl (fun probs group =>
        let addition := transfer * deficit group / max deficitTotal (1 / 10 ^ 12)
        sampler.distributeProbabilityAddition probs group.indices addition) taken

/-- The equal share of the answer contracts. -/
def groupUniform : K := 1 / (sampler.answerContractIndices.entries.length : K)

/-- The cap on the probability of an answer contract. -/
def answerContractCap : Option K :=
  let configured := sampler.config.maxAnswerContractProbability
  if configured < 1 then some (max (clamp configured 0 1) sampler.groupUniform) else none

/-- The floor under the probability of an answer contract. -/
def answerContractFloor : Option K :=
  let configured := sampler.config.minAnswerContractProbability
  if 0 < configured then
    some (min (clamp configured 0 sampler.groupUniform) (sampler.answerContractCap.getD 1))
  else none

def enforceAnswerContractBalance (probs : List K) : List K :=
  if probs.isEmpty || probs.length ≠ sampler.candidates.length then probs
  else if sampler.answerContractIndices.entries.length ≤ 1 then probs
  else if sampler.answerContractCap.isNone && sampler.answerContractFloor.isNone then probs
  else
    let probs := normalizeDistribution probs
    let probs := match sampler.answerContractCap with
      | some cap => sampler.enforceAnswerContractCap cap (sampler.answerContractGroups probs) probs
      | none => probs
    let probs := match sampler.answerContractFloor with
      | some floor =>
        sampler.enforceAnswerContractFloor floor (sampler.answerContractGroups probs) probs
      | none => probs
    normalizeDistribution probs

/-! ### Probabilities -/

/-- The distribution before the limits on the answer contracts are enforced. -/
def frontierProbabilities : List K :=
  sampler.enforceCapabilityFrontier library
    (sampler.enforceMasteryFrontier (sampler.exploring library))

def probabilities : List K :=
  if sampler.candidates.isEmpty then []
  else sampler.enforceAnswerContractBalance (sampler.frontierProbabilities library)

end RuliadFrontierSampler

/-! ## What changes the sampler -/

structure RuliadSampleTelemetry (K : Type*) where
  oracleHash : String
  loss : K
  previousLoss : Option K
  gradientAlignment : Option K
  verificationCost : K
  accepted : Bool

def emaUpdate (previous value alpha : K) : K := previous * (1 - alpha) + value * alpha

namespace RuliadCapabilityFeedback

variable (feedback : RuliadCapabilityFeedback K)

open scoped Rust.Instances in
/-- `capability_feedback_structural_error`. -/
def structuralError : K :=
  clamp feedback.schemaValidWrongRate 0 1 + clamp feedback.malformedRate 0 1 * 2 +
    clamp feedback.missingRate 0 1 * 2 +
    max (50 / 100 - clamp feedback.completionHealthRate 0 1) 0 * 2

def isDifficultyGroup : Bool := feedback.groupLabel.startsWith "difficulty:"

def isRemediationGroup : Bool :=
  ["family:", "task:", "contract:", "domain:", "math_domain:", "mode:", "reasoning_mode:",
    "bucket:"].any fun start => feedback.groupLabel.startsWith start

def canUpdateSampler : Bool :=
  if feedback.verifierRate < 5 / 100 then false
  else if feedback.isDifficultyGroup then feedback.structuralError ≤ 35 / 100
  else feedback.isRemediationGroup && feedback.structuralError ≤ 50 / 100

open scoped Rust.Instances in
def promotionWeight : K :=
  let verifier := clamp feedback.verifierRate 0 1
  let partialCredit := clamp feedback.partialCreditRate 0 1
  let structurallyHealthy : Bool :=
    60 / 100 ≤ clamp feedback.completionHealthRate 0 1 && clamp feedback.malformedRate 0 1 ≤ 5 / 100 &&
    clamp feedback.missingRate 0 1 ≤ 5 / 100 && clamp feedback.schemaValidWrongRate 0 1 ≤ 25 / 100
  if !structurallyHealthy then 0
  else if verifier < 5 / 100 then 0
  else clamp (verifier * 2 + partialCredit * (50 / 100)) (5 / 100) 1

def loss (targetLoss : K) : K :=
  let verifierGap := 1 - clamp feedback.verifierRate 0 1
  let partialCredit := clamp feedback.partialCreditRate 0 1
  targetLoss * max (75 / 100 + verifierGap * (50 / 100) - partialCredit * (15 / 100)) (35 / 100)

def alignment : K :=
  let structureHealth := clamp feedback.completionHealthRate 0 1 *
    (1 - clamp feedback.malformedRate 0 1) * (1 - clamp feedback.missingRate 0 1) *
    (1 - clamp feedback.schemaValidWrongRate 0 1)
  let verifier := clamp feedback.verifierRate 0 1
  let partialCredit := if 5 / 100 ≤ verifier then clamp feedback.partialCreditRate 0 1 else 0
  clamp (structureHealth * (verifier + partialCredit * (25 / 100))) 0 1

end RuliadCapabilityFeedback

namespace RuliadSamplerCandidate

/-- `record_telemetry` on the candidate of the telemetry. -/
def recordTelemetry (candidate : RuliadSamplerCandidate K) (telemetry : RuliadSampleTelemetry K) :
    RuliadSamplerCandidate K :=
  { candidate with
    previousLossEma := telemetry.previousLoss.getD (max candidate.lossEma telemetry.loss)
    lossEma := if candidate.lossEma ≤ floatEpsilon K then telemetry.loss
      else candidate.lossEma * (90 / 100) + telemetry.loss * (10 / 100)
    gradientAlignment := match telemetry.gradientAlignment with
      | some alignment => candidate.gradientAlignment * (90 / 100) + alignment * (10 / 100)
      | none => candidate.gradientAlignment
    cost := max telemetry.verificationCost (1 / 10 ^ 6) }

/-- `record_candidate_capability_feedback`. -/
def recordFeedback (candidate : RuliadSamplerCandidate K) (feedback : RuliadCapabilityFeedback K) :
    RuliadSamplerCandidate K :=
  let alpha : K := if candidate.capabilityFeedbackCount = 0 then 1 else 25 / 100
  { candidate with
    capabilityFeedbackCount := saturatingAdd candidate.capabilityFeedbackCount 1
    capabilityVerifierEma :=
      emaUpdate candidate.capabilityVerifierEma (clamp feedback.verifierRate 0 1) alpha
    capabilityPartialEma :=
      emaUpdate candidate.capabilityPartialEma (clamp feedback.partialCreditRate 0 1) alpha
    capabilityCompletionHealthEma :=
      emaUpdate candidate.capabilityCompletionHealthEma (clamp feedback.completionHealthRate 0 1) alpha
    capabilitySchemaWrongEma :=
      emaUpdate candidate.capabilitySchemaWrongEma (clamp feedback.schemaValidWrongRate 0 1) alpha
    capabilityMalformedEma :=
      emaUpdate candidate.capabilityMalformedEma (clamp feedback.malformedRate 0 1) alpha
    capabilityMissingEma :=
      emaUpdate candidate.capabilityMissingEma (clamp feedback.missingRate 0 1) alpha }

/-- The loss of a candidate that the feedback promotes. -/
def promote (candidate : RuliadSamplerCandidate K) (loss alignment promotionWeight : K) :
    RuliadSamplerCandidate K :=
  if loss < candidate.lossEma then
    let updateAlpha := 15 / 100 * promotionWeight
    { candidate with
      previousLossEma := candidate.lossEma
      lossEma := candidate.lossEma * (1 - updateAlpha) + loss * updateAlpha
      gradientAlignment := candidate.gradientAlignment * (85 / 100) +
        alignment * (15 / 100) * promotionWeight }
  else candidate

end RuliadSamplerCandidate

namespace RuliadFrontierSampler

/-- `add_candidates` for one candidate. A known one only brings its answer contract up to date. -/
def addCandidate (sampler : RuliadFrontierSampler K) (candidate : RuliadSamplerCandidate K) :
    RuliadFrontierSampler K :=
  match sampler.candidates.findIdx? fun existing => existing.oracleHash = candidate.oracleHash with
  | some index =>
    if candidate.answerContract = "" then sampler
    else { sampler with
      candidates := sampler.candidates.modify index fun existing =>
        { existing with answerContract := candidate.answerContract } }
  | none => { sampler with candidates := sampler.candidates ++ [candidate] }

def recordTelemetry (sampler : RuliadFrontierSampler K) (telemetry : RuliadSampleTelemetry K) :
    RuliadFrontierSampler K :=
  if !telemetry.accepted then { sampler with verifierFailures := sampler.verifierFailures + 1 }
  else
    match sampler.candidates.findIdx? fun candidate =>
        candidate.oracleHash = telemetry.oracleHash with
    | some index => { sampler with
        candidates := sampler.candidates.modify index fun candidate =>
          candidate.recordTelemetry telemetry }
    | none => sampler

/-- `record_capability_feedback`. `matchesLabel` is `candidate_matches_capability_feedback`. -/
def recordCapabilityFeedback (matchesLabel : RuliadSamplerCandidate K → String → Bool)
    (sampler : RuliadFrontierSampler K) (feedback : RuliadCapabilityFeedback K) :
    RuliadFrontierSampler K :=
  if feedback.itemCount = 0 then sampler
  else
    let isMatched (candidate : RuliadSamplerCandidate K) := matchesLabel candidate feedback.groupLabel
    let recorded := { sampler with
      candidates := sampler.candidates.map fun candidate =>
        if isMatched candidate then candidate.recordFeedback feedback else candidate
      capabilityPosteriors := (sampler.candidates.filter isMatched).foldl (fun posteriors candidate =>
        posteriors.insert candidate.oracleHash
          (((posteriors.get? candidate.oracleHash).getD .unobserved).record feedback))
        sampler.capabilityPosteriors }
    let targetLoss := max sampler.config.targetLoss (1 / 10 ^ 6)
    let promotionWeight := feedback.promotionWeight
    if !sampler.candidates.any isMatched || !feedback.canUpdateSampler ||
        promotionWeight ≤ floatEpsilon K then recorded
    else { recorded with
      candidates := recorded.candidates.map fun candidate =>
        if isMatched candidate then
          candidate.promote (feedback.loss targetLoss) feedback.alignment promotionWeight
        else candidate }

end RuliadFrontierSampler

end

end BurnDragon.Ruliad
