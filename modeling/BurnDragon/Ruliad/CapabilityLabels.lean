import BurnDragon.Ruliad.Evaluation
import BurnDragon.Ruliad.FrontierSampler

/-!
# Labels of capability feedback

Capability feedback names the candidates that it is about by a label: a source, a difficulty, a
family, a task, a bucket, an answer contract, a mathematical domain or a reasoning mode. Whether a
candidate matches a label depends on its identity only, the fields that neither feedback nor
telemetry changes (`candidateMatchesCapabilityFeedback_congr`).
-/

namespace BurnDragon.Ruliad

open Rust

/-! ## Source semantics -/

inductive RuliadMathDomain
  | discreteDynamics
  | computationTheory
  | symbolicRewriting
  | universalAlgebra
  | categoryTheory
  | formalProof
  | logic
  | processCalculus
  | metagraphRewriting
  | informationTheory

def RuliadMathDomain.label : RuliadMathDomain → String
  | .discreteDynamics => "discrete_dynamics"
  | .computationTheory => "computation_theory"
  | .symbolicRewriting => "symbolic_rewriting"
  | .universalAlgebra => "universal_algebra"
  | .categoryTheory => "category_theory"
  | .formalProof => "formal_proof"
  | .logic => "logic"
  | .processCalculus => "process_calculus"
  | .metagraphRewriting => "metagraph_rewriting"
  | .informationTheory => "information_theory"

inductive RuliadReasoningMode
  | localRuleEvaluation
  | iteratedDynamics
  | stateMachineExecution
  | simulationEquivalence
  | structurePreservation
  | normalization
  | equationalReasoning
  | counterexampleEvaluation
  | compositionalReasoning
  | associativity
  | formalDeduction
  | proofConstruction
  | proofChecking
  | patternMatching
  | substitution
  | dependencyClosure
  | entropyCanary

def RuliadReasoningMode.label : RuliadReasoningMode → String
  | .localRuleEvaluation => "local_rule_evaluation"
  | .iteratedDynamics => "iterated_dynamics"
  | .stateMachineExecution => "state_machine_execution"
  | .simulationEquivalence => "simulation_equivalence"
  | .structurePreservation => "structure_preservation"
  | .normalization => "normalization"
  | .equationalReasoning => "equational_reasoning"
  | .counterexampleEvaluation => "counterexample_evaluation"
  | .compositionalReasoning => "compositional_reasoning"
  | .associativity => "associativity"
  | .formalDeduction => "formal_deduction"
  | .proofConstruction => "proof_construction"
  | .proofChecking => "proof_checking"
  | .patternMatching => "pattern_matching"
  | .substitution => "substitution"
  | .dependencyClosure => "dependency_closure"
  | .entropyCanary => "entropy_canary"

structure RuliadSourceSemantics where
  mathDomains : List RuliadMathDomain
  reasoningModes : List RuliadReasoningMode

def familyDefaultDomains : RuliadFamilyKind → List RuliadMathDomain
  | .eca | .simulation => [.discreteDynamics]
  | .automaton => [.computationTheory]
  | .rewrite => [.symbolicRewriting]
  | .algebra => [.universalAlgebra]
  | .category => [.categoryTheory]
  | .proofTree => [.formalProof]
  | .formalProof => [.formalProof, .metagraphRewriting]
  | .leanTask => [.formalProof]
  | .hashNoise => [.informationTheory]

def taskDefaultReasoningModes : RuliadTaskKind → List RuliadReasoningMode
  | .nextState => [.localRuleEvaluation]
  | .multiStepState => [.iteratedDynamics]
  | .verifySimulation => [.simulationEquivalence]
  | .evaluateAutomaton => [.stateMachineExecution]
  | .rewriteNormalForm => [.normalization]
  | .checkAlgebraLaw => [.equationalReasoning]
  | .composeCategoryPath => [.compositionalReasoning]
  | .verifyCategoryLaw => [.associativity]
  | .verifyFunctorPreservation => [.structurePreservation]
  | .verifyNaturalitySquare => [.structurePreservation]
  | .proveTheorem => [.formalDeduction]
  | .constructProof => [.proofConstruction]
  | .advanceProof => [.proofConstruction, .localRuleEvaluation]
  | .selectProofAction => [.proofConstruction, .compositionalReasoning]
  | .checkProof => [.proofChecking]
  | .completeProof => [.formalDeduction]
  | .hashCanary => [.entropyCanary]

/-- `ruliad_source_semantics`. -/
def ruliadSourceSemantics (family : RuliadFamilyKind) (taskKind : RuliadTaskKind) :
    RuliadSourceSemantics :=
  match family, taskKind with
  | .eca, .nextState =>
    ⟨[.discreteDynamics, .computationTheory],
      [.localRuleEvaluation]⟩
  | .eca, .multiStepState =>
    ⟨[.discreteDynamics, .computationTheory],
      [.localRuleEvaluation, .iteratedDynamics]⟩
  | .simulation, .verifySimulation =>
    ⟨[.discreteDynamics, .computationTheory, .categoryTheory],
      [.simulationEquivalence, .structurePreservation, .compositionalReasoning]⟩
  | .automaton, .evaluateAutomaton =>
    ⟨[.computationTheory],
      [.stateMachineExecution, .counterexampleEvaluation]⟩
  | .rewrite, .rewriteNormalForm =>
    ⟨[.symbolicRewriting, .computationTheory],
      [.normalization, .iteratedDynamics]⟩
  | .algebra, .checkAlgebraLaw =>
    ⟨[.universalAlgebra],
      [.equationalReasoning, .associativity, .counterexampleEvaluation]⟩
  | .category, .composeCategoryPath =>
    ⟨[.categoryTheory],
      [.compositionalReasoning, .associativity, .structurePreservation]⟩
  | .category, .verifyCategoryLaw =>
    ⟨[.categoryTheory],
      [.associativity, .equationalReasoning, .structurePreservation]⟩
  | .category, .verifyFunctorPreservation =>
    ⟨[.categoryTheory],
      [.structurePreservation, .compositionalReasoning, .equationalReasoning]⟩
  | .category, .verifyNaturalitySquare =>
    ⟨[.categoryTheory],
      [.structurePreservation, .compositionalReasoning, .formalDeduction]⟩
  | .proofTree, .proveTheorem =>
    ⟨[.universalAlgebra, .categoryTheory, .formalProof],
      [.equationalReasoning, .compositionalReasoning, .formalDeduction, .structurePreservation]⟩
  | .formalProof, .constructProof =>
    ⟨[.symbolicRewriting, .computationTheory, .universalAlgebra, .categoryTheory, .formalProof,
        .logic, .processCalculus, .metagraphRewriting],
      [.proofConstruction, .patternMatching, .substitution, .dependencyClosure,
        .compositionalReasoning]⟩
  | .formalProof, .advanceProof =>
    ⟨[.symbolicRewriting, .computationTheory, .universalAlgebra, .categoryTheory, .formalProof,
        .logic, .processCalculus, .metagraphRewriting],
      [.proofConstruction, .localRuleEvaluation, .patternMatching, .substitution,
        .dependencyClosure]⟩
  | .formalProof, .selectProofAction =>
    ⟨[.symbolicRewriting, .computationTheory, .universalAlgebra, .categoryTheory, .formalProof,
        .logic, .processCalculus, .metagraphRewriting],
      [.proofConstruction, .localRuleEvaluation, .patternMatching, .substitution,
        .compositionalReasoning]⟩
  | .formalProof, .checkProof =>
    ⟨[.symbolicRewriting, .computationTheory, .universalAlgebra, .categoryTheory, .formalProof,
        .logic, .processCalculus, .metagraphRewriting],
      [.proofChecking, .patternMatching, .dependencyClosure, .counterexampleEvaluation]⟩
  | .leanTask, .completeProof =>
    ⟨[.formalProof, .categoryTheory],
      [.formalDeduction, .structurePreservation, .compositionalReasoning]⟩
  | .hashNoise, .hashCanary =>
    ⟨[.informationTheory],
      [.entropyCanary, .counterexampleEvaluation]⟩
  | _, _ => ⟨familyDefaultDomains family, taskDefaultReasoningModes taskKind⟩

/-! ## Matching -/

variable {K : Type*} [Field K] [LinearOrder K]

namespace RuliadSamplerCandidate

/-- `candidate_family_and_task`. -/
def familyAndTask (candidate : RuliadSamplerCandidate K) :
    Option (RuliadFamilyKind × RuliadTaskKind) := do
  let family ← RuliadFamilyKind.fromLabel candidate.family
  let taskKind ← RuliadTaskKind.fromLabel candidate.taskKind
  return (family, taskKind)

/-- `candidate_matches_math_domain`. -/
def matchesMathDomain (candidate : RuliadSamplerCandidate K) (domain : String) : Bool :=
  match candidate.familyAndTask with
  | none => false
  | some (family, taskKind) =>
    (ruliadSourceSemantics family taskKind).mathDomains.any fun d => d.label = domain

/-- `candidate_matches_reasoning_mode`. -/
def matchesReasoningMode (candidate : RuliadSamplerCandidate K) (mode : String) : Bool :=
  match candidate.familyAndTask with
  | none => false
  | some (family, taskKind) =>
    (ruliadSourceSemantics family taskKind).reasoningModes.any fun m => m.label = mode

end RuliadSamplerCandidate

/-- `strip_prefix` on a label. -/
def labelAfter (start label : String) : Option String :=
  (stripPrefix start.toList label.toList).map String.ofList

/-- The difficulty that a label names. -/
def labelDifficulty (label : String) : Option ℕ := do
  let level ← stripPrefix "difficulty:".toList label.toList
  let digits ← stripPrefix ['d'] level
  parseUsize digits

/-- `candidate_matches_capability_feedback`. -/
def candidateMatchesCapabilityFeedback (candidate : RuliadSamplerCandidate K)
    (groupLabel : String) : Bool :=
  if (labelAfter "source:" groupLabel).isSome then
    match candidate.contract with
    | none => false
    | some answerContract =>
      ruliadSourceCapabilityLabel candidate.family candidate.taskKind candidate.difficultyLevel
        answerContract = groupLabel
  else if let some difficulty := labelDifficulty groupLabel then
    candidate.difficultyLevel = difficulty
  else if let some family := labelAfter "family:" groupLabel then
    candidate.family = family
  else if let some task := labelAfter "task:" groupLabel then
    candidate.taskKind = task || s!"{candidate.family}:{candidate.taskKind}" = task
  else if let some label := labelAfter "bucket:" groupLabel then
    candidate.oracleHash = label
  else if let some contract := labelAfter "contract:" groupLabel then
    candidate.contract = some contract
  else if let some domain :=
      (labelAfter "domain:" groupLabel).or (labelAfter "math_domain:" groupLabel) then
    candidate.matchesMathDomain domain
  else if let some mode :=
      (labelAfter "mode:" groupLabel).or (labelAfter "reasoning_mode:" groupLabel) then
    candidate.matchesReasoningMode mode
  else
    candidate.oracleHash = groupLabel

/-! ## Identity -/

/-- What capability feedback and telemetry leave of a candidate. -/
structure CandidateIdentity where
  oracleHash : String
  family : String
  taskKind : String
  answerContract : String
  difficultyLevel : ℕ
  isHashNoise : Bool
  deriving DecidableEq

def RuliadSamplerCandidate.identity (candidate : RuliadSamplerCandidate K) : CandidateIdentity where
  oracleHash := candidate.oracleHash
  family := candidate.family
  taskKind := candidate.taskKind
  answerContract := candidate.answerContract
  difficultyLevel := candidate.difficultyLevel
  isHashNoise := candidate.isHashNoise

@[simp] theorem identity_promote (candidate : RuliadSamplerCandidate K)
    (loss alignment promotionWeight : K) :
    (candidate.promote loss alignment promotionWeight).identity = candidate.identity := by
  unfold RuliadSamplerCandidate.promote
  split <;> rfl

/-- **Candidates of one identity match the same labels.** -/
theorem candidateMatchesCapabilityFeedback_congr {candidate candidate' : RuliadSamplerCandidate K}
    (h : candidate.identity = candidate'.identity) :
    candidateMatchesCapabilityFeedback candidate =
      candidateMatchesCapabilityFeedback candidate' := by
  obtain ⟨hhash, hfamily, htask, hcontract, hdifficulty, -⟩ := CandidateIdentity.mk.inj h
  have hanswer : candidate.contract = candidate'.contract := by
    unfold RuliadSamplerCandidate.contract
    rw [hcontract, hfamily, htask]
  have hpair : candidate.familyAndTask = candidate'.familyAndTask := by
    unfold RuliadSamplerCandidate.familyAndTask
    rw [hfamily, htask]
  funext label
  unfold candidateMatchesCapabilityFeedback RuliadSamplerCandidate.matchesMathDomain
    RuliadSamplerCandidate.matchesReasoningMode
  rw [hanswer, hpair, hhash, hfamily, htask, hdifficulty]

end BurnDragon.Ruliad
