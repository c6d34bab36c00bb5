import BurnDragon.Ruliad.Ir

/-!
# The replay kernel

`kernel.rs`: the validation of a problem, the application of one rewrite step and the replay of a
certificate. `replayCertificate` goes through the required goals in increasing order and, for each,
replays the certificate's steps from the left side of the claim; its report says how far it came.

A substitution is the map that matching fills. `matchTerm` returns it instead of updating it in
place; the code drops the map when matching fails.
-/

namespace BurnDragon.Ruliad

open Equational Rust

structure RuliadKernelLimits where
  maximumAxioms : ℕ
  maximumGoals : ℕ
  maximumSteps : ℕ
  maximumTermNodes : ℕ
  maximumPathDepth : ℕ
  deriving DecidableEq

/-- `RuliadKernelLimits::default()`. -/
def RuliadKernelLimits.default : RuliadKernelLimits where
  maximumAxioms := 16384
  maximumGoals := 16384
  maximumSteps := 1048576
  maximumTermNodes := 4194304
  maximumPathDepth := 4096

inductive RuliadKernelFailureKind
  | version
  | resourceLimit
  | malformedProblem
  | problemHash
  | malformedCertificate
  | missingDependency
  | unknownSource
  | invalidPath
  | patternMismatch
  | goalMismatch
  deriving DecidableEq

def RuliadKernelFailureKind.label : RuliadKernelFailureKind → String
  | version => "version"
  | resourceLimit => "resource_limit"
  | malformedProblem => "malformed_problem"
  | problemHash => "problem_hash"
  | malformedCertificate => "malformed_certificate"
  | missingDependency => "missing_dependency"
  | unknownSource => "unknown_source"
  | invalidPath => "invalid_path"
  | patternMismatch => "pattern_mismatch"
  | goalMismatch => "goal_mismatch"

structure RuliadKernelFailure where
  kind : RuliadKernelFailureKind
  goal : Option ℕ
  step : Option ℕ
  message : String
  deriving DecidableEq

/-- The result of a kernel function that may fail. -/
abbrev Kernel (α : Type) := Except RuliadKernelFailure α

structure RuliadReplayReport where
  accepted : Bool
  problemHash : Option String
  requiredGoals : ℕ
  verifiedGoals : ℕ
  submittedSteps : ℕ
  verifiedSteps : ℕ
  rootVerified : Bool
  complexity : RuliadComplexityVector
  failure : Option RuliadKernelFailure
  deriving DecidableEq

/-! ## Validation -/

/-- `valid_identifier`. -/
def validIdentifier (value : String) : Bool :=
  value.toList ≠ [] && byteLen value.toList ≤ 128 &&
    value.toList.all fun c => c.isAlphanum || c == '_' || c == '-' || c == '.'

def validateSymbol (symbol : String) : Kernel Unit :=
  if validIdentifier symbol then
    .ok ()
  else
    .error ⟨.malformedProblem, none, none, "invalid symbol `" ++ symbol ++ "`"⟩

mutual

def validateTerm : RuliadTerm → Kernel Unit
  | .var _ => .ok ()
  | .atom symbol => validateSymbol symbol
  | .apply operator arguments => do
    validateSymbol operator
    if arguments.isEmpty then
      .error ⟨.malformedProblem, none, none,
        "application `" ++ operator ++ "` requires at least one argument"⟩
    else
      validateTerms arguments

/-- `validate_term` for the arguments in order. -/
def validateTerms : List RuliadTerm → Kernel Unit
  | [] => .ok ()
  | t :: ts => do
    validateTerm t
    validateTerms ts

end

/-- The nodes of two terms added to a running count. -/
def addNodes (termNodes : ℕ) (lhs rhs : RuliadTerm) : ℕ :=
  saturatingAdd (saturatingAdd termNodes (RuliadTerm.nodeCount lhs)) (RuliadTerm.nodeCount rhs)

/-- The loop of `validate_problem` over the axioms: it returns the number of term nodes. -/
def validateAxioms (axiomIds : List String) (termNodes : ℕ) :
    List RuliadRewriteAxiom → Kernel ℕ
  | [] => .ok termNodes
  | rule :: rules => do
    if !validIdentifier rule.id || rule.id ∈ axiomIds then
      throw ⟨.malformedProblem, none, none, "invalid or duplicate axiom id `" ++ rule.id ++ "`"⟩
    validateTerm rule.lhs
    validateTerm rule.rhs
    if ¬ ∀ i ∈ RuliadTerm.variableSet rule.rhs, i ∈ RuliadTerm.variableSet rule.lhs then
      throw ⟨.malformedProblem, none, none,
        "axiom `" ++ rule.id ++ "` introduces an unbound variable"⟩
    if rule.lhs matches .var _ then
      throw ⟨.malformedProblem, none, none,
        "axiom `" ++ rule.id ++ "` cannot rewrite a bare variable"⟩
    validateAxioms (rule.id :: axiomIds) (addNodes termNodes rule.lhs rule.rhs) rules

/-- The loop of `validate_problem` over the goals, from the goal with the given index on. -/
def validateGoals (index : ℕ) (goalIds : List String) (termNodes : ℕ) :
    List RuliadProofGoal → Kernel ℕ
  | [] => .ok termNodes
  | goal :: goals => do
    if !validIdentifier goal.id || goal.id ∈ goalIds then
      throw ⟨.malformedProblem, some index, none,
        "invalid or duplicate goal id `" ++ goal.id ++ "`"⟩
    validateTerm goal.claim.lhs
    validateTerm goal.claim.rhs
    if ((goal.dependencies.zip goal.dependencies.tail).any fun (a, b) => a ≥ b) ||
        goal.dependencies.any fun dependency => dependency ≥ index then
      throw ⟨.malformedProblem, some index, none,
        "goal dependencies must be unique, sorted, and precede the goal"⟩
    validateGoals (index + 1) (goal.id :: goalIds)
      (addNodes termNodes goal.claim.lhs goal.claim.rhs) goals

/-- `validate_problem`: the hash of a well-formed problem. -/
def validateProblem (S : Serde) (problem : RuliadProofProblem) (limits : RuliadKernelLimits) :
    Kernel String := do
  if problem.version ≠ ruliadIrVersion then
    throw ⟨.version, none, none, "problem version " ++ decimal problem.version ++
      " does not match kernel version " ++ decimal ruliadIrVersion⟩
  if trim problem.theory.toList = [] ∨ problem.goals = [] ∨
      problem.root ≥ problem.goals.length then
    throw ⟨.malformedProblem, none, none,
      "problem requires a theory, at least one goal, and a valid root"⟩
  if problem.axioms.length > limits.maximumAxioms ∨
      problem.goals.length > limits.maximumGoals then
    throw ⟨.resourceLimit, none, none, "problem exceeds axiom or goal limits"⟩
  let termNodes ← validateAxioms [] 0 problem.axioms
  let termNodes ← validateGoals 0 [] termNodes problem.goals
  if termNodes > limits.maximumTermNodes then
    throw ⟨.resourceLimit, none, none, "problem term nodes exceed kernel limit"⟩
  match problem.canonicalHash S with
  | .ok hash => return hash
  | .error error =>
    throw ⟨.malformedProblem, none, none, "failed to hash problem: " ++ error⟩

/-! ## Complexity -/

/-- The `depths` of `complexity_vector`: a goal is one deeper than its deepest dependency. The depths
that are not computed yet count as 1. -/
def dependencyDepths (goals : List RuliadProofGoal) : List ℕ :=
  goals.zipIdx.foldl
    (fun depths (goal, index) =>
      depths.set index (1 + (goal.dependencies.filterMap fun d => depths[d]?).foldr max 0))
    (List.replicate goals.length 1)

/-- The terms of a problem: the sides of its axioms and of its goals. -/
def RuliadProofProblem.terms (problem : RuliadProofProblem) : List RuliadTerm :=
  (problem.axioms.flatMap fun rule => [rule.lhs, rule.rhs]) ++
    problem.goals.flatMap fun goal => [goal.claim.lhs, goal.claim.rhs]

/-- `complexity_vector`. -/
def complexityVector (problem : RuliadProofProblem) (certificate : Option RuliadProofCertificate) :
    RuliadComplexityVector :=
  let syntaxNodes := problem.terms.foldl (fun n t => saturatingAdd n (RuliadTerm.nodeCount t)) 0
  let found := problem.terms.foldl RuliadTerm.collectVariables []
  let depths := dependencyDepths problem.goals
  let proofStepCount := match certificate with
    | some certificate => certificate.stepCount
    | none => 0
  let widths := problem.goals.map fun goal => goal.dependencies.length
  { syntaxNodes
    axiomCount := problem.axioms.length
    proofGoalCount := problem.requiredGoalIndices.length
    proofStepCount
    dependencyDepth := depths[problem.root]?.getD 0
    dependencyWidth := widths.foldr max 0
    variableCount := found.length
    maximumTermDepth := (problem.terms.map RuliadTerm.depth).foldr max 0
    distractorAxiomCount :=
      (problem.axioms.filter fun rule => "aux_".toList.isPrefixOf rule.id.toList).length
    branchEntropyMillibits :=
      ((widths.filter (· > 1)).map fun width => saturatingMul (Nat.log2 width) 1000).sum
    binderDepth := 0
    abstractionDepth := depths[problem.root]?.getD 0
    memoryHorizon := proofStepCount
    representationShift := 0
    solutionMultiplicity := 1
    searchBranching := saturatingMul problem.axioms.length 2
    verifierWork := saturatingAdd syntaxNodes proofStepCount }

/-! ## One rewrite step -/

/-- The bindings of the pattern variables. -/
abbrev Substitution := Map ℕ RuliadTerm

mutual

/-- `match_term`: extend the bindings so that the pattern becomes the value. -/
def matchTerm : RuliadTerm → RuliadTerm → Substitution → Option Substitution
  | .var index, value, substitution =>
    match substitution index with
    | some bound => if bound = value then some substitution else none
    | none => some (substitution.insert index value)
  | .atom left, .atom right, substitution => if left = right then some substitution else none
  | .apply left leftArguments, .apply right rightArguments, substitution =>
    if left = right ∧ leftArguments.length = rightArguments.length then
      matchTerms leftArguments rightArguments substitution
    else
      none
  | .atom _, .var _, _ => none
  | .atom _, .apply _ _, _ => none
  | .apply _ _, .var _, _ => none
  | .apply _ _, .atom _, _ => none

/-- `match_term` for two zipped argument lists, while it succeeds. -/
def matchTerms : List RuliadTerm → List RuliadTerm → Substitution → Option Substitution
  | left :: lefts, right :: rights, substitution =>
    match matchTerm left right substitution with
    | some substitution => matchTerms lefts rights substitution
    | none => none
  | _, _, substitution => some substitution

end

mutual

/-- `instantiate`. -/
def instantiate (substitution : Substitution) : RuliadTerm → Option RuliadTerm
  | .var index => substitution index
  | .atom symbol => some (.atom symbol)
  | .apply operator arguments =>
    (instantiateList substitution arguments).map fun arguments => .apply operator arguments

/-- `instantiate` for every argument. -/
def instantiateList (substitution : Substitution) : List RuliadTerm → Option (List RuliadTerm)
  | [] => some []
  | t :: ts =>
    match instantiate substitution t, instantiateList substitution ts with
    | some t, some ts => some (t :: ts)
    | _, _ => none

end

/-- `rewrite_at_path`. -/
def rewriteAtPath (pattern replacement : RuliadTerm) : List ℕ → RuliadTerm → Kernel RuliadTerm
  | index :: rest, .apply operator arguments =>
    match arguments[index]? with
    | none => .error ⟨.invalidPath, none, none,
        "rewrite path argument " ++ decimal index ++ " is out of bounds"⟩
    | some argument => do
      let rewritten ← rewriteAtPath pattern replacement rest argument
      return .apply operator (arguments.set index rewritten)
  | _ :: _, _ => .error ⟨.invalidPath, none, none,
      "rewrite path descends through a non-application term"⟩
  | [], term =>
    match matchTerm pattern term Map.empty with
    | none => .error ⟨.patternMismatch, none, none, "pattern `" ++
        RuliadTerm.canonicalText pattern ++ "` does not match `" ++
        RuliadTerm.canonicalText term ++ "`"⟩
    | some substitution =>
      match instantiate substitution replacement with
      | none => .error ⟨.malformedProblem, none, none,
          "replacement references an unbound variable"⟩
      | some result => .ok result

/-- The axioms by their ids, as the kernel collects them: the last axiom of an id counts. -/
def axiomMap (problem : RuliadProofProblem) : Map String RuliadRewriteAxiom :=
  Map.ofList (problem.axioms.map fun rule => (rule.id, rule))

/-- The equation that a step's source stands for. -/
def sourceEquality (problem : RuliadProofProblem) (goalIndex : ℕ) (goal : RuliadProofGoal)
    (axioms : Map String RuliadRewriteAxiom) : RuliadProofSource → Kernel RuliadEquality
  | .axiom_ id =>
    match axioms id with
    | some rule => .ok ⟨rule.lhs, rule.rhs⟩
    | none => .error ⟨.unknownSource, some goalIndex, none, "unknown axiom `" ++ id ++ "`"⟩
  | .lemma_ dependency =>
    if dependency ∉ goal.dependencies then
      .error ⟨.missingDependency, some goalIndex, none,
        "goal " ++ decimal dependency ++ " is not a declared dependency"⟩
    else
      match problem.goals[dependency]? with
      | some goal => .ok goal.claim
      | none => .error ⟨.unknownSource, some goalIndex, none,
          "unknown lemma goal " ++ decimal dependency⟩

/-- `apply_step`. -/
def applyStep (problem : RuliadProofProblem) (goalIndex : ℕ) (goal : RuliadProofGoal)
    (axioms : Map String RuliadRewriteAxiom) (limits : RuliadKernelLimits) (current : RuliadTerm)
    (step : RuliadProofStep) : Kernel RuliadTerm := do
  if step.path.length > limits.maximumPathDepth then
    throw ⟨.resourceLimit, some goalIndex, none, "rewrite path exceeds kernel limit"⟩
  let equality ← sourceEquality problem goalIndex goal axioms step.source
  match step.direction with
  | .forward => rewriteAtPath equality.lhs equality.rhs step.path current
  | .reverse => rewriteAtPath equality.rhs equality.lhs step.path current

/-! ## Replay -/

/-- The loop of `replay_certificate` over the certificate's goals: they must be strictly increasing
and required. -/
def indexGoals (required : List ℕ) (previousGoal : Option ℕ)
    (certificates : Map ℕ RuliadGoalCertificate) :
    List RuliadGoalCertificate → Kernel (Map ℕ RuliadGoalCertificate)
  | [] => .ok certificates
  | node :: nodes =>
    if previousGoal.any fun previous => node.goal ≤ previous then
      .error ⟨.malformedCertificate, some node.goal, none,
        "certificate goals must be unique and strictly increasing"⟩
    else if node.goal ∉ required then
      .error ⟨.malformedCertificate, some node.goal, none,
        "certificate contains a goal outside the root dependency closure"⟩
    else
      indexGoals required (some node.goal) (certificates.insert node.goal node) nodes

/-- The loop of `replay_certificate` over the steps of one goal, from the step with the given index
on: the last term, or the failure with the number of steps verified before it. -/
def replaySteps (problem : RuliadProofProblem) (goalIndex : ℕ) (goal : RuliadProofGoal)
    (axioms : Map String RuliadRewriteAxiom) (limits : RuliadKernelLimits) (stepIndex : ℕ)
    (current : RuliadTerm) :
    List RuliadProofStep → Except (RuliadKernelFailure × ℕ) RuliadTerm
  | [] => .ok current
  | step :: steps =>
    match applyStep problem goalIndex goal axioms limits current step with
    | .ok next => replaySteps problem goalIndex goal axioms limits (stepIndex + 1) next steps
    | .error failure =>
      .error ({ failure with goal := some goalIndex, step := some stepIndex }, stepIndex)

/-- The loop of `replay_certificate` over the required goals, and the conclusion of the report. -/
def replayGoals (problem : RuliadProofProblem) (certificates : Map ℕ RuliadGoalCertificate)
    (limits : RuliadKernelLimits) (verified : List ℕ) (report : RuliadReplayReport) :
    List ℕ → Run RuliadReplayReport
  | [] =>
    let rootVerified := verified.contains problem.root
    return { report with
      rootVerified
      accepted := rootVerified && report.verifiedGoals == report.requiredGoals }
  | goalIndex :: required =>
    match certificates goalIndex with
    | none =>
      return { report with
        failure := some ⟨.malformedCertificate, some goalIndex, none,
          "certificate is missing a required goal"⟩ }
    | some nodeCertificate => do
      let goal ← index problem.goals goalIndex
      match goal.dependencies.find? fun dependency => !verified.contains dependency with
      | some dependency =>
        return { report with
          failure := some ⟨.missingDependency, some goalIndex, none,
            "dependency " ++ decimal dependency ++ " has not been verified"⟩ }
      | none =>
        match replaySteps problem goalIndex goal (axiomMap problem) limits 0 goal.claim.lhs
            nodeCertificate.steps with
        | .error (failure, verifiedSteps) =>
          return { report with
            verifiedSteps := report.verifiedSteps + verifiedSteps
            failure := some failure }
        | .ok current =>
          let report := { report with
            verifiedSteps := report.verifiedSteps + nodeCertificate.steps.length }
          if current ≠ goal.claim.rhs then
            return { report with
              failure := some ⟨.goalMismatch, some goalIndex, some nodeCertificate.steps.length,
                "replay ended at `" ++ RuliadTerm.canonicalText current ++ "` instead of `" ++
                  RuliadTerm.canonicalText goal.claim.rhs ++ "`"⟩ }
          else
            replayGoals problem certificates limits (goalIndex :: verified)
              { report with verifiedGoals := report.verifiedGoals + 1 } required

/-- `replay_certificate`. -/
def replayCertificate (S : Serde) (problem : RuliadProofProblem)
    (certificate : RuliadProofCertificate) (limits : RuliadKernelLimits) :
    Run RuliadReplayReport :=
  let required := problem.requiredGoalIndices
  let report : RuliadReplayReport := {
    accepted := false
    problemHash := none
    requiredGoals := required.length
    verifiedGoals := 0
    submittedSteps := certificate.stepCount
    verifiedSteps := 0
    rootVerified := false
    complexity := complexityVector problem (some certificate)
    failure := none }
  match validateProblem S problem limits with
  | .error failure => return { report with failure := some failure }
  | .ok problemHash =>
    let report := { report with problemHash := some problemHash }
    if certificate.version ≠ ruliadIrVersion then
      return { report with
        failure := some ⟨.version, none, none, "certificate version " ++
          decimal certificate.version ++ " does not match kernel version " ++
          decimal ruliadIrVersion⟩ }
    else if certificate.problemHash ≠ problemHash then
      return { report with
        failure := some ⟨.problemHash, none, none,
          "certificate problem hash does not match the canonical problem"⟩ }
    else if certificate.stepCount > limits.maximumSteps then
      return { report with
        failure := some ⟨.resourceLimit, none, none,
          "certificate step count exceeds kernel limit"⟩ }
    else
      match indexGoals required none Map.empty certificate.goals with
      | .error failure => return { report with failure := some failure }
      | .ok certificates => replayGoals problem certificates limits [] report required

/-- The kernel accepts the certificate. -/
def Accepts (S : Serde) (problem : RuliadProofProblem) (certificate : RuliadProofCertificate)
    (limits : RuliadKernelLimits) : Prop :=
  ∃ report, replayCertificate S problem certificate limits = .ok report ∧ report.accepted = true

/-! ## Goal transitions -/

/-- `RuliadGoalTransitionKernel`: one goal of a validated problem. -/
structure RuliadGoalTransitionKernel where
  problem : RuliadProofProblem
  goalIndex : ℕ
  goal : RuliadProofGoal
  axioms : Map String RuliadRewriteAxiom
  limits : RuliadKernelLimits

namespace RuliadGoalTransitionKernel

def new (S : Serde) (problem : RuliadProofProblem) (goalIndex : ℕ) (limits : RuliadKernelLimits) :
    Kernel RuliadGoalTransitionKernel := do
  let _ ← validateProblem S problem limits
  if goalIndex ∉ problem.requiredGoalIndices then
    throw ⟨.malformedCertificate, some goalIndex, none,
      "goal transition is outside the root dependency closure"⟩
  match problem.goals[goalIndex]? with
  | none => throw ⟨.malformedCertificate, some goalIndex, none,
      "goal transition references a missing goal"⟩
  | some goal => return { problem, goalIndex, goal, axioms := axiomMap problem, limits }

def initial (kernel : RuliadGoalTransitionKernel) : RuliadTerm := kernel.goal.claim.lhs

def target (kernel : RuliadGoalTransitionKernel) : RuliadTerm := kernel.goal.claim.rhs

/-- `RuliadGoalTransitionKernel::apply`. -/
def apply (kernel : RuliadGoalTransitionKernel) (current : RuliadTerm) (step : RuliadProofStep) :
    Kernel RuliadTerm :=
  applyStep kernel.problem kernel.goalIndex kernel.goal kernel.axioms kernel.limits current step

/-- The loop of `replay_prefix`. -/
def replayFrom (kernel : RuliadGoalTransitionKernel) (stepIndex : ℕ) (current : RuliadTerm) :
    List RuliadProofStep → Kernel RuliadTerm
  | [] => .ok current
  | step :: steps =>
    match kernel.apply current step with
    | .ok next => kernel.replayFrom (stepIndex + 1) next steps
    | .error failure =>
      .error { failure with goal := some kernel.goalIndex, step := some stepIndex }

def replayPrefix (kernel : RuliadGoalTransitionKernel) (steps : List RuliadProofStep) :
    Kernel RuliadTerm :=
  if steps.length > kernel.limits.maximumSteps then
    .error ⟨.resourceLimit, some kernel.goalIndex, none,
      "goal prefix step count exceeds kernel limit"⟩
  else
    kernel.replayFrom 0 kernel.initial steps

end RuliadGoalTransitionKernel

end BurnDragon.Ruliad
