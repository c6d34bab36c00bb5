import BurnDragon.Ruliad.Scoring

/-!
# Evaluation reports

`evaluate_completions` of `eval.rs` scores a list of items and keeps the totals and one accumulator
for each group of items: each family, task, difficulty, answer contract, source, mathematical domain
and reasoning mode. The fractions of the report, which are computed in floating point, are left as
the counts that they are made of.
-/

namespace BurnDragon.Ruliad

open Rust

/-! ## Items and outcomes -/

structure RuliadEvalItem where
  oracleHash : String
  family : String
  taskKind : String
  mathDomains : List String
  reasoningModes : List String
  expectedAnswer : String
  difficultyLevel : Option ℕ
  spec : Option RuliadSampleSpec

structure RuliadCompletionRecord where
  oracleHash : String
  completion : String

structure EvalOutcome where
  exactMatch : Bool
  semanticMatch : Bool
  malformed : Bool
  missing : Bool
  answerTerminated : Bool
  actualAnswer : Option String
  presentedActionMatch : Option Bool
  reasoningScore : RuliadReasoningScore

/-- `ruliad_presented_action_match`. -/
def ruliadPresentedActionMatch (S : Serde) (item : RuliadEvalItem) (actualAnswer : Option String) :
    Option Bool :=
  match item.spec with
  | some (.formalProof spec) => do
    let stepIndex ← spec.proofStepIndex
    if spec.task ≠ .selectProofAction then none
    else
      let actions ← (presentedActionSet S spec.problem spec.certificate stepIndex
        spec.actionPresentationRotation).toOption
      return (actualAnswer.bind fun answer =>
        resolveProofActionAnswer actions answer spec.actionAnswerContract).isSome
  | _ => none

section Items

variable (overflowChecks : Bool) (E : EvalPackages)

/-- `score_ruliad_item_completion`. -/
def scoreRuliadItemCompletion (item : RuliadEvalItem) (completion : Option String) :
    Run RuliadReasoningScore := do
  let expected ← extractedExpectedCompletion E item.spec item.oracleHash
  scoreRuliadCompletionParts overflowChecks E item.spec item.expectedAnswer.toList
    expected.certificateLines
    (completion.map fun completion => extractRuliadCompletion E completion.toList)

/-- `score_item`. -/
def scoreItem (item : RuliadEvalItem) (completion : Option String) : Run EvalOutcome := do
  let reasoningScore ← scoreRuliadItemCompletion overflowChecks E item completion
  match completion with
  | none =>
    return { exactMatch := false, semanticMatch := false, malformed := false, missing := true
             answerTerminated := false, actualAnswer := none
             presentedActionMatch := ruliadPresentedActionMatch E.toSerde item none
             reasoningScore }
  | some completion =>
    let extracted := extractRuliadCompletion E completion.toList
    match extracted.answer with
    | none =>
      return { exactMatch := false, semanticMatch := false, malformed := true, missing := false
               answerTerminated := extracted.answerTerminated, actualAnswer := none
               presentedActionMatch := ruliadPresentedActionMatch E.toSerde item none
               reasoningScore }
    | some actual =>
      let expected := item.expectedAnswer.toList
      let actualAnswer := some (String.ofList actual)
      return { exactMatch := ruliadAnswersExactMatch expected actual
               semanticMatch := ruliadAnswersSemanticMatch expected actual
               malformed := reasoningScore.status = .malformed
               missing := false
               answerTerminated := extracted.answerTerminated
               actualAnswer
               presentedActionMatch := ruliadPresentedActionMatch E.toSerde item actualAnswer
               reasoningScore }

end Items

/-! ## Labels -/

/-- `compact_eval_label`. -/
def compactEvalLabel (value : List Char) : String :=
  let out := value.filterMap fun c =>
    if c.isAlphanum then some c.toLower else if c = '_' ∨ c = '-' then some '_' else none
  if out = [] then "field" else String.ofList out

/-- The labels of the keys of an answer. -/
def answerKeys (label : List Char → String) (answer : List Char) : String :=
  let keys := (answer.splitOn ';').filterMap fun part => do
    let (key, _) ← splitOnce '=' part
    let key := trim key
    if key = [] then none else return label key
  if keys = [] then "value" else String.intercalate "," keys

/-- `expected_answer_contract`. -/
def expectedAnswerContract (expectedAnswer : String) : String :=
  answerKeys compactEvalLabel expectedAnswer.toList

/-- The table of `compact_ruliad_label`. -/
def compactRuliadLabels : List (String × String) :=
  [("discrete_dynamics", "dd"), ("computation_theory", "ct"), ("symbolic_rewriting", "sr"),
    ("universal_algebra", "ua"), ("category_theory", "cg"), ("formal_proof", "fp"),
    ("information_theory", "it"), ("local_rule_evaluation", "lre"), ("iterated_dynamics", "iter"),
    ("state_machine_execution", "sm"), ("simulation_equivalence", "sim"),
    ("structure_preservation", "struct"), ("normalization", "norm"),
    ("equational_reasoning", "eq"), ("counterexample_evaluation", "cex"),
    ("compositional_reasoning", "comp"), ("associativity", "as"), ("commutativity", "cm"),
    ("formal_deduction", "fd"), ("entropy_canary", "ec"), ("eca", "E"), ("simulation", "S"),
    ("automaton", "M"), ("rewrite", "R"), ("algebra", "A"), ("category", "C"),
    ("proof_tree", "P"), ("lean_task", "L"), ("hash_noise", "H"), ("next_state", "ns"),
    ("multi_step_state", "ms"), ("verify_simulation", "vsim"), ("evaluate_automaton", "aut"),
    ("rewrite_normal_form", "rw"), ("check_algebra_law", "alg"),
    ("compose_category_path", "cpath"), ("verify_category_law", "claw"),
    ("verify_functor_preservation", "fun"), ("verify_naturality_square", "nat"),
    ("prove_theorem", "thm"), ("complete_proof", "lp"), ("hash_canary", "hash"),
    ("trajectory_category", "tc"), ("commuting_trajectory_functor", "tf"),
    ("free_monoid_action_category", "ma"), ("rewrite_path_category", "rp"),
    ("verified_theorem_dependency_category", "td"), ("proof_category", "pc"),
    ("one_object_category_law_probe", "ol"), ("finite_category_law", "fl"),
    ("finite_category_path", "cp"), ("finite_functor_preservation", "ff"),
    ("finite_naturality_square", "fn")]

/-- `compact_ruliad_label`. -/
def compactRuliadLabel (value : String) : String := (compactRuliadLabels.lookup value).getD value

/-- `ruliad_answer_contract`. -/
def ruliadAnswerContract (S : Serde) (spec : RuliadSampleSpec) : Run String :=
  let keys : Run String := do
    let answer ← compactAnswer S spec
    return answerKeys (fun key => compactRuliadLabel (String.ofList key)) answer.toList
  match spec with
  | .formalProof formal =>
    match formal.task with
    | .constructProof => .ok "certificate"
    | .advanceProof => .ok "proof_step"
    | .selectProofAction => .ok <|
      match formal.actionAnswerContract with
      | .presentationIndex => "action_index"
      | .semanticStep => "proof_action_step"
    | _ => keys
  | _ => keys

/-- The answer contract of an item. -/
def itemAnswerContract (S : Serde) (item : RuliadEvalItem) : Run String :=
  match item.spec with
  | some spec => ruliadAnswerContract S spec
  | none => .ok (expectedAnswerContract item.expectedAnswer)

/-- `ruliad_source_capability_label`. -/
def ruliadSourceCapabilityLabel (family taskKind : String) (difficultyLevel : ℕ)
    (answerContract : String) : String :=
  "source:" ++ family ++ ":" ++ taskKind ++ "@d" ++ decimal difficultyLevel ++ "#" ++ answerContract

/-! ## Accumulators -/

/-- The counts of answers and of field values by which the report measures their diversity. -/
structure AnswerDiversity where
  expectedAnswerCount : ℕ := 0
  expectedAnswers : List String := []
  actualAnswerCount : ℕ := 0
  actualAnswers : List String := []
  actualAnswerCounts : BTreeMap String ℕ := .empty
  expectedFieldValueCount : ℕ := 0
  expectedFieldValues : List String := []
  actualFieldValueCount : ℕ := 0
  actualFieldValues : List String := []
  actualFieldValueCounts : BTreeMap String ℕ := .empty

namespace AnswerDiversity

/-- The loop of `add_answer_field_value_diversity` over the expected fields. -/
def addField (actualFields : Option (BTreeMap String String)) (diversity : AnswerDiversity)
    (field : String × String) : AnswerDiversity :=
  let (key, expectedValue) := field
  let actualValue := (actualFields.bind fun fields => fields.get? key).getD "<missing>"
  let actualFieldValue := key ++ "=" ++ actualValue
  { diversity with
    expectedFieldValueCount := saturatingAdd diversity.expectedFieldValueCount 1
    expectedFieldValues := insertSorted (key ++ "=" ++ expectedValue) diversity.expectedFieldValues
    actualFieldValueCount := saturatingAdd diversity.actualFieldValueCount 1
    actualFieldValues := insertSorted actualFieldValue diversity.actualFieldValues
    actualFieldValueCounts := diversity.actualFieldValueCounts.alter actualFieldValue 0 (· + 1) }

/-- `add_answer_field_value_diversity`. -/
def addFieldValues (diversity : AnswerDiversity) (expected : List Char)
    (actual : Option (List Char)) : AnswerDiversity :=
  match parseAnswerPairs expected with
  | none => diversity
  | some expectedFields =>
    expectedFields.entries.foldl
      (addField (actual.bind (parseAnswerPairsOrContractValues expected ·))) diversity

/-- The lines of `evaluate_completions` and of `add_group_score` about the diversity of answers. -/
def add (diversity : AnswerDiversity) (expected : String) (actual : Option String) :
    AnswerDiversity :=
  let diversity :=
    if trim expected.toList = [] then diversity
    else { diversity with
      expectedAnswerCount := saturatingAdd diversity.expectedAnswerCount 1
      expectedAnswers := insertSorted expected diversity.expectedAnswers }
  let diversity := match actual with
    | none => diversity
    | some actual => { diversity with
        actualAnswerCount := saturatingAdd diversity.actualAnswerCount 1
        actualAnswers := insertSorted actual diversity.actualAnswers
        actualAnswerCounts := diversity.actualAnswerCounts.alter actual 0 (· + 1) }
  diversity.addFieldValues expected.toList (actual.map String.toList)

end AnswerDiversity

/-- `ComplexityAccumulator` without the sums in floating point: how many complexities were observed,
and the maximum of each coordinate. -/
structure ComplexityAccumulator where
  count : ℕ := 0
  syntaxNodes : ℕ := 0
  axiomCount : ℕ := 0
  proofGoalCount : ℕ := 0
  proofStepCount : ℕ := 0
  dependencyDepth : ℕ := 0
  dependencyWidth : ℕ := 0
  variableCount : ℕ := 0
  maximumTermDepth : ℕ := 0
  distractorAxiomCount : ℕ := 0

/-- `ComplexityAccumulator::add`. -/
def ComplexityAccumulator.add (acc : ComplexityAccumulator) (value : RuliadComplexityVector) :
    ComplexityAccumulator where
  count := saturatingAdd acc.count 1
  syntaxNodes := max acc.syntaxNodes value.syntaxNodes
  axiomCount := max acc.axiomCount value.axiomCount
  proofGoalCount := max acc.proofGoalCount value.proofGoalCount
  proofStepCount := max acc.proofStepCount value.proofStepCount
  dependencyDepth := max acc.dependencyDepth value.dependencyDepth
  dependencyWidth := max acc.dependencyWidth value.dependencyWidth
  variableCount := max acc.variableCount value.variableCount
  maximumTermDepth := max acc.maximumTermDepth value.maximumTermDepth
  distractorAxiomCount := max acc.distractorAxiomCount value.distractorAxiomCount

/-- `formal_complexity` of the spec of an item. -/
def formalComplexity : Option RuliadSampleSpec → Option RuliadComplexityVector
  | some (.formalProof spec) => some (complexityVector spec.problem (some spec.certificate))
  | _ => none

structure EvalAccumulator where
  count : ℕ := 0
  exactMatchCount : ℕ := 0
  semanticMatchCount : ℕ := 0
  verifierMatchCount : ℕ := 0
  partialCreditCount : ℕ := 0
  schemaValidWrongCount : ℕ := 0
  malformedCompletionCount : ℕ := 0
  missingCompletionCount : ℕ := 0
  partialProgressPpmSum : ℕ := 0
  answerFieldCorrectCount : ℕ := 0
  answerFieldExpectedCount : ℕ := 0
  answerFieldObservedCount : ℕ := 0
  answerTerminatedCount : ℕ := 0
  completionQualityPpmSum : ℕ := 0
  presentedActionExpectedCount : ℕ := 0
  presentedActionMatchCount : ℕ := 0
  diversity : AnswerDiversity := {}
  formalComplexity : ComplexityAccumulator := {}

/-- What `add_group_score` does to the accumulator of a group. -/
def EvalAccumulator.add (score : EvalAccumulator) (item : RuliadEvalItem) (outcome : EvalOutcome) :
    EvalAccumulator :=
  let reasoning := outcome.reasoningScore
  { count := score.count + 1
    exactMatchCount := score.exactMatchCount + bit outcome.exactMatch
    semanticMatchCount := score.semanticMatchCount + bit outcome.semanticMatch
    verifierMatchCount := score.verifierMatchCount + bit reasoning.verifierMatch
    partialCreditCount := score.partialCreditCount + bit reasoning.partialCredit
    schemaValidWrongCount :=
      score.schemaValidWrongCount + bit (reasoning.status = .schemaValidWrong)
    malformedCompletionCount := score.malformedCompletionCount + bit outcome.malformed
    missingCompletionCount := score.missingCompletionCount + bit outcome.missing
    partialProgressPpmSum :=
      saturatingAdd score.partialProgressPpmSum reasoning.partialProgressPpm
    answerFieldCorrectCount :=
      saturatingAdd score.answerFieldCorrectCount reasoning.correctFieldCount
    answerFieldExpectedCount :=
      saturatingAdd score.answerFieldExpectedCount reasoning.expectedFieldCount
    answerFieldObservedCount :=
      saturatingAdd score.answerFieldObservedCount reasoning.observedFieldCount
    answerTerminatedCount := score.answerTerminatedCount + bit outcome.answerTerminated
    completionQualityPpmSum :=
      saturatingAdd score.completionQualityPpmSum reasoning.completionQualityPpm
    presentedActionExpectedCount := match outcome.presentedActionMatch with
      | some _ => saturatingAdd score.presentedActionExpectedCount 1
      | none => score.presentedActionExpectedCount
    presentedActionMatchCount := match outcome.presentedActionMatch with
      | some isMatch => saturatingAdd score.presentedActionMatchCount (bit isMatch)
      | none => score.presentedActionMatchCount
    diversity := score.diversity.add item.expectedAnswer outcome.actualAnswer
    formalComplexity := match Ruliad.formalComplexity item.spec with
      | some complexity => score.formalComplexity.add complexity
      | none => score.formalComplexity }

/-- `add_group_score`. -/
def addGroupScore (scores : BTreeMap String EvalAccumulator) (label : String)
    (item : RuliadEvalItem) (outcome : EvalOutcome) : BTreeMap String EvalAccumulator :=
  scores.alter label {} (·.add item outcome)

/-! ## Totals -/

/-- The totals that `evaluate_completions` keeps beside the groups. -/
structure EvalTotals where
  scoredCount : ℕ := 0
  exactMatchCount : ℕ := 0
  semanticMatchCount : ℕ := 0
  verifierMatchCount : ℕ := 0
  partialCreditCount : ℕ := 0
  schemaValidWrongCount : ℕ := 0
  malformedCompletionCount : ℕ := 0
  missingCompletionCount : ℕ := 0
  canaryCount : ℕ := 0
  canarySemanticMatchCount : ℕ := 0
  partialProgressPpmSum : ℕ := 0
  answerFieldCorrectCount : ℕ := 0
  answerFieldExpectedCount : ℕ := 0
  answerFieldObservedCount : ℕ := 0
  answerTerminatedCount : ℕ := 0
  completionQualityPpmSum : ℕ := 0
  diversity : AnswerDiversity := {}
  presentedActionExpectedCount : ℕ := 0
  presentedActionMatchCount : ℕ := 0
  certificatePrefixPpmSum : ℕ := 0
  completionTokenSum : ℕ := 0

/-- What the loop of `evaluate_completions` does to the totals. -/
def EvalTotals.add (totals : EvalTotals) (item : RuliadEvalItem) (completion : Option String)
    (outcome : EvalOutcome) : EvalTotals :=
  let reasoning := outcome.reasoningScore
  let canary : Bool := item.family = "hash_noise" || item.taskKind = "hash_canary"
  { scoredCount := totals.scoredCount + bit completion.isSome
    exactMatchCount := totals.exactMatchCount + bit outcome.exactMatch
    semanticMatchCount := totals.semanticMatchCount + bit outcome.semanticMatch
    verifierMatchCount := totals.verifierMatchCount + bit reasoning.verifierMatch
    partialCreditCount := totals.partialCreditCount + bit reasoning.partialCredit
    schemaValidWrongCount :=
      totals.schemaValidWrongCount + bit (reasoning.status = .schemaValidWrong)
    malformedCompletionCount := totals.malformedCompletionCount + bit outcome.malformed
    missingCompletionCount := totals.missingCompletionCount + bit outcome.missing
    canaryCount := if canary then totals.canaryCount + 1 else totals.canaryCount
    canarySemanticMatchCount :=
      if canary then totals.canarySemanticMatchCount + bit outcome.semanticMatch
      else totals.canarySemanticMatchCount
    partialProgressPpmSum :=
      saturatingAdd totals.partialProgressPpmSum reasoning.partialProgressPpm
    answerFieldCorrectCount :=
      saturatingAdd totals.answerFieldCorrectCount reasoning.correctFieldCount
    answerFieldExpectedCount :=
      saturatingAdd totals.answerFieldExpectedCount reasoning.expectedFieldCount
    answerFieldObservedCount :=
      saturatingAdd totals.answerFieldObservedCount reasoning.observedFieldCount
    answerTerminatedCount := totals.answerTerminatedCount + bit outcome.answerTerminated
    completionQualityPpmSum :=
      saturatingAdd totals.completionQualityPpmSum reasoning.completionQualityPpm
    diversity := totals.diversity.add item.expectedAnswer outcome.actualAnswer
    presentedActionExpectedCount := match outcome.presentedActionMatch with
      | some _ => saturatingAdd totals.presentedActionExpectedCount 1
      | none => totals.presentedActionExpectedCount
    presentedActionMatchCount := match outcome.presentedActionMatch with
      | some isMatch => saturatingAdd totals.presentedActionMatchCount (bit isMatch)
      | none => totals.presentedActionMatchCount
    certificatePrefixPpmSum :=
      saturatingAdd totals.certificatePrefixPpmSum reasoning.certificatePrefixPpm
    completionTokenSum := saturatingAdd totals.completionTokenSum reasoning.generatedTokenCount }

/-! ## Reports -/

structure RuliadEvalFailure where
  oracleHash : String
  family : String
  taskKind : String
  expectedAnswer : String
  actualAnswer : Option String
  reason : String
  deriving DecidableEq

/-- `MAX_REPORTED_EVAL_FAILURES`. -/
def maxReportedEvalFailures : ℕ := 64

/-- The state of the loop of `evaluate_completions`. -/
structure EvalState where
  totals : EvalTotals := {}
  familyScores : BTreeMap String EvalAccumulator := .empty
  taskScores : BTreeMap String EvalAccumulator := .empty
  difficultyScores : BTreeMap String EvalAccumulator := .empty
  answerContractScores : BTreeMap String EvalAccumulator := .empty
  sourceScores : BTreeMap String EvalAccumulator := .empty
  mathDomainScores : BTreeMap String EvalAccumulator := .empty
  reasoningModeScores : BTreeMap String EvalAccumulator := .empty
  failures : List RuliadEvalFailure := []

/-- An item with its completion, its outcome and the label of its answer contract. -/
structure ScoredItem where
  item : RuliadEvalItem
  completion : Option String
  outcome : EvalOutcome
  answerContract : String

/-- The failures after an item, of which the first ones are reported. -/
def addFailure (failures : List RuliadEvalFailure) (item : RuliadEvalItem) (outcome : EvalOutcome) :
    List RuliadEvalFailure :=
  if !outcome.semanticMatch && failures.length < maxReportedEvalFailures then
    failures ++ [{
      oracleHash := item.oracleHash
      family := item.family
      taskKind := item.taskKind
      expectedAnswer := item.expectedAnswer
      actualAnswer := outcome.actualAnswer
      reason :=
        if outcome.missing then "missing_completion"
        else if outcome.malformed then "malformed_completion"
        else "answer_mismatch" }]
  else
    failures

/-- What the loop of `evaluate_completions` does with an item that is scored. -/
def EvalState.add (state : EvalState) (scored : ScoredItem) : EvalState :=
  let { item, completion, outcome, answerContract } := scored
  { totals := state.totals.add item completion outcome
    familyScores := addGroupScore state.familyScores item.family item outcome
    taskScores := addGroupScore state.taskScores item.taskKind item outcome
    answerContractScores := addGroupScore state.answerContractScores answerContract item outcome
    sourceScores := addGroupScore state.sourceScores
      (ruliadSourceCapabilityLabel item.family item.taskKind (item.difficultyLevel.getD 0)
        answerContract) item outcome
    difficultyScores := match item.difficultyLevel with
      | some level => addGroupScore state.difficultyScores ("d" ++ decimal level) item outcome
      | none => state.difficultyScores
    mathDomainScores := item.mathDomains.foldl
      (fun scores domain => addGroupScore scores domain item outcome) state.mathDomainScores
    reasoningModeScores := item.reasoningModes.foldl
      (fun scores mode => addGroupScore scores mode item outcome) state.reasoningModeScores
    failures := addFailure state.failures item outcome }

/-- The score of a group in the report. -/
structure RuliadEvalGroupScore extends EvalAccumulator where
  label : String

/-- `finalize_group_scores`. -/
def finalizeGroupScores (scores : BTreeMap String EvalAccumulator) : List RuliadEvalGroupScore :=
  scores.entries.map fun (label, score) => { score with label }

structure RuliadEvalReport extends EvalTotals where
  datasetName : String
  itemCount : ℕ
  unexpectedCompletionCount : ℕ
  familyScores : List RuliadEvalGroupScore
  taskScores : List RuliadEvalGroupScore
  difficultyScores : List RuliadEvalGroupScore
  answerContractScores : List RuliadEvalGroupScore
  sourceScores : List RuliadEvalGroupScore
  mathDomainScores : List RuliadEvalGroupScore
  reasoningModeScores : List RuliadEvalGroupScore
  failures : List RuliadEvalFailure

section Evaluate

variable (overflowChecks : Bool) (E : EvalPackages)

/-- The completions by the hashes of their items; of several for an item the last one counts. -/
def completionByHash (completions : List RuliadCompletionRecord) : BTreeMap String String :=
  .ofEntries (completions.map fun completion => (completion.oracleHash, completion.completion))

/-- Score an item. -/
def scoreEvalItem (completions : BTreeMap String String) (item : RuliadEvalItem) :
    Run ScoredItem := do
  let completion := completions.get? item.oracleHash
  let outcome ← scoreItem overflowChecks E item completion
  let answerContract ← itemAnswerContract E.toSerde item
  return { item, completion, outcome, answerContract }

/-- `evaluate_completions`. -/
def evaluateCompletions (datasetName : String) (items : List RuliadEvalItem)
    (completions : List RuliadCompletionRecord) : Run RuliadEvalReport := do
  let itemHashes := items.map fun item => item.oracleHash
  let state ← items.foldlM
    (fun state item => do
      return EvalState.add state
        (← scoreEvalItem overflowChecks E (completionByHash completions) item)) {}
  return { state.totals with
    datasetName
    itemCount := items.length
    unexpectedCompletionCount :=
      completions.countP fun completion => completion.oracleHash ∉ itemHashes
    familyScores := finalizeGroupScores state.familyScores
    taskScores := finalizeGroupScores state.taskScores
    difficultyScores := finalizeGroupScores state.difficultyScores
    answerContractScores := finalizeGroupScores state.answerContractScores
    sourceScores := finalizeGroupScores state.sourceScores
    mathDomainScores := finalizeGroupScores state.mathDomainScores
    reasoningModeScores := finalizeGroupScores state.reasoningModeScores
    failures := state.failures }

end Evaluate

/-- The packages of an evaluation of short completions of items without specs. -/
def EvalPackages.ofDigest (digest : String) : EvalPackages where
  toPackages := .ofDigest digest
  sampleText _ _ := .ok []
  completionQualityPpm _ := scorePpmDenominator

end BurnDragon.Ruliad
