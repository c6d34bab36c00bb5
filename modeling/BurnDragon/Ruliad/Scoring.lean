import BurnDragon.Ruliad.Answers
import BurnDragon.Rust.BTreeMap
import BurnDragon.Rust.Lines

/-!
# Scoring completions

The scoring of one completion, as in `eval.rs`: the answer and the certificate lines are taken out
of the completion, the answer is compared with the expected one, or checked by the kernel where the
task is a formal proof, and the score keeps a status and the numbers of fields. The scoring calls
`verify_spec`, which can panic.

The document of a spec and the quality of a completion, which is computed in floating point, are
parameters.
-/

namespace BurnDragon.Ruliad

open Rust

/-- `SCORE_PPM_DENOMINATOR`. -/
def scorePpmDenominator : ℕ := 1000000

def ruliadV2DocumentCloseMarker : List Char := "[/R2]".toList

def ruliadV3DocumentCloseMarker : List Char := "[/R3]".toList

/-! ## Texts of answers -/

/-- `normalize_answer`. -/
def normalizeAnswer (value : List Char) : List Char :=
  trim (trimEndMatches "[/RTREE]".toList (trimEndMatches "[/T]".toList
    (trimEndMatches "[/R2]".toList (trimEndMatches ruliadV3DocumentCloseMarker (trim value)))))

/-- `normalize_pair_key`. -/
def normalizePairKey (value : List Char) : String :=
  match String.ofList (trim value) with
  | "accepted" => "acc"
  | "commutes" | "holds" => "ok"
  | "lhs" => "l"
  | "normal_form" => "nf"
  | "payload_hash" => "sha"
  | "rhs" => "r"
  | "target" => "x"
  | other => other

/-- `normalize_pair_value`. -/
def normalizePairValue (value : List Char) : String :=
  let value := trim value
  if String.ofList value ∈ ["1", "true", "True", "TRUE"] then "1"
  else if String.ofList value ∈ ["0", "false", "False", "FALSE"] then "0"
  else String.ofList (value.map Char.toLower)

/-- `parse_answer_pair_sequence`. -/
def parseAnswerPairSequence (value : List Char) : Option (List (String × String)) := do
  let pairs ← ((normalizeAnswer value).splitOn ';').mapM fun part => do
    let (key, value) ← splitOnce '=' part
    let key := trim key
    if key = [] then none else return (normalizePairKey key, normalizePairValue value)
  if pairs = [] then none else return pairs

/-- `parse_answer_pairs`. -/
def parseAnswerPairs (value : List Char) : Option (BTreeMap String String) :=
  (parseAnswerPairSequence value).map BTreeMap.ofEntries

/-- `parse_answer_pairs_or_contract_values`: values without keys stand for the expected fields. -/
def parseAnswerPairsOrContractValues (expected actual : List Char) :
    Option (BTreeMap String String) :=
  match parseAnswerPairs actual with
  | some pairs => some pairs
  | none => do
    let expectedFields ← parseAnswerPairSequence expected
    let normalized := normalizeAnswer actual
    if normalized = [] ∨ '=' ∈ normalized then none
    else
      let values := (normalized.splitOn ';').map trim
      if values.length ≠ expectedFields.length ∨
          values.any fun value => value = [] || value.any isWhitespace then none
      else
        return BTreeMap.ofEntries <| (expectedFields.zip values).map fun (field, actualValue) =>
          (field.1, normalizePairValue actualValue)

/-- `ruliad_answers_exact_match`. -/
def ruliadAnswersExactMatch (expected actual : List Char) : Bool :=
  normalizeAnswer expected = normalizeAnswer actual

/-- `ruliad_answers_semantic_match`. -/
def ruliadAnswersSemanticMatch (expected actual : List Char) : Bool :=
  if ruliadAnswersExactMatch expected actual then true
  else
    match parseAnswerPairs expected, parseAnswerPairsOrContractValues expected actual with
    | some left, some right => left = right
    | _, _ => false

/-- `expected_answer_field_count`. -/
def expectedAnswerFieldCount (expected : List Char) : ℕ :=
  ((parseAnswerPairs expected).map fun pairs => pairs.entries.length).getD 1

/-- `is_hash_canary_answer`. -/
def isHashCanaryAnswer (expected : List Char) (spec : Option RuliadSampleSpec) : Bool :=
  match spec with
  | some (.hashNoise _) | some (.leanTask _) => true
  | _ => (parseAnswerPairs expected).any fun pairs => pairs.keys = ["sha"]

/-- `common_prefix_chars`. -/
def commonPrefixChars (left right : List Char) : ℕ :=
  ((left.zip right).takeWhile fun (left, right) => left = right).length

/-! ## Taking a completion apart -/

structure RuliadExtractedCompletion where
  answer : Option (List Char)
  certificateLines : List (List Char)
  generatedTokenCount : ℕ
  answerTerminated : Bool
  completionQualityPpm : ℕ

/-- `RULIAD_SUPPORTED_CLOSE_MARKERS`. -/
def ruliadSupportedCloseMarkers : List (List Char) :=
  [ruliadV3DocumentCloseMarker, ruliadV2DocumentCloseMarker, "[/RTREE]".toList]

/-- `completion_before_close_marker`. -/
def completionBeforeCloseMarker (completion : List Char) : List Char × Bool :=
  match (ruliadSupportedCloseMarkers.filterMap fun marker => findText marker completion).min? with
  | some offset => (completion.take offset, true)
  | none => (completion, false)

/-- The certificate step of a line, if it is one. -/
def certificateStep (candidate : List Char) : Option (List Char) :=
  (stripPrefix ['>'] candidate).bind fun step =>
    let step := trim step
    if step = [] then none else some step

/-- The loop of `extract_ruliad_completion` over the lines: the first line that is no certificate
step is the answer. -/
def extractLine (answer : Option (List Char) × List (List Char)) (line : List Char) :
    Option (List Char) × List (List Char) :=
  let candidate := trim line
  if candidate = [] then answer
  else if answer.1 = none ∧ candidate.head? ≠ some '>' then (some candidate, answer.2)
  else (answer.1, answer.2 ++ (certificateStep candidate).toList)

/-- What the evaluation calls besides the verifier's packages: the text of a spec's document,
`sample_text`, and `ruliad_completion_quality_ppm`. -/
structure EvalPackages extends Packages where
  sampleText : RuliadSampleSpec → String → Run (List Char)
  completionQualityPpm : List Char → ℕ

/-- `extract_ruliad_completion`. -/
def extractRuliadCompletion (E : EvalPackages) (completion : List Char) :
    RuliadExtractedCompletion :=
  let answerStart := ((findText "!:".toList completion).map (· + 2)).getD 0
  let completionBody := completion.drop answerStart
  let (completionPayload, answerTerminated) := completionBeforeCloseMarker completionBody
  let (answer, certificateLines) := (lines completionPayload).foldl extractLine (none, [])
  { answer, certificateLines, answerTerminated
    generatedTokenCount := (splitWhitespace completionPayload).length
    completionQualityPpm := E.completionQualityPpm completionBody }

/-- `extract_ruliad_proof_lines`. -/
def extractRuliadProofLines (document : List Char) : List (List Char) :=
  ((lines document).takeWhile fun line => !"!:".toList.isPrefixOf (trimStart line)).filterMap
    fun line => certificateStep (trim line)

/-- `extracted_expected_completion`. -/
def extractedExpectedCompletion (E : EvalPackages) (spec : Option RuliadSampleSpec)
    (oracleHash : String) : Run RuliadExtractedCompletion :=
  match spec with
  | some spec => do
    let text ← E.sampleText spec oracleHash
    return { extractRuliadCompletion E text with certificateLines := extractRuliadProofLines text }
  | none => .ok ⟨none, [], 0, false, 0⟩

/-! ## Scores -/

inductive RuliadAnswerStatus
  | missing
  | malformed
  | schemaValidWrong
  | partial_
  | semanticMatch
  | verifierMatch
  deriving DecidableEq

structure RuliadReasoningScore where
  status : RuliadAnswerStatus
  correctFieldCount : ℕ
  expectedFieldCount : ℕ
  observedFieldCount : ℕ
  partialProgressPpm : ℕ
  certificateValidPrefixSteps : ℕ
  certificateExpectedSteps : ℕ
  certificatePrefixPpm : ℕ
  generatedTokenCount : ℕ
  hashCanary : Bool
  answerTerminated : Bool
  completionQualityPpm : ℕ
  deriving DecidableEq

namespace RuliadReasoningScore

/-- `verifier_match`. -/
def verifierMatch (score : RuliadReasoningScore) : Bool := score.status = .verifierMatch

/-- `partial_credit`. -/
def partialCredit (score : RuliadReasoningScore) : Bool :=
  score.status ∈ [.partial_, .semanticMatch, .verifierMatch]

end RuliadReasoningScore

/-- The score of an answer's fields. -/
structure AnswerFieldScore where
  status : RuliadAnswerStatus
  correctFieldCount : ℕ
  expectedFieldCount : ℕ
  observedFieldCount : ℕ
  partialProgressPpm : ℕ
  deriving DecidableEq

/-- The score of an answer that could not be read. -/
def AnswerFieldScore.malformed (expectedFieldCount : ℕ) : AnswerFieldScore :=
  ⟨.malformed, 0, expectedFieldCount, 0, 0⟩

/-! ## Formal proofs -/

section Formal

variable (S : Serde) (actual : List Char) (problem : RuliadProofProblem)
  (oracleCertificate : RuliadProofCertificate)

/-- The score of a constructed proof, the end of `score_formal_certificate_answer`. -/
def scoreConstructedProof : Run AnswerFieldScore :=
  let requiredGoalIndices := problem.requiredGoalIndices
  let requiredGoals := max requiredGoalIndices.length 1
  let oracleSteps := oracleCertificate.stepCount
  match problem.canonicalHash S with
  | .error _ => .ok (.malformed requiredGoals)
  | .ok problemHash =>
    match decodeModelCertificatePrefix (trim actual) problem.version problemHash with
    | .error _ => .ok (.malformed requiredGoals)
    | .ok parsed => do
      let report ← replayCertificate S problem parsed.certificate .default
      let expectedWork := max (saturatingAdd requiredGoals oracleSteps) 1
      let verifiedWork := min (saturatingAdd report.verifiedGoals report.verifiedSteps) expectedWork
      return {
        status :=
          if report.accepted && parsed.syntaxComplete then .verifierMatch
          else if verifiedWork > 0 then .partial_
          else if !parsed.syntaxComplete && parsed.parsedSteps = 0 then .malformed
          else .schemaValidWrong
        correctFieldCount := report.verifiedGoals
        expectedFieldCount := requiredGoals
        observedFieldCount := min (parsed.certificate.goals.countP fun goal =>
          goal.goal ∈ requiredGoalIndices) requiredGoals
        partialProgressPpm := saturatingMul verifiedWork scorePpmDenominator / expectedWork }

/-- `score_formal_action_answer`. -/
def scoreFormalActionAnswer (proofStepIndex actionPresentationRotation : Option ℕ)
    (answerContract : RuliadProofActionAnswerContract) : AnswerFieldScore :=
  match proofStepIndex.bind fun stepIndex =>
      (presentedActionSet S problem oracleCertificate stepIndex
        actionPresentationRotation).toOption with
  | none => .malformed 1
  | some actions =>
    let answer := String.ofList actual
    let syntaxValid := match answerContract with
      | .presentationIndex => (parseProofActionIndex answer).isSome
      | .semanticStep => (decodeModelProofStep answer).isSome
    match resolveProofActionAnswer actions answer answerContract with
    | none => if !syntaxValid then .malformed 1 else ⟨.schemaValidWrong, 0, 1, 1, 0⟩
    | some candidateIndex =>
      let equivalent := actions.isEquivalentIndex candidateIndex
      let progress := actions.candidateProgressPpm candidateIndex
      { status :=
          if equivalent then .verifierMatch else if progress > 0 then .partial_
          else .schemaValidWrong
        correctFieldCount := bit equivalent
        expectedFieldCount := 1
        observedFieldCount := 1
        partialProgressPpm := progress }

/-- `score_formal_transition_answer`. -/
def scoreFormalTransitionAnswer (proofStepIndex : Option ℕ) : Run AnswerFieldScore :=
  match proofStepIndex with
  | none => .ok (.malformed 1)
  | some stepIndex =>
    match oracleCertificate.stepAt stepIndex, problem.canonicalHash S with
    | none, _ | _, .error _ => .ok (.malformed 1)
    | some (expectedGoal, _), .ok problemHash =>
      match decodeModelCertificatePrefix (trim actual) problem.version problemHash with
      | .error _ => .ok (.malformed 1)
      | .ok parsed =>
        let parsedGoal := parsed.certificate.goals.head?
        match parsedGoal.bind fun goal => goal.steps.head? with
        | none => .ok (.malformed 1)
        | some actualStep =>
          if parsed.parsedSteps = 0 then .ok (.malformed 1)
          else if parsed.parsedSteps ≠ 1 ∨ parsed.certificate.goals.length ≠ 1 ∨
              parsedGoal.all fun goal => goal.goal ≠ expectedGoal then
            .ok ⟨.schemaValidWrong, 0, 1, bit (parsedGoal.any fun goal =>
              goal.goal = expectedGoal && goal.steps ≠ []), 0⟩
          else do
            -- the index was found by `step_at`, so the `expect` of the source holds
            let candidate ← okOr (oracleCertificate.withStepReplaced stepIndex actualStep)
              Panic.indexOutOfBounds
            let report ← replayCertificate S problem candidate .default
            let transitionVerified : Bool := report.verifiedSteps > stepIndex
            return {
              status :=
                if report.accepted && parsed.syntaxComplete then .verifierMatch
                else if transitionVerified then .partial_
                else if !parsed.syntaxComplete && parsed.parsedSteps = 0 then .malformed
                else .schemaValidWrong
              correctFieldCount := bit transitionVerified
              expectedFieldCount := 1
              observedFieldCount := 1
              partialProgressPpm := bit transitionVerified * scorePpmDenominator }

end Formal

/-- `score_formal_certificate_answer`. -/
def scoreFormalCertificateAnswer (S : Serde) (actual : List Char) (spec : Option RuliadSampleSpec) :
    Run (Option AnswerFieldScore) :=
  match spec with
  | some (.formalProof spec) =>
    match spec.task with
    | .advanceProof => do
      let score ←
        scoreFormalTransitionAnswer S actual spec.problem spec.certificate spec.proofStepIndex
      return some score
    | .selectProofAction => .ok <| some <|
        scoreFormalActionAnswer S actual spec.problem spec.certificate spec.proofStepIndex
          spec.actionPresentationRotation spec.actionAnswerContract
    | .constructProof => do
      let score ← scoreConstructedProof S actual spec.problem spec.certificate
      return some score
    | _ => .ok none
  | _ => .ok none

/-! ## Other answers -/

/-- The score of an answer given as pairs. -/
def scoreAnswerPairs (expectedPairs actualPairs : BTreeMap String String) (hashCanary : Bool) :
    AnswerFieldScore :=
  let expectedFieldCount := max expectedPairs.entries.length 1
  let correctFieldCount := expectedPairs.entries.countP fun e => actualPairs.get? e.1 = some e.2
  let observedFieldCount := expectedPairs.keys.countP fun key => (actualPairs.get? key).isSome
  let hasExpectedSchema := actualPairs.keys.any fun key => (expectedPairs.get? key).isSome
  { status :=
      if !hashCanary && correctFieldCount > 0 then .partial_
      else if hasExpectedSchema || actualPairs.entries ≠ [] then .schemaValidWrong
      else .malformed
    correctFieldCount, expectedFieldCount, observedFieldCount
    partialProgressPpm :=
      if hashCanary then 0
      else saturatingMul correctFieldCount scorePpmDenominator / expectedFieldCount }

/-- The score of an answer by its first characters. -/
def scoreAnswerText (expected actual : List Char) (hashCanary : Bool) : AnswerFieldScore :=
  let expectedNormalized := normalizeAnswer expected
  let actualNormalized := normalizeAnswer actual
  let partialProgressPpm :=
    if hashCanary then 0
    else saturatingMul (commonPrefixChars expectedNormalized actualNormalized) scorePpmDenominator /
      max expectedNormalized.length 1
  { status := if partialProgressPpm > 0 then .partial_ else .schemaValidWrong
    correctFieldCount := bit (partialProgressPpm > 0)
    expectedFieldCount := 1
    observedFieldCount := bit (partialProgressPpm > 0)
    partialProgressPpm }

section Answers

variable (overflowChecks : Bool) (P : Packages)

/-- Whether there is a spec and the verifier accepts it. -/
def specVerifies : Option RuliadSampleSpec → Run Bool
  | none => .ok false
  | some spec => do
    return match ← verifySpec overflowChecks P spec with
      | .ok report => report.ok
      | .error _ => false

/-- `score_answer_fields`. -/
def scoreAnswerFields (expected actual : List Char) (hashCanary : Bool)
    (spec : Option RuliadSampleSpec) : Run AnswerFieldScore := do
  match ← scoreFormalCertificateAnswer P.toSerde actual spec with
  | some score => return score
  | none =>
    if ruliadAnswersSemanticMatch expected actual then
      let verified ← specVerifies overflowChecks P spec
      let expectedFieldCount := max (expectedAnswerFieldCount expected) 1
      return ⟨if verified then .verifierMatch else .semanticMatch, expectedFieldCount,
        expectedFieldCount, expectedFieldCount, scorePpmDenominator⟩
    else
      match parseAnswerPairs expected, parseAnswerPairsOrContractValues expected actual with
      | some expectedPairs, some actualPairs =>
        return scoreAnswerPairs expectedPairs actualPairs hashCanary
      | some expectedPairs, none => return .malformed (max expectedPairs.entries.length 1)
      | _, _ => return scoreAnswerText expected actual hashCanary

end Answers

/-! ## Completions -/

/-- `score_certificate_prefix`. -/
def scoreCertificatePrefix (expected actual : List (List Char)) : ℕ × ℕ :=
  if expected = [] then (0, 0)
  else
    let validPrefixSteps := ((expected.zip actual).takeWhile fun (expected, actual) =>
      normalizeAnswer expected = normalizeAnswer actual).length
    (validPrefixSteps, saturatingMul validPrefixSteps scorePpmDenominator / max expected.length 1)

/-- `reasoning_score`, which keeps the numbers of correct and observed fields below the number of
expected ones. A division by zero steps gives zero, as `checked_div` with its default. -/
def reasoningScore (parts : AnswerFieldScore) (certificateValidPrefixSteps : ℕ)
    (certificateExpectedSteps generatedTokenCount : ℕ) (hashCanary answerTerminated : Bool)
    (completionQualityPpm : ℕ) : RuliadReasoningScore where
  status := parts.status
  correctFieldCount := min parts.correctFieldCount parts.expectedFieldCount
  expectedFieldCount := parts.expectedFieldCount
  observedFieldCount := min parts.observedFieldCount parts.expectedFieldCount
  partialProgressPpm := parts.partialProgressPpm
  certificateValidPrefixSteps
  certificateExpectedSteps
  certificatePrefixPpm :=
    saturatingMul certificateValidPrefixSteps scorePpmDenominator / certificateExpectedSteps
  generatedTokenCount
  hashCanary
  answerTerminated
  completionQualityPpm

section Completions

variable (overflowChecks : Bool) (E : EvalPackages)

/-- `score_ruliad_completion_parts`. -/
def scoreRuliadCompletionParts (spec : Option RuliadSampleSpec) (expectedAnswer : List Char)
    (expectedCertificate : List (List Char)) (completion : Option RuliadExtractedCompletion) :
    Run RuliadReasoningScore :=
  let hashCanary := isHashCanaryAnswer expectedAnswer spec
  match completion with
  | none => .ok <| reasoningScore ⟨.missing, 0, expectedAnswerFieldCount expectedAnswer, 0, 0⟩ 0
      expectedCertificate.length 0 hashCanary false 0
  | some completion =>
    match completion.answer with
    | none => .ok <| reasoningScore (.malformed (expectedAnswerFieldCount expectedAnswer)) 0
        expectedCertificate.length completion.generatedTokenCount hashCanary
        completion.answerTerminated completion.completionQualityPpm
    | some actualAnswer => do
      let answerScore ←
        scoreAnswerFields overflowChecks E.toPackages expectedAnswer actualAnswer hashCanary spec
      let (certificateValidPrefixSteps, certificatePrefixPpm) :=
        scoreCertificatePrefix expectedCertificate completion.certificateLines
      return { reasoningScore answerScore certificateValidPrefixSteps expectedCertificate.length
          completion.generatedTokenCount hashCanary completion.answerTerminated
          completion.completionQualityPpm with certificatePrefixPpm }

/-- `score_ruliad_answer`. -/
def scoreRuliadAnswer (spec : Option RuliadSampleSpec) (expectedAnswer : List Char)
    (actualAnswer : Option (List Char)) : Run RuliadReasoningScore :=
  scoreRuliadCompletionParts overflowChecks E spec expectedAnswer [] <|
    actualAnswer.map fun answer =>
      ⟨some answer, [], (splitWhitespace answer).length, false, scorePpmDenominator⟩

end Completions

end BurnDragon.Ruliad
