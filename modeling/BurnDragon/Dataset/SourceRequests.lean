import BurnDragon.Dataset.SourceSelection

/-!
# Requests to a source-selected dataset

What a dataset with live source selection answers: windows of a step, chunks of streamed documents,
document indices and policy batches, each from the bucket that is chosen for the step, and the reports in
between. `answer` is the machine; `answer_pending` says what a request does to the pending table.
-/

namespace BurnDragon.Dataset

open Rust Ruliad Corpus Transition

variable {K : Type} [Field K] [LinearOrder K]

structure RuliadWindowRequest where
  split : SampleSplit
  epochIndex : ℕ
  absoluteStep : ℕ
  batchSize : ℕ
  blockSize : ℕ
  preferAnswerWindow : Bool

structure RuliadStreamWindowRequest where
  window : RuliadWindowRequest
  chunkIndexInDocument : ℕ

/-- The step that the bucket and the documents of a chunk are chosen for. -/
def RuliadStreamWindowRequest.selectionStep (request : RuliadStreamWindowRequest) : ℕ :=
  request.window.absoluteStep - min request.chunkIndexInDocument request.window.absoluteStep

/-- What the corpus generates, from the seeds of the requests. -/
structure SourceCorpus where
  eosId : Option ℕ
  /-- The document of a split, an epoch, a step, a bucket and a rank. -/
  document : SampleSplit → ℕ → ℕ → String → ℕ → List ℕ
  document_length : ∀ split epochIndex step label rank,
    (document split epochIndex step label rank).length ≤ usizeMax
  /-- `live_source_selection_documents_per_step`. -/
  documentsPerStep : ℕ → ℕ
  /-- What is drawn for an epoch, a step, a bucket and a rank from the documents of the bucket. -/
  documentDraw : ℕ → ℕ → String → ℕ → ℕ → ℕ
  /-- What is drawn for an epoch, a step, a row and a chunk from the starts of answer windows. -/
  answerDraw : ℕ → ℕ → ℕ → ℕ → ℕ → ℕ

/-! ## Windows of streamed documents -/

section Windows

variable (eosId : Option ℕ) (document : List ℕ)

def validDocumentTokenCount : ℕ :=
  min ((eosId.bind fun eosId => (document.idxOf? eosId).map fun index => saturatingAdd index 1).getD
    document.length) document.length

/-- The token of a document at a position, or the padding outside of what is valid. -/
def paddedToken (position : ℕ) : ℕ :=
  (document[position]?.filter fun _ => position < validDocumentTokenCount eosId document).getD
    (eosId.getD 0)

/-- A chunk of a document with the token after it. -/
def documentChunk (blockSize chunkIndex : ℕ) : List ℕ :=
  (List.range (blockSize + 1)).map fun offset =>
    paddedToken eosId document (saturatingAdd (saturatingMul chunkIndex blockSize) offset)

/-- `ruliad_answer_target_loss_mask` for a mask as long as the targets of the window, which therefore does
not panic. -/
def answersTarget (window : List ℕ) : Bool :=
  match ruliadTokenLossMask window (List.replicate (window.length - 1) 0)
    { RuliadTokenSupervisionConfig.default with mode := .answerCompletion } with
  | .ok (any, _) => any
  | .error _ => false

/-- `is_ruliad_answer_marker_at`. -/
def isAnswerMarkerAt (usableLen index : ℕ) : Bool :=
  document[index]? = some symbolicAnswerToken ||
    (index + 1 < usableLen && document[index]? = some '!'.toNat &&
      document[index + 1]? = some ':'.toNat)

def answerWindowStartCandidates (usableLen blockSize : ℕ) : List ℕ :=
  if usableLen ≤ blockSize + 1 then []
  else
    let maxStart := usableLen - (blockSize + 1)
    let lead := max (blockSize / 8) 1
    let starts := (List.range (min usableLen document.length)).filterMap fun index =>
      if !isAnswerMarkerAt document usableLen index then none
      else
        let start := min (index - lead) maxStart
        let window := (document.take (min (saturatingAdd start (blockSize + 1)) document.length)).drop start
        if start ≤ index && index < saturatingAdd start blockSize && answersTarget window then some start
        else none
    (starts.mergeSort (· ≤ ·)).eraseReps

/-- `answer_window_from_document`. `draw` is drawn from the number of candidates. -/
def answerWindowFromDocument (draw : ℕ → ℕ) (blockSize : ℕ) : Option (List ℕ) :=
  let usableLen := validDocumentTokenCount eosId document
  if usableLen ≤ blockSize + 1 then
    let valid := document.take usableLen
    let window := valid ++ List.replicate (blockSize + 1 - valid.length) (eosId.getD 0)
    if answersTarget window then some window else none
  else
    let candidates := answerWindowStartCandidates document usableLen blockSize
    if candidates.isEmpty then none
    else
      let drawn := candidates.getD (draw candidates.length % candidates.length) 0
      let start := min drawn (usableLen - (blockSize + 1))
      some ((document.drop start).take (blockSize + 1))

end Windows

namespace SourceCorpus

variable (corpus : SourceCorpus)

/-- `generate_source_bucket_documents`. -/
def generateSourceBucketDocuments (split : SampleSplit) (epochIndex step : ℕ) (label : String)
    (documentCount : ℕ) : List (List ℕ) :=
  (List.range (max documentCount 1)).map (corpus.document split epochIndex step label)

/-- A row of `source_selected_stream_windows_from_documents`. -/
def streamWindow (documents : List (List ℕ)) (request : RuliadStreamWindowRequest) (row : ℕ) :
    List ℕ :=
  let window := request.window
  let chunk := request.chunkIndexInDocument
  let document (index : ℕ) := documents.getD (index % documents.length) []
  let answerWindow :=
    if window.preferAnswerWindow then
      (List.range documents.length).findSome? fun attempt =>
        answerWindowFromDocument corpus.eosId (document (row + attempt))
          (corpus.answerDraw window.epochIndex window.absoluteStep row chunk) window.blockSize
    else none
  answerWindow.getD (documentChunk corpus.eosId (document row) window.blockSize chunk)

/-- `source_selected_stream_windows_from_documents`. -/
def streamWindowsFromDocuments (documents : List (List ℕ)) (request : RuliadStreamWindowRequest) :
    List (List ℕ) :=
  if documents.isEmpty then []
  else (List.range request.window.batchSize).map (corpus.streamWindow documents request)

end SourceCorpus

/-! ## Requests -/

/-- The requests, the reports and what else uses the selection state. -/
inductive SourceRequest (K : Type)
  /-- `source_selected_token_windows`. -/
  | tokenWindows (request : RuliadWindowRequest)
  /-- `source_selected_stream_token_windows`. -/
  | streamTokenWindows (request : RuliadStreamWindowRequest)
  /-- `source_selected_document_indices`, with the documents of the epoch by bucket. -/
  | documentIndices (split : SampleSplit) (epochIndex absoluteStep batchSize : ℕ)
    (documentsByBucket : BTreeMap String (List ℕ))
  /-- `source_selected_ruliad_policy_batch`. -/
  | policyBatch (split : SampleSplit) (epochIndex absoluteStep batchSize : ℕ)
    (stratifiedDifficultyLevels : ℕ)
  /-- `record_source_selection_loss`. -/
  | recordLoss (absoluteStep : ℕ) (loss : K)
  /-- `record_ruliad_capability_feedback_batch_at_step`. -/
  | recordCapabilityFeedback (feedback : List (RuliadCapabilityFeedback K))
  /-- `apply_source_selection_dynamics_control`. -/
  | applyDynamicsControl (difficultyPressure hashNoiseMaxProbability : K)
  /-- `source_selection_snapshot`, or the probabilities from which an epoch is generated. -/
  | snapshot
  /-- `export_source_selection_state`. -/
  | exportState (absoluteStepOffset : ℕ)

/-- What is served, with the bucket that it comes from. -/
inductive SourceReply
  | nothing
  /-- The windows are cut from the documents. -/
  | tokenWindows (bucketLabel : String) (documents : List (List ℕ))
  | streamTokenWindows (bucketLabel : String) (documents windows : List (List ℕ))
  | documentIndices (bucketLabel : String) (indices : List ℕ)
  /-- The buckets of the samples. -/
  | policyBatch (bucketLabel : String) (sampleBuckets : List String)

/-- The bucket that was chosen. -/
def SourceReply.bucket : SourceReply → Option String
  | .nothing => none
  | .tokenWindows label _ | .streamTokenWindows label _ _ | .documentIndices label _
  | .policyBatch label _ => some label

namespace LiveSourceSelectionState

variable (config : LiveSourceSelection K) (corpus : SourceCorpus) (state : LiveSourceSelectionState K)

/-- The buckets of the proof actions below a difficulty, in order. -/
def stratifiedBucketLabels (stratifiedDifficultyLevels : ℕ) : List String :=
  if stratifiedDifficultyLevels = 0 then []
  else
    let labels := (state.sampler.candidates.filter fun candidate =>
        candidate.taskKind = "select_proof_action" &&
          candidate.difficultyLevel < stratifiedDifficultyLevels).map fun candidate =>
      (candidate.difficultyLevel, candidate.oracleHash)
    (labels.mergeSort fun a b => a.1 < b.1 || a.1 = b.1 && a.2 ≤ b.2).eraseReps.map Prod.snd

/-- The choice for a step, which becomes pending in the training split. -/
def chooseForSplit (split : SampleSplit) (epochIndex absoluteStep : ℕ) :
    Option String × LiveSourceSelectionState K :=
  match split with
  | .train => state.chooseBucketLabelForStep config epochIndex absoluteStep
  | .validation => state.chooseBucketLabelForValidationStep config epochIndex absoluteStep

def sourceSelectedTokenWindows (request : RuliadWindowRequest) :
    SourceReply × LiveSourceSelectionState K :=
  let chosen := state.chooseForSplit config request.split request.epochIndex request.absoluteStep
  (match chosen.1 with
    | none => .nothing
    | some label => .tokenWindows label (corpus.generateSourceBucketDocuments request.split
        request.epochIndex request.absoluteStep label (corpus.documentsPerStep request.batchSize)),
   chosen.2)

def sourceSelectedStreamTokenWindows (request : RuliadStreamWindowRequest) :
    SourceReply × LiveSourceSelectionState K :=
  let window := request.window
  let chosen := match window.split with
    | .train => state.chooseBucketLabelForStreamStep config window.epochIndex request.selectionStep
        window.absoluteStep
    | .validation => state.chooseBucketLabelForValidationStep config window.epochIndex
        request.selectionStep
  (match chosen.1 with
    | none => .nothing
    | some label =>
      let documents := corpus.generateSourceBucketDocuments window.split window.epochIndex
        request.selectionStep label (max window.batchSize 1)
      .streamTokenWindows label documents (corpus.streamWindowsFromDocuments documents request),
   chosen.2)

def sourceSelectedDocumentIndices (split : SampleSplit) (epochIndex absoluteStep batchSize : ℕ)
    (documentsByBucket : BTreeMap String (List ℕ)) : SourceReply × LiveSourceSelectionState K :=
  if split ≠ .train || documentsByBucket.entries.isEmpty then (.nothing, state)
  else
    let chosen := state.chooseBucketForStep config documentsByBucket epochIndex absoluteStep
    (match chosen.1 with
      | none => .nothing
      | some label =>
        let documents := (documentsByBucket.get? label).getD []
        .documentIndices label ((List.range batchSize).map fun rank =>
          documents.getD
            (corpus.documentDraw epochIndex absoluteStep label rank documents.length % documents.length) 0),
     chosen.2)

def sourceSelectedRuliadPolicyBatch (split : SampleSplit) (epochIndex absoluteStep batchSize : ℕ)
    (stratifiedDifficultyLevels : ℕ) : SourceReply × LiveSourceSelectionState K :=
  let chosen := state.chooseForSplit config split epochIndex absoluteStep
  (match chosen.1 with
    | none => .nothing
    | some label =>
      let stratified := chosen.2.stratifiedBucketLabels stratifiedDifficultyLevels
      .policyBatch label ((List.range (max batchSize 1)).map fun rank =>
        stratified.getD (rank % max stratified.length 1) label),
   chosen.2)

/-- One request. -/
def answer : SourceRequest K → SourceReply × LiveSourceSelectionState K
  | .tokenWindows request => state.sourceSelectedTokenWindows config corpus request
  | .streamTokenWindows request => state.sourceSelectedStreamTokenWindows config corpus request
  | .documentIndices split epochIndex absoluteStep batchSize documentsByBucket =>
    state.sourceSelectedDocumentIndices config corpus split epochIndex absoluteStep batchSize
      documentsByBucket
  | .policyBatch split epochIndex absoluteStep batchSize stratifiedDifficultyLevels =>
    state.sourceSelectedRuliadPolicyBatch config split epochIndex absoluteStep batchSize
      stratifiedDifficultyLevels
  | .recordLoss absoluteStep loss => (.nothing, state.recordLoss config absoluteStep loss)
  | .recordCapabilityFeedback feedback =>
    (.nothing, state.recordCapabilityFeedbackBatch config feedback)
  | .applyDynamicsControl difficultyPressure hashNoiseMaxProbability =>
    (.nothing, state.applyDynamicsControl config difficultyPressure hashNoiseMaxProbability)
  | .snapshot => (.nothing, state.maybeExtendFrontier config)
  | .exportState absoluteStepOffset => (.nothing, (state.exportState absoluteStepOffset).2)

end LiveSourceSelectionState

/-- The trace of a run of the dataset. -/
def sourceTrace (config : LiveSourceSelection K) (corpus : SourceCorpus)
    (state : LiveSourceSelectionState K) (requests : List (SourceRequest K)) :
    List (Answered (LiveSourceSelectionState K) (SourceRequest K) SourceReply) :=
  trace (fun state request => state.answer config corpus request) state requests

end BurnDragon.Dataset
