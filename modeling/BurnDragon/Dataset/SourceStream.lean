import BurnDragon.Dataset.SourceRequests
import BurnDragon.Ruliad.FrontierCap

/-!
# The documents of a live stream

The chunks of a document are requested one after the other, and every request chooses the bucket of the
selection step anew, from the weights that the sampler then has. All chunks come from the same documents
in every run in which nothing between them changes the weights of their selection step
(`stream_keeps_documents`). A loss report between two chunks does change them.
-/

namespace BurnDragon.Dataset

open Rust Ruliad Corpus Transition List RuliadFrontierSampler LiveSourceSelectionControl RuliadSamplerCandidate

variable {K : Type} [Field K] [LinearOrder K]

namespace LiveSourceSelectionState

variable (config : LiveSourceSelection K) (corpus : SourceCorpus) (state : LiveSourceSelectionState K)

/-! ## What a choice depends on -/

/-- The weights that a request chooses with, and the effective step that it draws with. -/
def selectionWeights (step : ℕ) : List (String × K) × ℕ :=
  let extended := state.maybeExtendFrontier config
  (extended.weightedBucketLabels config step, extended.effectiveAbsoluteStep step)

variable {config corpus state} {state' : LiveSourceSelectionState K}

theorem chooseBucket_fst_congr {step : ℕ}
    (h : state'.selectionWeights config step = state.selectionWeights config step)
    (keep : String → Bool) (epochIndex : ℕ) (pendingStep pendingStep' : Option ℕ) :
    (state'.chooseBucket config keep epochIndex step pendingStep').1 =
      (state.chooseBucket config keep epochIndex step pendingStep).1 := by
  obtain ⟨hweights, hstep⟩ := Prod.ext_iff.1 h
  simp only [selectionWeights] at hweights hstep
  simp only [chooseBucket, drawBucket, hweights, hstep]

/-- The bucket of a chunk request. -/
def streamBucket (config : LiveSourceSelection K) (state : LiveSourceSelectionState K)
    (epochIndex step : ℕ) : Option String :=
  (state.chooseBucketLabelForValidationStep config epochIndex step).1

theorem streamBucket_congr {step : ℕ}
    (h : state'.selectionWeights config step = state.selectionWeights config step) (epochIndex : ℕ) :
    streamBucket config state' epochIndex step = streamBucket config state epochIndex step :=
  chooseBucket_fst_congr h _ _ _ _

/-- The reply to a chunk request, from the bucket that it chooses. -/
theorem sourceSelectedStreamTokenWindows_fst (request : RuliadStreamWindowRequest) :
    (state.sourceSelectedStreamTokenWindows config corpus request).1 =
      match streamBucket config state request.window.epochIndex request.selectionStep with
      | none => .nothing
      | some label =>
        let documents := corpus.generateSourceBucketDocuments request.window.split
          request.window.epochIndex request.selectionStep label (max request.window.batchSize 1)
        .streamTokenWindows label documents (corpus.streamWindowsFromDocuments documents request) := by
  unfold sourceSelectedStreamTokenWindows
  cases hsplit : request.window.split with
  | train => simp only [hsplit]; rfl
  | validation => simp only [hsplit]; rfl

theorem sourceSelectedStreamTokenWindows_bucket (request : RuliadStreamWindowRequest) :
    (state.sourceSelectedStreamTokenWindows config corpus request).1.bucket =
      state.streamBucket config request.window.epochIndex request.selectionStep := by
  rw [sourceSelectedStreamTokenWindows_fst]
  cases streamBucket config state request.window.epochIndex request.selectionStep <;> rfl

theorem sourceSelectedStreamTokenWindows_snd {request : RuliadStreamWindowRequest}
    (htrain : request.window.split = .train) :
    (state.sourceSelectedStreamTokenWindows config corpus request).2 =
      (state.chooseBucketLabelForStreamStep config request.window.epochIndex request.selectionStep
        request.window.absoluteStep).2 := by
  simp only [sourceSelectedStreamTokenWindows, htrain]

/-- A choice when the frontier is not extended. -/
theorem chooseBucket_of_static {keep : String → Bool} {epochIndex absoluteStep : ℕ} {label : String}
    (hstatic : state.maybeExtendFrontier config = state)
    (hdraw : state.drawBucket config keep epochIndex absoluteStep = some label) (pendingStep : ℕ) :
    state.chooseBucket config keep epochIndex absoluteStep (some pendingStep) =
      (some label, state.recordPending config pendingStep label) := by
  simp only [chooseBucket, hstatic, hdraw]

end LiveSourceSelectionState

/-! ## Chunks of a document -/

section Chunks

variable {eosId : Option ℕ} {document : List ℕ}

/-- Beyond the last place of the machine there is only padding. -/
theorem paddedToken_saturate (hlength : document.length ≤ usizeMax) (position : ℕ) :
    paddedToken eosId document (min position usizeMax) = paddedToken eosId document position := by
  rcases le_total position usizeMax with hle | hle
  · rw [min_eq_left hle]
  · rw [min_eq_right hle, paddedToken, paddedToken, getElem?_eq_none hlength,
      getElem?_eq_none (hlength.trans hle)]
    rfl

theorem saturatingAdd_saturatingMul (a b c : ℕ) :
    saturatingAdd (saturatingMul a b) c = min (a * b + c) usizeMax := by
  unfold saturatingAdd saturatingMul
  omega

/-- A chunk holds the tokens from its place on. -/
theorem documentChunk_eq (hlength : document.length ≤ usizeMax) (blockSize chunkIndex : ℕ) :
    documentChunk eosId document blockSize chunkIndex = (List.range (blockSize + 1)).map fun offset =>
      paddedToken eosId document (chunkIndex * blockSize + offset) :=
  map_congr_left fun offset _ => by
    rw [saturatingAdd_saturatingMul, paddedToken_saturate hlength]

theorem take_documentChunk (hlength : document.length ≤ usizeMax) (blockSize chunkIndex : ℕ) :
    (documentChunk eosId document blockSize chunkIndex).take blockSize =
      (List.range blockSize).map fun offset =>
        paddedToken eosId document (chunkIndex * blockSize + offset) := by
  rw [documentChunk_eq hlength, ← map_take, take_range, min_eq_left (Nat.le_succ _)]

/-- The chunks of a document, one after the other, are the document. -/
theorem flatMap_documentChunk (hlength : document.length ≤ usizeMax) (blockSize count : ℕ) :
    ((List.range count).flatMap fun chunkIndex =>
        (documentChunk eosId document blockSize chunkIndex).take blockSize) =
      (List.range (count * blockSize)).map (paddedToken eosId document) := by
  induction count with
  | zero => simp
  | succ count ih =>
    rw [range_succ, flatMap_append, ih, Nat.succ_mul, range_add, map_append, map_map]
    simp only [flatMap_cons, flatMap_nil, append_nil, take_documentChunk hlength]
    rfl

end Chunks

/-! ## Documents of a selection step -/

/-- The request asks for a chunk of the selection step. -/
structure RuliadStreamWindowRequest.Selects (request : RuliadStreamWindowRequest)
    (split : SampleSplit) (epochIndex step : ℕ) : Prop where
  split_eq : request.window.split = split
  epochIndex_eq : request.window.epochIndex = epochIndex
  selectionStep_eq : request.selectionStep = step

/-- A bucket with a document for each row. -/
structure StreamDocuments where
  bucketLabel : String
  document : ℕ → List ℕ

/-- The first tokens of the document of a row, padded; none if there is no bucket. -/
def documentTokens (eosId : Option ℕ) (row count : ℕ) : Option StreamDocuments → List ℕ
  | none => []
  | some documents => (List.range count).map (paddedToken eosId (documents.document row))

/-- The reply serves the chunk of the documents that is requested, or nothing if there is no bucket. An
answer window is taken from one of the documents instead. -/
def ServesChunk (corpus : SourceCorpus) (request : RuliadStreamWindowRequest) (reply : SourceReply) :
    Option StreamDocuments → Prop
  | none => reply = .nothing
  | some documents => ∃ windows,
    reply = .streamTokenWindows documents.bucketLabel
      ((List.range (max request.window.batchSize 1)).map documents.document) windows ∧
    (request.window.preferAnswerWindow = false →
      windows = (List.range request.window.batchSize).map fun row =>
        documentChunk corpus.eosId (documents.document row) request.window.blockSize
          request.chunkIndexInDocument)

theorem ServesChunk.bucket_eq {corpus : SourceCorpus} {request : RuliadStreamWindowRequest}
    {reply : SourceReply} {documents : Option StreamDocuments}
    (h : ServesChunk corpus request reply documents) :
    reply.bucket = documents.map StreamDocuments.bucketLabel := by
  cases documents with
  | none => rw [show reply = .nothing from h]; rfl
  | some documents =>
    obtain ⟨windows, rfl, -⟩ := h
    rfl

/-- The window of a row. -/
def SourceReply.row (reply : SourceReply) (row : ℕ) : List ℕ :=
  match reply with
  | .streamTokenWindows _ _ windows => windows.getD row []
  | _ => []

abbrev SourceEvent (K : Type) := Answered (LiveSourceSelectionState K) (SourceRequest K) SourceReply

/-- The event serves a row of the chunk of a selection step. -/
def SourceEvent.IsChunk (event : SourceEvent K) (split : SampleSplit) (epochIndex step blockSize row : ℕ)
    (chunkIndex : ℕ) : Prop :=
  ∃ request, event.request = .streamTokenWindows request ∧ request.Selects split epochIndex step ∧
    request.window.preferAnswerWindow = false ∧ request.window.blockSize = blockSize ∧
    row < request.window.batchSize ∧ request.chunkIndexInDocument = chunkIndex

/-- All chunks of a selection step are served from the same documents, and the chunks of a row
concatenate to its document. -/
def StreamKeepsDocuments (corpus : SourceCorpus) (events : List (SourceEvent K)) : Prop :=
  ∀ split epochIndex step, ∃ documents : Option StreamDocuments,
    (∀ event ∈ events, ∀ request, event.request = .streamTokenWindows request →
      request.Selects split epochIndex step → ServesChunk corpus request event.reply documents) ∧
    ∀ blockSize row count chunks, (∀ event ∈ chunks, event ∈ events) →
      List.Forall₂ (fun chunkIndex event =>
        SourceEvent.IsChunk event split epochIndex step blockSize row chunkIndex)
        (List.range count) chunks →
      (chunks.flatMap fun event => (event.reply.row row).take blockSize) =
        documentTokens corpus.eosId row (count * blockSize) documents

/-- Between the first and the last chunk request of a selection step nothing changes its weights. -/
def SettledBetweenChunks (config : LiveSourceSelection K) (events : List (SourceEvent K)) : Prop :=
  ∀ split epochIndex step (i j : ℕ) (first last : SourceEvent K) request request',
    events[i]? = some first → first.request = .streamTokenWindows request →
    request.Selects split epochIndex step →
    events[j]? = some last → last.request = .streamTokenWindows request' →
    request'.Selects split epochIndex step →
    ∀ k event, i ≤ k → k < j → events[k]? = some event →
      event.after.selectionWeights config step = event.before.selectionWeights config step

/-! ## Runs -/

section Runs

variable {config : LiveSourceSelection K} {corpus : SourceCorpus} {state : LiveSourceSelectionState K}
  {requests : List (SourceRequest K)} {split : SampleSplit} {epochIndex step : ℕ}

theorem flatMap_eq_of_forall₂ {α β γ : Type*} {R : α → β → Prop} {f : α → List γ} {g : β → List γ}
    {as : List α} {bs : List β} (h : List.Forall₂ R as bs)
    (hfg : ∀ a b, b ∈ bs → R a b → g b = f a) : bs.flatMap g = as.flatMap f := by
  induction h with
  | nil => rfl
  | cons hab hrest ih =>
    rw [flatMap_cons, flatMap_cons, hfg _ _ (mem_cons_self ..) hab,
      ih fun a b hb => hfg a b (mem_cons_of_mem _ hb)]

/-- Served from the same documents, the chunks of a row concatenate. -/
theorem concatenate_of_serves {events : List (SourceEvent K)} {documents : Option StreamDocuments}
    (hserves : ∀ event ∈ events, ∀ request, event.request = .streamTokenWindows request →
      request.Selects split epochIndex step → ServesChunk corpus request event.reply documents)
    (hlength : ∀ found ∈ documents, ∀ row, (found.document row).length ≤ usizeMax)
    {blockSize row count : ℕ} {chunks : List (SourceEvent K)} (hchunks : ∀ event ∈ chunks, event ∈ events)
    (hcount : List.Forall₂ (fun chunkIndex event =>
      SourceEvent.IsChunk event split epochIndex step blockSize row chunkIndex)
      (List.range count) chunks) :
    (chunks.flatMap fun event => (event.reply.row row).take blockSize) =
      documentTokens corpus.eosId row (count * blockSize) documents := by
  cases documents with
  | none =>
    have hnothing : (chunks.flatMap fun event => (event.reply.row row).take blockSize) =
        (List.range count).flatMap fun _ => [] := by
      refine flatMap_eq_of_forall₂ hcount ?_
      rintro chunkIndex event hevent ⟨request, hrequest, hselects, -⟩
      rw [hserves event (hchunks event hevent) request hrequest hselects]
      exact take_nil
    rw [hnothing, documentTokens, flatMap_eq_nil_iff]
    exact fun _ _ => rfl
  | some documents =>
    rw [documentTokens, ← flatMap_documentChunk (hlength documents rfl row)]
    refine flatMap_eq_of_forall₂ hcount ?_
    rintro chunkIndex event hevent ⟨request, hrequest, hselects, hprefer, rfl, hrow, rfl⟩
    obtain ⟨windows, hreply, hwindows⟩ :=
      hserves event (hchunks event hevent) request hrequest hselects
    rw [hreply, SourceReply.row, hwindows hprefer]
    simp [hrow]

/-- Without answer windows every row is a chunk of its document. -/
theorem streamWindowsFromDocuments_eq {request : RuliadStreamWindowRequest}
    (hprefer : request.window.preferAnswerWindow = false) (document : ℕ → List ℕ) :
    corpus.streamWindowsFromDocuments
        ((List.range (max request.window.batchSize 1)).map document) request =
      (List.range request.window.batchSize).map fun row =>
        documentChunk corpus.eosId (document row) request.window.blockSize
          request.chunkIndexInDocument := by
  rw [SourceCorpus.streamWindowsFromDocuments, if_neg (by simp)]
  refine map_congr_left fun row hrow => ?_
  have hlt : row < max request.window.batchSize 1 := lt_max_of_lt_left (mem_range.1 hrow)
  simp only [SourceCorpus.streamWindow, hprefer, Bool.false_eq_true, if_false, Option.getD_none,
    length_map, length_range, Nat.mod_eq_of_lt hlt]
  rw [getD_eq_getElem?_getD, getElem?_map, getElem?_range hlt]
  rfl

/-- A chunk request is answered from the bucket that its weights give. -/
theorem servesChunk_streamBucket (request : RuliadStreamWindowRequest)
    (hselects : request.Selects split epochIndex step) :
    ServesChunk corpus request (state.sourceSelectedStreamTokenWindows config corpus request).1
      ((state.streamBucket config epochIndex step).map fun label =>
        ⟨label, corpus.document split epochIndex step label⟩) := by
  obtain ⟨rfl, rfl, rfl⟩ := hselects
  rw [LiveSourceSelectionState.sourceSelectedStreamTokenWindows_fst]
  cases LiveSourceSelectionState.streamBucket config state request.window.epochIndex
      request.selectionStep with
  | none => rfl
  | some label =>
    have hdocuments : corpus.generateSourceBucketDocuments request.window.split
        request.window.epochIndex request.selectionStep label (max request.window.batchSize 1) =
        (List.range (max request.window.batchSize 1)).map
          (corpus.document request.window.split request.window.epochIndex request.selectionStep label) := by
      rw [SourceCorpus.generateSourceBucketDocuments, max_assoc, max_self]
    exact ⟨_, by simp only [hdocuments], fun hprefer => streamWindowsFromDocuments_eq hprefer _⟩

/-- The bucket of a selection step is the same at all of its chunk requests. -/
theorem SettledBetweenChunks.streamBucket_eq
    (h : SettledBetweenChunks config (sourceTrace config corpus state requests)) {i j : ℕ}
    {first last : SourceEvent K} {request request' : RuliadStreamWindowRequest}
    (hfirst : (sourceTrace config corpus state requests)[i]? = some first)
    (hrequest : first.request = .streamTokenWindows request)
    (hselects : request.Selects split epochIndex step)
    (hlast : (sourceTrace config corpus state requests)[j]? = some last)
    (hrequest' : last.request = .streamTokenWindows request')
    (hselects' : request'.Selects split epochIndex step) :
    last.before.streamBucket config epochIndex step =
      first.before.streamBucket config epochIndex step := by
  rcases le_total i j with hij | hji
  · exact LiveSourceSelectionState.streamBucket_congr
      (trace_unchanged (f := fun state => state.selectionWeights config step)
        (fun k event => h split epochIndex step i j first last request request' hfirst hrequest hselects
          hlast hrequest' hselects' k event) hij hfirst hlast) _
  · exact (LiveSourceSelectionState.streamBucket_congr
      (trace_unchanged (f := fun state => state.selectionWeights config step)
        (fun k event => h split epochIndex step j i last first request' request hlast hrequest' hselects'
          hfirst hrequest hselects k event) hji hlast hfirst) _).symm

/-- **A settled stream keeps its documents.** If nothing changes the weights of a selection step between
its chunk requests, all of them are served from the same bucket and the same documents, and the chunks of
a row concatenate to its document. -/
theorem stream_keeps_documents (config : LiveSourceSelection K) (corpus : SourceCorpus)
    (state : LiveSourceSelectionState K) (requests : List (SourceRequest K))
    (h : SettledBetweenChunks config (sourceTrace config corpus state requests)) :
    StreamKeepsDocuments corpus (sourceTrace config corpus state requests) := by
  intro split epochIndex step
  have hdocuments : ∃ documents : Option StreamDocuments,
      (∀ event ∈ sourceTrace config corpus state requests, ∀ request,
        event.request = .streamTokenWindows request → request.Selects split epochIndex step →
          ServesChunk corpus request event.reply documents) ∧
      ∀ found ∈ documents, ∀ row, (found.document row).length ≤ usizeMax := by
    by_cases hfirst : ∃ (i : ℕ) (first : SourceEvent K) (request : RuliadStreamWindowRequest),
        (sourceTrace config corpus state requests)[i]? = some first ∧
        first.request = .streamTokenWindows request ∧ request.Selects split epochIndex step
    · obtain ⟨i, first, request, hi, hrequest, hselects⟩ := hfirst
      refine ⟨(first.before.streamBucket config epochIndex step).map fun label =>
        ⟨label, corpus.document split epochIndex step label⟩, ?_, ?_⟩
      · intro event hevent request' hrequest' hselects'
        obtain ⟨j, hj⟩ := List.getElem?_of_mem hevent
        have hstep := trace_step hj
        rw [hrequest'] at hstep
        have hreply : event.reply =
            (event.before.sourceSelectedStreamTokenWindows config corpus request').1 :=
          (congrArg Prod.fst hstep).symm
        rw [hreply, ← h.streamBucket_eq hi hrequest hselects hj hrequest' hselects']
        exact servesChunk_streamBucket request' hselects'
      · intro found hfound row
        obtain ⟨label, -, rfl⟩ := Option.map_eq_some_iff.1 hfound
        exact corpus.document_length ..
    · refine ⟨none, fun event hevent request hrequest hselects => ?_, by simp⟩
      obtain ⟨i, hi⟩ := List.getElem?_of_mem hevent
      exact absurd ⟨i, event, request, hi, hrequest, hselects⟩ hfirst
  obtain ⟨documents, hserves, hlength⟩ := hdocuments
  exact ⟨documents, hserves, fun blockSize row count chunks hchunks hcount =>
    concatenate_of_serves hserves hlength hchunks hcount⟩

end Runs

/-! ## Requests that change no weights -/

/-- The request may change the weights: a report does if feedback is used, and a choice or a snapshot does
if it may extend the frontier. -/
def SourceRequest.mayChangeWeights (config : LiveSourceSelection K) : SourceRequest K → Bool
  | .tokenWindows _ | .streamTokenWindows _ | .documentIndices .. | .policyBatch .. | .snapshot =>
    config.feedbackUpdatesEnabled && config.frontierExtension.enabled
  | .recordLoss .. | .recordCapabilityFeedback _ | .applyDynamicsControl .. =>
    config.feedbackUpdatesEnabled
  | .exportState _ => true

section Quiet

variable {config : LiveSourceSelection K} {corpus : SourceCorpus}
  {state state' : LiveSourceSelectionState K}

namespace LiveSourceSelectionState

theorem maybeExtendFrontier_eq_self
    (h : (config.feedbackUpdatesEnabled && config.frontierExtension.enabled) = false) :
    state.maybeExtendFrontier config = state := by
  have hnone : state.frontierCandidates config = [] := by
    rw [frontierCandidates, if_pos]
    simpa [or_iff_not_imp_left] using h
  rw [maybeExtendFrontier, hnone]
  simp

theorem frontierCandidates_congr (hsampler : state'.sampler = state.sampler)
    (hcontrol : state'.control = state.control) :
    state'.frontierCandidates config = state.frontierCandidates config := by
  have hsnapshot : state'.snapshotLocked config = state.snapshotLocked config := by
    rw [snapshotLocked, snapshotLocked, selectionProbabilities, selectionProbabilities, hsampler,
      hcontrol]
    rfl
  rw [frontierCandidates, frontierCandidates, hsnapshot]

/-- The weights do not depend on the pending table. -/
theorem selectionWeights_congr (hsampler : state'.sampler = state.sampler)
    (hcontrol : state'.control = state.control)
    (hoffset : state'.absoluteStepOffset = state.absoluteStepOffset) (step : ℕ) :
    state'.selectionWeights config step = state.selectionWeights config step := by
  simp only [selectionWeights, maybeExtendFrontier, frontierCandidates_congr hsampler hcontrol,
    weightedBucketLabels, selectionProbabilities, effectiveAbsoluteStep, Option.map_some, hsampler,
    hcontrol, hoffset]

/-- A choice leaves the sampler, the control and the offset of the extended state. -/
theorem chooseBucket_selectionWeights (hstatic : state.maybeExtendFrontier config = state)
    (keep : String → Bool) (epochIndex absoluteStep : ℕ) (pendingStep : Option ℕ) (step : ℕ) :
    (state.chooseBucket config keep epochIndex absoluteStep pendingStep).2.selectionWeights config step =
      state.selectionWeights config step := by
  simp only [chooseBucket, hstatic]
  split
  · exact selectionWeights_congr rfl rfl rfl step
  · rfl

theorem answer_selectionWeights {request : SourceRequest K}
    (h : request.mayChangeWeights config = false) (step : ℕ) :
    (state.answer config corpus request).2.selectionWeights config step =
      state.selectionWeights config step := by
  cases request with
  | tokenWindows request =>
    simp only [answer, sourceSelectedTokenWindows, chooseForSplit]
    cases request.split <;>
      exact chooseBucket_selectionWeights (maybeExtendFrontier_eq_self h) _ _ _ _ step
  | streamTokenWindows request =>
    simp only [answer, sourceSelectedStreamTokenWindows]
    cases request.window.split <;>
      exact chooseBucket_selectionWeights (maybeExtendFrontier_eq_self h) _ _ _ _ step
  | documentIndices split epochIndex absoluteStep batchSize documentsByBucket =>
    simp only [answer, sourceSelectedDocumentIndices]
    split
    · rfl
    · exact chooseBucket_selectionWeights (maybeExtendFrontier_eq_self h) _ _ _ _ step
  | policyBatch split epochIndex absoluteStep batchSize levels =>
    simp only [answer, sourceSelectedRuliadPolicyBatch, chooseForSplit]
    cases split <;> exact chooseBucket_selectionWeights (maybeExtendFrontier_eq_self h) _ _ _ _ step
  | snapshot => rw [answer, maybeExtendFrontier_eq_self h]
  | recordLoss absoluteStep loss =>
    have hfeedback : config.feedbackUpdatesEnabled = false := h
    rw [answer, recordLoss, if_pos (by simp [hfeedback]),
      maybeExtendFrontier_eq_self (by simp [hfeedback])]
  | recordCapabilityFeedback feedback =>
    have hfeedback : config.feedbackUpdatesEnabled = false := h
    rw [answer, recordCapabilityFeedbackBatch, if_pos (by simp [hfeedback]),
      maybeExtendFrontier_eq_self (by simp [hfeedback])]
  | applyDynamicsControl difficultyPressure hashNoiseMaxProbability =>
    have hfeedback : config.feedbackUpdatesEnabled = false := h
    rw [answer, applyDynamicsControl, if_pos (by simp [hfeedback])]
  | exportState absoluteStepOffset => cases h

end LiveSourceSelectionState

/-- A run of requests that change no weights is settled. -/
theorem settledBetweenChunks_of_quiet {requests : List (SourceRequest K)}
    (h : ∀ request ∈ requests, request.mayChangeWeights config = false) :
    SettledBetweenChunks config (sourceTrace config corpus state requests) := by
  intro split epochIndex step i j first last request request' _ _ _ _ _ _ k event _ _ hk
  have hquiet := h event.request (mem_of_getElem? (trace_request hk))
  have hafter : event.after = (event.before.answer config corpus event.request).2 :=
    (congrArg Prod.snd (trace_step hk)).symm
  rw [hafter]
  exact LiveSourceSelectionState.answer_selectionWeights hquiet step

end Quiet

/-! ## Two buckets -/

namespace LiveSourceSelectionState

section Plain

variable [IsStrictOrderedRing K] {config : LiveSourceSelection K} {state : LiveSourceSelectionState K}

/-- Without difficulty, feedback, answer contracts, cold start and control the softmax is not changed. -/
theorem selectionProbabilities_eq_exploring (hlibrary : config.library.Lawful)
    (hne : state.sampler.candidates ≠ []) (hdifficulty : state.sampler.maxDifficultyLevel = 0)
    (hposteriors : state.sampler.capabilityPosteriors.entries = [])
    (hcontracts : state.sampler.answerContractIndices.entries.length ≤ 1)
    (hcold : config.coldStart.enabled = false) (hcontrol : state.control = .initial)
    (absoluteStep : Option ℕ) :
    state.selectionProbabilities config absoluteStep = state.sampler.exploring config.library := by
  have hdistributes := exploring_distributes hlibrary hne
  have hbalance : ∀ probs, state.sampler.enforceAnswerContractBalance probs = probs := fun probs => by
    rw [enforceAnswerContractBalance, if_pos hcontracts, ite_self]
  have hprobabilities : state.sampler.probabilities config.library =
      state.sampler.exploring config.library := by
    rw [probabilities, if_neg (by simpa using hne), hbalance,
      frontierProbabilities, enforceMasteryFrontier,
      if_pos (by simp [hdifficulty]), enforceCapabilityFrontier,
      if_pos (by simp [hposteriors])]
  have hmass : probabilityOf (fun candidate => candidate.isHashNoise)
      (state.sampler.exploring config.library) state.sampler.candidates ≤ 1 := by
    refine (Probability.mass_le_sum fun entry hentry => ?_).trans_eq ?_
    · exact hdistributes.isDistribution.nonneg _ (of_mem_zip hentry).1
    · rw [map_fst_zip hdistributes.length_eq.le, hdistributes.isDistribution.sum_eq_one]
  rw [selectionProbabilities, hprobabilities, applySourceSelectionColdStart,
    if_pos (by simp [hcold]), applyProbabilityConstraints,
    if_neg (by simp [hdistributes.length_eq]), normalizeDistribution_eq_self hdistributes.isDistribution,
    hbalance, applySourceSelectionControl, hcontrol]
  have hpressure : applyDifficultyPressure (state.sampler.exploring config.library)
      state.sampler.candidates (max initial.difficultyPressure 0) =
      state.sampler.exploring config.library := by
    rw [applyDifficultyPressure, if_pos]
    simpa [initial] using floatEpsilon_pos.le
  have hcap : capHashNoise (state.sampler.exploring config.library) state.sampler.candidates
      (clamp initial.hashNoiseMaxProbability 0 1) =
      state.sampler.exploring config.library := by
    rw [capHashNoise, if_pos]
    simp [initial, clamp, hmass]
  rw [hpressure, hcap, normalizeSourceProbabilities,
    normalizeDistribution_eq_self hdistributes.isDistribution, ite_self]

end Plain

/-- The exploring softmax of two logits. -/
theorem exploring_pair {sampler : RuliadFrontierSampler ℝ} {x y : ℝ}
    (hlogits : sampler.logits realLibrary = [x, y]) (hfloor : sampler.config.explorationFloor = 0) :
    ∃ p q, sampler.exploring realLibrary = [p, q] ∧ 0 < p ∧ 0 < q ∧ p + q = 1 ∧ (1 / 2 ≤ p ↔ y ≤ x) := by
  have hx := Real.exp_pos (x - max x y)
  have hy := Real.exp_pos (y - max x y)
  have hpos := add_pos hx hy
  -- the greater logit has the weight one
  have hone : 1 ≤ Real.exp (x - max x y) + Real.exp (y - max x y) := by
    rcases max_choice x y with hmax | hmax <;> rw [hmax, sub_self, Real.exp_zero]
    · exact le_add_of_nonneg_right (Real.exp_pos _).le
    · exact le_add_of_nonneg_left (Real.exp_pos _).le
  have hsum : max (Real.exp (x - max x y) + Real.exp (y - max x y)) (1 / 10 ^ 12) =
      Real.exp (x - max x y) + Real.exp (y - max x y) :=
    max_eq_left (hone.trans' (by norm_num))
  refine ⟨Real.exp (x - max x y) / (Real.exp (x - max x y) + Real.exp (y - max x y)),
    Real.exp (y - max x y) / (Real.exp (x - max x y) + Real.exp (y - max x y)), ?_,
    div_pos hx hpos, div_pos hy hpos, ?_, ?_⟩
  · simp only [exploring, hlogits, hfloor]
    rw [show ([x, y] : List ℝ).max? = some (max x y) from rfl, Option.getD_some]
    simp only [realLibrary, map_cons, map_nil, sum_cons, sum_nil, add_zero, hsum]
    simp [clamp]
  · rw [← add_div, div_self hpos.ne']
  · rw [div_le_div_iff₀ two_pos hpos, one_mul]
    constructor
    · intro h
      have hle : Real.exp (y - max x y) ≤ Real.exp (x - max x y) := by linarith
      exact sub_le_sub_iff_right _ |>.1 (Real.exp_le_exp.1 hle)
    · intro h
      have hle : Real.exp (y - max x y) ≤ Real.exp (x - max x y) :=
        Real.exp_le_exp.2 (sub_le_sub_right h _)
      linarith

/-- The draw of one half picks the first of two buckets exactly if its logit is the greater. -/
theorem drawBucket_pair {config : LiveSourceSelection ℝ} {state : LiveSourceSelectionState ℝ}
    {first second : RuliadSamplerCandidate ℝ} {x y : ℝ}
    (hcandidates : state.sampler.candidates = [first, second])
    (hprobabilities : ∀ step, state.selectionProbabilities config step =
      state.sampler.exploring realLibrary)
    (hlogits : state.sampler.logits realLibrary = [x, y])
    (hfloor : state.sampler.config.explorationFloor = 0)
    (hdraw : ∀ epochIndex step count, config.draw epochIndex step count = 1 / 2)
    (epochIndex step : ℕ) :
    state.drawBucket config (fun _ => true) epochIndex step =
      some (if y ≤ x then first.oracleHash else second.oracleHash) := by
  obtain ⟨p, q, hpair, hp, hq, hsum, hhalf⟩ := exploring_pair hlogits hfloor
  have hweights : state.weightedBucketLabels config step =
      [(first.oracleHash, p), (second.oracleHash, q)] := by
    rw [weightedBucketLabels, hprobabilities, hpair, hcandidates]
    simp [hp, hq]
  have hmax : max (1 : ℝ) (1 / 10 ^ 12) = 1 := max_eq_left (by norm_num)
  simp only [drawBucket, hweights, filter_true, map_cons, map_nil, sum_cons,
    sum_nil, add_zero, hdraw, hmax, mul_one, pickBucket, zero_add, hsum, hhalf]
  rw [if_pos (by norm_num : (1 : ℝ) / 2 ≤ 1)]
  split_ifs <;> rfl

end LiveSourceSelectionState

/-! ## A report between two chunks -/

open scoped Rust.Instances in
/-- Nothing but the losses and the priors decides. -/
noncomputable def pairConfig : LiveSourceSelection ℝ where
  library := realLibrary
  samplerConfig :=
    { temperature := 1 / 100
      explorationFloor := 0
      targetLoss := 2
      hashNoisePenalty := 4
      masteryEscapeWeight := 0
      masteryEscapeThreshold := 70 / 100
      masteryMinNormalizedDifficulty := 90 / 100
      masteryMinMaxDifficultyProbability := 35 / 100
      masteryHashNoiseMaxProbability := 1 / 100
      maxAnswerContractProbability := 1
      minAnswerContractProbability := 0
      capabilityFrontierMaxAhead := 1
      capabilityFrontierMaxUnverifiedProbability := 8 / 100
      capabilityRemediationWeight := 75 / 100
      capabilityFrontierMinCoverage := 1
      capabilityMastery := ⟨16, 1, 50 / 100, 75 / 100, 25 / 100, 5 / 100, 5 / 100⟩ }
  coldStart := ⟨false, 0, 0, 0, false, 0, 0, 0, 0, 0, 0⟩
  frontierExtension := ⟨false, 1, 0, 0, 0⟩
  feedbackUpdatesEnabled := true
  pendingLimit := 4096
  configuredMin := 0
  candidatesForDifficulty _ := []
  matchesLabel _ _ := false
  draw _ _ _ := 1 / 2

def pairCandidate (oracleHash : String) (prior loss : ℝ) : RuliadSamplerCandidate ℝ where
  oracleHash := oracleHash
  family := ""
  taskKind := ""
  answerContract := ""
  difficultyLevel := 0
  prior := prior
  cost := 1
  lossEma := loss
  previousLossEma := loss
  gradientAlignment := 0
  isHashNoise := false
  capabilityFeedbackCount := 0
  capabilityVerifierEma := 0
  capabilityPartialEma := 0
  capabilityCompletionHealthEma := 0
  capabilitySchemaWrongEma := 0
  capabilityMalformedEma := 0
  capabilityMissingEma := 0
  difficultyLevel_le := Nat.zero_le _

open scoped Rust.Instances in
/-- Two buckets, of which the first has the greater prior and the given loss. -/
noncomputable def pairState (loss : ℝ) (pending : BTreeMap ℕ String) : LiveSourceSelectionState ℝ where
  sampler := .start pairConfig.samplerConfig [pairCandidate "a" 2 loss, pairCandidate "b" 1 0]
  frontierExtensionCount := 0
  absoluteStepOffset := 0
  pending := pending
  control := .initial

theorem utility_pairCandidate (oracleHash : String) (prior loss : ℝ) :
    (pairCandidate oracleHash prior loss).utility pairConfig.samplerConfig =
      1 / (1 + |loss - 2|) := by
  have hcost : max (pairCandidate oracleHash prior loss).cost (1 / 10 ^ 6) = 1 :=
    max_eq_left (by norm_num [pairCandidate])
  rw [utility, hcost]
  simp [pairCandidate, capabilityRemediationUtility, difficultyGate, pairConfig]

theorem logits_pairState (loss : ℝ) (pending : BTreeMap ℕ String) :
    (pairState loss pending).sampler.logits realLibrary =
      [Real.log 2 + 1 / (1 + |loss - 2|) / (1 / 100),
        Real.log 1 + 1 / (1 + |(0 : ℝ) - 2|) / (1 / 100)] := by
  have htwo : max (2 : ℝ) (1 / 10 ^ 9) = 2 := max_eq_left (by norm_num)
  have hone : max (1 : ℝ) (1 / 10 ^ 9) = 1 := max_eq_left (by norm_num)
  have htemperature : max pairConfig.samplerConfig.temperature (1 / 10 ^ 6) = 1 / 100 :=
    max_eq_left (by norm_num [pairConfig])
  have hescape : max pairConfig.samplerConfig.masteryEscapeWeight 0 = 0 := max_self 0
  simp only [logits, pairState, start, htemperature, hescape,
    mul_zero, zero_mul, add_zero, map_cons, map_nil, utility_pairCandidate]
  simp only [pairCandidate, htwo, hone]
  rfl

/-- The first bucket is drawn until its loss is far from the target. -/
theorem drawBucket_pairState (loss : ℝ) (pending : BTreeMap ℕ String) (epochIndex step : ℕ) :
    (pairState loss pending).drawBucket pairConfig (fun _ => true) epochIndex step =
      some (if 100 / 3 ≤ Real.log 2 + 100 / (1 + |loss - 2|) then "a" else "b") := by
  have hprobabilities : ∀ absoluteStep,
      (pairState loss pending).selectionProbabilities pairConfig absoluteStep =
        (pairState loss pending).sampler.exploring realLibrary :=
    LiveSourceSelectionState.selectionProbabilities_eq_exploring realLibrary_lawful
      (cons_ne_nil _ _) rfl rfl (Nat.zero_le 1) rfl rfl
  have hfirst : Real.log 2 + 1 / (1 + |loss - 2|) / (1 / 100) =
      Real.log 2 + 100 / (1 + |loss - 2|) := by rw [div_div_eq_mul_div, div_one, div_mul_eq_mul_div,
        one_mul]
  have hsecond : Real.log 1 + 1 / (1 + |(0 : ℝ) - 2|) / (1 / 100) = 100 / 3 := by norm_num
  have hlogits := logits_pairState loss pending
  rw [hfirst, hsecond] at hlogits
  exact LiveSourceSelectionState.drawBucket_pair rfl hprobabilities hlogits rfl (fun _ _ _ => rfl)
    epochIndex step

theorem drawBucket_near (pending : BTreeMap ℕ String) (epochIndex step : ℕ) :
    (pairState 0 pending).drawBucket pairConfig (fun _ => true) epochIndex step = some "a" := by
  rw [drawBucket_pairState, if_pos]
  have hlog := Real.log_nonneg (show (1 : ℝ) ≤ 2 by norm_num)
  norm_num
  exact hlog

theorem drawBucket_far (pending : BTreeMap ℕ String) (epochIndex step : ℕ) :
    (pairState 10 pending).drawBucket pairConfig (fun _ => true) epochIndex step = some "b" := by
  rw [drawBucket_pairState, if_neg]
  have hlog := Real.log_le_sub_one_of_pos (show (0 : ℝ) < 2 by norm_num)
  norm_num at hlog ⊢
  linarith

def pairCorpus : SourceCorpus where
  eosId := none
  document _ _ _ _ _ := []
  document_length _ _ _ _ _ := Nat.zero_le _
  documentsPerStep _ := 1
  documentDraw _ _ _ _ _ := 0
  answerDraw _ _ _ _ _ := 0

/-- A chunk of the document that is selected at step 0. -/
def chunkRequest (chunkIndex : ℕ) : RuliadStreamWindowRequest where
  window := ⟨.train, 0, chunkIndex, 1, 4, false⟩
  chunkIndexInDocument := chunkIndex

theorem selects_chunkRequest (chunkIndex : ℕ) : (chunkRequest chunkIndex).Selects .train 0 0 :=
  ⟨rfl, rfl, by simp [RuliadStreamWindowRequest.selectionStep, chunkRequest]⟩

theorem maybeExtendFrontier_pairConfig (state : LiveSourceSelectionState ℝ) :
    state.maybeExtendFrontier pairConfig = state :=
  LiveSourceSelectionState.maybeExtendFrontier_eq_self rfl

theorem recordTelemetry_pairState (pending : BTreeMap ℕ String) :
    (pairState 0 pending).sampler.recordTelemetry (LiveSourceSelectionState.lossTelemetry "a" 10) =
      (pairState 10 pending).sampler := by
  have hcandidate : (pairCandidate "a" 2 0).recordTelemetry
      (LiveSourceSelectionState.lossTelemetry "a" 10) = pairCandidate "a" 2 10 := by
    have hcost : max (1 : ℝ) (1 / 10 ^ 6) = 1 := max_eq_left (by norm_num)
    have hloss : (0 : ℝ) ≤ floatEpsilon ℝ := floatEpsilon_pos.le
    simp only [RuliadSamplerCandidate.recordTelemetry, LiveSourceSelectionState.lossTelemetry,
      pairCandidate, hcost, hloss, if_true]
    norm_num
  change ({ (pairState 0 pending).sampler with
    candidates := [(pairCandidate "a" 2 0).recordTelemetry
      (LiveSourceSelectionState.lossTelemetry "a" 10), pairCandidate "b" 1 0] } :
        RuliadFrontierSampler ℝ) = _
  rw [hcandidate]
  rfl

/-- The report of a great loss takes its step out of the table, and the first bucket is no longer drawn. -/
theorem recordLoss_pairState {pending : BTreeMap ℕ String} {step : ℕ}
    (h : pending.get? step = some "a") :
    (pairState 0 pending).recordLoss pairConfig step 10 = pairState 10 (pending.remove step) := by
  rw [LiveSourceSelectionState.recordLoss, if_neg (by simp [pairConfig])]
  simp only [maybeExtendFrontier_pairConfig, show (pairState 0 pending).pending = pending from rfl, h,
    LiveSourceSelectionState.credit, recordTelemetry_pairState]
  rfl

/-- A chunk request of the selection step. -/
theorem answer_chunkRequest {loss : ℝ} {pending : BTreeMap ℕ String} {label : String} (chunkIndex : ℕ)
    (h : (pairState loss pending).drawBucket pairConfig (fun _ => true) 0 0 = some label) :
    ∃ reply, reply.bucket = some label ∧
      (pairState loss pending).answer pairConfig pairCorpus
          (.streamTokenWindows (chunkRequest chunkIndex)) =
        (reply, pairState loss
          (LiveSourceSelectionState.pendingWith pairConfig pending chunkIndex label)) := by
  have hstep := (selects_chunkRequest chunkIndex).selectionStep_eq
  have hchosen := fun pendingStep => LiveSourceSelectionState.chooseBucket_of_static
    (maybeExtendFrontier_pairConfig _) h pendingStep
  refine ⟨_, ?_, (Prod.eta _).symm.trans (congrArg (Prod.mk _) ?_)⟩
  · rw [LiveSourceSelectionState.answer,
      LiveSourceSelectionState.sourceSelectedStreamTokenWindows_bucket, hstep]
    exact congrArg Prod.fst (hchosen 0)
  · rw [LiveSourceSelectionState.answer,
      LiveSourceSelectionState.sourceSelectedStreamTokenWindows_snd rfl, hstep]
    exact congrArg Prod.snd (hchosen chunkIndex)

/-- Without a report both chunks come from the first bucket. -/
theorem stream_keeps_documents_pairState :
    StreamKeepsDocuments pairCorpus (sourceTrace pairConfig pairCorpus (pairState 0 .empty)
      [.streamTokenWindows (chunkRequest 0), .streamTokenWindows (chunkRequest 1)]) := by
  refine stream_keeps_documents _ _ _ _ (settledBetweenChunks_of_quiet fun request hmem => ?_)
  simp only [List.mem_cons, List.not_mem_nil, or_false] at hmem
  rcases hmem with rfl | rfl <;> rfl

/-- **A loss report between two chunks changes the document.** The first chunk comes from the first bucket.
Its loss is reported, and the second chunk of the same selection step comes from the other bucket. -/
theorem report_between_chunks_changes_documents :
    LiveSourceSelectionState.Started pairConfig (pairState 0 .empty) ∧
    ¬StreamKeepsDocuments pairCorpus (sourceTrace pairConfig pairCorpus (pairState 0 .empty)
      [.streamTokenWindows (chunkRequest 0), .recordLoss 0 10,
        .streamTokenWindows (chunkRequest 1)]) := by
  have hstart : LiveSourceSelectionState.start pairConfig
      [pairCandidate "a" 2 0, pairCandidate "b" 1 0] = some (pairState 0 .empty) := rfl
  refine ⟨.start hstart, fun h => ?_⟩
  obtain ⟨reply, hreply, hfirst⟩ := answer_chunkRequest 0 (drawBucket_near .empty 0 0)
  obtain ⟨reply', hreply', hlast⟩ := answer_chunkRequest 1 (drawBucket_far
    ((LiveSourceSelectionState.pendingWith pairConfig .empty 0 "a").remove 0) 0 0)
  have hreport := recordLoss_pairState
    (show (LiveSourceSelectionState.pendingWith pairConfig .empty 0 "a").get? 0 = some "a" from rfl)
  obtain ⟨served, hserves, -⟩ := h .train 0 0
  simp only [sourceTrace, trace, hfirst, List.forall_mem_cons] at hserves
  have hbucket := (hserves.1 _ rfl (selects_chunkRequest 0)).bucket_eq
  have hreportStep : ((pairState 0 (LiveSourceSelectionState.pendingWith pairConfig .empty 0 "a")).answer
      pairConfig pairCorpus (.recordLoss 0 10)).2 = pairState 10
        ((LiveSourceSelectionState.pendingWith pairConfig .empty 0 "a").remove 0) := hreport
  rw [hreportStep, hlast] at hserves
  have hbucket' := (hserves.2.2.1 _ rfl (selects_chunkRequest 1)).bucket_eq
  rw [hreply] at hbucket
  rw [hreply', ← hbucket] at hbucket'
  exact absurd hbucket' (by simp)

end BurnDragon.Dataset
