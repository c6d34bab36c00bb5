import BurnDragon.Dataset.SourceStream

/-!
# The credit of a loss report

A loss report updates the candidate of the bucket that is pending for its step. This is the bucket from
which the training window of the step was served, and it is updated at most once, in every run in which a
request enters no other bucket than the one that is served (`losses_credited`). A policy batch, which
chooses a bucket for its step and enters it as a window does, may do otherwise.
-/

namespace BurnDragon.Dataset

open Rust Ruliad Corpus Transition List Option RuliadFrontierSampler

variable {K : Type} [Field K] [LinearOrder K]

/-! ## What a request enters -/

namespace SourceRequest

/-- The step of which the training window is served. -/
def trainingStep : SourceRequest K → Option ℕ
  | .tokenWindows request => if request.split = .train then some request.absoluteStep else none
  | .streamTokenWindows request =>
    if request.window.split = .train then some request.window.absoluteStep else none
  | .documentIndices split _ absoluteStep _ _ => if split = .train then some absoluteStep else none
  | _ => none

/-- The step for which the chosen bucket becomes pending. -/
def pendingStep : SourceRequest K → Option ℕ
  | .policyBatch split _ absoluteStep _ _ => if split = .train then some absoluteStep else none
  | request => request.trainingStep

def IsReport (request : SourceRequest K) (step : ℕ) : Prop := ∃ loss, request = .recordLoss step loss

theorem pendingStep_of_trainingStep {request : SourceRequest K} {step : ℕ}
    (h : request.trainingStep = some step) : request.pendingStep = some step := by
  cases request with
  | policyBatch => cases h
  | _ => exact h

end SourceRequest

variable {config : LiveSourceSelection K} {corpus : SourceCorpus}
  {state : LiveSourceSelectionState K} {pending : BTreeMap ℕ String}

namespace LiveSourceSelectionState

variable {step key : ℕ} {label : String}

/-- The pending table after a choice. -/
def entered (config : LiveSourceSelection K) (pending : BTreeMap ℕ String) :
    Option String → Option ℕ → BTreeMap ℕ String
  | some label, some step => pendingWith config pending step label
  | _, _ => pending

theorem chooseBucket_pending (keep : String → Bool) (epochIndex absoluteStep : ℕ)
    (pendingStep : Option ℕ) :
    (state.chooseBucket config keep epochIndex absoluteStep pendingStep).2.pending =
      entered config state.pending
        (state.chooseBucket config keep epochIndex absoluteStep pendingStep).1 pendingStep := by
  simp only [chooseBucket]
  cases (state.maybeExtendFrontier config).drawBucket config keep epochIndex absoluteStep <;>
    cases pendingStep <;> rfl

theorem chooseForSplit_pending (split : SampleSplit) (epochIndex absoluteStep : ℕ) :
    (state.chooseForSplit config split epochIndex absoluteStep).2.pending =
      entered config state.pending (state.chooseForSplit config split epochIndex absoluteStep).1
        (if split = .train then some absoluteStep else none) := by
  cases split with
  | train => exact chooseBucket_pending _ _ _ _
  | validation => exact chooseBucket_pending _ _ _ _

/-- **What a request does to the pending table**, other than a loss report. -/
theorem answer_pending {request : SourceRequest K} (h : ∀ step, ¬request.IsReport step) :
    (state.answer config corpus request).2.pending =
      entered config state.pending (state.answer config corpus request).1.bucket
        request.pendingStep := by
  cases request with
  | tokenWindows request =>
    simp only [answer, sourceSelectedTokenWindows]
    refine (chooseForSplit_pending ..).trans ?_
    generalize state.chooseForSplit config _ _ _ = chosen
    cases chosen.1 <;> rfl
  | streamTokenWindows request =>
    have hchosen : (state.sourceSelectedStreamTokenWindows config corpus request).2.pending =
        entered config state.pending
          (state.streamBucket config request.window.epochIndex request.selectionStep)
          (if request.window.split = .train then some request.window.absoluteStep else none) := by
      simp only [sourceSelectedStreamTokenWindows]
      cases request.window.split with
      | train => exact chooseBucket_pending _ _ _ _
      | validation => exact chooseBucket_pending _ _ _ _
    rw [answer, hchosen, sourceSelectedStreamTokenWindows_bucket]
    rfl
  | documentIndices split epochIndex absoluteStep batchSize documentsByBucket =>
    simp only [answer, sourceSelectedDocumentIndices]
    split_ifs with hnone
    · rfl
    · have htrain : split = .train := by
        simp only [Bool.or_eq_true, not_or, decide_eq_true_eq, not_not] at hnone
        exact hnone.1
      have hstep : (SourceRequest.documentIndices split epochIndex absoluteStep batchSize
          documentsByBucket : SourceRequest K).pendingStep = some absoluteStep := if_pos htrain
      refine (chooseBucket_pending _ _ _ _).trans ?_
      rw [hstep]
      unfold chooseBucketForStep
      generalize state.chooseBucket config _ _ _ _ = chosen
      cases chosen.1 <;> rfl
  | policyBatch split epochIndex absoluteStep batchSize levels =>
    simp only [answer, sourceSelectedRuliadPolicyBatch]
    refine (chooseForSplit_pending ..).trans ?_
    generalize state.chooseForSplit config _ _ _ = chosen
    cases chosen.1 <;> rfl
  | recordLoss absoluteStep loss => exact absurd ⟨loss, rfl⟩ (h absoluteStep)
  | recordCapabilityFeedback feedback =>
    simp only [answer, recordCapabilityFeedbackBatch]
    split <;> rfl
  | applyDynamicsControl difficultyPressure hashNoiseMaxProbability =>
    simp only [answer, applyDynamicsControl]
    split <;> rfl
  | snapshot => rfl
  | exportState absoluteStepOffset => rfl

/-! ### The entries -/

theorem get?_of_get?_foldl_remove {keys : List ℕ}
    (h : (keys.foldl .remove pending).get? key = some label) : pending.get? key = some label := by
  induction keys generalizing pending with
  | nil => exact h
  | cons removed keys ih => exact BTreeMap.get?_of_get?_remove (ih h)

/-- An entry after a choice was entered by it or was there before. -/
theorem get?_entered {bucket : Option String} {pendingStep : Option ℕ}
    (h : (entered config pending bucket pendingStep).get? step = some label) :
    bucket = some label ∧ pendingStep = some step ∨ pending.get? step = some label := by
  unfold entered at h
  split at h
  case h_1 chosen enteredStep =>
    rw [pendingWith] at h
    split_ifs at h
    · exact .inr h
    · rcases BTreeMap.get?_insert_eq_some (get?_of_get?_foldl_remove h) with ⟨rfl, rfl⟩ | hbefore
      · exact .inl ⟨rfl, rfl⟩
      · exact .inr hbefore
  case h_2 => exact .inr h

/-- The entry of the step that a choice is for is the chosen bucket. -/
theorem get?_entered_self (hfeedback : config.feedbackUpdatesEnabled = true) {chosen : String}
    (h : (entered config pending (some chosen) (some step)).get? step = some label) :
    label = chosen := by
  rw [entered, pendingWith, if_neg (by simp [hfeedback])] at h
  have hinserted := get?_of_get?_foldl_remove h
  rw [BTreeMap.get?_insert_self] at hinserted
  exact (some.inj hinserted).symm

end LiveSourceSelectionState

/-! ## Candidates -/

/-- Nothing but the answer contract differs. -/
def SameStatistics (candidate candidate' : RuliadSamplerCandidate K) : Prop :=
  candidate' = { candidate with answerContract := candidate'.answerContract }

theorem SameStatistics.refl (candidate : RuliadSamplerCandidate K) :
    SameStatistics candidate candidate := rfl

theorem SameStatistics.trans {a b c : RuliadSamplerCandidate K} (hab : SameStatistics a b)
    (hbc : SameStatistics b c) : SameStatistics a c := by
  rw [SameStatistics] at hab hbc ⊢
  rw [hbc, hab]

/-- The same candidate, with other statistics. -/
def SameBucket (candidate candidate' : RuliadSamplerCandidate K) : Prop :=
  candidate'.oracleHash = candidate.oracleHash

theorem SameStatistics.sameBucket {candidate candidate' : RuliadSamplerCandidate K}
    (h : SameStatistics candidate candidate') : SameBucket candidate candidate' := by
  rw [SameStatistics] at h
  rw [SameBucket, h]

/-- Every candidate has a successor at its place. -/
def CandidatesKept (R : RuliadSamplerCandidate K → RuliadSamplerCandidate K → Prop)
    (sampler sampler' : RuliadFrontierSampler K) : Prop :=
  ∀ (index : ℕ) candidate, sampler.candidates[index]? = some candidate →
    ∃ candidate', sampler'.candidates[index]? = some candidate' ∧ R candidate candidate'

/-- The bucket is one of the candidates. -/
def Known (sampler : RuliadFrontierSampler K) (label : String) : Prop :=
  ∃ candidate ∈ sampler.candidates, candidate.oracleHash = label

variable {sampler : RuliadFrontierSampler K} {label : String}

theorem Known.kept {sampler' : RuliadFrontierSampler K} (h : Known sampler label)
    (hkept : CandidatesKept SameBucket sampler sampler') : Known sampler' label := by
  obtain ⟨candidate, hmem, rfl⟩ := h
  obtain ⟨index, hindex⟩ := getElem?_of_mem hmem
  obtain ⟨candidate', hcandidate', hhash⟩ := hkept index candidate hindex
  exact ⟨candidate', mem_of_getElem? hcandidate', hhash⟩

theorem Known.exists_findIdx? (h : Known sampler label) :
    ∃ index, sampler.candidates.findIdx? (fun candidate => candidate.oracleHash = label) = some index := by
  obtain ⟨candidate, hmem, hhash⟩ := h
  refine ne_none_iff_exists'.1 fun hnone => ?_
  have hfalse := findIdx?_eq_none_iff.1 hnone candidate hmem
  simp [hhash] at hfalse

/-- Added candidates change no statistics. -/
theorem candidatesKept_addCandidate (sampler : RuliadFrontierSampler K)
    (added : RuliadSamplerCandidate K) :
    CandidatesKept SameStatistics sampler (sampler.addCandidate added) := by
  intro index candidate hcandidate
  unfold addCandidate
  split
  case h_1 found hfound =>
    split_ifs
    · exact ⟨candidate, hcandidate, .refl candidate⟩
    · rw [getElem?_modify, hcandidate]
      refine ⟨_, rfl, ?_⟩
      split_ifs
      · rfl
      · exact .refl candidate
  case h_2 =>
    have hlt := (List.getElem?_eq_some_iff.1 hcandidate).1
    exact ⟨candidate, (getElem?_append_left hlt).trans hcandidate, .refl candidate⟩

theorem candidatesKept_foldl_addCandidate (sampler : RuliadFrontierSampler K)
    (added : List (RuliadSamplerCandidate K)) :
    CandidatesKept SameStatistics sampler (added.foldl .addCandidate sampler) := by
  induction added generalizing sampler with
  | nil => exact fun index candidate h => ⟨candidate, h, .refl candidate⟩
  | cons first added ih =>
    intro index candidate h
    obtain ⟨candidate', h', hsame⟩ := candidatesKept_addCandidate sampler first index candidate h
    obtain ⟨candidate'', h'', hsame'⟩ := ih _ index candidate' h'
    exact ⟨candidate'', h'', hsame.trans hsame'⟩

/-- A loss report updates the first candidate of its bucket. -/
theorem getElem?_recordTelemetry {loss : K} {found : ℕ}
    (hfound : sampler.candidates.findIdx? (fun candidate => candidate.oracleHash = label) = some
      found) {index : ℕ} {candidate : RuliadSamplerCandidate K}
    (h : sampler.candidates[index]? = some candidate) :
    (sampler.recordTelemetry (LiveSourceSelectionState.lossTelemetry label loss)).candidates[index]? =
      some (if index = found then
        candidate.recordTelemetry (LiveSourceSelectionState.lossTelemetry label loss)
      else candidate) := by
  have haccepted : (LiveSourceSelectionState.lossTelemetry label loss).accepted = true := rfl
  rw [recordTelemetry, if_neg (by simp [haccepted])]
  simp only [show (LiveSourceSelectionState.lossTelemetry label loss).oracleHash = label from rfl,
    hfound, getElem?_modify, h]
  split_ifs with heq heq' heq'
  · rfl
  · exact absurd heq.symm heq'
  · exact absurd heq'.symm heq
  · rfl

theorem CandidatesKept.trans {R : RuliadSamplerCandidate K → RuliadSamplerCandidate K → Prop}
    (hR : ∀ a b c, R a b → R b c → R a c) {sampler' sampler'' : RuliadFrontierSampler K}
    (h : CandidatesKept R sampler sampler') (h' : CandidatesKept R sampler' sampler'') :
    CandidatesKept R sampler sampler'' := by
  intro index candidate hindex
  obtain ⟨candidate', hcandidate', hR'⟩ := h index candidate hindex
  obtain ⟨candidate'', hcandidate'', hR''⟩ := h' index candidate' hcandidate'
  exact ⟨candidate'', hcandidate'', hR _ _ _ hR' hR''⟩

theorem SameBucket.trans (a b c : RuliadSamplerCandidate K) (hab : SameBucket a b)
    (hbc : SameBucket b c) : SameBucket a c := Eq.trans hbc hab

theorem candidatesKept_recordCapabilityFeedback
    (matchesLabel : RuliadSamplerCandidate K → String → Bool) (sampler : RuliadFrontierSampler K)
    (feedback : RuliadCapabilityFeedback K) :
    CandidatesKept SameBucket sampler (sampler.recordCapabilityFeedback matchesLabel feedback) := by
  intro index candidate h
  have hrecord : ∀ matched : Bool, SameBucket candidate
      (if matched then candidate.recordFeedback feedback else candidate) := fun matched => by
    cases matched <;> rfl
  have hpromote : ∀ (matched : Bool) (recorded : RuliadSamplerCandidate K) (loss alignment weight : K),
      SameBucket recorded (if matched then recorded.promote loss alignment weight else recorded) :=
    fun matched recorded loss alignment weight => by
      cases matched
      · rfl
      · simp only [if_true, RuliadSamplerCandidate.promote]
        split_ifs <;> rfl
  unfold recordCapabilityFeedback
  simp only
  split_ifs
  · exact ⟨candidate, h, rfl⟩
  · exact ⟨_, by rw [getElem?_map, h]; rfl, hrecord _⟩
  · exact ⟨_, by rw [getElem?_map, getElem?_map, h]; rfl,
      SameBucket.trans _ _ _ (hrecord _) (hpromote _ _ _ _ _)⟩

theorem sameBucket_recordTelemetry (sampler : RuliadFrontierSampler K)
    (telemetry : RuliadSampleTelemetry K) :
    CandidatesKept SameBucket sampler (sampler.recordTelemetry telemetry) := by
  intro index candidate h
  unfold recordTelemetry
  split_ifs
  · exact ⟨candidate, h, rfl⟩
  split
  case h_1 found hfound =>
    rw [getElem?_modify, h]
    exact ⟨_, rfl, by split_ifs <;> rfl⟩
  case h_2 => exact ⟨candidate, h, rfl⟩

theorem CandidatesKept.refl (sampler : RuliadFrontierSampler K) :
    CandidatesKept SameBucket sampler sampler := fun _ candidate h => ⟨candidate, h, rfl⟩

namespace LiveSourceSelectionState

theorem candidatesKept_maybeExtendFrontier (config : LiveSourceSelection K)
    (state : LiveSourceSelectionState K) :
    CandidatesKept SameStatistics state.sampler (state.maybeExtendFrontier config).sampler :=
  candidatesKept_foldl_addCandidate _ _

theorem sameBucket_maybeExtendFrontier (config : LiveSourceSelection K)
    (state : LiveSourceSelectionState K) :
    CandidatesKept SameBucket state.sampler (state.maybeExtendFrontier config).sampler :=
  fun index candidate h => by
    obtain ⟨candidate', h', hsame⟩ := candidatesKept_maybeExtendFrontier config state index candidate h
    exact ⟨candidate', h', hsame.sameBucket⟩

theorem chooseBucket_sampler (keep : String → Bool) (epochIndex absoluteStep : ℕ)
    (pendingStep : Option ℕ) :
    (state.chooseBucket config keep epochIndex absoluteStep pendingStep).2.sampler =
      (state.maybeExtendFrontier config).sampler := by
  simp only [chooseBucket]
  cases (state.maybeExtendFrontier config).drawBucket config keep epochIndex absoluteStep <;>
    cases pendingStep <;> rfl

theorem sameBucket_chooseBucket (keep : String → Bool) (epochIndex absoluteStep : ℕ)
    (pendingStep : Option ℕ) :
    CandidatesKept SameBucket state.sampler
      (state.chooseBucket config keep epochIndex absoluteStep pendingStep).2.sampler := by
  rw [chooseBucket_sampler]
  exact sameBucket_maybeExtendFrontier config state

theorem sameBucket_recordLoss (absoluteStep : ℕ) (loss : K) :
    CandidatesKept SameBucket state.sampler (state.recordLoss config absoluteStep loss).sampler := by
  unfold recordLoss
  split_ifs
  · exact sameBucket_maybeExtendFrontier config state
  split
  case h_1 => exact .refl _
  case h_2 label _ =>
    exact (sameBucket_recordTelemetry state.sampler (lossTelemetry label loss)).trans SameBucket.trans
      (sameBucket_maybeExtendFrontier config (state.credit absoluteStep label loss))

theorem sameBucket_recordCapabilityFeedbackBatch (feedback : List (RuliadCapabilityFeedback K)) :
    CandidatesKept SameBucket state.sampler
      (state.recordCapabilityFeedbackBatch config feedback).sampler := by
  have hbatch : ∀ sampler : RuliadFrontierSampler K, CandidatesKept SameBucket sampler
      (feedback.foldl (.recordCapabilityFeedback config.matchesLabel) sampler) := by
    induction feedback with
    | nil => exact fun sampler => .refl sampler
    | cons first feedback ih =>
      exact fun sampler => (candidatesKept_recordCapabilityFeedback config.matchesLabel sampler first).trans
        SameBucket.trans (ih _)
  unfold recordCapabilityFeedbackBatch
  split_ifs
  · exact sameBucket_maybeExtendFrontier config state
  · exact (hbatch state.sampler).trans SameBucket.trans
      (sameBucket_maybeExtendFrontier config (state.recordFeedback config feedback))

/-- No request removes a bucket. -/
theorem sameBucket_answer (request : SourceRequest K) :
    CandidatesKept SameBucket state.sampler (state.answer config corpus request).2.sampler := by
  cases request with
  | tokenWindows request =>
    simp only [answer, sourceSelectedTokenWindows, chooseForSplit]
    cases request.split <;> exact sameBucket_chooseBucket _ _ _ _
  | streamTokenWindows request =>
    simp only [answer, sourceSelectedStreamTokenWindows]
    cases request.window.split <;> exact sameBucket_chooseBucket _ _ _ _
  | documentIndices split epochIndex absoluteStep batchSize documentsByBucket =>
    simp only [answer, sourceSelectedDocumentIndices]
    split_ifs
    · exact .refl _
    · exact sameBucket_chooseBucket _ _ _ _
  | policyBatch split epochIndex absoluteStep batchSize levels =>
    simp only [answer, sourceSelectedRuliadPolicyBatch, chooseForSplit]
    cases split <;> exact sameBucket_chooseBucket _ _ _ _
  | recordLoss absoluteStep loss => exact sameBucket_recordLoss absoluteStep loss
  | recordCapabilityFeedback feedback => exact sameBucket_recordCapabilityFeedbackBatch feedback
  | applyDynamicsControl difficultyPressure hashNoiseMaxProbability =>
    simp only [answer, applyDynamicsControl]
    split_ifs <;> exact .refl _
  | snapshot => exact sameBucket_maybeExtendFrontier config state
  | exportState absoluteStepOffset => exact .refl _

/-! ### The bucket of a choice is known -/

variable {label : String}

theorem mem_of_pickBucket {ticket cumulative : K} {weighted : List (String × K)}
    (h : pickBucket ticket cumulative weighted = some label) : label ∈ weighted.map Prod.fst := by
  induction weighted generalizing cumulative with
  | nil => cases h
  | cons entry weighted ih =>
    rw [pickBucket] at h
    split_ifs at h
    · exact mem_map.2 ⟨entry, mem_cons_self .., some.inj h⟩
    · exact mem_cons_of_mem _ (ih h)

variable {epochIndex absoluteStep : ℕ}

theorem known_of_drawBucket {keep : String → Bool}
    (h : state.drawBucket config keep epochIndex absoluteStep = some label) :
    Known state.sampler label := by
  obtain ⟨entry, hentry, rfl⟩ := mem_map.1 (mem_of_pickBucket h)
  have hweighted := (mem_filter.1 hentry).1
  rw [weightedBucketLabels, ← map_uncurry_zip_eq_zipWith] at hweighted
  obtain ⟨pair, hpair, rfl⟩ := mem_map.1 hweighted
  exact ⟨pair.1, (of_mem_zip hpair).1, rfl⟩

theorem known_of_chooseBucket {keep : String → Bool} {pendingStep : Option ℕ}
    (h : (state.chooseBucket config keep epochIndex absoluteStep pendingStep).1 = some label) :
    Known (state.chooseBucket config keep epochIndex absoluteStep pendingStep).2.sampler label := by
  rw [chooseBucket_sampler]
  exact known_of_drawBucket h

theorem known_of_chooseForSplit {split : SampleSplit}
    (h : (state.chooseForSplit config split epochIndex absoluteStep).1 = some label) :
    Known (state.chooseForSplit config split epochIndex absoluteStep).2.sampler label := by
  cases split with
  | train => exact known_of_chooseBucket h
  | validation => exact known_of_chooseBucket h

/-- The bucket of a reply is one of the candidates. -/
theorem known_of_answer {request : SourceRequest K}
    (h : (state.answer config corpus request).1.bucket = some label) :
    Known (state.answer config corpus request).2.sampler label := by
  cases request with
  | tokenWindows request =>
    simp only [answer, sourceSelectedTokenWindows] at h ⊢
    refine known_of_chooseForSplit ?_
    generalize (state.chooseForSplit config _ _ _).1 = chosen at h
    cases chosen <;> exact h
  | streamTokenWindows request =>
    rw [answer, sourceSelectedStreamTokenWindows_bucket] at h
    simp only [answer, sourceSelectedStreamTokenWindows]
    cases request.window.split with
    | train => exact known_of_chooseBucket h
    | validation => exact known_of_chooseBucket h
  | documentIndices split epochIndex absoluteStep batchSize documentsByBucket =>
    simp only [answer, sourceSelectedDocumentIndices] at h ⊢
    split_ifs at h ⊢
    · cases h
    · refine known_of_chooseBucket ?_
      unfold chooseBucketForStep at h
      generalize (state.chooseBucket config _ _ _ _).1 = chosen at h
      cases chosen <;> exact h
  | policyBatch split epochIndex absoluteStep batchSize levels =>
    simp only [answer, sourceSelectedRuliadPolicyBatch] at h ⊢
    refine known_of_chooseForSplit ?_
    generalize state.chooseForSplit config _ _ _ = chosen at h ⊢
    cases hchosen : chosen.1 <;> rw [hchosen] at h <;> exact h
  | _ => cases h

/-- A loss report only removes the entry of its step. -/
theorem get?_recordLoss (hfeedback : config.feedbackUpdatesEnabled = true) (step : ℕ) (loss : K)
    (key : ℕ) : (state.recordLoss config step loss).pending.get? key =
      if key = step then none else state.pending.get? key := by
  rw [recordLoss, if_neg (by simp [hfeedback])]
  split
  case h_1 hnone =>
    split_ifs with hkey
    · rw [hkey, hnone]
    · rfl
  case h_2 label _ => exact BTreeMap.get?_remove _ _ _

end LiveSourceSelectionState

/-! ## Events -/

namespace SourceEvent

variable (event : SourceEvent K) (step : ℕ) (label : String)

/-- The event serves the training window of the step from the bucket. -/
def Serves : Prop := event.request.trainingStep = some step ∧ event.reply.bucket = some label

/-- The event enters the bucket for the step. -/
def Enters : Prop := event.request.pendingStep = some step ∧ event.reply.bucket = some label

/-- The event is a report of the step that finds its entry. -/
def Takes : Prop := event.request.IsReport step ∧ event.before.pending.get? step ≠ none

/-- The event removes the entry of the step for the limit. -/
def Evicts : Prop :=
  ∃ enteredStep entered, event.Enters enteredStep entered ∧
    (event.before.pending.insert enteredStep entered).get? step ≠ none ∧
    event.after.pending.get? step = none

end SourceEvent

/-- The report changes the statistics of the bucket, and no others. -/
structure Credits (label : String) (loss : K) (before after : LiveSourceSelectionState K) : Prop where
  exists_bucket : ∃ bucket,
    before.sampler.candidates.findIdx? (fun candidate => candidate.oracleHash = label) = some bucket ∧
    ∀ (index : ℕ) candidate, before.sampler.candidates[index]? = some candidate →
      ∃ candidate', after.sampler.candidates[index]? = some candidate' ∧
        SameStatistics (if index = bucket then
          candidate.recordTelemetry (LiveSourceSelectionState.lossTelemetry label loss)
        else candidate) candidate'
  posteriors_eq : after.sampler.capabilityPosteriors = before.sampler.capabilityPosteriors

/-- Why a report changes nothing: no feedback is used, the step was not served before, or its entry was
taken by a report or evicted. -/
def Uncredited (config : LiveSourceSelection K) (events : List (SourceEvent K)) (i step : ℕ) : Prop :=
  config.feedbackUpdatesEnabled = false ∨
  (∀ label, ¬Earlier events i fun earlier => SourceEvent.Serves earlier step label) ∨
  Earlier events i fun earlier => SourceEvent.Takes earlier step ∨ SourceEvent.Evicts earlier step

/-- Every loss report changes nothing, or it updates the bucket from which the training window of its step
was served, as the first report of the step that does so. -/
def LossesCredited (config : LiveSourceSelection K) (events : List (SourceEvent K)) : Prop :=
  ∀ (i : ℕ) (event : SourceEvent K) step loss, events[i]? = some event →
    event.request = .recordLoss step loss →
    event.after = event.before ∧ Uncredited config events i step ∨
    ∃ label, Credits label loss event.before event.after ∧
      (Earlier events i fun earlier => SourceEvent.Serves earlier step label) ∧
      (∀ label', (Earlier events i fun earlier => SourceEvent.Serves earlier step label') →
        label' = label) ∧
      ¬Earlier events i fun earlier => SourceEvent.Takes earlier step

/-- A request enters a bucket for a step only if the same bucket is pending for the step, or if it serves
the training window of the step and is the first to enter a bucket for it. -/
def EntersWhatIsServed (events : List (SourceEvent K)) : Prop :=
  ∀ (i : ℕ) (event : SourceEvent K) step label, events[i]? = some event → event.Enters step label →
    event.before.pending.get? step = some label ∨
    event.Serves step label ∧
      ∀ label', ¬Earlier events i fun earlier => SourceEvent.Enters earlier step label'

/-! ## What one event does -/

section Runs

variable {requests : List (SourceRequest K)} {event : SourceEvent K} {k step : ℕ} {label : String}

section

variable (h : (sourceTrace config corpus state requests)[k]? = some event)
include h

theorem after_of_sourceTrace :
    event.after = (event.before.answer config corpus event.request).2 :=
  (congrArg Prod.snd (trace_step h)).symm

theorem reply_of_sourceTrace :
    event.reply = (event.before.answer config corpus event.request).1 :=
  (congrArg Prod.fst (trace_step h)).symm

theorem pending_of_request (hrequest : ∀ step, ¬event.request.IsReport step) :
    event.after.pending = LiveSourceSelectionState.entered config event.before.pending
      event.reply.bucket event.request.pendingStep := by
  rw [after_of_sourceTrace h, reply_of_sourceTrace h]
  exact LiveSourceSelectionState.answer_pending hrequest

end

theorem pending_of_report (hfeedback : config.feedbackUpdatesEnabled = true)
    (h : (sourceTrace config corpus state requests)[k]? = some event)
    (hreport : event.request.IsReport step) (key : ℕ) :
    event.after.pending.get? key = if key = step then none else event.before.pending.get? key := by
  obtain ⟨loss, hloss⟩ := hreport
  rw [after_of_sourceTrace h, hloss]
  exact LiveSourceSelectionState.get?_recordLoss hfeedback step loss key

theorem SourceEvent.Serves.enters (h : event.Serves step label) : event.Enters step label :=
  ⟨SourceRequest.pendingStep_of_trainingStep h.1, h.2⟩

theorem SourceRequest.IsReport.not_enters (h : event.request.IsReport k) : ¬event.Enters step label := by
  obtain ⟨loss, hloss⟩ := h
  rintro ⟨hstep, -⟩
  rw [hloss] at hstep
  cases hstep

theorem SourceRequest.IsReport.step_eq {request : SourceRequest K} {step' : ℕ}
    (h : request.IsReport step) (h' : request.IsReport step') : step' = step := by
  obtain ⟨loss, rfl⟩ := h
  obtain ⟨loss', h'⟩ := h'
  cases h'
  rfl

/-- What is pending was entered. -/
theorem earlier_enters_of_pending (hfeedback : config.feedbackUpdatesEnabled = true)
    (hstart : state.Started config)
    (h : (sourceTrace config corpus state requests)[k]? = some event)
    (hpending : event.before.pending.get? step ≠ none) :
    ∃ label, Earlier (sourceTrace config corpus state requests) k fun earlier =>
      SourceEvent.Enters earlier step label := by
  refine trace_invariant (I := fun k state => state.pending.get? step ≠ none → ∃ label,
    Earlier (sourceTrace config corpus _ requests) k fun earlier =>
      SourceEvent.Enters earlier step label) ?_ ?_ h hpending
  · rw [hstart.pending_eq]
    exact fun hne => absurd rfl hne
  · intro k event hk ih hne
    have hextend : event.before.pending.get? step ≠ none → ∃ label,
        Earlier (sourceTrace config corpus state requests) (k + 1) fun earlier =>
          SourceEvent.Enters earlier step label := fun hbefore =>
      (ih hbefore).imp fun label hearlier => hearlier.mono (Nat.le_succ k)
    by_cases hreport : ∃ reported, event.request.IsReport reported
    · obtain ⟨reported, hreport⟩ := hreport
      rw [pending_of_report hfeedback hk hreport] at hne
      split_ifs at hne
      · exact absurd rfl hne
      · exact hextend hne
    · rw [pending_of_request hk (not_exists.1 hreport)] at hne
      obtain ⟨label, hlabel⟩ := ne_none_iff_exists'.1 hne
      rcases LiveSourceSelectionState.get?_entered hlabel with ⟨hbucket, hstep⟩ | hbefore
      · exact ⟨label, (earlier_succ hk _).2 (.inr ⟨hstep, hbucket⟩)⟩
      · exact hextend (hbefore ▸ some_ne_none label)

/-! ## The invariant -/

/-- The entry of a step is the bucket from which its window was served, and no report took it before.
Without an entry the step was not served, or the entry was taken or evicted. -/
structure Accounted (events : List (SourceEvent K)) (step k : ℕ)
    (state : LiveSourceSelectionState K) : Prop where
  known : ∀ label, state.pending.get? step = some label → Known state.sampler label
  served : ∀ label, state.pending.get? step = some label →
    Earlier events k fun earlier => SourceEvent.Serves earlier step label
  only : ∀ label label', state.pending.get? step = some label →
    (Earlier events k fun earlier => SourceEvent.Serves earlier step label') → label' = label
  untaken : ∀ label, state.pending.get? step = some label →
    ¬Earlier events k fun earlier => SourceEvent.Takes earlier step
  absent : state.pending.get? step = none →
    (∀ label, ¬Earlier events k fun earlier => SourceEvent.Serves earlier step label) ∨
    Earlier events k fun earlier => SourceEvent.Takes earlier step ∨ SourceEvent.Evicts earlier step

section

variable (hfeedback : config.feedbackUpdatesEnabled = true)
include hfeedback

/-- After a request that is no report, the entry of a step was there before, or the request serves the
window of the step and is the first to enter a bucket for it. -/
theorem EntersWhatIsServed.entry
    (hentered : EntersWhatIsServed (sourceTrace config corpus state requests))
    (h : (sourceTrace config corpus state requests)[k]? = some event)
    (hrequest : ∀ step, ¬event.request.IsReport step)
    (hlabel : event.after.pending.get? step = some label) :
    (event.before.pending.get? step = some label ∧
      ∀ label', event.Enters step label' → label' = label) ∨
    event.Serves step label ∧ ∀ label', ¬Earlier (sourceTrace config corpus state requests) k
      fun earlier => SourceEvent.Enters earlier step label' := by
  rw [pending_of_request h hrequest] at hlabel
  rcases LiveSourceSelectionState.get?_entered hlabel with ⟨hbucket, hstep⟩ | hbefore
  · refine (hentered k event step label h ⟨hstep, hbucket⟩).imp_left fun hbefore => ⟨hbefore, ?_⟩
    exact fun label' hlabel' => some.inj (hlabel'.2.symm.trans hbucket)
  · refine .inl ⟨hbefore, fun label' hlabel' => ?_⟩
    rw [hlabel'.2, hlabel'.1] at hlabel
    exact (LiveSourceSelectionState.get?_entered_self hfeedback hlabel).symm

theorem Accounted.report (h : (sourceTrace config corpus state requests)[k]? = some event)
    {reported : ℕ} (hreport : event.request.IsReport reported)
    (hbefore : Accounted (sourceTrace config corpus state requests) step k event.before) :
    Accounted (sourceTrace config corpus state requests) step (k + 1) event.after := by
  have hserves : ∀ label, ¬event.Serves step label := fun label hserves =>
    hreport.not_enters hserves.enters
  have hpending := pending_of_report hfeedback h hreport step
  -- an entry that is still there was there before
  have hkept : ∀ label, event.after.pending.get? step = some label →
      step ≠ reported ∧ event.before.pending.get? step = some label := fun label hlabel => by
    rw [hpending] at hlabel
    split_ifs at hlabel with heq
    exact ⟨heq, hlabel⟩
  constructor
  · intro label hlabel
    rw [after_of_sourceTrace h]
    exact (hbefore.known label (hkept label hlabel).2).kept
      (LiveSourceSelectionState.sameBucket_answer event.request)
  · exact fun label hlabel => (hbefore.served label (hkept label hlabel).2).mono (Nat.le_succ k)
  · intro label label' hlabel hearlier
    rcases (earlier_succ h _).1 hearlier with hearlier | hevent
    · exact hbefore.only label label' (hkept label hlabel).2 hearlier
    · exact absurd hevent (hserves label')
  · intro label hlabel hearlier
    rcases (earlier_succ h _).1 hearlier with hearlier | hevent
    · exact hbefore.untaken label (hkept label hlabel).2 hearlier
    · exact (hkept label hlabel).1 (hreport.step_eq hevent.1)
  · intro hnone
    cases hentry : event.before.pending.get? step with
    | none =>
      refine (hbefore.absent hentry).imp (fun hnever label hearlier => ?_)
        fun hearlier => hearlier.mono (Nat.le_succ k)
      rcases (earlier_succ h _).1 hearlier with hearlier | hevent
      · exact hnever label hearlier
      · exact hserves label hevent
    | some label =>
      rw [hpending] at hnone
      split_ifs at hnone with heq
      · refine .inr ((earlier_succ h _).2 (.inr (.inl ⟨heq ▸ hreport, ?_⟩)))
        exact hentry ▸ some_ne_none label
      · exact absurd (hentry.symm.trans hnone) (some_ne_none label)

section

variable (hstart : state.Started config)
  (hentered : EntersWhatIsServed (sourceTrace config corpus state requests))
include hstart hentered

theorem Accounted.request (h : (sourceTrace config corpus state requests)[k]? = some event)
    (hrequest : ∀ step, ¬event.request.IsReport step)
    (hbefore : Accounted (sourceTrace config corpus state requests) step k event.before) :
    Accounted (sourceTrace config corpus state requests) step (k + 1) event.after := by
  constructor
  · intro label hlabel
    rw [after_of_sourceTrace h]
    rcases hentered.entry hfeedback h hrequest hlabel with ⟨hkept, -⟩ | ⟨hserves, -⟩
    · exact (hbefore.known label hkept).kept (LiveSourceSelectionState.sameBucket_answer event.request)
    · exact LiveSourceSelectionState.known_of_answer (reply_of_sourceTrace h ▸ hserves.2)
  · intro label hlabel
    rcases hentered.entry hfeedback h hrequest hlabel with ⟨hkept, -⟩ | ⟨hserves, -⟩
    · exact (hbefore.served label hkept).mono (Nat.le_succ k)
    · exact (earlier_succ h _).2 (.inr hserves)
  · intro label label' hlabel hearlier
    rcases hentered.entry hfeedback h hrequest hlabel with ⟨hkept, hsame⟩ | ⟨hserves, hfirst⟩ <;>
      rcases (earlier_succ h _).1 hearlier with hearlier | hevent
    · exact hbefore.only label label' hkept hearlier
    · exact hsame label' hevent.enters
    · obtain ⟨j, hj, earlier, hearlier, hserved⟩ := hearlier
      exact absurd ⟨j, hj, earlier, hearlier, hserved.enters⟩ (hfirst label')
    · exact some.inj (hevent.2.symm.trans hserves.2)
  · intro label hlabel hearlier
    rcases (earlier_succ h _).1 hearlier with hearlier | hevent
    · rcases hentered.entry hfeedback h hrequest hlabel with ⟨hkept, -⟩ | ⟨-, hfirst⟩
      · exact hbefore.untaken label hkept hearlier
      · obtain ⟨j, hj, earlier, hearlier, -, hpending⟩ := hearlier
        obtain ⟨label', hlabel'⟩ := earlier_enters_of_pending hfeedback hstart hearlier hpending
        exact hfirst label' (hlabel'.mono hj.le)
    · exact hrequest step hevent.1
  · intro hnone
    cases hprevious : event.before.pending.get? step with
    | none =>
      by_cases hserves : ∃ label, event.Serves step label
      · obtain ⟨label, hserves⟩ := hserves
        refine .inr ((earlier_succ h _).2 (.inr (.inr ⟨step, label, hserves.enters, ?_, hnone⟩)))
        rw [BTreeMap.get?_insert_self]
        exact some_ne_none label
      · refine (hbefore.absent hprevious).imp (fun hnever label hearlier => ?_)
          fun hearlier => hearlier.mono (Nat.le_succ k)
        rcases (earlier_succ h _).1 hearlier with hearlier | hevent
        · exact hnever label hearlier
        · exact hserves ⟨label, hevent⟩
    | some label =>
      refine .inr ((earlier_succ h _).2 (.inr (.inr ?_)))
      have hpending := pending_of_request h hrequest
      cases hbucket : event.reply.bucket with
      | none =>
        rw [hbucket] at hpending
        have hsame : event.after.pending = event.before.pending := hpending
        rw [hsame, hprevious] at hnone
        cases hnone
      | some entered =>
        cases hstep : event.request.pendingStep with
        | none =>
          rw [hbucket, hstep] at hpending
          have hsame : event.after.pending = event.before.pending := hpending
          rw [hsame, hprevious] at hnone
          cases hnone
        | some enteredStep =>
          refine ⟨enteredStep, entered, ⟨hstep, hbucket⟩, ?_, hnone⟩
          rw [BTreeMap.get?_insert, hprevious]
          split_ifs <;> exact some_ne_none _

/-- The invariant holds before every event. -/
theorem accounted (step : ℕ) (h : (sourceTrace config corpus state requests)[k]? = some event) :
    Accounted (sourceTrace config corpus state requests) step k event.before := by
  refine trace_invariant (I := fun k state' =>
    Accounted (sourceTrace config corpus state requests) step k state') ?_ ?_ h
  · have hnone : state.pending.get? step = none := by
      rw [hstart.pending_eq]
      rfl
    constructor
    · simp [hnone]
    · simp [hnone]
    · simp [hnone]
    · simp [hnone]
    · exact fun _ => .inl fun label => not_earlier_zero _ _
  · intro k event hk hbefore
    by_cases hreport : ∃ reported, event.request.IsReport reported
    · obtain ⟨reported, hreport⟩ := hreport
      exact hbefore.report hfeedback hk hreport
    · exact hbefore.request hfeedback hstart hentered hk (not_exists.1 hreport)

end

end

/-! ## The credit -/

theorem posteriors_foldl_addCandidate (added : List (RuliadSamplerCandidate K))
    (sampler : RuliadFrontierSampler K) :
    (added.foldl addCandidate sampler).capabilityPosteriors =
      sampler.capabilityPosteriors := by
  induction added generalizing sampler with
  | nil => rfl
  | cons first added ih =>
    refine (ih _).trans ?_
    unfold addCandidate
    split
    · split_ifs <;> rfl
    · rfl

theorem posteriors_recordTelemetry (sampler : RuliadFrontierSampler K)
    (telemetry : RuliadSampleTelemetry K) :
    (sampler.recordTelemetry telemetry).capabilityPosteriors = sampler.capabilityPosteriors := by
  unfold recordTelemetry
  split_ifs
  · rfl
  · split <;> rfl

/-- A report that finds the entry of a bucket changes the statistics of this bucket. -/
theorem credits_of_pending (hfeedback : config.feedbackUpdatesEnabled = true)
    (hpending : state.pending.get? step = some label) (hknown : Known state.sampler label)
    (loss : K) :
    Credits label loss state (state.recordLoss config step loss) := by
  have hafter : state.recordLoss config step loss =
      (state.credit step label loss).maybeExtendFrontier config := by
    rw [LiveSourceSelectionState.recordLoss, if_neg (by simp [hfeedback]), hpending]
  obtain ⟨bucket, hbucket⟩ := hknown.exists_findIdx?
  refine ⟨⟨bucket, hbucket, fun index candidate hcandidate => ?_⟩, ?_⟩
  · rw [hafter]
    exact LiveSourceSelectionState.candidatesKept_maybeExtendFrontier config
      (state.credit step label loss) index _ (getElem?_recordTelemetry hbucket hcandidate)
  · rw [hafter]
    exact (posteriors_foldl_addCandidate _ _).trans (posteriors_recordTelemetry _ _)

/-- **Losses are credited to the data that produced them**, in every run in which a request enters no
other bucket for a step than the one that its training window is served from. -/
theorem losses_credited (config : LiveSourceSelection K) (corpus : SourceCorpus)
    (state : LiveSourceSelectionState K) (requests : List (SourceRequest K))
    (hstart : state.Started config)
    (hentered : config.feedbackUpdatesEnabled = true →
      EntersWhatIsServed (sourceTrace config corpus state requests)) :
    LossesCredited config (sourceTrace config corpus state requests) := by
  intro i event step loss hi hrequest
  have hafter : event.after = event.before.recordLoss config step loss := by
    rw [after_of_sourceTrace hi, hrequest]
    rfl
  by_cases hfeedback : config.feedbackUpdatesEnabled = true
  · have haccounted := accounted hfeedback hstart (hentered hfeedback) step hi
    cases hpending : event.before.pending.get? step with
    | none =>
      refine .inl ⟨?_, .inr (haccounted.absent hpending)⟩
      rw [hafter, LiveSourceSelectionState.recordLoss, if_neg (by simp [hfeedback]), hpending]
    | some label =>
      refine .inr ⟨label, ?_, haccounted.served label hpending,
        fun label' => haccounted.only label label' hpending, haccounted.untaken label hpending⟩
      rw [hafter]
      exact credits_of_pending hfeedback hpending (haccounted.known label hpending) loss
  · rw [Bool.not_eq_true] at hfeedback
    refine .inl ⟨?_, .inl hfeedback⟩
    rw [hafter, LiveSourceSelectionState.recordLoss, if_pos (by simp [hfeedback]),
      LiveSourceSelectionState.maybeExtendFrontier_eq_self (by simp [hfeedback])]

end Runs

/-! ## A policy batch after a report -/

variable {loss : ℝ}

section

variable (step : ℕ)
  (h : (pairState loss pending).drawBucket pairConfig (fun _ => true) 0 step = some label)
include step h

theorem chooseForSplit_pairState :
    (pairState loss pending).chooseForSplit pairConfig .train 0 step =
      (some label, pairState loss
        (LiveSourceSelectionState.pendingWith pairConfig pending step label)) :=
  LiveSourceSelectionState.chooseBucket_of_static (maybeExtendFrontier_pairConfig _) h step

theorem answer_windowRequest :
    ∃ reply, reply.bucket = some label ∧
      (pairState loss pending).answer pairConfig pairCorpus
          (.tokenWindows ⟨.train, 0, step, 1, 4, false⟩) =
        (reply, pairState loss
          (LiveSourceSelectionState.pendingWith pairConfig pending step label)) := by
  refine ⟨.tokenWindows label (pairCorpus.generateSourceBucketDocuments .train 0 step label 1), rfl, ?_⟩
  rw [LiveSourceSelectionState.answer, LiveSourceSelectionState.sourceSelectedTokenWindows]
  simp only [chooseForSplit_pairState step h]
  rfl

theorem answer_policyRequest :
    ∃ reply, reply.bucket = some label ∧
      (pairState loss pending).answer pairConfig pairCorpus (.policyBatch .train 0 step 1 0) =
        (reply, pairState loss
          (LiveSourceSelectionState.pendingWith pairConfig pending step label)) := by
  refine ⟨.policyBatch label [label], rfl, ?_⟩
  rw [LiveSourceSelectionState.answer, LiveSourceSelectionState.sourceSelectedRuliadPolicyBatch]
  simp only [chooseForSplit_pairState step h]
  rfl

end

theorem losses_credited_pairState :
    LossesCredited pairConfig (sourceTrace pairConfig pairCorpus (pairState 0 .empty)
      [.tokenWindows ⟨.train, 0, 0, 1, 4, false⟩, .recordLoss 0 10]) := by
  have hstart : LiveSourceSelectionState.start pairConfig
      [pairCandidate "a" 2 0, pairCandidate "b" 1 0] = some (pairState 0 .empty) := rfl
  refine losses_credited _ _ _ _ (.start hstart) fun _ i event step label hi henters => ?_
  have hrequest := trace_request hi
  match i with
  | 0 =>
    obtain ⟨hstep, hbucket⟩ := henters
    rw [← Option.some.inj hrequest] at hstep
    exact .inr ⟨⟨Option.some.inj hrequest ▸ hstep, hbucket⟩, fun label' => not_earlier_zero _ _⟩
  | 1 => exact absurd henters (SourceRequest.IsReport.not_enters ⟨10, (Option.some.inj hrequest).symm⟩)
  | i + 2 => cases hrequest

/-- The second report updates the second bucket and leaves the first. -/
theorem getElem?_recordLoss_pairState {step : ℕ} (h : pending.get? step = some "b") :
    ((pairState 10 pending).recordLoss pairConfig step 0).sampler.candidates[0]? =
      some (pairCandidate "a" 2 10) := by
  rw [LiveSourceSelectionState.recordLoss, if_neg (by simp [pairConfig])]
  simp only [maybeExtendFrontier_pairConfig, show (pairState 10 pending).pending = pending from rfl, h]
  rfl

/-- **A policy batch takes the credit of a window.** Windows of the steps 0 and 1 are served from the first
bucket. The loss of step 1 is reported, and a policy batch of step 0 enters the second bucket: the report
of step 0 updates the second bucket, from which no window was served. -/
theorem policy_batch_takes_credit :
    LiveSourceSelectionState.Started pairConfig (pairState 0 .empty) ∧
    ¬LossesCredited pairConfig (sourceTrace pairConfig pairCorpus (pairState 0 .empty)
      [.tokenWindows ⟨.train, 0, 0, 1, 4, false⟩, .tokenWindows ⟨.train, 0, 1, 1, 4, false⟩,
        .recordLoss 1 10, .policyBatch .train 0 0 1 0, .recordLoss 0 0]) := by
  have hstart : LiveSourceSelectionState.start pairConfig
      [pairCandidate "a" 2 0, pairCandidate "b" 1 0] = some (pairState 0 .empty) := rfl
  refine ⟨.start hstart, fun h => ?_⟩
  obtain ⟨first, hfirst, hwindow⟩ := answer_windowRequest 0 (drawBucket_near .empty 0 0)
  obtain ⟨second, -, hwindow'⟩ := answer_windowRequest 1 (drawBucket_near
    (LiveSourceSelectionState.pendingWith pairConfig .empty 0 "a") 0 1)
  generalize hpending : LiveSourceSelectionState.pendingWith pairConfig
    (LiveSourceSelectionState.pendingWith pairConfig .empty 0 "a") 1 "a" = pending at hwindow'
  have hreport : (pairState 0 pending).answer pairConfig pairCorpus (.recordLoss 1 10) =
      (.nothing, pairState 10 (pending.remove 1)) := by
    rw [LiveSourceSelectionState.answer, recordLoss_pairState]
    rw [← hpending]
    rfl
  obtain ⟨third, -, hpolicy⟩ := answer_policyRequest 0 (drawBucket_far (pending.remove 1) 0 0)
  have hentry : (LiveSourceSelectionState.pendingWith pairConfig (pending.remove 1) 0 "b").get? 0 =
      some "b" := by
    rw [← hpending]
    rfl
  generalize LiveSourceSelectionState.pendingWith pairConfig (pending.remove 1) 0 "b" = overwritten
    at hpolicy hentry
  have hcredit := h 4 ⟨pairState 10 overwritten, .recordLoss 0 0, .nothing,
    (pairState 10 overwritten).recordLoss pairConfig 0 0⟩ 0 0
  simp only [sourceTrace, trace, hwindow, hwindow', hreport, hpolicy] at hcredit
  rcases hcredit rfl trivial with ⟨hsame, -⟩ | ⟨label, hcredits, -, honly, -⟩
  · -- the report takes the entry
    have htaken : ((pairState 10 overwritten).recordLoss pairConfig 0 0).pending.get? 0 = none :=
      LiveSourceSelectionState.get?_recordLoss rfl 0 0 0
    rw [hsame] at htaken
    exact absurd (hentry.symm.trans htaken) (Option.some_ne_none "b")
  · obtain rfl : "a" = label := honly "a" ⟨0, by omega, _, rfl, rfl, hfirst⟩
    obtain ⟨bucket, hbucket, hcandidates⟩ := hcredits.exists_bucket
    obtain rfl : 0 = bucket := Option.some.inj hbucket
    obtain ⟨candidate, hcandidate, hstatistics⟩ := hcandidates 0 (pairCandidate "a" 2 10) rfl
    obtain rfl := Option.some.inj ((getElem?_recordLoss_pairState hentry).symm.trans hcandidate)
    have hloss := congrArg RuliadSamplerCandidate.lossEma hstatistics
    have hlarge : ¬(10 : ℝ) ≤ floatEpsilon ℝ :=
      not_le.2 (floatEpsilon_lt_one.trans (by norm_num))
    simp only [if_true, RuliadSamplerCandidate.recordTelemetry, pairCandidate, hlarge, if_false,
      LiveSourceSelectionState.lossTelemetry] at hloss
    norm_num at hloss

end BurnDragon.Dataset
