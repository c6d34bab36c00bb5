import BurnDragon.Ruliad.FrontierCap
import BurnDragon.Training.ActionSelection

/-!
# Proof actions do not depend on their batch

What a request gets from `select_ruliad_proof_actions_batch_with_scoring` of `ruliad_policy.rs`, when the
scorer scores every presentation on its own: the decision of the request alone
(`select_batch_independent`), which depends neither on the order of its presentations nor on the rotation
of its menu that is called canonical.
-/

namespace BurnDragon.Training

open Rust Ruliad

section Batches

variable {K : Type} [Field K] [LinearOrder K] {library : FloatLibrary K} {scoreBatch : ScoreBatch K}
  {score : RuliadProofActionAnswerContract → List ℤ → List (List ℤ) → Except String (List K)}
  {request request' : EncodedRuliadProofActionRequest} {decision : RuliadProofActionDecision K}

variable {maxBatchRows : ℕ}

/-- The selection of one request. -/
theorem select_singleton_iff (hbatch : ScoresRows scoreBatch score) (hrows : 1 ≤ maxBatchRows) :
    selectRuliadProofActionsBatch library scoreBatch [request] maxBatchRows = .ok [decision] ↔
      requestDecision library score request = .ok decision := by
  rw [selectRuliadProofActionsBatch_eq_ok_iff hbatch hrows, List.forall₂_cons]
  exact and_iff_left .nil

/-- A request that is decided alone. -/
theorem exists_requestDecision_of_select (hbatch : ScoresRows scoreBatch score)
    {decisions : List (RuliadProofActionDecision K)}
    (h : selectRuliadProofActionsBatch library scoreBatch [request] maxBatchRows = .ok decisions) :
    ∃ decision, requestDecision library score request = .ok decision := by
  rcases Nat.eq_zero_or_pos maxBatchRows with rfl | hrows
  · cases h
  · rw [selectRuliadProofActionsBatch_eq_ok_iff hbatch hrows, List.forall₂_cons_left_iff] at h
    obtain ⟨decision, -, hdecision, -⟩ := h
    exact ⟨decision, hdecision⟩

theorem PresentsMenu.perm {canonical : List (List ℤ)} (hmenu : PresentsMenu canonical request)
    (hperm : request'.presentations.Perm request.presentations) : PresentsMenu canonical request' :=
  fun presentation hmem => hmenu presentation (hperm.mem_iff.1 hmem)

/-- The presentations of a renamed menu in any order. -/
theorem requestDecision_renamed_perm (h : requestDecision library score request = .ok decision)
    {canonical : List (List ℤ)} (hmenu : PresentsMenu canonical request)
    (hmax : UniqueMax decision.orbit.averagedLogProbs decision.selectedSemanticIndex) {k : ℕ}
    (hperm : request'.presentations.Perm
      (renamedRequest canonical.length k request).presentations)
    (hcontract : request'.answerContract = request.answerContract) :
    ∃ decision', requestDecision library score request' = .ok decision' ∧
      decision'.selectedCompletionTokens = decision.selectedCompletionTokens := by
  obtain ⟨candidateCount, _, _, hvalid, -, horbit, -⟩ := requestDecision_spec h
  have hpos : 0 < canonical.length := by
    rw [hmenu.length_eq hvalid]
    exact Nat.zero_lt_of_lt horbit.two_le
  have hmenu' := hmenu.renamed hpos k
  obtain ⟨named, hnamed, htokens⟩ := requestDecision_renamed h hmenu hmax k
  obtain ⟨decision', hdecision', hindex, -⟩ := requestDecision_perm hnamed hperm hcontract
  have hcompletion := requestDecision_completion hdecision' (hmenu'.perm hperm)
  rw [hindex, requestDecision_completion hnamed hmenu'] at hcompletion
  exact ⟨decision', hdecision', (Option.some.inj hcompletion).symm.trans htokens⟩

/-- What holds of the decision of a request in any batch. -/
structure DecidedAlone (library : FloatLibrary K) (scoreBatch : ScoreBatch K)
    (request : EncodedRuliadProofActionRequest) (decision : RuliadProofActionDecision K) :
    Prop where
  /-- It is the decision of the request alone. -/
  alone : ∀ rows, 1 ≤ rows →
    selectRuliadProofActionsBatch library scoreBatch [request] rows = .ok [decision]
  /-- Its index does not depend on the order of the presentations. -/
  order : ∀ (request' : EncodedRuliadProofActionRequest) (rows : ℕ), 1 ≤ rows →
    request'.presentations.Perm request.presentations →
    request'.answerContract = request.answerContract →
    ∃ decision', selectRuliadProofActionsBatch library scoreBatch [request'] rows =
        .ok [decision'] ∧
      decision'.selectedSemanticIndex = decision.selectedSemanticIndex
  /-- Its completion is the entry of the menu at its index. -/
  completion : ∀ canonical, PresentsMenu canonical request →
    canonical[decision.selectedSemanticIndex]? = some decision.selectedCompletionTokens
  /-- Its completion does not depend on which rotation of the menu is the canonical one. The orbit
  need not even be complete. -/
  renamed : ∀ (canonical : List (List ℤ)) (k : ℕ) (request' : EncodedRuliadProofActionRequest)
    (rows : ℕ), 1 ≤ rows → PresentsMenu canonical request →
    UniqueMax decision.orbit.averagedLogProbs decision.selectedSemanticIndex →
    request'.presentations.Perm (renamedRequest canonical.length k request).presentations →
    request'.answerContract = request.answerContract →
    ∃ decision', selectRuliadProofActionsBatch library scoreBatch [request'] rows =
        .ok [decision'] ∧
      decision'.selectedCompletionTokens = decision.selectedCompletionTokens

theorem requestDecision_decidedAlone (hbatch : ScoresRows scoreBatch score)
    (h : requestDecision library score request = .ok decision) :
    DecidedAlone library scoreBatch request decision where
  alone _ hrows := (select_singleton_iff hbatch hrows).2 h
  order request' rows hrows hperm hcontract := by
    obtain ⟨decision', hdecision', hindex, -⟩ := requestDecision_perm h hperm hcontract
    exact ⟨decision', (select_singleton_iff hbatch hrows).2 hdecision', hindex⟩
  completion _ hmenu := requestDecision_completion h hmenu
  renamed canonical k request' rows hrows hmenu hmax hperm hcontract := by
    obtain ⟨decision', hdecision', htokens⟩ :=
      requestDecision_renamed_perm h hmenu hmax hperm hcontract
    exact ⟨decision', (select_singleton_iff hbatch hrows).2 hdecision', htokens⟩

/-- The loop over the chunks of a batch scores every presentation once. -/
theorem exists_scored_once (hbatch : ScoresRows scoreBatch score)
    {requests : List EncodedRuliadProofActionRequest}
    {decisions : List (RuliadProofActionDecision K)}
    (h : List.Forall₂ (fun request decision => requestDecision library score request = .ok decision)
      requests decisions) (hrows : maxBatchRows ≠ 0) :
    ∃ calls scoresByRequest,
      scorePresentations scoreBatch maxBatchRows hrows [] (requests.map fun _ => [])
        (flatPresentations requests) = .ok (calls, scoresByRequest) ∧
      calls.flatten = flatPresentations requests := by
  obtain ⟨-, -, scoresByRequest, hscores, -⟩ := decideRequests_eq_ok_iff.2 h
  obtain ⟨scores, hflat, -⟩ := (scattered_eq_ok_iff requests []).2 ⟨_, hscores, rfl⟩
  obtain ⟨⟨calls, scattered⟩, hresult⟩ := exists_scorePresentations hbatch hrows []
    (requests.map fun _ => []) ⟨scores, hflat⟩
  exact ⟨calls, scattered, hresult, (scorePresentations_spec hbatch hresult).1⟩

/-- **Proof actions do not depend on batching or presentation.** -/
theorem select_batch_independent (hbatch : ScoresRows scoreBatch score)
    {requests : List EncodedRuliadProofActionRequest} {maxBatchRows : ℕ}
    (hrows : maxBatchRows ≠ 0)
    (halone : ∀ request ∈ requests, ∃ rows decisions,
      selectRuliadProofActionsBatch library scoreBatch [request] rows = .ok decisions) :
    (∃ calls scoresByRequest,
      scorePresentations scoreBatch maxBatchRows hrows [] (requests.map fun _ => [])
        (flatPresentations requests) = .ok (calls, scoresByRequest) ∧
      calls.flatten = flatPresentations requests) ∧
    ∃ decisions,
      selectRuliadProofActionsBatch library scoreBatch requests maxBatchRows = .ok decisions ∧
      List.Forall₂ (DecidedAlone library scoreBatch) requests decisions := by
  have hdecided : ∃ decisions, List.Forall₂ (fun request decision =>
      requestDecision library score request = .ok decision) requests decisions := by
    induction requests with
    | nil => exact ⟨[], .nil⟩
    | cons request requests ih =>
      obtain ⟨rows, alone, hselect⟩ := halone request (by simp)
      obtain ⟨decision, hdecision⟩ := exists_requestDecision_of_select hbatch hselect
      obtain ⟨decisions, hdecisions⟩ := ih fun other hother =>
        halone other (List.mem_cons_of_mem _ hother)
      exact ⟨decision :: decisions, .cons hdecision hdecisions⟩
  obtain ⟨decisions, hdecisions⟩ := hdecided
  refine ⟨exists_scored_once hbatch hdecisions hrows, decisions, ?_, ?_⟩
  · exact (selectRuliadProofActionsBatch_eq_ok_iff hbatch (Nat.pos_of_ne_zero hrows)).2 hdecisions
  · exact hdecisions.imp fun request decision hdecision =>
      requestDecision_decidedAlone hbatch hdecision

end Batches

/-! ## Two menus -/

/-- Shorter candidates are likelier. -/
def lengthScore (_answerContract : RuliadProofActionAnswerContract) (_prompt : List ℤ)
    (candidates : List (List ℤ)) : Except String (List ℝ) :=
  .ok (candidates.map fun tokens => -tokens.length)

def lengthScoreBatch : ScoreBatch ℝ := fun prompts candidates answerContract =>
  (prompts.zip candidates).mapM fun row => lengthScore answerContract row.1 row.2

/-- The complete orbit of a menu of two candidates. -/
def twoCandidates (answerContract : RuliadProofActionAnswerContract) :
    EncodedRuliadProofActionRequest where
  presentations := [⟨0, [1], [[2], [3, 4]]⟩, ⟨1, [1], [[3, 4], [2]]⟩]
  answerContract := answerContract

theorem orbitScores_twoCandidates :
    OrbitScores realLibrary 2 [(0, [-((1 : ℕ) : ℝ), -(2 : ℕ)]), (1, [-((2 : ℕ) : ℝ), -(1 : ℕ)])] where
  ne_nil := List.cons_ne_nil _ _
  two_le := le_rfl
  length_eq presentation hmem := by
    simp only [List.mem_cons, List.not_mem_nil, or_false] at hmem
    rcases hmem with rfl | rfl <;> rfl
  sum_pos := by
    simp only [orbitAverages, averagedProbabilities, addProbabilities, semanticScores, realLibrary]
    simp
    positivity

theorem select_twoCandidates (answerContract : RuliadProofActionAnswerContract) :
    ∃ decisions, selectRuliadProofActionsBatch realLibrary lengthScoreBatch
      [twoCandidates answerContract] 1 = .ok decisions := by
  obtain ⟨decision, hdecision⟩ := exists_requestDecision
    (show validateEncodedActionRequest (twoCandidates answerContract) = .ok 2 from rfl)
    (show requestScores lengthScore (twoCandidates answerContract) = .ok _ from rfl)
    orbitScores_twoCandidates
  exact ⟨_, (select_singleton_iff (fun _ _ _ => rfl) le_rfl).2 hdecision⟩

theorem select_batch_independent_twoCandidates :
    ∃ decisions,
      selectRuliadProofActionsBatch realLibrary lengthScoreBatch
        [twoCandidates .presentationIndex, twoCandidates .semanticStep] 3 = .ok decisions ∧
      List.Forall₂ (DecidedAlone realLibrary lengthScoreBatch)
        [twoCandidates .presentationIndex, twoCandidates .semanticStep] decisions := by
  refine (select_batch_independent (fun _ _ _ => rfl) (by decide) fun request hmem => ?_).2
  simp only [List.mem_cons, List.not_mem_nil, or_false] at hmem
  rcases hmem with rfl | rfl
  · exact ⟨1, select_twoCandidates _⟩
  · exact ⟨1, select_twoCandidates _⟩

end BurnDragon.Training
