import BurnDragon.Training.ActionOrbit

/-!
# Selecting proof actions in batches

`select_ruliad_proof_actions_batch_with_scoring` of `ruliad_policy.rs`. The presentations of all requests
are laid out in one list, which is cut into chunks of one answer contract and at most `maxBatchRows`
rows; the scores of a chunk go back to the requests of its rows, and each request is decided from its
own scores.

The scorer of a chunk is a parameter. When it scores every row on its own, each request is decided as it
is alone (`selectRuliadProofActionsBatch_eq_ok_iff`).
-/

namespace BurnDragon.Training

open Rust Ruliad List Nat

structure EncodedRuliadProofActionPresentation where
  rotation : ℕ
  promptTokens : List ℤ
  candidateTokens : List (List ℤ)
  deriving DecidableEq

structure EncodedRuliadProofActionRequest where
  presentations : List EncodedRuliadProofActionPresentation
  answerContract : RuliadProofActionAnswerContract
  deriving DecidableEq

structure RuliadProofActionDecision (K : Type) where
  selectedSemanticIndex : ℕ
  selectedCompletionTokens : List ℤ
  orbit : SemanticActionOrbitSummary K

def validateEncodedActionRequest (request : EncodedRuliadProofActionRequest) : Except String ℕ := do
  let candidateCount ← okOr
    (request.presentations.head?.map fun presentation => presentation.candidateTokens.length)
    "typed proof-action request has no presentations"
  if candidateCount < 2 then
    .error "typed proof-action request requires at least two candidates"
  else if request.presentations.any fun presentation =>
      presentation.promptTokens.isEmpty ||
        presentation.candidateTokens.length != candidateCount ||
        presentation.candidateTokens.any List.isEmpty then
    .error ("typed proof-action presentations require non-empty prompts and a stable non-empty " ++
      "candidate set")
  else
    .ok candidateCount

def selectedCompletionTokens (presentation : EncodedRuliadProofActionPresentation)
    (semanticIndex : ℕ) : Except String (List ℤ) :=
  let candidateCount := presentation.candidateTokens.length
  if semanticIndex ≥ candidateCount then
    .error "typed proof-action semantic index exceeds the candidate set"
  else
    let presentedIndex :=
      (semanticIndex + candidateCount - presentation.rotation % candidateCount) % candidateCount
    okOr presentation.candidateTokens[presentedIndex]?
      "typed proof-action presentation mapping is inconsistent"

/-! ## The chunks -/

/-- A presentation in the list of all presentations, with the index of its request. -/
structure FlatPresentation where
  requestIndex : ℕ
  answerContract : RuliadProofActionAnswerContract
  presentation : EncodedRuliadProofActionPresentation
  deriving DecidableEq

def flatPresentations (requests : List EncodedRuliadProofActionRequest) : List FlatPresentation :=
  requests.zipIdx.flatMap fun request =>
    request.1.presentations.map fun presentation =>
      ⟨request.2, request.1.answerContract, presentation⟩

/-- The scorer of a batch: prompts, menus of candidates and the answer contract. -/
abbrev ScoreBatch (K : Type) :=
  List (List ℤ) → List (List (List ℤ)) → RuliadProofActionAnswerContract →
    Except String (List (List K))

/-- The scores of a presentation go to its request. -/
def scatterScores {K : Type} (scoresByRequest : List (List (ℕ × List K)))
    (row : FlatPresentation × List K) : List (List (ℕ × List K)) :=
  scoresByRequest.modify row.1.requestIndex (· ++ [(row.1.presentation.rotation, row.2)])

/-- The rows that are scored together: from the first one on, of its contract and not too many. -/
def chunkOf (maxBatchRows : ℕ) (first : FlatPresentation) (rest : List FlatPresentation) :
    List FlatPresentation :=
  ((first :: rest).takeWhile fun row => row.answerContract = first.answerContract).take maxBatchRows

theorem one_le_length_chunkOf {maxBatchRows : ℕ} (hrows : maxBatchRows ≠ 0)
    (first : FlatPresentation) (rest : List FlatPresentation) :
    1 ≤ (chunkOf maxBatchRows first rest).length := by
  rw [chunkOf, takeWhile_cons_of_pos (by simp), length_take, length_cons]
  omega

/-- The loop over the chunks. `calls` are the chunks that have been scored. -/
def scorePresentations {K : Type} (scoreBatch : ScoreBatch K) (maxBatchRows : ℕ)
    (hrows : maxBatchRows ≠ 0) (calls : List (List FlatPresentation))
    (scoresByRequest : List (List (ℕ × List K))) :
    List FlatPresentation → Except String (List (List FlatPresentation) × List (List (ℕ × List K)))
  | [] => .ok (calls, scoresByRequest)
  | first :: rest =>
    let chunk := chunkOf maxBatchRows first rest
    match scoreBatch (chunk.map fun row => row.presentation.promptTokens)
        (chunk.map fun row => row.presentation.candidateTokens) first.answerContract with
    | .error error => .error error
    | .ok scores =>
      scorePresentations scoreBatch maxBatchRows hrows (calls ++ [chunk])
        ((chunk.zip scores).foldl scatterScores scoresByRequest)
        ((first :: rest).drop chunk.length)
termination_by flat => flat.length
decreasing_by
  have := one_le_length_chunkOf hrows first rest
  simp only [List.length_drop, List.length_cons]
  omega

/-! ### What the loop scores -/

variable {K : Type} {scoreBatch : ScoreBatch K}
  {score : RuliadProofActionAnswerContract → List ℤ → List (List ℤ) → Except String (List K)}

section Chunks

/-- The scorer of a batch scores every row on its own. -/
def ScoresRows (scoreBatch : ScoreBatch K)
    (score : RuliadProofActionAnswerContract → List ℤ → List (List ℤ) → Except String (List K)) :
    Prop :=
  ∀ prompts candidates answerContract, scoreBatch prompts candidates answerContract =
    (prompts.zip candidates).mapM fun row => score answerContract row.1 row.2

/-- The scores of a row. -/
def scoreRow
    (score : RuliadProofActionAnswerContract → List ℤ → List (List ℤ) → Except String (List K))
    (row : FlatPresentation) : Except String (List K) :=
  score row.answerContract row.presentation.promptTokens row.presentation.candidateTokens

variable {maxBatchRows : ℕ}

theorem answerContract_of_mem_chunkOf {first row : FlatPresentation} {rest : List FlatPresentation}
    (h : row ∈ chunkOf maxBatchRows first rest) :
    row.answerContract = first.answerContract := by
  simpa using mem_takeWhile_imp (mem_of_mem_take h)

theorem chunkOf_append_drop (maxBatchRows : ℕ) (first : FlatPresentation)
    (rest : List FlatPresentation) :
    chunkOf maxBatchRows first rest ++
      (first :: rest).drop (chunkOf maxBatchRows first rest).length = first :: rest := by
  have hprefix : chunkOf maxBatchRows first rest <+: first :: rest :=
    (List.take_prefix _ _).trans (List.takeWhile_prefix _)
  obtain ⟨tail, htail⟩ := hprefix
  conv_lhs => rw [← htail, drop_left]
  exact htail

variable {α : Type}

theorem mapM_congr {β : Type} {f g : α → Except String β} {xs : List α} (h : ∀ x ∈ xs, f x = g x) :
    xs.mapM f = xs.mapM g := by
  induction xs with
  | nil => rfl
  | cons x xs ih =>
    rw [mapM_cons, mapM_cons, h x (by simp), ih fun y hy => h y (by simp [hy])]

theorem scoreBatch_chunkOf (hbatch : ScoresRows scoreBatch score) (maxBatchRows : ℕ)
    (first : FlatPresentation) (rest : List FlatPresentation) :
    scoreBatch ((chunkOf maxBatchRows first rest).map fun row => row.presentation.promptTokens)
        ((chunkOf maxBatchRows first rest).map fun row => row.presentation.candidateTokens)
        first.answerContract =
      (chunkOf maxBatchRows first rest).mapM (scoreRow score) := by
  have hcontract : ∀ row ∈ chunkOf maxBatchRows first rest,
      row.answerContract = first.answerContract := fun row h => answerContract_of_mem_chunkOf h
  rw [hbatch, zip_map', mapM_map]
  refine mapM_congr fun row hrow => ?_
  rw [scoreRow, hcontract row hrow]
  rfl

theorem mapM_append_eq_ok_iff {β : Type} {f : α → Except String β} {xs ys : List α} {zs : List β} :
    (xs ++ ys).mapM f = .ok zs ↔
      ∃ us vs, xs.mapM f = .ok us ∧ ys.mapM f = .ok vs ∧ zs = us ++ vs := by
  rw [mapM_append, bind_eq_ok]
  constructor
  · rintro ⟨us, hus, h⟩
    obtain ⟨vs, hvs, h⟩ := bind_eq_ok.1 h
    cases h
    exact ⟨us, vs, hus, hvs, rfl⟩
  · rintro ⟨us, vs, hus, hvs, rfl⟩
    exact ⟨us, hus, bind_eq_ok.2 ⟨vs, hvs, rfl⟩⟩

/-- **The loop over the chunks** scores every presentation once, in order, and scatters the scores. -/
theorem scorePresentations_spec (hbatch : ScoresRows scoreBatch score) {hrows : maxBatchRows ≠ 0}
    {calls calls' : List (List FlatPresentation)}
    {scoresByRequest scattered : List (List (ℕ × List K))} {flat : List FlatPresentation}
    (h : scorePresentations scoreBatch maxBatchRows hrows calls scoresByRequest flat = .ok (calls',
      scattered)) :
    calls'.flatten = calls.flatten ++ flat ∧
      ∃ scores, flat.mapM (scoreRow score) = .ok scores ∧
        scattered = (flat.zip scores).foldl scatterScores scoresByRequest := by
  induction calls, scoresByRequest, flat using
    scorePresentations.induct scoreBatch maxBatchRows hrows with
  | case1 calls scoresByRequest =>
    rw [scorePresentations] at h
    cases h
    exact ⟨(append_nil _).symm, [], rfl, rfl⟩
  | case2 calls scoresByRequest first rest chunk error herror =>
    rw [scorePresentations, herror] at h
    cases h
  | case3 calls scoresByRequest first rest chunk scores hscores ih =>
    rw [scorePresentations, hscores] at h
    obtain ⟨hcalls, after, hafter, hscattered⟩ := ih h
    have hsplit : chunk ++ (first :: rest).drop chunk.length = first :: rest :=
      chunkOf_append_drop maxBatchRows first rest
    rw [scoreBatch_chunkOf hbatch] at hscores
    refine ⟨?_, scores ++ after, ?_, ?_⟩
    · rw [hcalls, flatten_append, flatten_singleton, append_assoc, hsplit]
    · rw [← hsplit]
      exact mapM_append_eq_ok_iff.2 ⟨scores, after, hscores, hafter, rfl⟩
    · rw [hscattered, ← foldl_append, ← zip_append (forall₂_of_mapM hscores).length_eq, hsplit]

theorem exists_scorePresentations (hbatch : ScoresRows scoreBatch score) (hrows : maxBatchRows ≠ 0)
    (calls : List (List FlatPresentation)) (scoresByRequest : List (List (ℕ × List K)))
    {flat : List FlatPresentation} (h : ∃ scores, flat.mapM (scoreRow score) = .ok scores) :
    ∃ result, scorePresentations scoreBatch maxBatchRows hrows calls scoresByRequest flat =
      .ok result := by
  induction calls, scoresByRequest, flat using
    scorePresentations.induct scoreBatch maxBatchRows hrows with
  | case1 calls scoresByRequest => exact ⟨_, scorePresentations.eq_1 ..⟩
  | case2 calls scoresByRequest first rest chunk error herror =>
    obtain ⟨scores, hscores⟩ := h
    rw [← chunkOf_append_drop maxBatchRows first rest] at hscores
    obtain ⟨chunkScores, -, hchunk, -, -⟩ := mapM_append_eq_ok_iff.1 hscores
    rw [scoreBatch_chunkOf hbatch, hchunk] at herror
    cases herror
  | case3 calls scoresByRequest first rest chunk chunkScores hchunk ih =>
    obtain ⟨scores, hscores⟩ := h
    rw [← chunkOf_append_drop maxBatchRows first rest] at hscores
    obtain ⟨-, after, -, hafter, -⟩ := mapM_append_eq_ok_iff.1 hscores
    obtain ⟨result, hresult⟩ := ih ⟨after, hafter⟩
    exact ⟨result, by rw [scorePresentations, hchunk]; exact hresult⟩

/-! ### The scores of each request -/

/-- The scores of the presentations of one request. -/
def requestScores
    (score : RuliadProofActionAnswerContract → List ℤ → List (List ℤ) → Except String (List K))
    (request : EncodedRuliadProofActionRequest) : Except String (List (ℕ × List K)) := do
  let scores ← request.presentations.mapM fun presentation =>
    score request.answerContract presentation.promptTokens presentation.candidateTokens
  return (request.presentations.map fun presentation => presentation.rotation).zip scores

/-- The rows of one request. -/
def requestRows (requestIndex : ℕ) (request : EncodedRuliadProofActionRequest) :
    List FlatPresentation :=
  request.presentations.map fun presentation =>
    ⟨requestIndex, request.answerContract, presentation⟩

theorem requestScores_eq_ok_iff {requestIndex : ℕ} {request : EncodedRuliadProofActionRequest}
    {presentationScores : List (ℕ × List K)} :
    requestScores score request = .ok presentationScores ↔
      ∃ scores, (requestRows requestIndex request).mapM (scoreRow score) = .ok scores ∧
        presentationScores =
          (request.presentations.map fun presentation => presentation.rotation).zip scores := by
  rw [requestScores, bind_eq_ok, requestRows, mapM_map]
  refine exists_congr fun scores => and_congr_right fun _ => ?_
  exact ⟨fun h => (Except.ok.inj h).symm, fun h => h ▸ rfl⟩

theorem modify_append_cons (before : List α) (a : α) (after : List α) (f : α → α) :
    (before ++ a :: after).modify before.length f = before ++ f a :: after := by
  induction before with
  | nil => rfl
  | cons b before ih => exact congrArg (b :: ·) ih

/-- The rows of a request go to its place. -/
theorem foldl_scatterScores_rows (answerContract : RuliadProofActionAnswerContract)
    (before after : List (List (ℕ × List K)))
    (presentations : List EncodedRuliadProofActionPresentation) (scores : List (List K))
    (found : List (ℕ × List K)) :
    ((presentations.map fun presentation =>
        (⟨before.length, answerContract, presentation⟩ : FlatPresentation)).zip scores).foldl
        scatterScores (before ++ found :: after) =
      before ++ (found ++ (presentations.map fun presentation =>
        presentation.rotation).zip scores) :: after := by
  induction presentations generalizing scores found with
  | nil => simp
  | cons presentation presentations ih =>
    cases scores with
    | nil => simp
    | cons presented scores =>
      rw [map_cons, zip_cons_cons, foldl_cons, scatterScores, modify_append_cons, ih]
      simp

/-- The rows of all requests, the first of which has the index `k`. -/
def requestRowsFrom (k : ℕ) (requests : List EncodedRuliadProofActionRequest) :
    List FlatPresentation :=
  (requests.zipIdx k).flatMap fun request => requestRows request.2 request.1

/-- **The scattered scores** are those of each request alone. -/
theorem scattered_eq_ok_iff (requests : List EncodedRuliadProofActionRequest)
    (before : List (List (ℕ × List K))) {scattered : List (List (ℕ × List K))} :
    (∃ scores, (requestRowsFrom before.length requests).mapM (scoreRow score) = .ok scores ∧
        scattered = ((requestRowsFrom before.length requests).zip scores).foldl scatterScores
          (before ++ requests.map fun _ => [])) ↔
      ∃ scoresByRequest, requests.mapM (requestScores score) = .ok scoresByRequest ∧
        scattered = before ++ scoresByRequest := by
  induction requests generalizing before with
  | nil =>
    constructor
    · rintro ⟨scores, -, rfl⟩
      exact ⟨[], rfl, rfl⟩
    · rintro ⟨scoresByRequest, hscores, rfl⟩
      cases hscores
      exact ⟨[], rfl, rfl⟩
  | cons request requests ih =>
    have hrows : requestRowsFrom before.length (request :: requests) =
        requestRows before.length request ++ requestRowsFrom (before.length + 1) requests := by
      simp [requestRowsFrom, zipIdx_cons]
    -- The rows of the first request fill its place; the others start after it.
    have hfold : ∀ first rest,
        (requestRows before.length request).mapM (scoreRow score) = .ok first →
        ((requestRows before.length request ++
            requestRowsFrom (before.length + 1) requests).zip (first ++ rest)).foldl scatterScores
          (before ++ [] :: requests.map fun _ => []) =
        ((requestRowsFrom (before.length + 1) requests).zip rest).foldl scatterScores
          ((before ++ [(request.presentations.map fun presentation =>
            presentation.rotation).zip first]) ++ requests.map fun _ => []) := by
      intro first rest hfirst
      rw [zip_append (forall₂_of_mapM hfirst).length_eq, foldl_append, requestRows,
        foldl_scatterScores_rows]
      simp
    have ih := fun first => ih (before ++ [(request.presentations.map fun presentation =>
      presentation.rotation).zip first])
    simp only [length_append, length_singleton] at ih
    rw [hrows, map_cons]
    constructor
    · rintro ⟨scores, hscores, hscattered⟩
      obtain ⟨first, rest, hfirst, hrest, rfl⟩ := mapM_append_eq_ok_iff.1 hscores
      obtain ⟨scoresByRequest, hby, hscattered⟩ :=
        (ih first).1 ⟨rest, hrest, hscattered.trans (hfold first rest hfirst)⟩
      refine ⟨_ :: scoresByRequest, ?_, hscattered.trans (append_assoc ..)⟩
      rw [mapM_cons, requestScores_eq_ok_iff.2 ⟨first, hfirst, rfl⟩, hby]
      rfl
    · rintro ⟨scoresByRequest, hscores, hscattered⟩
      rw [mapM_cons] at hscores
      obtain ⟨own, hown, hscores⟩ := bind_eq_ok.1 hscores
      obtain ⟨others, hothers, hscores⟩ := bind_eq_ok.1 hscores
      cases hscores
      obtain ⟨first, hfirst, rfl⟩ := (@requestScores_eq_ok_iff K score before.length _ _).1 hown
      obtain ⟨rest, hrest, hrests⟩ := (ih first).2
        ⟨others, hothers, hscattered.trans (append_assoc before [_] others).symm⟩
      exact ⟨first ++ rest, mapM_append_eq_ok_iff.2 ⟨first, rest, hfirst, hrest, rfl⟩,
        hrests.trans (hfold first rest hfirst).symm⟩

end Chunks

/-! ## The decisions -/

section Selection

variable [Field K] [LinearOrder K] (library : FloatLibrary K)

/-- The decision of a request from its scores. -/
def decideRequest (request : EncodedRuliadProofActionRequest) (candidateCount : ℕ)
    (presentationScores : List (ℕ × List K)) : Except String (RuliadProofActionDecision K) := do
  let orbit ← semanticActionOrbitSummary library presentationScores candidateCount
  let selectedSemanticIndex ← okOr (bestCandidateIndex orbit.averagedLogProbs)
    "typed proof-action scores have no finite candidate"
  let first ← okOr request.presentations.head? "validated request has a presentation"
  let tokens ← selectedCompletionTokens first selectedSemanticIndex
  return ⟨selectedSemanticIndex, tokens, orbit⟩

/-- `select_ruliad_proof_actions_batch_with_scoring`. -/
def selectRuliadProofActionsBatch (scoreBatch : ScoreBatch K)
    (requests : List EncodedRuliadProofActionRequest) (maxBatchRows : ℕ) :
    Except String (List (RuliadProofActionDecision K)) :=
  if requests.isEmpty then .ok []
  else if hrows : maxBatchRows = 0 then
    .error "typed proof-action scoring requires a positive row bound"
  else do
    let candidateCounts ← requests.mapM validateEncodedActionRequest
    let (_, scoresByRequest) ← scorePresentations scoreBatch maxBatchRows hrows []
      (requests.map fun _ => []) (flatPresentations requests)
    ((requests.zip candidateCounts).zip scoresByRequest).mapM fun row =>
      decideRequest library row.1.1 row.1.2 row.2

/-- The decision of a request from the scores of its own presentations. -/
def requestDecision
    (score : RuliadProofActionAnswerContract → List ℤ → List (List ℤ) → Except String (List K))
    (request : EncodedRuliadProofActionRequest) : Except String (RuliadProofActionDecision K) := do
  let candidateCount ← validateEncodedActionRequest request
  let presentationScores ← requestScores score request
  decideRequest library request candidateCount presentationScores

variable {library} {requests : List EncodedRuliadProofActionRequest}

theorem decideRequests_eq_ok_iff {decisions : List (RuliadProofActionDecision K)} :
    (∃ candidateCounts, requests.mapM validateEncodedActionRequest = .ok candidateCounts ∧
      ∃ scoresByRequest, requests.mapM (requestScores score) = .ok scoresByRequest ∧
        ((requests.zip candidateCounts).zip scoresByRequest).mapM (fun row =>
          decideRequest library row.1.1 row.1.2 row.2) = .ok decisions) ↔
      List.Forall₂ (fun request decision => requestDecision library score request = .ok decision)
        requests decisions := by
  induction requests generalizing decisions with
  | nil =>
    rw [forall₂_nil_left_iff]
    constructor
    · rintro ⟨candidateCounts, hcounts, scoresByRequest, hscores, hdecisions⟩
      cases hcounts
      cases hscores
      cases hdecisions
      rfl
    · rintro rfl
      exact ⟨[], rfl, [], rfl, rfl⟩
  | cons request requests ih =>
    constructor
    · rintro ⟨candidateCounts, hcounts, scoresByRequest, hscores, hdecisions⟩
      rw [mapM_cons] at hcounts hscores
      obtain ⟨count, hcount, hcounts⟩ := bind_eq_ok.1 hcounts
      obtain ⟨counts, hrestCounts, heq⟩ := bind_eq_ok.1 hcounts
      cases heq
      obtain ⟨own, hown, hscores⟩ := bind_eq_ok.1 hscores
      obtain ⟨others, hothers, heq⟩ := bind_eq_ok.1 hscores
      cases heq
      rw [zip_cons_cons, zip_cons_cons, mapM_cons] at hdecisions
      obtain ⟨decision, hdecision, hdecisions⟩ := bind_eq_ok.1 hdecisions
      obtain ⟨rest, hrest, heq⟩ := bind_eq_ok.1 hdecisions
      cases heq
      refine .cons ?_ (ih.1 ⟨counts, hrestCounts, others, hothers, hrest⟩)
      exact bind_eq_ok.2 ⟨count, hcount, bind_eq_ok.2 ⟨own, hown, hdecision⟩⟩
    · intro h
      cases h with
      | cons hdecision hrest =>
        obtain ⟨counts, hcounts, others, hothers, hrest⟩ := ih.2 hrest
        obtain ⟨count, hcount, hdecision⟩ := bind_eq_ok.1 hdecision
        obtain ⟨own, hown, hdecision⟩ := bind_eq_ok.1 hdecision
        refine ⟨count :: counts, ?_, own :: others, ?_, ?_⟩
        · rw [mapM_cons, hcount, hcounts]
          rfl
        · rw [mapM_cons, hown, hothers]
          rfl
        · rw [zip_cons_cons, zip_cons_cons, mapM_cons]
          exact bind_eq_ok.2 ⟨_, hdecision, bind_eq_ok.2 ⟨_, hrest, rfl⟩⟩

/-- **The batch decides every request as it is decided from its own scores.** -/
theorem selectRuliadProofActionsBatch_eq_ok_iff (hbatch : ScoresRows scoreBatch score)
    {maxBatchRows : ℕ} (hrows : 1 ≤ maxBatchRows) {decisions : List (RuliadProofActionDecision K)} :
    selectRuliadProofActionsBatch library scoreBatch requests maxBatchRows = .ok decisions ↔
      List.Forall₂ (fun request decision => requestDecision library score request = .ok decision)
        requests decisions := by
  have hpos : maxBatchRows ≠ 0 := ne_of_gt hrows
  have hflat : flatPresentations requests = requestRowsFrom 0 requests := rfl
  rw [← decideRequests_eq_ok_iff, selectRuliadProofActionsBatch, dif_neg hpos]
  split
  · rename_i hempty
    obtain rfl := isEmpty_iff.1 hempty
    constructor
    · rintro heq
      cases heq
      exact ⟨[], rfl, [], rfl, rfl⟩
    · rintro ⟨candidateCounts, hcounts, scoresByRequest, hscores, hdecisions⟩
      cases hcounts
      cases hscores
      exact hdecisions
  rw [bind_eq_ok]
  refine exists_congr fun candidateCounts => and_congr_right fun hcounts => ?_
  constructor
  · intro h
    obtain ⟨⟨calls, scattered⟩, hscore, hdecisions⟩ := bind_eq_ok.1 h
    obtain ⟨-, scores, hscores, hscattered⟩ := scorePresentations_spec hbatch hscore
    obtain ⟨scoresByRequest, hby, hsame⟩ :=
      (scattered_eq_ok_iff requests []).1 ⟨scores, hscores, hscattered⟩
    obtain rfl : scattered = scoresByRequest := hsame
    exact ⟨scattered, hby, hdecisions⟩
  · rintro ⟨scoresByRequest, hby, hdecisions⟩
    obtain ⟨scores, hscores, hscattered⟩ := (scattered_eq_ok_iff requests []).2
      ⟨scoresByRequest, hby, rfl⟩
    obtain ⟨⟨calls, scattered⟩, hscore⟩ := exists_scorePresentations hbatch hpos []
      (requests.map fun _ => []) ⟨scores, hflat ▸ hscores⟩
    obtain ⟨-, scores', hscores', rfl⟩ := scorePresentations_spec hbatch hscore
    obtain rfl : scores = scores' := Except.ok.inj (hscores.symm.trans hscores')
    refine bind_eq_ok.2 ⟨_, hscore, ?_⟩
    obtain rfl : scoresByRequest = ((flatPresentations requests).zip scores).foldl scatterScores
        (requests.map fun _ => []) := hscattered
    exact hdecisions

end Selection

/-! ## One request -/

section Requests

variable {candidateCount : ℕ}

theorem validateEncodedActionRequest_eq_ok_iff {request : EncodedRuliadProofActionRequest} :
    validateEncodedActionRequest request = .ok candidateCount ↔
      request.presentations ≠ [] ∧ 2 ≤ candidateCount ∧
        ∀ presentation ∈ request.presentations, presentation.promptTokens ≠ [] ∧
          presentation.candidateTokens.length = candidateCount ∧
            ∀ candidate ∈ presentation.candidateTokens, candidate ≠ [] := by
  rw [validateEncodedActionRequest, bind_eq_ok]
  cases hpresentations : request.presentations with
  | nil => simp [okOr]
  | cons first rest =>
    have hall : ∀ count, (first :: rest).any (fun presentation =>
        presentation.promptTokens.isEmpty || presentation.candidateTokens.length != count ||
          presentation.candidateTokens.any List.isEmpty) = false ↔
        ∀ presentation ∈ first :: rest, presentation.promptTokens ≠ [] ∧
          presentation.candidateTokens.length = count ∧
            ∀ candidate ∈ presentation.candidateTokens, candidate ≠ [] := by
      intro count
      simp only [List.any_eq_false, Bool.or_eq_true, List.isEmpty_iff, bne_iff_ne, ne_eq,
        List.any_eq_true, not_or, not_not, not_exists, not_and, and_assoc]
    simp only [head?_cons, Option.map_some, okOr_eq_ok, Option.some.injEq, ite_error_eq_ok,
      Except.ok.injEq, Bool.not_eq_true, hall, not_lt]
    constructor
    · rintro ⟨count, rfl, htwo, hvalid, rfl⟩
      exact ⟨by simp, htwo, hvalid⟩
    · rintro ⟨-, htwo, hvalid⟩
      have hfirst := (hvalid first (by simp)).2.1
      exact ⟨candidateCount, hfirst, htwo, hvalid, rfl⟩

variable {request request' : EncodedRuliadProofActionRequest}

variable {presentationScores : List (ℕ × List K)}

theorem requestScores_iff_forall₂ :
    requestScores score request = .ok presentationScores ↔
      List.Forall₂ (fun presentation scored => scored.1 = presentation.rotation ∧
          score request.answerContract presentation.promptTokens presentation.candidateTokens =
            .ok scored.2)
        request.presentations presentationScores := by
  rw [requestScores, bind_eq_ok]
  generalize request.presentations = presentations
  constructor
  · rintro ⟨scores, hscores, heq⟩
    obtain rfl := Except.ok.inj heq
    have hall := forall₂_of_mapM hscores
    clear hscores heq
    induction hall with
    | nil => exact .nil
    | cons hhead _ ih => exact .cons ⟨rfl, hhead⟩ ih
  · intro hall
    induction hall with
    | nil => exact ⟨[], rfl, rfl⟩
    | @cons presentation scored presentations presentationScores hhead _ ih =>
      obtain ⟨scores, hscores, heq⟩ := ih
      refine ⟨scored.2 :: scores, ?_, ?_⟩
      · rw [mapM_cons, hhead.2, hscores]
        rfl
      · rw [← Except.ok.inj heq, map_cons, zip_cons_cons, ← hhead.1]
        rfl

/-- The scores of the same presentations in another order. -/
theorem requestScores_perm (hperm : request'.presentations.Perm request.presentations)
    (hcontract : request'.answerContract = request.answerContract)
    (h : requestScores score request = .ok presentationScores) :
    ∃ presentationScores', requestScores score request' = .ok presentationScores' ∧
      presentationScores'.Perm presentationScores := by
  obtain ⟨presentationScores', hscores, hperm⟩ :=
    perm_comp_forall₂ hperm (requestScores_iff_forall₂.1 h)
  rw [← hcontract] at hscores
  exact ⟨presentationScores', requestScores_iff_forall₂.2 hscores, hperm⟩

/-- The request whose canonical menu is the one that is named after its rotation by `k`. -/
def renamedRequest (candidateCount k : ℕ) (request : EncodedRuliadProofActionRequest) :
    EncodedRuliadProofActionRequest :=
  { request with
    presentations := request.presentations.map fun presentation =>
      { presentation with
        rotation := renamedRotation candidateCount k presentation.rotation } }

theorem requestScores_renamed (candidateCount k : ℕ)
    (h : requestScores score request = .ok presentationScores) :
    requestScores score (renamedRequest candidateCount k request) =
      .ok (renamedScores candidateCount k presentationScores) := by
  refine requestScores_iff_forall₂.2 ?_
  rw [renamedRequest, renamedScores, forall₂_map_left_iff, forall₂_map_right_iff]
  refine (requestScores_iff_forall₂.1 h).imp fun presentation scored hscored => ?_
  exact ⟨congrArg (renamedRotation candidateCount k) hscored.1, hscored.2⟩

/-- Every presentation is the menu in its rotation. -/
def PresentsMenu (canonical : List (List ℤ)) (request : EncodedRuliadProofActionRequest) : Prop :=
  ∀ presentation ∈ request.presentations,
    presentation.candidateTokens = canonical.rotate presentation.rotation

variable {canonical : List (List ℤ)}

theorem selectedCompletionTokens_of_rotate {presentation : EncodedRuliadProofActionPresentation}
    (hmenu : presentation.candidateTokens = canonical.rotate presentation.rotation) (i : ℕ) :
    selectedCompletionTokens presentation i =
      if h : i < canonical.length then .ok (canonical.get ⟨i, h⟩)
      else .error "typed proof-action semantic index exceeds the candidate set" := by
  rw [selectedCompletionTokens, hmenu, length_rotate]
  by_cases hi : i < canonical.length
  · have hpos := zero_lt_of_lt hi
    have hrotation := mod_lt presentation.rotation hpos
    rw [dif_pos hi, if_neg (Nat.not_le_of_lt hi), okOr_eq_ok,
      getElem?_rotate (mod_lt _ hpos), ← add_mod_mod, mod_add_mod,
      show i + canonical.length - presentation.rotation % canonical.length +
        presentation.rotation % canonical.length = i + canonical.length by omega,
      add_mod_right, mod_eq_of_lt hi]
    exact getElem?_eq_getElem hi
  · rw [dif_neg hi, if_pos (Nat.le_of_not_lt hi)]

variable [Field K] [LinearOrder K] {library : FloatLibrary K}

theorem exists_selectedCompletionTokens {presentation : EncodedRuliadProofActionPresentation}
    {i : ℕ} (hi : i < presentation.candidateTokens.length) :
    ∃ tokens, selectedCompletionTokens presentation i = .ok tokens := by
  rw [selectedCompletionTokens, if_neg (Nat.not_le_of_lt hi)]
  exact ⟨_, okOr_eq_ok.2 (getElem?_eq_getElem (Nat.mod_lt _ (Nat.zero_lt_of_lt hi)))⟩

/-- A request has a decision when its scores have a summary. -/
theorem exists_requestDecision (hvalid : validateEncodedActionRequest request = .ok candidateCount)
    (hscores : requestScores score request = .ok presentationScores)
    (horbit : OrbitScores library candidateCount presentationScores) :
    ∃ decision, requestDecision library score request = .ok decision := by
  obtain ⟨summary, hsummary⟩ := horbit.exists_summary
  have hlength : summary.averagedLogProbs.length = candidateCount := by
    rw [(semanticActionOrbitSummary_spec hsummary).2, normalizedLogProbs, length_map,
      length_orbitAverages horbit.length_eq]
  have hne : summary.averagedLogProbs ≠ [] := by
    have := horbit.two_le
    exact ne_nil_of_length_pos (by omega)
  obtain ⟨index, hlt, hindex⟩ := bestCandidateIndex_isSome hne
  obtain ⟨hpresentations, -, hall⟩ := validateEncodedActionRequest_eq_ok_iff.1 hvalid
  obtain ⟨first, rest, hfirst⟩ := exists_cons_of_ne_nil hpresentations
  obtain ⟨tokens, htokens⟩ := @exists_selectedCompletionTokens first index (by
    rw [(hall first (by simp [hfirst])).2.1, ← hlength]
    exact hlt)
  refine ⟨⟨index, tokens, summary⟩, ?_⟩
  rw [requestDecision, hvalid]
  refine bind_eq_ok.2 ⟨_, rfl, bind_eq_ok.2 ⟨_, hscores, ?_⟩⟩
  refine bind_eq_ok.2 ⟨_, hsummary, bind_eq_ok.2 ⟨index, okOr_eq_ok.2 hindex, ?_⟩⟩
  exact bind_eq_ok.2 ⟨first, okOr_eq_ok.2 (by rw [hfirst]; rfl), bind_eq_ok.2 ⟨_, htokens, rfl⟩⟩

variable {decision : RuliadProofActionDecision K}

section

variable (h : requestDecision library score request = .ok decision)
include h

theorem requestDecision_spec :
    ∃ candidateCount presentationScores first,
      validateEncodedActionRequest request = .ok candidateCount ∧
      requestScores score request = .ok presentationScores ∧
      OrbitScores library candidateCount presentationScores ∧
      request.presentations.head? = some first ∧
      decision.orbit.averagedLogProbs =
        normalizedLogProbs library (orbitAverages library candidateCount presentationScores) ∧
      bestCandidateIndex decision.orbit.averagedLogProbs = some decision.selectedSemanticIndex ∧
      selectedCompletionTokens first decision.selectedSemanticIndex =
        .ok decision.selectedCompletionTokens := by
  rw [requestDecision, bind_eq_ok] at h
  obtain ⟨candidateCount, hvalid, h⟩ := h
  obtain ⟨presentationScores, hscores, h⟩ := bind_eq_ok.1 h
  obtain ⟨orbit, horbit, h⟩ := bind_eq_ok.1 h
  obtain ⟨index, hindex, h⟩ := bind_eq_ok.1 h
  obtain ⟨first, hfirst, h⟩ := bind_eq_ok.1 h
  obtain ⟨tokens, htokens, h⟩ := bind_eq_ok.1 h
  cases h
  obtain ⟨hscored, haveraged⟩ := semanticActionOrbitSummary_spec horbit
  exact ⟨candidateCount, presentationScores, first, hvalid, hscores, hscored, okOr_eq_ok.1 hfirst,
    haveraged, okOr_eq_ok.1 hindex, htokens⟩

/-- **The order of the presentations** does not matter to the index. -/
theorem requestDecision_perm (hperm : request'.presentations.Perm request.presentations)
    (hcontract : request'.answerContract = request.answerContract) :
    ∃ decision', requestDecision library score request' = .ok decision' ∧
      decision'.selectedSemanticIndex = decision.selectedSemanticIndex ∧
      decision'.orbit.averagedLogProbs = decision.orbit.averagedLogProbs := by
  obtain ⟨candidateCount, presentationScores, first, hvalid, hscores, horbit, -, haveraged, hindex,
    -⟩ := requestDecision_spec h
  obtain ⟨presentationScores', hscores', hpermScores⟩ := requestScores_perm hperm hcontract hscores
  have hvalid' : validateEncodedActionRequest request' = .ok candidateCount := by
    obtain ⟨hne, htwo, hall⟩ := validateEncodedActionRequest_eq_ok_iff.1 hvalid
    exact validateEncodedActionRequest_eq_ok_iff.2
      ⟨fun hnil => hne (perm_nil.1 (hnil ▸ hperm).symm), htwo,
        fun presentation hmem => hall presentation (hperm.mem_iff.1 hmem)⟩
  obtain ⟨decision', hdecision'⟩ :=
    exists_requestDecision hvalid' hscores' (horbit.perm hpermScores.symm)
  refine ⟨decision', hdecision', ?_⟩
  obtain ⟨count, scores, -, hcount, hscores'', -, -, haveraged', hindex', -⟩ :=
    requestDecision_spec hdecision'
  obtain rfl : candidateCount = count := Except.ok.inj (hvalid'.symm.trans hcount)
  obtain rfl : presentationScores' = scores := Except.ok.inj (hscores'.symm.trans hscores'')
  have hsame : decision'.orbit.averagedLogProbs = decision.orbit.averagedLogProbs := by
    rw [haveraged', haveraged, orbitAverages_perm hpermScores]
  rw [hsame] at hindex'
  exact ⟨Option.some.inj (hindex'.symm.trans hindex), hsame⟩

/-- **The completion** is the entry of the menu at the selected index. -/
theorem requestDecision_completion (hmenu : PresentsMenu canonical request) :
    canonical[decision.selectedSemanticIndex]? = some decision.selectedCompletionTokens := by
  obtain ⟨-, -, first, -, -, -, hfirst, -, -, htokens⟩ := requestDecision_spec h
  rw [selectedCompletionTokens_of_rotate (hmenu first (mem_of_mem_head? hfirst))] at htokens
  split at htokens
  · rename_i hlt
    exact List.getElem?_eq_some_iff.2 ⟨hlt, Except.ok.inj htokens⟩
  · cases htokens

end

theorem PresentsMenu.length_eq (hmenu : PresentsMenu canonical request)
    (hvalid : validateEncodedActionRequest request = .ok candidateCount) :
    canonical.length = candidateCount := by
  obtain ⟨hne, -, hall⟩ := validateEncodedActionRequest_eq_ok_iff.1 hvalid
  obtain ⟨first, hfirst⟩ := exists_mem_of_ne_nil _ hne
  rw [← (hall first hfirst).2.1, hmenu first hfirst, length_rotate]

theorem rotate_renamedRotation {α : Type*} {canonical : List α} (hpos : 0 < canonical.length)
    (k rotation : ℕ) :
    (canonical.rotate k).rotate (renamedRotation canonical.length k rotation) =
      canonical.rotate rotation := by
  have hk := mod_lt k hpos
  rw [rotate_rotate, ← rotate_mod, ← rotate_mod canonical rotation, renamedRotation,
    add_mod_mod, ← mod_add_mod k]
  congr 1
  rw [show k % canonical.length + (rotation + (canonical.length - k % canonical.length)) =
    rotation + canonical.length by omega, add_mod_right]

theorem PresentsMenu.renamed (hmenu : PresentsMenu canonical request) (hpos : 0 < canonical.length)
    (k : ℕ) :
    PresentsMenu (canonical.rotate k) (renamedRequest canonical.length k request) := by
  intro presentation hmem
  obtain ⟨original, horiginal, rfl⟩ := mem_map.1 hmem
  exact (hmenu original horiginal).trans (rotate_renamedRotation hpos k original.rotation).symm

theorem validateEncodedActionRequest_renamed
    (hvalid : validateEncodedActionRequest request = .ok candidateCount) (count k : ℕ) :
    validateEncodedActionRequest (renamedRequest count k request) = .ok candidateCount := by
  obtain ⟨hne, htwo, hall⟩ := validateEncodedActionRequest_eq_ok_iff.1 hvalid
  refine validateEncodedActionRequest_eq_ok_iff.2
    ⟨fun hnil => hne (map_eq_nil_iff.1 hnil), htwo, fun presentation hmem => ?_⟩
  obtain ⟨original, horiginal, rfl⟩ := mem_map.1 hmem
  exact hall original horiginal

/-- **Another name of the menu**: the same completion is selected when it is the only best one. -/
theorem requestDecision_renamed (h : requestDecision library score request = .ok decision)
    (hmenu : PresentsMenu canonical request)
    (hmax : UniqueMax decision.orbit.averagedLogProbs decision.selectedSemanticIndex) (k : ℕ) :
    ∃ decision', requestDecision library score (renamedRequest canonical.length k request) =
        .ok decision' ∧
      decision'.selectedCompletionTokens = decision.selectedCompletionTokens := by
  obtain ⟨candidateCount, presentationScores, -, hvalid, hscores, horbit, -, haveraged, -, -⟩ :=
    requestDecision_spec h
  have hcount := hmenu.length_eq hvalid
  subst hcount
  have hpos := zero_lt_of_lt horbit.two_le
  have hvalid' := validateEncodedActionRequest_renamed hvalid canonical.length k
  have hscores' := requestScores_renamed canonical.length k hscores
  obtain ⟨decision', hdecision'⟩ := exists_requestDecision hvalid' hscores' (horbit.renamed k)
  refine ⟨decision', hdecision', ?_⟩
  obtain ⟨count, scores, -, hcount, hscores'', -, -, haveraged', hindex', -⟩ :=
    requestDecision_spec hdecision'
  obtain rfl : canonical.length = count := Except.ok.inj (hvalid'.symm.trans hcount)
  obtain rfl := Except.ok.inj (hscores'.symm.trans hscores'')
  have hlength : decision.orbit.averagedLogProbs.length = canonical.length := by
    rw [haveraged, normalizedLogProbs, length_map, length_orbitAverages horbit.length_eq]
  -- The averages are rotated with the menu, and so is the place of the best one.
  have hrotated : decision'.orbit.averagedLogProbs = decision.orbit.averagedLogProbs.rotate k := by
    rw [haveraged', haveraged, orbitAverages_renamed k hpos horbit.length_eq,
      normalizedLogProbs_rotate]
  rw [hrotated] at hindex'
  have hplace := bestCandidateIndex_rotate hmax k hindex'
  rw [hlength] at hplace
  have hcompletion := requestDecision_completion h hmenu
  have hcompletion' := requestDecision_completion hdecision' (hmenu.renamed hpos k)
  have hlt : decision'.selectedSemanticIndex < canonical.length := by
    have := (List.getElem?_eq_some_iff.1 hcompletion').1
    rwa [length_rotate] at this
  rw [getElem?_rotate hlt, hplace, hcompletion] at hcompletion'
  exact (Option.some.inj hcompletion').symm

end Requests

end BurnDragon.Training
