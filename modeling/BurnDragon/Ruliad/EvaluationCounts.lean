import BurnDragon.Ruliad.Evaluation

/-!
# What an evaluation counts

Every outcome has one status, and the totals and the groups of a report count the statuses of the
outcomes that they are about.

* `OutcomeCounts` are the counts that the totals and the groups have in common, and
  `OutcomeCounts.ofOutcomes` says what a list of outcomes is counted as.
* `EvalTotals.counts_foldl_add` and `counts_of_mem_scores` say that the totals and the groups count
  so.
* `evaluation_adds_up`: in the totals and in every group the counts partition the items, and the
  family groups sum to the totals.
-/

namespace BurnDragon.Ruliad

open Rust List EvalState ScoredItem

/-! ## Outcomes -/

variable {expected : List Char}

section Status

variable {S : Serde} {actual : List Char} {problem : RuliadProofProblem}
  {oracleCertificate : RuliadProofCertificate} {score : AnswerFieldScore}

theorem scoreConstructedProof_status
    (h : scoreConstructedProof S actual problem oracleCertificate = .ok score) :
    score.status ≠ .missing := by
  unfold scoreConstructedProof at h
  split at h
  · cases h
    nofun
  · split at h
    · cases h
      nofun
    · obtain ⟨report, -, h⟩ := bind_eq_ok.1 h
      cases h
      dsimp only
      split_ifs <;> nofun

theorem scoreFormalActionAnswer_status (proofStepIndex rotation : Option ℕ)
    (answerContract : RuliadProofActionAnswerContract) :
    (scoreFormalActionAnswer S actual problem oracleCertificate proofStepIndex rotation
      answerContract).status ≠ .missing := by
  unfold scoreFormalActionAnswer
  split
  · nofun
  · dsimp only
    split
    · split_ifs <;> nofun
    · dsimp only
      split_ifs <;> nofun

theorem scoreFormalTransitionAnswer_status {proofStepIndex : Option ℕ}
    (h : scoreFormalTransitionAnswer S actual problem oracleCertificate proofStepIndex =
      .ok score) : score.status ≠ .missing := by
  unfold scoreFormalTransitionAnswer at h
  split at h
  · cases h
    nofun
  · split at h
    · cases h
      nofun
    · cases h
      nofun
    · split at h
      · cases h
        nofun
      · dsimp only at h
        split at h
        · cases h
          nofun
        · split at h
          · cases h
            nofun
          · split at h
            · cases h
              nofun
            · obtain ⟨candidate, -, h⟩ := bind_eq_ok.1 h
              obtain ⟨report, -, h⟩ := bind_eq_ok.1 h
              cases h
              dsimp only
              split_ifs <;> nofun

theorem scoreFormalCertificateAnswer_status {spec : Option RuliadSampleSpec}
    (h : scoreFormalCertificateAnswer S actual spec = .ok (some score)) :
    score.status ≠ .missing := by
  unfold scoreFormalCertificateAnswer at h
  split at h
  · split at h
    · obtain ⟨score', hscore, h⟩ := bind_eq_ok.1 h
      cases h
      exact scoreFormalTransitionAnswer_status hscore
    · cases h
      exact scoreFormalActionAnswer_status _ _ _
    · obtain ⟨score', hscore, h⟩ := bind_eq_ok.1 h
      cases h
      exact scoreConstructedProof_status hscore
    · cases h
  · cases h

theorem scoreAnswerPairs_status (expectedPairs actualPairs : BTreeMap String String)
    (hashCanary : Bool) :
    (scoreAnswerPairs expectedPairs actualPairs hashCanary).status ≠ .missing := by
  dsimp only [scoreAnswerPairs]
  split_ifs <;> nofun

theorem scoreAnswerText_status (expected actual : List Char) (hashCanary : Bool) :
    (scoreAnswerText expected actual hashCanary).status ≠ .missing := by
  dsimp only [scoreAnswerText]
  split_ifs <;> nofun

/-- An answer is never scored as missing. -/
theorem scoreAnswerFields_status {overflowChecks hashCanary : Bool} {P : Packages}
    {spec : Option RuliadSampleSpec}
    (h : scoreAnswerFields overflowChecks P expected actual hashCanary spec = .ok score) :
    score.status ≠ .missing := by
  unfold scoreAnswerFields at h
  obtain ⟨formal, hformal, h⟩ := bind_eq_ok.1 h
  cases formal with
  | some formal =>
    cases h
    exact scoreFormalCertificateAnswer_status hformal
  | none =>
    dsimp only at h
    split_ifs at h
    · obtain ⟨verified, -, h⟩ := bind_eq_ok.1 h
      cases h
      dsimp only
      split_ifs <;> nofun
    · split at h
      · cases h
        exact scoreAnswerPairs_status _ _ _
      · cases h
        nofun
      · cases h
        exact scoreAnswerText_status _ _ _

end Status

variable {overflowChecks : Bool} {E : EvalPackages}

section Consistent

variable {spec : Option RuliadSampleSpec} {certificate : List (List Char)}
  {parsed : Option RuliadExtractedCompletion} {score : RuliadReasoningScore}

theorem reasoningScore_le {parts : AnswerFieldScore} {a b c d : ℕ} {canary terminated : Bool} :
    (reasoningScore parts a b c canary terminated d).correctFieldCount ≤
        (reasoningScore parts a b c canary terminated d).expectedFieldCount ∧
      (reasoningScore parts a b c canary terminated d).observedFieldCount ≤
        (reasoningScore parts a b c canary terminated d).expectedFieldCount :=
  ⟨min_le_right _ _, min_le_right _ _⟩

section

variable (h : scoreRuliadCompletionParts overflowChecks E spec expected certificate parsed = .ok
    score)
include h

/-- The fields that are correct, and those that are given, are among the expected ones. -/
theorem scoreRuliadCompletionParts_le :
    score.correctFieldCount ≤ score.expectedFieldCount ∧
      score.observedFieldCount ≤ score.expectedFieldCount := by
  unfold scoreRuliadCompletionParts at h
  split at h
  · cases h
    exact reasoningScore_le
  · split at h
    · cases h
      exact reasoningScore_le
    · obtain ⟨answerScore, -, h⟩ := bind_eq_ok.1 h
      cases h
      dsimp only
      exact reasoningScore_le

/-- A completion without an answer is malformed, and only no completion is missing. -/
theorem scoreRuliadCompletionParts_status :
    (score.status = .missing ↔ parsed = none) ∧
      ∀ completion, parsed = some completion → completion.answer = none →
        score.status = .malformed := by
  unfold scoreRuliadCompletionParts at h
  split at h
  · cases h
    exact ⟨⟨fun _ => rfl, fun _ => rfl⟩, nofun⟩
  · rename_i completion
    split at h
    · cases h
      exact ⟨⟨nofun, nofun⟩, fun _ _ _ => rfl⟩
    · rename_i answer hanswer
      obtain ⟨answerScore, hscore, h⟩ := bind_eq_ok.1 h
      cases h
      refine ⟨⟨fun hstatus => absurd hstatus (scoreAnswerFields_status hscore), nofun⟩, ?_⟩
      rintro _ ⟨⟩ hnone
      rw [hanswer] at hnone
      cases hnone

end

/-- The flags of an outcome agree with the status of its score. -/
structure EvalOutcome.Consistent (outcome : EvalOutcome) : Prop where
  malformed : outcome.malformed = decide (outcome.reasoningScore.status = .malformed)
  missing : outcome.missing = decide (outcome.reasoningScore.status = .missing)
  semantic : outcome.exactMatch → outcome.semanticMatch
  correct_le : outcome.reasoningScore.correctFieldCount ≤ outcome.reasoningScore.expectedFieldCount
  observed_le :
    outcome.reasoningScore.observedFieldCount ≤ outcome.reasoningScore.expectedFieldCount

theorem ruliadAnswersSemanticMatch_of_exactMatch {actual : List Char}
    (h : ruliadAnswersExactMatch expected actual) : ruliadAnswersSemanticMatch expected actual := by
  rw [ruliadAnswersSemanticMatch, if_pos h]

/-- **The outcome of an item is consistent.** -/
theorem scoreItem_consistent {item : RuliadEvalItem} {completion : Option String}
    {outcome : EvalOutcome} (h : scoreItem overflowChecks E item completion = .ok outcome) :
    outcome.Consistent := by
  unfold scoreItem at h
  obtain ⟨score, hscore, h⟩ := bind_eq_ok.1 h
  obtain ⟨expected, -, hscore⟩ := bind_eq_ok.1 hscore
  obtain ⟨hcorrect, hobserved⟩ := scoreRuliadCompletionParts_le hscore
  obtain ⟨hmissing, hmalformed⟩ := scoreRuliadCompletionParts_status hscore
  split at h
  · cases h
    exact ⟨by simp [hmissing.2 rfl], by simp [hmissing.2 rfl], nofun, hcorrect, hobserved⟩
  · have hstatus : score.status ≠ .missing := fun hstatus => nomatch hmissing.1 hstatus
    dsimp only at h
    split at h
    · rename_i hanswer
      cases h
      have hstatus := hmalformed _ rfl hanswer
      exact ⟨by simp [hstatus], by simp [hstatus], nofun, hcorrect, hobserved⟩
    · rename_i actual _
      obtain rfl := Except.ok.inj h
      have hexact : ruliadAnswersExactMatch item.expectedAnswer.toList actual →
          ruliadAnswersSemanticMatch item.expectedAnswer.toList actual :=
        ruliadAnswersSemanticMatch_of_exactMatch
      have hpresent : false = decide (score.status = .missing) := (decide_eq_false hstatus).symm
      refine ⟨rfl, hpresent, ?_, hcorrect, hobserved⟩
      dsimp only
      exact hexact

end Consistent

/-! ## Counts -/

/-- The counts that the totals and the groups of a report have in common. -/
@[ext] structure OutcomeCounts where
  items : ℕ
  exactMatch : ℕ
  semanticMatch : ℕ
  verifierMatch : ℕ
  partialCredit : ℕ
  schemaValidWrong : ℕ
  malformed : ℕ
  missing : ℕ
  answerTerminated : ℕ
  fieldsCorrect : ℕ
  fieldsExpected : ℕ
  fieldsObserved : ℕ
  presentedExpected : ℕ
  presentedMatch : ℕ

namespace OutcomeCounts

/-- The sum of counts, of which those of fields and of presented actions saturate. -/
def sum (counts : List OutcomeCounts) : OutcomeCounts where
  items := (counts.map items).sum
  exactMatch := (counts.map exactMatch).sum
  semanticMatch := (counts.map semanticMatch).sum
  verifierMatch := (counts.map verifierMatch).sum
  partialCredit := (counts.map partialCredit).sum
  schemaValidWrong := (counts.map schemaValidWrong).sum
  malformed := (counts.map malformed).sum
  missing := (counts.map missing).sum
  answerTerminated := (counts.map answerTerminated).sum
  fieldsCorrect := min (counts.map fieldsCorrect).sum usizeMax
  fieldsExpected := min (counts.map fieldsExpected).sum usizeMax
  fieldsObserved := min (counts.map fieldsObserved).sum usizeMax
  presentedExpected := min (counts.map presentedExpected).sum usizeMax
  presentedMatch := min (counts.map presentedMatch).sum usizeMax

/-- What one outcome is counted as. -/
def ofOutcome (outcome : EvalOutcome) : OutcomeCounts where
  items := 1
  exactMatch := bit outcome.exactMatch
  semanticMatch := bit outcome.semanticMatch
  verifierMatch := bit outcome.reasoningScore.verifierMatch
  partialCredit := bit outcome.reasoningScore.partialCredit
  schemaValidWrong := bit (outcome.reasoningScore.status = .schemaValidWrong)
  malformed := bit outcome.malformed
  missing := bit outcome.missing
  answerTerminated := bit outcome.answerTerminated
  fieldsCorrect := outcome.reasoningScore.correctFieldCount
  fieldsExpected := outcome.reasoningScore.expectedFieldCount
  fieldsObserved := outcome.reasoningScore.observedFieldCount
  presentedExpected := bit outcome.presentedActionMatch.isSome
  presentedMatch := bit (outcome.presentedActionMatch.getD false)

/-- What a list of outcomes is counted as. -/
def ofOutcomes (outcomes : List EvalOutcome) : OutcomeCounts := sum (outcomes.map ofOutcome)

variable {ls : List (List OutcomeCounts)} {counts counts' : List OutcomeCounts}

theorem sum_perm (h : counts.Perm counts') : sum counts = sum counts' := by
  ext <;> simp only [sum, (h.map _).sum_eq]

/-- A sum of sums that saturate saturates like the sum of all. -/
theorem min_sum_map_min {α : Type*} (f : α → ℕ) (ls : List (List α)) (bound : ℕ) :
    min (ls.map fun l => min (l.map f).sum bound).sum bound = min (ls.flatten.map f).sum bound := by
  induction ls with
  | nil => rfl
  | cons l ls ih =>
    rw [map_cons, sum_cons, flatten_cons, map_append, sum_append]
    omega

/-- **The sum of sums** is the sum of all counts. -/
theorem sum_map_sum : sum (ls.map sum) = sum ls.flatten := by
  have hplain : ∀ f : OutcomeCounts → ℕ,
      (ls.map fun l => (l.map f).sum).sum = (ls.flatten.map f).sum := fun f => by
    rw [map_flatten, sum_flatten, map_map]
    rfl
  ext <;> simp only [sum, map_map, Function.comp_def, hplain, min_sum_map_min]

/-- The counts after one more outcome, as the accumulators compute them. -/
def push (counts : OutcomeCounts) (outcome : EvalOutcome) : OutcomeCounts :=
  let reasoning := outcome.reasoningScore
  { items := counts.items + 1
    exactMatch := counts.exactMatch + bit outcome.exactMatch
    semanticMatch := counts.semanticMatch + bit outcome.semanticMatch
    verifierMatch := counts.verifierMatch + bit reasoning.verifierMatch
    partialCredit := counts.partialCredit + bit reasoning.partialCredit
    schemaValidWrong := counts.schemaValidWrong + bit (reasoning.status = .schemaValidWrong)
    malformed := counts.malformed + bit outcome.malformed
    missing := counts.missing + bit outcome.missing
    answerTerminated := counts.answerTerminated + bit outcome.answerTerminated
    fieldsCorrect := saturatingAdd counts.fieldsCorrect reasoning.correctFieldCount
    fieldsExpected := saturatingAdd counts.fieldsExpected reasoning.expectedFieldCount
    fieldsObserved := saturatingAdd counts.fieldsObserved reasoning.observedFieldCount
    presentedExpected := match outcome.presentedActionMatch with
      | some _ => saturatingAdd counts.presentedExpected 1
      | none => counts.presentedExpected
    presentedMatch := match outcome.presentedActionMatch with
      | some isMatch => saturatingAdd counts.presentedMatch (bit isMatch)
      | none => counts.presentedMatch }

theorem ofOutcomes_concat (outcomes : List EvalOutcome) (outcome : EvalOutcome) :
    ofOutcomes (outcomes ++ [outcome]) = (ofOutcomes outcomes).push outcome := by
  have hsaturate : ∀ a b : ℕ, min (a + b) usizeMax = saturatingAdd (min a usizeMax) b := by
    unfold saturatingAdd
    omega
  ext
  case presentedExpected =>
    simp only [ofOutcomes, sum, push, map_append, sum_append, map_cons, map_nil,
      sum_singleton, ofOutcome]
    cases outcome.presentedActionMatch
    · rfl
    · exact hsaturate _ _
  case presentedMatch =>
    simp only [ofOutcomes, sum, push, map_append, sum_append, map_cons, map_nil,
      sum_singleton, ofOutcome]
    cases outcome.presentedActionMatch
    · rfl
    · exact hsaturate _ _
  all_goals
    simp only [ofOutcomes, sum, push, map_append, sum_append, map_cons, map_nil,
      sum_singleton, ofOutcome, hsaturate]

/-- An accumulator that pushes the outcomes counts them. -/
theorem foldl_push (outcomes : List EvalOutcome) :
    outcomes.foldl push (ofOutcomes []) = ofOutcomes outcomes := by
  induction outcomes using List.reverseRecOn with
  | nil => rfl
  | append_singleton outcomes outcome ih => rw [foldl_concat, ih, ofOutcomes_concat]

/-! ## Balance -/

/-- The number of outcomes with a status. -/
def countStatus (status : RuliadAnswerStatus) (outcomes : List EvalOutcome) : ℕ :=
  outcomes.countP fun outcome => outcome.reasoningScore.status = status

/-- The counts of a list of outcomes: each status is counted in one place, where partial credit is
given to the correct outcomes, semantic matches and verifier matches, as well. -/
structure Balanced (counts : OutcomeCounts) (outcomes : List EvalOutcome) : Prop where
  items : counts.items = outcomes.length
  partialCredit : counts.partialCredit = countStatus .partial_ outcomes +
    (countStatus .semanticMatch outcomes + countStatus .verifierMatch outcomes)
  verifierMatch : counts.verifierMatch = countStatus .verifierMatch outcomes
  schemaValidWrong : counts.schemaValidWrong = countStatus .schemaValidWrong outcomes
  malformed : counts.malformed = countStatus .malformed outcomes
  missing : counts.missing = countStatus .missing outcomes
  partition : counts.partialCredit + counts.schemaValidWrong + counts.malformed + counts.missing =
    counts.items
  exactMatch_le : counts.exactMatch ≤ counts.semanticMatch
  fieldsCorrect_le : counts.fieldsCorrect ≤ counts.fieldsExpected
  fieldsObserved_le : counts.fieldsObserved ≤ counts.fieldsExpected

theorem sum_map_bit {α : Type*} (p : α → Bool) (xs : List α) :
    (xs.map fun x => bit (p x)).sum = xs.countP p := by
  induction xs with
  | nil => rfl
  | cons x xs ih =>
    rw [map_cons, sum_cons, ih, countP_cons, bit, Nat.add_comm]

/-- Every outcome has one status. -/
theorem countStatus_partition (outcomes : List EvalOutcome) :
    countStatus .partial_ outcomes +
        (countStatus .semanticMatch outcomes + countStatus .verifierMatch outcomes) +
        countStatus .schemaValidWrong outcomes + countStatus .malformed outcomes +
        countStatus .missing outcomes = outcomes.length := by
  induction outcomes with
  | nil => rfl
  | cons outcome outcomes ih =>
    simp only [countStatus, countP_cons, length_cons] at ih ⊢
    cases outcome.reasoningScore.status <;> simp <;> omega

theorem countP_partialCredit (outcomes : List EvalOutcome) :
    (outcomes.countP fun outcome => outcome.reasoningScore.partialCredit) =
      countStatus .partial_ outcomes +
        (countStatus .semanticMatch outcomes + countStatus .verifierMatch outcomes) := by
  induction outcomes with
  | nil => rfl
  | cons outcome outcomes ih =>
    simp only [countStatus, countP_cons, RuliadReasoningScore.partialCredit] at ih ⊢
    cases outcome.reasoningScore.status <;> simp at ih ⊢ <;> omega

/-- **The counts of consistent outcomes are balanced.** -/
theorem balanced_ofOutcomes {outcomes : List EvalOutcome}
    (h : ∀ outcome ∈ outcomes, outcome.Consistent) : (ofOutcomes outcomes).Balanced outcomes := by
  have hsum : ∀ f : OutcomeCounts → ℕ,
      ((outcomes.map ofOutcome).map f).sum = (outcomes.map fun o => f (ofOutcome o)).sum := by
    intro f
    rw [map_map]
    rfl
  have hstatus : ∀ (flag : EvalOutcome → Bool) (status : RuliadAnswerStatus),
      (∀ o ∈ outcomes, flag o = decide (o.reasoningScore.status = status)) →
        (outcomes.map fun o => bit (flag o)).sum = countStatus status outcomes := by
    intro flag status hflag
    rw [countStatus, ← sum_map_bit]
    exact congrArg List.sum (map_congr_left fun o ho => congrArg bit (hflag o ho))
  have hle : ∀ f g : EvalOutcome → ℕ, (∀ o ∈ outcomes, f o ≤ g o) →
      (outcomes.map f).sum ≤ (outcomes.map g).sum := fun f g => sum_le_sum
  have hitems : (ofOutcomes outcomes).items = outcomes.length :=
    (hsum _).trans (by simp [ofOutcome])
  have hcredit : (ofOutcomes outcomes).partialCredit = countStatus .partial_ outcomes +
      (countStatus .semanticMatch outcomes + countStatus .verifierMatch outcomes) :=
    (hsum _).trans ((sum_map_bit _ _).trans (countP_partialCredit outcomes))
  have hverifier : (ofOutcomes outcomes).verifierMatch = countStatus .verifierMatch outcomes :=
    (hsum _).trans (hstatus _ _ fun _ _ => rfl)
  have hwrong : (ofOutcomes outcomes).schemaValidWrong = countStatus .schemaValidWrong outcomes :=
    (hsum _).trans (hstatus _ _ fun _ _ => rfl)
  have hmalformed : (ofOutcomes outcomes).malformed = countStatus .malformed outcomes :=
    (hsum _).trans (hstatus _ _ fun o ho => (h o ho).malformed)
  have hmissing : (ofOutcomes outcomes).missing = countStatus .missing outcomes :=
    (hsum _).trans (hstatus _ _ fun o ho => (h o ho).missing)
  refine ⟨hitems, hcredit, hverifier, hwrong, hmalformed, hmissing, ?_, ?_, ?_, ?_⟩
  · rw [hcredit, hwrong, hmalformed, hmissing, hitems, countStatus_partition]
  · refine ((hsum _).trans_le (hle _ _ fun o ho => ?_)).trans_eq (hsum _).symm
    cases hexact : o.exactMatch
    · simp [ofOutcome, hexact, bit]
    · simp [ofOutcome, hexact, (h o ho).semantic hexact]
  · refine min_le_min_right _ (((hsum _).trans_le (hle _ _ fun o ho => ?_)).trans_eq (hsum _).symm)
    exact (h o ho).correct_le
  · refine min_le_min_right _ (((hsum _).trans_le (hle _ _ fun o ho => ?_)).trans_eq (hsum _).symm)
    exact (h o ho).observed_le

end OutcomeCounts

/-! ## Accumulators -/

/-- The counts of a group. -/
def EvalAccumulator.counts (score : EvalAccumulator) : OutcomeCounts where
  items := score.count
  exactMatch := score.exactMatchCount
  semanticMatch := score.semanticMatchCount
  verifierMatch := score.verifierMatchCount
  partialCredit := score.partialCreditCount
  schemaValidWrong := score.schemaValidWrongCount
  malformed := score.malformedCompletionCount
  missing := score.missingCompletionCount
  answerTerminated := score.answerTerminatedCount
  fieldsCorrect := score.answerFieldCorrectCount
  fieldsExpected := score.answerFieldExpectedCount
  fieldsObserved := score.answerFieldObservedCount
  presentedExpected := score.presentedActionExpectedCount
  presentedMatch := score.presentedActionMatchCount

/-- The counts of the totals, with the number of items. -/
def EvalTotals.counts (totals : EvalTotals) (items : ℕ) : OutcomeCounts where
  items
  exactMatch := totals.exactMatchCount
  semanticMatch := totals.semanticMatchCount
  verifierMatch := totals.verifierMatchCount
  partialCredit := totals.partialCreditCount
  schemaValidWrong := totals.schemaValidWrongCount
  malformed := totals.malformedCompletionCount
  missing := totals.missingCompletionCount
  answerTerminated := totals.answerTerminatedCount
  fieldsCorrect := totals.answerFieldCorrectCount
  fieldsExpected := totals.answerFieldExpectedCount
  fieldsObserved := totals.answerFieldObservedCount
  presentedExpected := totals.presentedActionExpectedCount
  presentedMatch := totals.presentedActionMatchCount

theorem EvalAccumulator.counts_add (score : EvalAccumulator) (item : RuliadEvalItem)
    (outcome : EvalOutcome) : (score.add item outcome).counts = score.counts.push outcome := rfl

theorem EvalTotals.counts_add (totals : EvalTotals) (n : ℕ) (item : RuliadEvalItem)
    (completion : Option String) (outcome : EvalOutcome) :
    (totals.add item completion outcome).counts (n + 1) = (totals.counts n).push outcome := rfl

/-- The accumulator of a group counts the outcomes of its items. -/
theorem EvalAccumulator.counts_foldl_add (scored : List ScoredItem) :
    (scored.foldl (fun score s => score.add s.item s.outcome) {} : EvalAccumulator).counts =
      .ofOutcomes (scored.map outcome) := by
  rw [← OutcomeCounts.foldl_push, foldl_map]
  refine (foldl_hom EvalAccumulator.counts fun score s => ?_).symm
  exact (counts_add score s.item s.outcome).symm

/-- The totals count all outcomes. -/
theorem EvalTotals.counts_foldl_add (scored : List ScoredItem) :
    ((scored.foldl EvalState.add {}).totals).counts scored.length =
      .ofOutcomes (scored.map outcome) := by
  induction scored using List.reverseRecOn with
  | nil => rfl
  | append_singleton scored s ih =>
    rw [foldl_concat, map_append, map_singleton, OutcomeCounts.ofOutcomes_concat,
      ← ih, length_append, length_singleton]
    exact counts_add _ _ _ _ _

/-! ## Groups -/

/-- The groupings of the items that a report scores. -/
inductive EvalGrouping
  | family
  | task
  | difficulty
  | answerContract
  | source
  | mathDomain
  | reasoningMode

/-- The labels of an item in a grouping. -/
def ScoredItem.labels (scored : ScoredItem) : EvalGrouping → List String
  | .family => [scored.item.family]
  | .task => [scored.item.taskKind]
  | .difficulty => scored.item.difficultyLevel.toList.map fun level => "d" ++ decimal level
  | .answerContract => [scored.answerContract]
  | .source => [ruliadSourceCapabilityLabel scored.item.family scored.item.taskKind
      (scored.item.difficultyLevel.getD 0) scored.answerContract]
  | .mathDomain => scored.item.mathDomains
  | .reasoningMode => scored.item.reasoningModes

/-- The accumulators of a grouping. -/
def EvalState.scores (state : EvalState) : EvalGrouping → BTreeMap String EvalAccumulator
  | .family => state.familyScores
  | .task => state.taskScores
  | .difficulty => state.difficultyScores
  | .answerContract => state.answerContractScores
  | .source => state.sourceScores
  | .mathDomain => state.mathDomainScores
  | .reasoningMode => state.reasoningModeScores

/-- The scores of a grouping. -/
def RuliadEvalReport.scores (report : RuliadEvalReport) :
    EvalGrouping → List RuliadEvalGroupScore
  | .family => report.familyScores
  | .task => report.taskScores
  | .difficulty => report.difficultyScores
  | .answerContract => report.answerContractScores
  | .source => report.sourceScores
  | .mathDomain => report.mathDomainScores
  | .reasoningMode => report.reasoningModeScores

/-- The counts of all items. -/
def RuliadEvalReport.counts (report : RuliadEvalReport) : OutcomeCounts :=
  report.toEvalTotals.counts report.itemCount

/-- The items with their labels in a grouping. -/
def labelledItems (grouping : EvalGrouping) (scored : List ScoredItem) :
    List (String × ScoredItem) :=
  scored.flatMap fun s => (s.labels grouping).map fun label => (label, s)

/-- The items of a group, an item that has the label more than once as often as it has it. -/
def groupItems (grouping : EvalGrouping) (label : String) (scored : List ScoredItem) :
    List ScoredItem :=
  ((labelledItems grouping scored).filter fun labelled => labelled.1 = label).map Prod.snd

variable {scored : List ScoredItem}

section Groups

variable {grouping : EvalGrouping} {group : RuliadEvalGroupScore}

theorem mem_of_mem_groupItems {label : String} {s : ScoredItem}
    (h : s ∈ groupItems grouping label scored) : s ∈ scored := by
  simp only [groupItems, labelledItems, mem_map, mem_filter, mem_flatMap] at h
  obtain ⟨_, ⟨⟨s', hs', _, _, rfl⟩, -⟩, rfl⟩ := h
  exact hs'

theorem labelledItems_cons (s : ScoredItem) : labelledItems grouping (s :: scored) =
    ((s.labels grouping).map fun label => (label, s)) ++ labelledItems grouping scored :=
  flatMap_cons

/-- An item is added to the groups of its labels. -/
theorem EvalState.scores_add (state : EvalState) (s : ScoredItem) (grouping : EvalGrouping) :
    (state.add s).scores grouping =
      (s.labels grouping).foldl (fun scores label => addGroupScore scores label s.item s.outcome)
        (state.scores grouping) := by
  cases grouping
  case difficulty =>
    simp only [scores, add, labels]
    cases s.item.difficultyLevel <;> rfl
  all_goals rfl

/-- The accumulator of a group is that of the group's items. -/
theorem EvalState.scores_foldl_add (grouping : EvalGrouping) (scored : List ScoredItem) :
    (scored.foldl add {}).scores grouping =
      (BTreeMap.groupBy Prod.fst (labelledItems grouping scored)).mapValues
        (List.foldl (fun score labelled => score.add labelled.2.item labelled.2.outcome) {}) := by
  have hfold : ∀ state : EvalState, (scored.foldl add state).scores grouping =
      (labelledItems grouping scored).foldl (fun scores labelled =>
        scores.alter labelled.1 {} (·.add labelled.2.item labelled.2.outcome))
        (state.scores grouping) := by
    induction scored with
    | nil => exact fun _ => rfl
    | cons s scored ih =>
      intro state
      rw [foldl_cons, ih, scores_add, labelledItems_cons, foldl_append, foldl_map]
      rfl
  rw [hfold, ← BTreeMap.foldl_alter]
  cases grouping <;> rfl

/-- The scores of a grouping are those of its groups. -/
theorem map_counts_finalizeGroupScores (grouping : EvalGrouping) (scored : List ScoredItem) :
    (finalizeGroupScores ((scored.foldl add {}).scores grouping)).map
        (fun group => (group.label, group.counts)) =
      (BTreeMap.groupBy Prod.fst (labelledItems grouping scored)).entries.map fun e =>
        (e.1, .ofOutcomes (e.2.map fun labelled => labelled.2.outcome)) := by
  rw [finalizeGroupScores, scores_foldl_add, BTreeMap.mapValues, map_map, map_map]
  refine map_congr_left fun e _ => Prod.ext rfl ?_
  have hcounts := EvalAccumulator.counts_foldl_add (e.2.map Prod.snd)
  rwa [foldl_map, map_map] at hcounts

/-- **The score of a group counts the outcomes of the group's items.** -/
theorem counts_of_mem_scores
    (h : group ∈ finalizeGroupScores ((scored.foldl add {}).scores grouping)) :
    group.counts =
      .ofOutcomes ((groupItems grouping group.label scored).map outcome) := by
  have hmem := mem_map_of_mem (f := fun group => (group.label, group.counts)) h
  rw [map_counts_finalizeGroupScores, mem_map] at hmem
  obtain ⟨⟨label, members⟩, hmem, heq⟩ := hmem
  obtain ⟨hlabel, hcounts⟩ := Prod.mk.inj heq
  rw [groupItems, map_map, ← hcounts, ← hlabel, BTreeMap.eq_filter_of_mem_groupBy hmem]
  rfl

/-- The groups of a grouping with one label for each item sum to all items. -/
theorem sum_counts_of_labels (grouping : EvalGrouping) {label : ScoredItem → String}
    (hlabels : ∀ s, s.labels grouping = [label s]) :
    OutcomeCounts.sum ((finalizeGroupScores ((scored.foldl add {}).scores grouping)).map
        fun group => group.counts) = .ofOutcomes (scored.map outcome) := by
  have hlabelled : labelledItems grouping scored = scored.map fun s => (label s, s) := by
    simp only [labelledItems, hlabels, map_cons, map_nil]
    exact (map_eq_flatMap ..).symm
  have hcounts := congrArg (List.map Prod.snd) (map_counts_finalizeGroupScores grouping scored)
  rw [map_map, map_map] at hcounts
  have hgroups : ((BTreeMap.groupBy Prod.fst (labelledItems grouping scored)).entries.flatMap
      Prod.snd).Perm (labelledItems grouping scored) := BTreeMap.flatMap_groupBy_perm
  have hperm := hgroups.map fun labelled => OutcomeCounts.ofOutcome labelled.2.outcome
  calc OutcomeCounts.sum ((finalizeGroupScores
        ((scored.foldl add {}).scores grouping)).map fun group => group.counts)
      = OutcomeCounts.sum (((BTreeMap.groupBy Prod.fst (labelledItems grouping scored)).entries.map
          fun e => e.2.map fun labelled => OutcomeCounts.ofOutcome labelled.2.outcome).map
            OutcomeCounts.sum) := by
        refine congrArg OutcomeCounts.sum (hcounts.trans ?_)
        rw [map_map]
        refine map_congr_left fun e _ => ?_
        exact congrArg OutcomeCounts.sum (map_map ..)
    _ = OutcomeCounts.sum ((labelledItems grouping scored).map
          fun labelled => OutcomeCounts.ofOutcome labelled.2.outcome) := by
        rw [OutcomeCounts.sum_map_sum, ← flatMap_def, ← map_flatMap]
        exact OutcomeCounts.sum_perm hperm
    _ = .ofOutcomes (scored.map outcome) := by
        rw [hlabelled, map_map, OutcomeCounts.ofOutcomes, map_map]
        rfl

end Groups

/-! ## Reports -/

section Reports

variable {datasetName : String} {items : List RuliadEvalItem}
  {completions : List RuliadCompletionRecord} {report : RuliadEvalReport}

/-- A loop that adds what it computes for each item computes the items first. -/
theorem foldlM_add_eq_ok {ε σ α β : Type} {f : α → Except ε β} {add : σ → β → σ} {xs : List α}
    {state state' : σ}
    (h : xs.foldlM (fun state x => do return add state (← f x)) state = .ok state') :
    ∃ ys, xs.mapM f = .ok ys ∧ ys.foldl add state = state' := by
  induction xs generalizing state with
  | nil =>
    cases h
    exact ⟨[], rfl, rfl⟩
  | cons x xs ih =>
    rw [foldlM_cons] at h
    obtain ⟨next, hnext, h⟩ := bind_eq_ok.1 h
    obtain ⟨y, hy, hnext⟩ := bind_eq_ok.1 hnext
    cases hnext
    obtain ⟨ys, hys, hstate⟩ := ih h
    refine ⟨y :: ys, ?_, hstate⟩
    rw [mapM_cons, hy, hys]
    rfl

/-- A report is made from the scored items. -/
theorem evaluateCompletions_eq_ok
    (h : evaluateCompletions overflowChecks E datasetName items completions = .ok report) :
    ∃ scored, items.mapM (scoreEvalItem overflowChecks E (completionByHash completions)) =
        .ok scored ∧
      report.toEvalTotals = (scored.foldl add {}).totals ∧
      report.itemCount = items.length ∧
      ∀ grouping, report.scores grouping =
        finalizeGroupScores ((scored.foldl add {}).scores grouping) := by
  unfold evaluateCompletions at h
  obtain ⟨state, hstate, h⟩ := bind_eq_ok.1 h
  obtain ⟨scored, hscored, rfl⟩ := foldlM_add_eq_ok hstate
  cases h
  exact ⟨scored, hscored, rfl, rfl, fun grouping => by cases grouping <;> rfl⟩

theorem consistent_of_scored
    (h : items.mapM (scoreEvalItem overflowChecks E (completionByHash completions)) = .ok scored) :
    ∀ s ∈ scored, s.outcome.Consistent := by
  intro s hs
  obtain ⟨i, hi⟩ := mem_iff_getElem?.1 hs
  obtain ⟨item, -, hitem⟩ := getElem?_of_mapM h hi
  obtain ⟨outcome, houtcome, hitem⟩ := bind_eq_ok.1 hitem
  obtain ⟨answerContract, -, hitem⟩ := bind_eq_ok.1 hitem
  cases hitem
  exact scoreItem_consistent houtcome

/-- **The bookkeeping of an evaluation adds up**: in the totals and in every group the outcomes with
partial credit, among them the correct ones, the wrong ones of the right schema, the malformed and
the missing ones partition the items; the correct fields and the given ones are at most the expected
ones; and the family groups sum to the totals. -/
theorem evaluation_adds_up
    (h : evaluateCompletions overflowChecks E datasetName items completions = .ok report) :
    ∃ scored, items.mapM (scoreEvalItem overflowChecks E (completionByHash completions)) =
        .ok scored ∧
      report.counts.Balanced (scored.map ScoredItem.outcome) ∧
      (∀ grouping, ∀ group ∈ report.scores grouping,
        group.counts.Balanced ((groupItems grouping group.label scored).map ScoredItem.outcome)) ∧
      OutcomeCounts.sum (report.familyScores.map fun group => group.counts) = report.counts := by
  obtain ⟨scored, hscored, htotals, hitems, hscores⟩ := evaluateCompletions_eq_ok h
  have hconsistent := consistent_of_scored hscored
  have hcounts : report.counts = .ofOutcomes (scored.map ScoredItem.outcome) := by
    rw [RuliadEvalReport.counts, htotals, hitems, ← length_of_mapM hscored]
    exact EvalTotals.counts_foldl_add scored
  refine ⟨scored, hscored, ?_, ?_, ?_⟩
  · rw [hcounts]
    refine OutcomeCounts.balanced_ofOutcomes ?_
    simpa using hconsistent
  · intro grouping group hgroup
    rw [hscores] at hgroup
    rw [counts_of_mem_scores hgroup]
    refine OutcomeCounts.balanced_ofOutcomes ?_
    simp only [List.forall_mem_map]
    exact fun s hs => hconsistent s (mem_of_mem_groupItems hs)
  · rw [hcounts, ← sum_counts_of_labels .family fun _ => rfl]
    exact congrArg (fun scores => OutcomeCounts.sum (scores.map fun group => group.counts))
      (hscores .family)

/-- An item whose answer is a pair. -/
def pairItem (oracleHash family expectedAnswer : String) : RuliadEvalItem :=
  ⟨oracleHash, family, "check_algebra_law", ["universal_algebra"], [], expectedAnswer, some 1, none⟩

/-- A right, a wrong and a missing completion. -/
theorem evaluation_adds_up_three : ∃ (scored : List ScoredItem) (report : RuliadEvalReport),
    evaluateCompletions false (.ofDigest "") "sample"
      [pairItem "a" "algebra" "ok=1", pairItem "b" "algebra" "ok=1", pairItem "c" "category" "ok=0"]
      [⟨"a", "ok=1"⟩, ⟨"b", "ok=0"⟩] = .ok report ∧
    report.counts.Balanced (scored.map ScoredItem.outcome) ∧
    OutcomeCounts.sum (report.familyScores.map fun group => group.counts) = report.counts := by
  obtain ⟨report, hreport⟩ : ∃ report, evaluateCompletions false (.ofDigest "") "sample"
      [pairItem "a" "algebra" "ok=1", pairItem "b" "algebra" "ok=1", pairItem "c" "category" "ok=0"]
      [⟨"a", "ok=1"⟩, ⟨"b", "ok=0"⟩] = .ok report := ⟨_, rfl⟩
  obtain ⟨scored, -, htotal, -, hfamilies⟩ := evaluation_adds_up hreport
  exact ⟨scored, report, hreport, htotal, hfamilies⟩

end Reports

end BurnDragon.Ruliad
