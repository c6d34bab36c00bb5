import BurnDragon.Ruliad.FrontierEvidence

/-!
# Better evidence

Evidence is better than other evidence on the same items when it holds no fewer successes of the
verifier and of completion, and no more wrong, malformed and missing answers (`Better`). Over the
real numbers the bounds of the evidence follow its rate (`RateLe.wilsonLower_le`,
`RateLe.wilsonUpper_le`), so what is mastered on the worse evidence is mastered on the better one
(`Better.mastered`). Reports that spread the items of one over several add the same evidence
(`SplitsInto.evidenceFor_eq`).
-/

namespace BurnDragon.Ruliad

open Rust Probability List BernoulliEvidence RuliadCapabilityFeedback

/-! ## The order of evidence -/

section Order

variable {K : Type*} [LinearOrder K]

/-- The same items, with no more successes. -/
structure RateLe (p q : BernoulliEvidence K) : Prop where
  observationMass_eq : p.observationMass = q.observationMass
  successMass_le : p.successMass ≤ q.successMass

/-- No worse for mastery, on the same items. The partial credit does not matter for mastery. -/
structure Better (better worse : RuliadCapabilityPosterior K) : Prop where
  verifier : RateLe worse.verifier better.verifier
  completionHealth : RateLe worse.completionHealth better.completionHealth
  schemaWrong : RateLe better.schemaWrong worse.schemaWrong
  malformed : RateLe better.malformed worse.malformed
  missing : RateLe better.missing worse.missing

/-- A report with the label and the items of another, and rates that are no worse. -/
structure Improves (better worse : RuliadCapabilityFeedback K) : Prop where
  groupLabel_eq : better.groupLabel = worse.groupLabel
  itemCount_eq : better.itemCount = worse.itemCount
  verifierRate_le : worse.verifierRate ≤ better.verifierRate
  completionHealthRate_le : worse.completionHealthRate ≤ better.completionHealthRate
  schemaValidWrongRate_le : better.schemaValidWrongRate ≤ worse.schemaValidWrongRate
  malformedRate_le : better.malformedRate ≤ worse.malformedRate
  missingRate_le : better.missingRate ≤ worse.missingRate

theorem RateLe.refl (p : BernoulliEvidence K) : RateLe p p := ⟨rfl, le_rfl⟩

theorem Better.refl (p : RuliadCapabilityPosterior K) : Better p p :=
  ⟨.refl _, .refl _, .refl _, .refl _, .refl _⟩

theorem clamp_le_clamp {x y : K} (h : x ≤ y) (lo hi : K) : clamp x lo hi ≤ clamp y lo hi :=
  max_le_max le_rfl (min_le_min h le_rfl)

/-- Better reports are on the same hashes. -/
theorem observes_iff {candidates : List (RuliadSamplerCandidate K)}
    {reports reports' : List (RuliadCapabilityFeedback K)}
    (h : List.Forall₂ Improves reports' reports) (hash : String) :
    Observes candidates reports' hash ↔ Observes candidates reports hash := by
  unfold Observes
  induction h with
  | nil => rfl
  | cons hreport _ ih =>
    rw [exists_mem_cons_iff, exists_mem_cons_iff, ih, hreport.groupLabel_eq, hreport.itemCount_eq]

variable [Field K] [IsStrictOrderedRing K]

theorem RateLe.add {p q p' q' : BernoulliEvidence K} (h : RateLe p q) (h' : RateLe p' q') :
    RateLe (p + p') (q + q') :=
  ⟨congrArg₂ (· + ·) h.1 h'.1, add_le_add h.2 h'.2⟩

theorem Better.add {p q p' q' : RuliadCapabilityPosterior K} (h : Better p q) (h' : Better p' q') :
    Better (p + p') (q + q') where
  verifier := h.verifier.add h'.verifier
  completionHealth := h.completionHealth.add h'.completionHealth
  schemaWrong := h.schemaWrong.add h'.schemaWrong
  malformed := h.malformed.add h'.malformed
  missing := h.missing.add h'.missing

theorem Better.nsmul {p q : RuliadCapabilityPosterior K} (h : Better p q) (n : ℕ) :
    Better (n • p) (n • q) := by
  induction n with
  | zero => rw [zero_nsmul, zero_nsmul]; exact .refl _
  | succ n ih => rw [succ_nsmul, succ_nsmul]; exact ih.add h

theorem rateLe_rateEvidence {rate rate' : K} (h : rate ≤ rate') (n : ℕ) :
    RateLe (rateEvidence rate n) (rateEvidence rate' n) :=
  ⟨rfl, mul_le_mul_of_nonneg_right (clamp_le_clamp h 0 1) (Nat.cast_nonneg n)⟩

theorem Improves.better {better worse : RuliadCapabilityFeedback K} (h : Improves better worse) :
    Better better.evidence worse.evidence := by
  unfold evidence
  rw [h.itemCount_eq]
  exact ⟨rateLe_rateEvidence h.verifierRate_le _, rateLe_rateEvidence h.completionHealthRate_le _,
    rateLe_rateEvidence h.schemaValidWrongRate_le _, rateLe_rateEvidence h.malformedRate_le _,
    rateLe_rateEvidence h.missingRate_le _⟩

theorem better_evidenceFor {candidates : List (RuliadSamplerCandidate K)}
    {reports reports' : List (RuliadCapabilityFeedback K)}
    (h : List.Forall₂ Improves reports' reports) (hash : String) :
    Better (evidenceFor candidates reports' hash) (evidenceFor candidates reports hash) := by
  induction h with
  | nil => exact .refl _
  | cons hreport _ ih =>
    unfold evidenceFor at ih ⊢
    rw [map_cons, map_cons, sum_cons, sum_cons, hreport.groupLabel_eq]
    exact (hreport.better.nsmul _).add ih

end Order

/-! ## Bounds over the real numbers -/

section Bounds

variable {p q : BernoulliEvidence ℝ}

theorem mean_mem (p : BernoulliEvidence ℝ) : 0 ≤ p.mean ∧ p.mean ≤ 1 := by
  unfold mean
  split_ifs
  · exact ⟨le_rfl, zero_le_one⟩
  · exact ⟨clamp_nonneg _, clamp_le_one _⟩

theorem RateLe.mean_le (h : RateLe p q) : p.mean ≤ q.mean := by
  unfold mean
  rw [h.observationMass_eq]
  split_ifs
  · exact le_rfl
  · exact clamp_le_clamp (div_le_div_of_nonneg_right h.successMass_le (Nat.cast_nonneg _)) 0 1

/-- The interval is the one of the library over its denominator. -/
theorem wilsonInterval_eq (h : p.observationMass ≠ 0) (z : ℝ) :
    p.wilsonInterval realLibrary z =
      (clamp (wilsonLow p.observationMass (max z 0) p.mean /
          (1 + max z 0 * max z 0 / p.observationMass)) 0 1,
        clamp (wilsonHigh p.observationMass (max z 0) p.mean /
          (1 + max z 0 * max z 0 / p.observationMass)) 0 1) := by
  have hn : (0 : ℝ) < p.observationMass := Nat.cast_pos.2 (Nat.pos_of_ne_zero h)
  have hradicand := wilsonRadicand_nonneg (z := max z 0) hn (mean_mem p).1 (mean_mem p).2
  unfold wilsonInterval
  simp only
  rw [if_neg h, show realLibrary.sqrt = Real.sqrt from rfl, ← sub_div, ← add_div,
    max_eq_left (a := p.mean * (1 - p.mean) / p.observationMass + _) hradicand]
  rfl

theorem wilsonDenominator_nonneg (n : ℕ) (z : ℝ) : 0 ≤ 1 + z * z / (n : ℝ) :=
  add_nonneg zero_le_one (div_nonneg (mul_self_nonneg z) (Nat.cast_nonneg n))

/-- Both bounds of the interval follow the rate. -/
theorem RateLe.wilsonInterval_le (h : RateLe p q) (z : ℝ) :
    p.wilsonInterval realLibrary z ≤ q.wilsonInterval realLibrary z := by
  by_cases hp : p.observationMass = 0
  · rw [wilsonInterval, wilsonInterval, if_pos hp,
      if_pos (h.observationMass_eq ▸ hp)]
  · rw [wilsonInterval_eq hp, wilsonInterval_eq (h.observationMass_eq ▸ hp), h.observationMass_eq]
    have hn : (0 : ℝ) < q.observationMass :=
      Nat.cast_pos.2 (Nat.pos_of_ne_zero (h.observationMass_eq ▸ hp))
    have hbound : ∀ {a b : ℝ}, a ≤ b → clamp (a / _) 0 1 ≤ clamp (b / _) 0 1 := fun hab =>
      clamp_le_clamp (div_le_div_of_nonneg_right hab
        (wilsonDenominator_nonneg q.observationMass (max z 0))) 0 1
    exact ⟨hbound (wilsonLow_mono hn (le_max_right z 0) (mean_mem p).1 h.mean_le (mean_mem q).2),
      hbound (wilsonHigh_mono hn (le_max_right z 0) (mean_mem p).1 h.mean_le (mean_mem q).2)⟩

theorem RateLe.wilsonLower_le (h : RateLe p q) (z : ℝ) :
    p.wilsonLower realLibrary z ≤ q.wilsonLower realLibrary z := (h.wilsonInterval_le z).1

theorem RateLe.wilsonUpper_le (h : RateLe p q) (z : ℝ) :
    p.wilsonUpper realLibrary z ≤ q.wilsonUpper realLibrary z := (h.wilsonInterval_le z).2

/-- **What is mastered on worse evidence is mastered on better evidence.** -/
theorem Better.mastered {better worse : RuliadCapabilityPosterior ℝ} (h : Better better worse)
    {thresholds : RuliadCapabilityMasteryThresholds ℝ}
    (hworse : worse.mastered realLibrary thresholds = true) :
    better.mastered realLibrary thresholds = true := by
  simp only [RuliadCapabilityPosterior.mastered, Bool.and_eq_true, decide_eq_true_eq] at hworse ⊢
  obtain ⟨⟨⟨⟨⟨hitems, hverifier⟩, hcompletion⟩, hschema⟩, hmalformed⟩, hmissing⟩ := hworse
  exact ⟨⟨⟨⟨⟨hitems.trans_eq h.verifier.observationMass_eq,
    hverifier.trans (h.verifier.wilsonLower_le _)⟩,
    hcompletion.trans (h.completionHealth.wilsonLower_le _)⟩,
    (h.schemaWrong.wilsonUpper_le _).trans hschema⟩,
    (h.malformed.wilsonUpper_le _).trans hmalformed⟩,
    (h.missing.wilsonUpper_le _).trans hmissing⟩

end Bounds

/-! ## Reports spread over several -/

section Spread

variable {K : Type*} [Field K]

/-- The rates of a report. -/
def feedbackRates : List (RuliadCapabilityFeedback K → K) :=
  [fun feedback => feedback.verifierRate, fun feedback => feedback.partialCreditRate,
    fun feedback => feedback.schemaValidWrongRate, fun feedback => feedback.malformedRate,
    fun feedback => feedback.missingRate, fun feedback => feedback.completionHealthRate]

/-- All rates are between zero and one. -/
def RuliadCapabilityFeedback.RatesInUnit [LinearOrder K]
    (feedback : RuliadCapabilityFeedback K) : Prop :=
  ∀ rate ∈ feedbackRates, 0 ≤ rate feedback ∧ rate feedback ≤ 1

/-- Reports for the label of one report, with its items and, weighted by items, its mean rates. -/
structure SplitsInto (report : RuliadCapabilityFeedback K)
    (parts : List (RuliadCapabilityFeedback K)) : Prop where
  groupLabel_eq : ∀ part ∈ parts, part.groupLabel = report.groupLabel
  itemCount_eq : (parts.map fun part => part.itemCount).sum = report.itemCount
  mean_eq : ∀ rate : RuliadCapabilityFeedback K → K, rate ∈ feedbackRates →
    (parts.map fun part => rate part * (part.itemCount : K)).sum = rate report * report.itemCount

variable [LinearOrder K]

theorem clamp_eq_self {x : K} (h : 0 ≤ x ∧ x ≤ 1) : clamp x 0 1 = x := by
  rw [clamp, min_eq_left h.2, max_eq_right h.1]

variable {report : RuliadCapabilityFeedback K} {parts : List (RuliadCapabilityFeedback K)}

/-- The evidence of reports, rate by rate. -/
theorem sum_evidence (parts : List (RuliadCapabilityFeedback K)) :
    (parts.map evidence).sum =
      ⟨(parts.map fun part => rateEvidence part.verifierRate part.itemCount).sum,
        (parts.map fun part => rateEvidence part.partialCreditRate part.itemCount).sum,
        (parts.map fun part => rateEvidence part.completionHealthRate part.itemCount).sum,
        (parts.map fun part => rateEvidence part.schemaValidWrongRate part.itemCount).sum,
        (parts.map fun part => rateEvidence part.malformedRate part.itemCount).sum,
        (parts.map fun part => rateEvidence part.missingRate part.itemCount).sum⟩ := by
  induction parts with
  | nil => rfl
  | cons part parts ih =>
    simp only [map_cons, sum_cons, ih]
    rfl

theorem sum_rateEvidence (rate : RuliadCapabilityFeedback K → K)
    (parts : List (RuliadCapabilityFeedback K)) :
    (parts.map fun part => rateEvidence (rate part) part.itemCount).sum =
      ⟨(parts.map fun part => clamp (rate part) 0 1 * part.itemCount).sum,
        (parts.map fun part => part.itemCount).sum⟩ := by
  induction parts with
  | nil => rfl
  | cons part parts ih =>
    simp only [map_cons, sum_cons, ih]
    rfl

section

variable (h : SplitsInto report parts) (hreport : report.RatesInUnit)
  (hparts : ∀ part ∈ parts, part.RatesInUnit)
include h hreport hparts

/-- A rate of the parts adds the evidence of the report. -/
theorem SplitsInto.sum_rateEvidence_eq {rate : RuliadCapabilityFeedback K → K}
    (hrate : rate ∈ feedbackRates) :
    (parts.map fun part => rateEvidence (rate part) part.itemCount).sum =
      rateEvidence (rate report) report.itemCount := by
  have hclamp : (parts.map fun part => clamp (rate part) 0 1 * (part.itemCount : K)) =
      parts.map fun part => rate part * part.itemCount :=
    map_congr_left fun part hpart => by rw [clamp_eq_self (hparts part hpart rate hrate)]
  rw [sum_rateEvidence, hclamp, h.mean_eq rate hrate, h.itemCount_eq, rateEvidence,
    clamp_eq_self (hreport rate hrate)]

theorem SplitsInto.sum_evidence_eq :
    (parts.map evidence).sum = report.evidence := by
  have hsum {rate : RuliadCapabilityFeedback K → K} (hrate : rate ∈ feedbackRates) :=
    h.sum_rateEvidence_eq hreport hparts hrate
  rw [sum_evidence]
  exact RuliadCapabilityPosterior.ext (hsum (by simp [feedbackRates]))
    (hsum (by simp [feedbackRates])) (hsum (by simp [feedbackRates]))
    (hsum (by simp [feedbackRates])) (hsum (by simp [feedbackRates]))
    (hsum (by simp [feedbackRates]))

end

variable {candidates : List (RuliadSamplerCandidate K)} {hash : String}

theorem evidenceFor_append (reports reports' : List (RuliadCapabilityFeedback K)) :
    evidenceFor candidates (reports ++ reports') hash =
      evidenceFor candidates reports hash + evidenceFor candidates reports' hash := by
  rw [evidenceFor, map_append, sum_append]
  rfl

omit [Field K] [LinearOrder K] in
theorem observes_append (reports reports' : List (RuliadCapabilityFeedback K)) :
    Observes candidates (reports ++ reports') hash ↔
      Observes candidates reports hash ∨ Observes candidates reports' hash := by
  simp only [Observes, mem_append, or_and_right, exists_or]

/-- The parts say about a hash what the report does. -/
theorem SplitsInto.evidenceFor_eq (h : SplitsInto report parts)
    (hreport : report.RatesInUnit) (hparts : ∀ part ∈ parts, part.RatesInUnit) :
    evidenceFor candidates parts hash = evidenceFor candidates [report] hash := by
  have hlabel : (parts.map fun part => matchCount candidates part.groupLabel hash • part.evidence) =
      parts.map fun part => matchCount candidates report.groupLabel hash • part.evidence :=
    map_congr_left fun part hpart => by rw [h.groupLabel_eq part hpart]
  rw [evidenceFor, hlabel, ← Function.comp_def, ← map_map, ← smul_sum,
    h.sum_evidence_eq hreport hparts]
  exact (add_zero _).symm

omit [LinearOrder K] in
theorem SplitsInto.observes_iff (h : SplitsInto report parts) :
    Observes candidates parts hash ↔ Observes candidates [report] hash := by
  have hitems : (∃ part ∈ parts, part.itemCount ≠ 0) ↔ report.itemCount ≠ 0 := by
    rw [← h.itemCount_eq, Ne, sum_eq_zero_iff]
    simp
  simp only [Observes, mem_singleton, exists_eq_left]
  rw [← hitems]
  constructor
  · rintro ⟨part, hpart, hne, hmatch⟩
    exact ⟨⟨part, hpart, hne⟩, h.groupLabel_eq part hpart ▸ hmatch⟩
  · rintro ⟨⟨part, hpart, hne⟩, hmatch⟩
    exact ⟨part, hpart, hne, (h.groupLabel_eq part hpart).symm ▸ hmatch⟩

end Spread

/-! ## The frontier after reports -/

section Frontier

/-- The same posteriors and the same allowed difficulty. -/
structure SameFrontier (sampler sampler' : RuliadFrontierSampler ℝ) : Prop where
  capabilityPosteriors_eq : sampler.capabilityPosteriors = sampler'.capabilityPosteriors
  allowed_eq : sampler.capabilityFrontierAllowedMaxDifficulty realLibrary =
    sampler'.capabilityFrontierAllowedMaxDifficulty realLibrary

variable {sampler : RuliadFrontierSampler ℝ} {reports reports' : List (RuliadCapabilityFeedback ℝ)}

/-- Reports with the same evidence lead to the same frontier. -/
theorem sameFrontier_of_evidence
    (hobserves : ∀ hash, Observes sampler.candidates reports hash ↔
      Observes sampler.candidates reports' hash)
    (hevidence : ∀ hash, evidenceFor sampler.candidates reports hash =
      evidenceFor sampler.candidates reports' hash) :
    SameFrontier (recordReports sampler reports) (recordReports sampler reports') := by
  classical
  have hposteriors : (recordReports sampler reports).capabilityPosteriors =
      (recordReports sampler reports').capabilityPosteriors :=
    BTreeMap.ext_get? fun hash => by
      rw [get?_recordReports, get?_recordReports, hevidence]
      simp only [hobserves]
  refine ⟨hposteriors, ?_⟩
  have hmastered : (recordReports sampler reports).masteredHash realLibrary =
      (recordReports sampler reports').masteredHash realLibrary := by
    unfold RuliadFrontierSampler.masteredHash
    rw [hposteriors, config_recordReports, config_recordReports]
  rw [allowed_eq_frontier, allowed_eq_frontier, hmastered, config_recordReports,
    config_recordReports, identities_recordReports, identities_recordReports]

/-- What is mastered after reports is mastered after better ones. -/
theorem masteredHash_of_improves (h : List.Forall₂ Improves reports' reports) {hash : String}
    (hmastered : (recordReports sampler reports).masteredHash realLibrary hash = true) :
    (recordReports sampler reports').masteredHash realLibrary hash = true := by
  classical
  unfold RuliadFrontierSampler.masteredHash at hmastered ⊢
  rw [get?_recordReports, config_recordReports] at hmastered ⊢
  simp only [observes_iff h]
  split_ifs at hmastered ⊢
  · rw [Option.any_some] at hmastered ⊢
    exact ((Better.refl _).add (better_evidenceFor h hash)).mastered hmastered
  · exact hmastered

/-- **The capability frontier depends on the evidence only**, and better evidence never lowers
it. -/
theorem frontier_dependsOnEvidence (sampler : RuliadFrontierSampler ℝ) :
    (∀ reports reports' : List (RuliadCapabilityFeedback ℝ), reports.Perm reports' →
      SameFrontier (recordReports sampler reports) (recordReports sampler reports')) ∧
    (∀ (report : RuliadCapabilityFeedback ℝ)
      (parts before after : List (RuliadCapabilityFeedback ℝ)),
      report.RatesInUnit → (∀ part ∈ parts, part.RatesInUnit) → SplitsInto report parts →
      SameFrontier (recordReports sampler (before ++ [report] ++ after))
        (recordReports sampler (before ++ parts ++ after))) ∧
    (∀ reports reports' : List (RuliadCapabilityFeedback ℝ),
      List.Forall₂ Improves reports' reports →
      Option.Rel (· ≤ ·)
        ((recordReports sampler reports).capabilityFrontierAllowedMaxDifficulty realLibrary)
        ((recordReports sampler reports').capabilityFrontierAllowedMaxDifficulty realLibrary)) := by
  refine ⟨fun reports reports' h => ?_, fun report parts before after hreport hparts h => ?_,
    fun reports reports' h => ?_⟩
  · exact sameFrontier_of_evidence (fun hash => by simp only [Observes, h.mem_iff])
      (fun hash => (h.map _).sum_eq)
  · refine sameFrontier_of_evidence (fun hash => ?_) (fun hash => ?_)
    · rw [observes_append, observes_append, observes_append, observes_append, h.observes_iff]
    · rw [evidenceFor_append, evidenceFor_append, evidenceFor_append, evidenceFor_append,
        h.evidenceFor_eq hreport hparts]
  · rw [allowed_eq_frontier, allowed_eq_frontier, config_recordReports, config_recordReports,
      identities_recordReports, identities_recordReports]
    exact frontier_mono (fun _ => masteredHash_of_improves h) _

open scoped Rust.Instances in
/-- Sixteen items ask for mastery, and one level may be skipped ahead. -/
noncomputable def evidenceConfig : RuliadSamplerConfig ℝ where
  temperature := 1
  explorationFloor := 5 / 100
  targetLoss := 2
  hashNoisePenalty := 4
  masteryEscapeWeight := 4
  masteryEscapeThreshold := 70 / 100
  masteryMinNormalizedDifficulty := 90 / 100
  masteryMinMaxDifficultyProbability := 35 / 100
  masteryHashNoiseMaxProbability := 1 / 100
  maxAnswerContractProbability := 1
  minAnswerContractProbability := 0
  capabilityFrontierMaxAhead := 1
  capabilityFrontierMaxUnverifiedProbability := 8 / 100
  capabilityRemediationWeight := 75 / 100
  capabilityFrontierMinCoverage := 1
  capabilityMastery := ⟨16, 1, 50 / 100, 75 / 100, 25 / 100, 5 / 100, 5 / 100⟩

noncomputable def evidenceCandidate (oracleHash : String) (difficultyLevel : ℕ)
    (h : difficultyLevel ≤ usizeMax) : RuliadSamplerCandidate ℝ where
  oracleHash := oracleHash
  family := ""
  taskKind := ""
  answerContract := ""
  difficultyLevel := difficultyLevel
  prior := 1
  cost := 1
  lossEma := 0
  previousLossEma := 0
  gradientAlignment := 0
  isHashNoise := false
  capabilityFeedbackCount := 0
  capabilityVerifierEma := 0
  capabilityPartialEma := 0
  capabilityCompletionHealthEma := 0
  capabilitySchemaWrongEma := 0
  capabilityMalformedEma := 0
  capabilityMissingEma := 0
  difficultyLevel_le := h

/-- An easy and a hard candidate. -/
noncomputable def evidenceSampler : RuliadFrontierSampler ℝ :=
  .start evidenceConfig [evidenceCandidate "a" 1 (by decide), evidenceCandidate "b" 5 five_le_usizeMax]

/-- Answers of the easy candidate, of which a part is verified. -/
noncomputable def evidenceReport (itemCount : ℕ) (verifierRate : ℝ) : RuliadCapabilityFeedback ℝ :=
  ⟨"a", itemCount, verifierRate, 1, 0, 0, 0, 1⟩

theorem ratesInUnit_evidenceReport {itemCount : ℕ} {verifierRate : ℝ} (h : 0 ≤ verifierRate)
    (h1 : verifierRate ≤ 1) : (evidenceReport itemCount verifierRate).RatesInUnit := by
  simp [RuliadCapabilityFeedback.RatesInUnit, feedbackRates, evidenceReport, h, h1]

theorem frontier_dependsOnEvidence_evidenceSampler :
    SameFrontier (recordReports evidenceSampler [evidenceReport 2 0, evidenceReport 16 1])
      (recordReports evidenceSampler [evidenceReport 16 1, evidenceReport 2 0]) ∧
    SameFrontier (recordReports evidenceSampler [evidenceReport 16 (1 / 2)])
      (recordReports evidenceSampler [evidenceReport 8 1, evidenceReport 8 0]) ∧
    Option.Rel (· ≤ ·)
      ((recordReports evidenceSampler
        [evidenceReport 16 (1 / 2)]).capabilityFrontierAllowedMaxDifficulty realLibrary)
      ((recordReports evidenceSampler
        [evidenceReport 16 1]).capabilityFrontierAllowedMaxDifficulty realLibrary) := by
  obtain ⟨hperm, hsplit, himprove⟩ := frontier_dependsOnEvidence evidenceSampler
  have hparts : ∀ part ∈ [evidenceReport 8 1, evidenceReport 8 0], part.RatesInUnit := by
    simp only [List.mem_cons, List.not_mem_nil, or_false, forall_eq_or_imp, forall_eq]
    exact ⟨ratesInUnit_evidenceReport zero_le_one le_rfl,
      ratesInUnit_evidenceReport le_rfl zero_le_one⟩
  have hsplits : SplitsInto (evidenceReport 16 (1 / 2))
      [evidenceReport 8 1, evidenceReport 8 0] := by
    refine ⟨?_, rfl, ?_⟩
    · simp [evidenceReport]
    · simp [feedbackRates, evidenceReport]
      norm_num
  have himproves : List.Forall₂ Improves [evidenceReport 16 1] [evidenceReport 16 (1 / 2)] := by
    refine .cons ⟨rfl, rfl, ?_, le_rfl, le_rfl, le_rfl, le_rfl⟩ .nil
    norm_num [evidenceReport]
  exact ⟨hperm _ _ (.swap ..),
    hsplit _ _ [] [] (ratesInUnit_evidenceReport (by norm_num) (by norm_num)) hparts hsplits,
    himprove _ _ himproves⟩

end Frontier

end BurnDragon.Ruliad
