import BurnDragon.Probability.Wilson
import BurnDragon.Ruliad.CapabilityLabels
import BurnDragon.Ruliad.FrontierCap

/-!
# The evidence behind the capability frontier

Capability feedback adds evidence to the posteriors of the candidates that match its label. In exact
arithmetic evidence is a commutative monoid, and the posterior of a candidate after any sequence of
reports is the sum of what they contribute (`get?_recordReports`): neither their order nor how the
items are spread over reports matters. The allowed difficulty depends on the candidates' identities
and on which of them are mastered (`allowed_eq_frontier`), grows with the mastered ones
(`frontier_mono`), and a posterior with better evidence stays mastered (`Better.mastered`).
-/

namespace BurnDragon.Ruliad

open Rust Probability List RuliadSamplerCandidate CandidateIdentity RuliadFrontierSampler Function

/-! ## Evidence as a monoid -/

section Monoid

variable {K : Type*} [Field K]

attribute [ext] BernoulliEvidence RuliadCapabilityPosterior

instance : Zero (BernoulliEvidence K) := ⟨⟨0, 0⟩⟩

instance : Add (BernoulliEvidence K) where
  add a b := ⟨a.successMass + b.successMass, a.observationMass + b.observationMass⟩

instance : AddCommMonoid (BernoulliEvidence K) where
  add_assoc _ _ _ := BernoulliEvidence.ext (add_assoc ..) (add_assoc ..)
  zero_add _ := BernoulliEvidence.ext (zero_add _) (zero_add _)
  add_zero _ := BernoulliEvidence.ext (add_zero _) (add_zero _)
  add_comm _ _ := BernoulliEvidence.ext (add_comm ..) (add_comm ..)
  nsmul := nsmulRec

@[simp] theorem BernoulliEvidence.successMass_add (a b : BernoulliEvidence K) :
    (a + b).successMass = a.successMass + b.successMass := rfl

@[simp] theorem BernoulliEvidence.observationMass_add (a b : BernoulliEvidence K) :
    (a + b).observationMass = a.observationMass + b.observationMass := rfl

@[simp] theorem BernoulliEvidence.successMass_zero :
    (0 : BernoulliEvidence K).successMass = 0 := rfl

@[simp] theorem BernoulliEvidence.observationMass_zero :
    (0 : BernoulliEvidence K).observationMass = 0 := rfl

variable [LinearOrder K]

/-- What one report adds to the evidence for a rate. -/
def rateEvidence (rate : K) (itemCount : ℕ) : BernoulliEvidence K :=
  ⟨clamp rate 0 1 * itemCount, itemCount⟩

theorem observeRate_eq_add (evidence : BernoulliEvidence K) (rate : K) (itemCount : ℕ) :
    evidence.observeRate rate itemCount = evidence + rateEvidence rate itemCount := by
  unfold BernoulliEvidence.observeRate
  split_ifs with h
  · subst h
    ext
    · simp [rateEvidence]
    · simp [rateEvidence]
  · rfl

instance : Zero (RuliadCapabilityPosterior K) := ⟨.unobserved⟩

instance : Add (RuliadCapabilityPosterior K) where
  add a b := ⟨a.verifier + b.verifier, a.partialCredit + b.partialCredit,
    a.completionHealth + b.completionHealth, a.schemaWrong + b.schemaWrong,
    a.malformed + b.malformed, a.missing + b.missing⟩

instance : AddCommMonoid (RuliadCapabilityPosterior K) where
  add_assoc _ _ _ := RuliadCapabilityPosterior.ext (add_assoc ..) (add_assoc ..) (add_assoc ..)
    (add_assoc ..) (add_assoc ..) (add_assoc ..)
  zero_add _ := RuliadCapabilityPosterior.ext (zero_add _) (zero_add _) (zero_add _) (zero_add _)
    (zero_add _) (zero_add _)
  add_zero _ := RuliadCapabilityPosterior.ext (add_zero _) (add_zero _) (add_zero _) (add_zero _)
    (add_zero _) (add_zero _)
  add_comm _ _ := RuliadCapabilityPosterior.ext (add_comm ..) (add_comm ..) (add_comm ..)
    (add_comm ..) (add_comm ..) (add_comm ..)
  nsmul := nsmulRec

/-- What a report adds to a posterior. -/
def RuliadCapabilityFeedback.evidence (feedback : RuliadCapabilityFeedback K) :
    RuliadCapabilityPosterior K where
  verifier := rateEvidence feedback.verifierRate feedback.itemCount
  partialCredit := rateEvidence feedback.partialCreditRate feedback.itemCount
  completionHealth := rateEvidence feedback.completionHealthRate feedback.itemCount
  schemaWrong := rateEvidence feedback.schemaValidWrongRate feedback.itemCount
  malformed := rateEvidence feedback.malformedRate feedback.itemCount
  missing := rateEvidence feedback.missingRate feedback.itemCount

theorem record_eq_add (posterior : RuliadCapabilityPosterior K)
    (feedback : RuliadCapabilityFeedback K) :
    posterior.record feedback = posterior + feedback.evidence :=
  RuliadCapabilityPosterior.ext (observeRate_eq_add ..) (observeRate_eq_add ..)
    (observeRate_eq_add ..) (observeRate_eq_add ..) (observeRate_eq_add ..) (observeRate_eq_add ..)

end Monoid

/-! ## Posteriors after reports -/

section Reports

variable {K : Type*} [Field K] [LinearOrder K]

/-- An entry is changed once for every item of its key. -/
theorem get?_foldl_insert {V X : Type*} (f : V → V) (default : V) (key : X → String) (xs : List X)
    (m : BTreeMap String V) (k : String) :
    (xs.foldl (fun m x => m.insert (key x) (f ((m.get? (key x)).getD default))) m).get? k =
      if xs.countP (fun x => key x = k) = 0 then m.get? k
      else some (f^[xs.countP fun x => key x = k] ((m.get? k).getD default)) := by
  induction xs generalizing m with
  | nil => simp
  | cons x xs ih =>
    rw [foldl_cons, ih, BTreeMap.get?_insert]
    by_cases hk : key x = k
    · subst hk
      rw [countP_cons_of_pos (by simp), if_pos rfl, if_neg (Nat.succ_ne_zero _),
        iterate_succ_apply, Option.getD_some]
      split_ifs with hzero
      · rw [hzero, iterate_zero_apply]
      · rfl
    · rw [countP_cons_of_neg (by simpa using hk), if_neg (Ne.symm hk)]

/-- How many candidates of a hash match a label. -/
def matchCount (candidates : List (RuliadSamplerCandidate K)) (label hash : String) : ℕ :=
  candidates.countP fun candidate =>
    candidateMatchesCapabilityFeedback candidate label && candidate.oracleHash = hash

omit [Field K] [LinearOrder K] in
/-- Counting by identity. -/
theorem countP_congr_identity {p : RuliadSamplerCandidate K → Bool}
    (hp : ∀ c d, c.identity = d.identity → p c = p d)
    {cs ds : List (RuliadSamplerCandidate K)}
    (h : cs.map identity = ds.map identity) :
    cs.countP p = ds.countP p := by
  induction cs generalizing ds with
  | nil =>
    obtain rfl : ds = [] := map_eq_nil_iff.1 h.symm
    rfl
  | cons c cs ih =>
    obtain ⟨d, ds, rfl, hd, hds⟩ := map_eq_cons_iff.1 h.symm
    rw [countP_cons, countP_cons, ih hds.symm, hp c d hd.symm]

theorem matchCount_congr {cs ds : List (RuliadSamplerCandidate K)}
    (h : cs.map identity = ds.map identity)
    (label hash : String) : matchCount cs label hash = matchCount ds label hash :=
  countP_congr_identity (fun c d hcd => by
    rw [candidateMatchesCapabilityFeedback_congr hcd,
      (mk.inj hcd).1]) h

theorem iterate_record (feedback : RuliadCapabilityFeedback K) (n : ℕ)
    (posterior : RuliadCapabilityPosterior K) :
    (fun p : RuliadCapabilityPosterior K => p.record feedback)^[n] posterior =
      posterior + n • feedback.evidence := by
  induction n with
  | zero => rw [zero_nsmul, add_zero, iterate_zero_apply]
  | succ n ih => rw [iterate_succ_apply', ih, record_eq_add, succ_nsmul, add_assoc]

/-- `record_capability_feedback`, on every report of a sequence. -/
def recordReports (sampler : RuliadFrontierSampler K)
    (reports : List (RuliadCapabilityFeedback K)) : RuliadFrontierSampler K :=
  reports.foldl (fun sampler feedback =>
    sampler.recordCapabilityFeedback candidateMatchesCapabilityFeedback feedback) sampler

variable (sampler : RuliadFrontierSampler K) (feedback : RuliadCapabilityFeedback K)

theorem config_recordCapabilityFeedback :
    (sampler.recordCapabilityFeedback candidateMatchesCapabilityFeedback feedback).config =
      sampler.config := by
  unfold recordCapabilityFeedback
  simp only
  split_ifs <;> rfl

/-- Feedback keeps the identities. -/
theorem identities_recordCapabilityFeedback :
    (sampler.recordCapabilityFeedback candidateMatchesCapabilityFeedback
      feedback).candidates.map identity =
      sampler.candidates.map identity := by
  have hrecorded : ∀ candidate : RuliadSamplerCandidate K,
      (if candidateMatchesCapabilityFeedback candidate feedback.groupLabel then
        candidate.recordFeedback feedback else candidate).identity = candidate.identity := by
    intro candidate
    split <;> rfl
  have hpromoted : ∀ (candidate : RuliadSamplerCandidate K) (loss alignment weight : K),
      (if candidateMatchesCapabilityFeedback candidate feedback.groupLabel then
        candidate.promote loss alignment weight else candidate).identity = candidate.identity := by
    intro candidate loss alignment weight
    split
    · exact identity_promote ..
    · rfl
  unfold recordCapabilityFeedback
  simp only
  split_ifs
  · rfl
  · rw [map_map]
    exact map_congr_left fun candidate _ => hrecorded candidate
  · rw [map_map, map_map]
    exact map_congr_left fun candidate _ => (hpromoted _ _ _ _).trans (hrecorded candidate)

/-- One report adds its evidence to a posterior once for every matching candidate of the hash. -/
theorem get?_recordCapabilityFeedback (hash : String) :
    (sampler.recordCapabilityFeedback candidateMatchesCapabilityFeedback
      feedback).capabilityPosteriors.get? hash =
      if feedback.itemCount = 0 ∨ matchCount sampler.candidates feedback.groupLabel hash = 0 then
        sampler.capabilityPosteriors.get? hash
      else
        some ((sampler.capabilityPosteriors.get? hash).getD 0 +
          matchCount sampler.candidates feedback.groupLabel hash • feedback.evidence) := by
  have hfold := get?_foldl_insert (fun p : RuliadCapabilityPosterior K => p.record feedback)
    .unobserved (fun candidate : RuliadSamplerCandidate K => candidate.oracleHash)
    (sampler.candidates.filter fun candidate =>
      candidateMatchesCapabilityFeedback candidate feedback.groupLabel)
    sampler.capabilityPosteriors hash
  have hcount : (sampler.candidates.filter fun candidate =>
      candidateMatchesCapabilityFeedback candidate feedback.groupLabel).countP
        (fun candidate => candidate.oracleHash = hash) =
      matchCount sampler.candidates feedback.groupLabel hash := by
    rw [countP_filter]
    refine countP_congr fun candidate _ => ?_
    simp [and_comm]
  rw [hcount, iterate_record] at hfold
  unfold recordCapabilityFeedback
  simp only
  by_cases hitems : feedback.itemCount = 0
  · rw [if_pos hitems, if_pos (.inl hitems)]
  · rw [if_neg hitems]
    simp only [hitems, false_or]
    split_ifs at hfold ⊢ <;> exact hfold

/-- The reports that say something about a hash. -/
def Observes (candidates : List (RuliadSamplerCandidate K))
    (reports : List (RuliadCapabilityFeedback K)) (hash : String) : Prop :=
  ∃ report ∈ reports, report.itemCount ≠ 0 ∧ matchCount candidates report.groupLabel hash ≠ 0

/-- The evidence of all reports on a hash. -/
def evidenceFor (candidates : List (RuliadSamplerCandidate K))
    (reports : List (RuliadCapabilityFeedback K)) (hash : String) : RuliadCapabilityPosterior K :=
  (reports.map fun report => matchCount candidates report.groupLabel hash • report.evidence).sum

theorem evidence_of_itemCount_eq_zero (h : feedback.itemCount = 0) : feedback.evidence = 0 := by
  have hrate : ∀ rate : K, rateEvidence rate feedback.itemCount = 0 := fun rate => by
    rw [h]
    ext
    · simp [rateEvidence]
    · rfl
  ext <;> simp only [RuliadCapabilityFeedback.evidence, hrate] <;> rfl

theorem config_recordReports (reports : List (RuliadCapabilityFeedback K)) :
    (recordReports sampler reports).config = sampler.config := by
  induction reports generalizing sampler with
  | nil => rfl
  | cons report reports ih => exact (ih _).trans (config_recordCapabilityFeedback sampler report)

theorem identities_recordReports (reports : List (RuliadCapabilityFeedback K)) :
    (recordReports sampler reports).candidates.map identity =
      sampler.candidates.map identity := by
  induction reports generalizing sampler with
  | nil => rfl
  | cons report reports ih =>
    exact (ih _).trans (identities_recordCapabilityFeedback sampler report)

open Classical in
/-- **The posterior of a hash after any sequence of reports** is what it was, with the evidence of
all reports. -/
theorem get?_recordReports (reports : List (RuliadCapabilityFeedback K)) (hash : String) :
    (recordReports sampler reports).capabilityPosteriors.get? hash =
      if Observes sampler.candidates reports hash then
        some ((sampler.capabilityPosteriors.get? hash).getD 0 +
          evidenceFor sampler.candidates reports hash)
      else
        sampler.capabilityPosteriors.get? hash := by
  induction reports generalizing sampler with
  | nil => rw [if_neg (fun ⟨report, hmem, _⟩ => nomatch hmem)]; rfl
  | cons report reports ih =>
    set next := sampler.recordCapabilityFeedback candidateMatchesCapabilityFeedback report
    have hmatch : ∀ label, matchCount next.candidates label hash =
        matchCount sampler.candidates label hash := fun label =>
      matchCount_congr (identities_recordCapabilityFeedback sampler report) label hash
    have hobserves : Observes next.candidates reports hash ↔
        Observes sampler.candidates reports hash := by
      simp only [Observes, hmatch]
    have hevidence : evidenceFor next.candidates reports hash =
        evidenceFor sampler.candidates reports hash := by
      simp only [evidenceFor, hmatch]
    have hcons : Observes sampler.candidates (report :: reports) hash ↔
        (report.itemCount ≠ 0 ∧ matchCount sampler.candidates report.groupLabel hash ≠ 0) ∨
          Observes sampler.candidates reports hash := by
      simp only [Observes, exists_mem_cons_iff]
    have hsum : evidenceFor sampler.candidates (report :: reports) hash =
        matchCount sampler.candidates report.groupLabel hash • report.evidence +
          evidenceFor sampler.candidates reports hash := sum_cons
    have hrun := ih next
    rw [hobserves, hevidence, get?_recordCapabilityFeedback] at hrun
    refine (show _ = _ from hrun).trans ?_
    by_cases hreport : report.itemCount = 0 ∨
        matchCount sampler.candidates report.groupLabel hash = 0
    · have hnothing :
          matchCount sampler.candidates report.groupLabel hash • report.evidence = 0 := by
        rcases hreport with h | h
        · rw [evidence_of_itemCount_eq_zero report h, nsmul_zero]
        · rw [h, zero_nsmul]
      rw [if_pos hreport, hcons, hsum, hnothing, zero_add]
      have hnot : ¬(report.itemCount ≠ 0 ∧
          matchCount sampler.candidates report.groupLabel hash ≠ 0) := by tauto
      simp only [hnot, false_or]
    · have hboth : report.itemCount ≠ 0 ∧
          matchCount sampler.candidates report.groupLabel hash ≠ 0 := by tauto
      rw [if_neg hreport, if_pos (hcons.2 (.inl hboth)), hsum, Option.getD_some]
      split_ifs with hrest
      · rw [add_assoc]
      · have hzero : evidenceFor sampler.candidates reports hash = 0 := by
          refine sum_eq_zero fun evidence hmem => ?_
          obtain ⟨other, hother, rfl⟩ := mem_map.1 hmem
          by_cases hitems : other.itemCount = 0
          · rw [evidence_of_itemCount_eq_zero other hitems, nsmul_zero]
          · have hcount : matchCount sampler.candidates other.groupLabel hash = 0 := by
              by_contra hne
              exact hrest ⟨other, hother, hitems, hne⟩
            rw [hcount, zero_nsmul]
        rw [hzero, add_zero]

end Reports

/-! ## The frontier of a set of mastered hashes -/

section Frontier

variable {K : Type*} [Field K] [LinearOrder K]

/-- The coverage of the groups that a key makes of the candidates of one difficulty. -/
def groupCoverage (mastered : String → Bool) (level : List CandidateIdentity)
    (key : CandidateIdentity → String) : K :=
  coverageRatio (((level.filter fun c => mastered c.oracleHash).map key).dedup.length)
    (level.map key).dedup.length

/-- The candidates of one difficulty are mastered as far as the configuration asks. -/
def levelMastered (config : RuliadSamplerConfig K) (mastered : String → Bool)
    (level : List CandidateIdentity) : Bool :=
  let minimum := clamp config.capabilityFrontierMinCoverage 0 1
  minimum ≤ (coverageRatio
    (((level.filter fun c => mastered c.oracleHash).map CandidateIdentity.oracleHash).dedup.length)
    level.length : K) &&
  minimum ≤ groupCoverage mastered level CandidateIdentity.family &&
  minimum ≤ groupCoverage mastered level CandidateIdentity.taskKind &&
  minimum ≤ groupCoverage mastered level fun c =>
    if c.answerContract = "" then "untyped" else c.answerContract

/-- The levels of difficulty, with whether they are mastered. -/
def masteredLevels (config : RuliadSamplerConfig K) (identities : List CandidateIdentity)
    (mastered : String → Bool) : List (ℕ × Bool) :=
  (BTreeMap.groupBy CandidateIdentity.difficultyLevel
    (identities.filter fun c => !c.isHashNoise)).entries.map fun level =>
      (level.1, levelMastered config mastered level.2)

/-- The allowed difficulty, of the identities of the candidates and the mastered hashes. -/
def frontier (config : RuliadSamplerConfig K) (identities : List CandidateIdentity)
    (mastered : String → Bool) : Option ℕ :=
  match masteredLevels config identities mastered with
  | [] => none
  | (lowest, isMastered) :: levels =>
    some (saturatingAdd
      (RuliadFrontierSampler.masteredBase lowest ((lowest, isMastered) :: levels))
      config.capabilityFrontierMaxAhead)

/-- The hashes whose posteriors meet the thresholds. -/
def RuliadFrontierSampler.masteredHash (library : FloatLibrary K)
    (sampler : RuliadFrontierSampler K) (hash : String) : Bool :=
  (sampler.capabilityPosteriors.get? hash).any fun posterior =>
    posterior.mastered library sampler.config.capabilityMastery

variable (library : FloatLibrary K) (sampler : RuliadFrontierSampler K)

/-- The coverage of candidates is that of their identities. -/
theorem coverageMastered_eq (candidates : List (RuliadSamplerCandidate K)) :
    sampler.coverageMastered library candidates =
      levelMastered sampler.config (sampler.masteredHash library)
        (candidates.map identity) := by
  set mastered := ((candidates.filter fun candidate =>
    sampler.masteredHash library candidate.oracleHash).map fun candidate =>
      candidate.oracleHash).dedup with hmastered
  have hmem : ∀ candidate ∈ candidates, candidate.oracleHash ∈ mastered ↔
      sampler.masteredHash library candidate.oracleHash = true := by
    intro candidate hcandidate
    rw [hmastered, mem_dedup, mem_map]
    constructor
    · rintro ⟨other, hother, hhash⟩
      exact hhash ▸ (mem_filter.1 hother).2
    · exact fun h => ⟨candidate, mem_filter.2 ⟨hcandidate, h⟩, rfl⟩
  have hfilter : (candidates.filter fun candidate => candidate.oracleHash ∈ mastered) =
      candidates.filter fun candidate => sampler.masteredHash library candidate.oracleHash :=
    filter_congr fun candidate hcandidate => by
      rw [Bool.eq_iff_iff, decide_eq_true_iff, hmem candidate hcandidate]
  have hcoverage : ∀ (key : RuliadSamplerCandidate K → String) (key' : CandidateIdentity → String),
      (∀ candidate, key candidate = key' candidate.identity) →
      groupedMasteryCoverage candidates mastered key =
        groupCoverage (sampler.masteredHash library)
          (candidates.map identity) key' := by
    intro key key' hkey
    obtain rfl : key = key' ∘ identity := funext hkey
    rw [groupedMasteryCoverage, groupCoverage, hfilter, filter_map,
      map_map, map_map]
    rfl
  unfold coverageMastered levelMastered
  simp only
  rw [show ((candidates.filter fun candidate => (sampler.capabilityPosteriors.get?
      candidate.oracleHash).any fun posterior => posterior.mastered library
        sampler.config.capabilityMastery).map fun candidate => candidate.oracleHash).dedup =
      mastered from rfl,
    hcoverage (fun candidate => candidate.family) family fun _ => rfl,
    hcoverage (fun candidate => candidate.taskKind) taskKind fun _ => rfl,
    hcoverage (fun candidate => if candidate.answerContract = "" then "untyped"
        else candidate.answerContract)
      (fun c => if c.answerContract = "" then "untyped" else c.answerContract) fun _ => rfl,
    filter_map, map_map, length_map]
  rfl

/-- **The allowed difficulty depends on the identities and the mastered hashes.** -/
theorem allowed_eq_frontier :
    sampler.capabilityFrontierAllowedMaxDifficulty library =
      frontier sampler.config (sampler.candidates.map identity)
        (sampler.masteredHash library) := by
  have hlevels : (sampler.difficultyLevels.entries.map fun level =>
      (level.1, sampler.coverageMastered library level.2)) =
      masteredLevels sampler.config (sampler.candidates.map identity)
        (sampler.masteredHash library) := by
    set visible := sampler.candidates.filter fun candidate => !candidate.isHashNoise
    have hvisible : (sampler.candidates.map identity).filter
        (fun c => !c.isHashNoise) = visible.map identity := by
      rw [filter_map]
      rfl
    have hgroups : sampler.difficultyLevels =
        BTreeMap.groupBy (fun candidate => candidate.difficultyLevel) visible := rfl
    have hkeys : (BTreeMap.groupBy CandidateIdentity.difficultyLevel
        (visible.map identity)).keys =
        (BTreeMap.groupBy (fun candidate => candidate.difficultyLevel) visible).keys :=
      BTreeMap.keys_groupBy_congr fun k => by rw [map_map]; rfl
    have hentries : (BTreeMap.groupBy CandidateIdentity.difficultyLevel
        (visible.map RuliadSamplerCandidate.identity)).entries = _ := BTreeMap.entries_groupBy
    rw [masteredLevels, hvisible, hentries, hkeys, hgroups, BTreeMap.entries_groupBy, map_map,
      map_map]
    refine map_congr_left fun level _ => ?_
    simp only [comp_apply]
    rw [coverageMastered_eq, filter_map]
    rfl
  unfold capabilityFrontierAllowedMaxDifficulty frontier
  simp only
  rw [hlevels]
  rfl

end Frontier

/-! ## More mastered hashes -/

section Monotone

variable {K : Type*} [Field K] [LinearOrder K]

theorem length_dedup_le_of_subset {α : Type*} [DecidableEq α] {as bs : List α} (h : as ⊆ bs) :
    as.dedup.length ≤ bs.dedup.length :=
  ((nodup_dedup as).subperm fun _ ha =>
    mem_dedup.2 (h (mem_dedup.1 ha))).length_le

theorem le_masteredBase {base : ℕ} {levels : List (ℕ × Bool)}
    (h : ∀ level ∈ levels.map Prod.fst, base ≤ level) :
    base ≤ masteredBase base levels := by
  rcases masteredBase_mem base levels with hbase | hlevel
  · exact hbase.ge
  · exact h _ hlevel

/-- The walk over ascending levels gets as far with more of them mastered. -/
theorem masteredBase_mono {X : Type*} {p q : X → Bool} (key : X → ℕ)
    (hpq : ∀ x, p x = true → q x = true) {xs : List X} {base : ℕ}
    (hsorted : (xs.map key).Pairwise (· < ·)) (hbase : ∀ x ∈ xs, base ≤ key x) :
    masteredBase base (xs.map fun x => (key x, p x)) ≤
      masteredBase base (xs.map fun x => (key x, q x)) := by
  induction xs generalizing base with
  | nil => exact le_rfl
  | cons x xs ih =>
    rw [map_cons, pairwise_cons] at hsorted
    by_cases hp : p x = true
    · have hlater : ∀ y ∈ xs, key x ≤ key y := fun y hy =>
        (hsorted.1 _ (mem_map_of_mem hy)).le
      rw [map_cons, map_cons, masteredBase,
        masteredBase, if_pos hp, if_pos (hpq x hp)]
      exact ih hsorted.2 hlater
    · rw [map_cons, masteredBase, if_neg hp]
      refine le_masteredBase fun level hlevel => ?_
      rw [map_map] at hlevel
      obtain ⟨y, hy, rfl⟩ := mem_map.1 hlevel
      exact hbase y hy

variable [IsStrictOrderedRing K]

theorem coverageRatio_mono {m m' : ℕ} (h : m ≤ m') (n : ℕ) :
    (coverageRatio m n : K) ≤ coverageRatio m' n := by
  unfold coverageRatio
  split_ifs
  · exact le_rfl
  · exact div_le_div_of_nonneg_right (Nat.cast_le.2 h) (Nat.cast_nonneg n)

variable {config : RuliadSamplerConfig K} {mastered mastered' : String → Bool}

theorem levelMastered_mono (h : ∀ hash, mastered hash = true → mastered' hash = true)
    {level : List CandidateIdentity} (hlevel : levelMastered config mastered level = true) :
    levelMastered config mastered' level = true := by
  have hcoverage : ∀ (key : CandidateIdentity → String) (n : ℕ),
      (coverageRatio
        (((level.filter fun c => mastered c.oracleHash).map key).dedup.length) n : K) ≤
      coverageRatio (((level.filter fun c => mastered' c.oracleHash).map key).dedup.length) n :=
    fun key n => coverageRatio_mono (length_dedup_le_of_subset
      ((monotone_filter_right level fun c => h c.oracleHash).map key).subset) n
  simp only [levelMastered, Bool.and_eq_true, decide_eq_true_eq] at hlevel ⊢
  obtain ⟨⟨⟨hcandidates, hfamilies⟩, htasks⟩, hcontracts⟩ := hlevel
  exact ⟨⟨⟨hcandidates.trans (hcoverage ..), hfamilies.trans (hcoverage ..)⟩,
    htasks.trans (hcoverage ..)⟩, hcontracts.trans (hcoverage ..)⟩

/-- **More mastered hashes never lower the allowed difficulty.** -/
theorem frontier_mono (h : ∀ hash, mastered hash = true → mastered' hash = true)
    (identities : List CandidateIdentity) :
    Option.Rel (· ≤ ·) (frontier config identities mastered)
      (frontier config identities mastered') := by
  set levels := BTreeMap.groupBy CandidateIdentity.difficultyLevel
    (identities.filter fun c => !c.isHashNoise) with hlevels
  have hsorted := levels.sorted
  unfold frontier masteredLevels
  rw [← hlevels]
  cases hentries : levels.entries with
  | nil => exact .none
  | cons lowest entries =>
    rw [hentries] at hsorted
    have hbase : ∀ entry ∈ lowest :: entries, lowest.1 ≤ entry.1 := by
      intro entry hentry
      rcases mem_cons.1 hentry with rfl | hentry
      · exact le_rfl
      · exact ((pairwise_cons.1 hsorted).1 _ (mem_map_of_mem hentry)).le
    refine .some (min_le_min_right _ (Nat.add_le_add_right ?_ _))
    exact masteredBase_mono Prod.fst (fun entry => levelMastered_mono h) hsorted hbase

end Monotone

end BurnDragon.Ruliad
