import BurnDragon.Ruliad.FrontierSampler

/-!
# The cap on the unverified frontier

Every stage of `probabilities` keeps a distribution a distribution. The capability frontier leaves the
candidates above the allowed difficulty at most the configured probability
(`enforceCapabilityFrontier_capped`). The limits on the answer contracts come last and take precedence:
what the frontier leaves is what is returned if it meets these limits.
-/

set_option linter.unusedSectionVars false

namespace BurnDragon.Ruliad

open Rust Probability List

variable {K : Type*} [Field K] [LinearOrder K] [IsStrictOrderedRing K]

/-- What is known of the library functions. -/
structure FloatLibrary.Lawful (library : FloatLibrary K) : Prop where
  exp_pos : ∀ x, 0 < library.exp x
  exp_zero : library.exp 0 = 1

/-- The library functions in exact arithmetic. -/
noncomputable def realLibrary : FloatLibrary ℝ := ⟨Real.exp, Real.log, Real.sqrt⟩

theorem realLibrary_lawful : realLibrary.Lawful := ⟨Real.exp_pos, Real.exp_zero⟩

theorem floatEpsilon_pos : 0 < floatEpsilon K := by
  unfold floatEpsilon
  positivity

theorem floatEpsilon_lt_one : floatEpsilon K < 1 := by
  rw [floatEpsilon, div_lt_one (by positivity)]
  norm_num

theorem clamp_nonneg (x : K) : 0 ≤ clamp x 0 1 := le_max_left _ _

theorem clamp_le_one (x : K) : clamp x 0 1 ≤ 1 := max_le zero_le_one (min_le_right _ _)

/-! ## Normalization -/

theorem length_normalizeDistribution (values : List K) :
    (normalizeDistribution values).length = values.length := by
  unfold normalizeDistribution
  simp only
  split <;> simp

/-- Only the positive values count. -/
theorem sum_map_ite_pos (s : K) (values : List K) :
    (values.map fun value => if 0 < value then value / s else 0).sum =
      (values.filter (0 < ·)).sum / s := by
  induction values with
  | nil => simp
  | cons value values ih =>
    rw [map_cons, sum_cons, ih, filter_cons]
    by_cases hvalue : 0 < value
    · simp [hvalue, add_div]
    · simp [hvalue]

theorem filter_pos_sum {values : List K} (h : ∀ value ∈ values, 0 ≤ value) :
    (values.filter (0 < ·)).sum = values.sum := by
  induction values with
  | nil => rfl
  | cons value values ih =>
    have hrest := ih fun v hv => h v (mem_cons_of_mem _ hv)
    rw [filter_cons, sum_cons, ← hrest]
    rcases (h value (mem_cons_self ..)).lt_or_eq with hlt | heq
    · simp [hlt]
    · simp [← heq]

/-- **Normalization gives a distribution.** -/
theorem normalizeDistribution_isDistribution {values : List K} (h : values ≠ []) :
    IsDistribution (normalizeDistribution values) := by
  unfold normalizeDistribution
  simp only
  split
  case isTrue => exact .uniform h
  case isFalse hsum =>
    have hpos : 0 < (values.filter (0 < ·)).sum := floatEpsilon_pos.trans (not_le.1 hsum)
    constructor
    · intro p hp
      obtain ⟨value, -, rfl⟩ := mem_map.1 hp
      split
      case isTrue hvalue => exact (div_pos hvalue hpos).le
      case isFalse => exact le_rfl
    · rw [sum_map_ite_pos, div_self hpos.ne']

/-- Weights of which the sum is not tiny are divided by it. -/
theorem normalizeDistribution_of_weights {ws : List K} (h : ∀ w ∈ ws, 0 ≤ w)
    (hsum : floatEpsilon K < ws.sum) : normalizeDistribution ws = ws.map (· / ws.sum) := by
  unfold normalizeDistribution
  simp only [filter_pos_sum h]
  rw [if_neg (not_le.2 hsum)]
  refine map_congr_left fun w hw => ?_
  rcases (h w hw).lt_or_eq with hlt | heq
  · rw [if_pos hlt]
  · simp [← heq]

/-- A distribution is not changed. -/
theorem normalizeDistribution_eq_self {ps : List K} (h : IsDistribution ps) :
    normalizeDistribution ps = ps := by
  rw [normalizeDistribution_of_weights h.nonneg (h.sum_eq_one ▸ floatEpsilon_lt_one), h.sum_eq_one]
  simp

theorem mixProbabilities_isDistribution {left right : List K} (hleft : IsDistribution left)
    (hright : IsDistribution right) (hlength : left.length = right.length) (alpha : K) :
    IsDistribution (mixProbabilities left right alpha) :=
  hleft.mix hright hlength (clamp_nonneg alpha) (clamp_le_one alpha)

namespace RuliadFrontierSampler

variable {library : FloatLibrary K} {sampler : RuliadFrontierSampler K} {probs : List K}

/-- A list of probabilities, one for each candidate. -/
structure Distributes (sampler : RuliadFrontierSampler K) (probs : List K) : Prop where
  isDistribution : IsDistribution probs
  length_eq : probs.length = sampler.candidates.length

/-! ## Softmax and mastery -/

theorem exploring_distributes (hlibrary : library.Lawful) (h : sampler.candidates ≠ []) :
    sampler.Distributes (sampler.exploring library) := by
  have hlogits : sampler.logits library ≠ [] := by simpa [logits] using h
  have hlength : (sampler.logits library).length = sampler.candidates.length := by simp [logits]
  simp only [exploring]
  generalize sampler.logits library = logits at hlogits hlength
  obtain ⟨maxLogit, hmax⟩ : ∃ m, logits.max? = some m :=
    Option.ne_none_iff_exists'.1 fun hnone => hlogits (max?_eq_none_iff.1 hnone)
  rw [hmax, Option.getD_some]
  generalize hweights : logits.map (fun logit => library.exp (logit - maxLogit)) = weights
  have hnonneg : ∀ weight ∈ weights, 0 ≤ weight := by
    intro weight hweight
    rw [← hweights] at hweight
    obtain ⟨logit, -, rfl⟩ := mem_map.1 hweight
    exact (hlibrary.exp_pos _).le
  -- the greatest logit has the weight one
  have hone : (1 : K) ∈ weights := by
    rw [← hweights, ← hlibrary.exp_zero, ← sub_self maxLogit]
    exact mem_map_of_mem (max?_mem hmax)
  have hsum : 1 ≤ weights.sum := single_le_sum hnonneg _ hone
  have htiny : (1 : K) / 10 ^ 12 ≤ 1 := by
    rw [div_le_one (by positivity)]
    norm_num
  rw [max_eq_left (htiny.trans hsum)]
  have hmix := (IsDistribution.of_weights hnonneg (zero_lt_one.trans_le hsum)).mix
    (IsDistribution.uniform (ne_nil_of_mem hone)) (by simp)
    (clamp_nonneg sampler.config.explorationFloor) (clamp_le_one sampler.config.explorationFloor)
  rw [zipWith_map, zipWith_self] at hmix
  exact ⟨hmix, by rw [length_map, ← hweights, length_map, hlength]⟩

theorem Distributes.normalize (h : probs.length = sampler.candidates.length)
    (hne : sampler.candidates ≠ []) : sampler.Distributes (normalizeDistribution probs) := by
  refine ⟨normalizeDistribution_isDistribution fun hnil => hne ?_, ?_⟩
  · rw [hnil] at h
    exact length_eq_zero_iff.1 h.symm
  · rw [length_normalizeDistribution, h]

theorem Distributes.ne_nil (h : sampler.Distributes probs) : sampler.candidates ≠ [] := fun hnil => by
  have hlength := h.length_eq
  rw [hnil] at hlength
  exact h.isDistribution.ne_nil (length_eq_zero_iff.1 hlength)

theorem Distributes.mix {high : List K} (h : sampler.Distributes probs)
    (hhigh : sampler.Distributes high) (alpha : K) :
    sampler.Distributes (mixProbabilities probs high alpha) where
  isDistribution := mixProbabilities_isDistribution h.isDistribution hhigh.isDistribution
    (h.length_eq.trans hhigh.length_eq.symm) alpha
  length_eq := by
    rw [mixProbabilities, length_zipWith, h.length_eq, hhigh.length_eq, min_self]

/-- The bisection only mixes. -/
theorem masteryBisection_distributes {satisfies : List K → Bool} {original high : List K}
    (horiginal : sampler.Distributes original) (hhigh : sampler.Distributes high) (n : ℕ)
    {best : List K} (hbest : sampler.Distributes best) (lo hi : K) :
    sampler.Distributes (masteryBisection satisfies original high n best lo hi) := by
  induction n generalizing best lo hi with
  | zero => exact hbest
  | succ n ih =>
    simp only [masteryBisection]
    split
    · exact ih (horiginal.mix hhigh _) lo _
    · exact ih hbest _ hi

theorem enforceMasteryFrontier_distributes (h : sampler.Distributes probs) :
    sampler.Distributes (sampler.enforceMasteryFrontier probs) := by
  have hhigh : sampler.Distributes (sampler.highDifficultyDistribution sampler.maxDifficultyLevel) :=
    .normalize (length_map _) h.ne_nil
  simp only [enforceMasteryFrontier]
  split_ifs
  · exact h
  · exact h
  · exact h
  · exact h
  · exact h
  · exact masteryBisection_distributes h hhigh 24 h 0 1
  · exact hhigh

/-! ## The capability frontier -/

/-- The candidates with weights that are neither tiny nor saturated. -/
def NormalSize (candidate : RuliadSamplerCandidate K) : Prop := floatEpsilon K < candidate.priorWeight

theorem priorWeight_nonneg (candidate : RuliadSamplerCandidate K) : 0 ≤ candidate.priorWeight :=
  div_nonneg (le_max_of_le_right (by positivity)) (le_max_of_le_right (by positivity))

/-- The last mastered level is the first one or a later one. -/
theorem masteredBase_mem (base : ℕ) (levels : List (ℕ × Bool)) :
    masteredBase base levels = base ∨ masteredBase base levels ∈ levels.map Prod.fst := by
  induction levels generalizing base with
  | nil => exact .inl rfl
  | cons level levels ih =>
    rw [masteredBase]
    split
    · rcases ih level.1 with h | h
      · exact .inr (by rw [h]; exact mem_cons_self ..)
      · exact .inr (mem_cons_of_mem _ h)
    · exact .inl rfl

variable {allowedMax : ℕ}

/-- Some candidate is within the allowed difficulty. -/
theorem exists_allowed
    (h : sampler.capabilityFrontierAllowedMaxDifficulty library = some allowedMax) :
    ∃ candidate ∈ sampler.candidates, candidate.difficultyLevel ≤ allowedMax := by
  have hkeys : ∀ level ∈ sampler.difficultyLevels.keys,
      ∃ candidate ∈ sampler.candidates, candidate.difficultyLevel = level := by
    intro level hlevel
    rcases BTreeMap.exists_of_mem_keys_foldl_push hlevel with hnil | ⟨candidate, hmem, hlevel⟩
    · simp [BTreeMap.keys, BTreeMap.empty] at hnil
    · exact ⟨candidate, (mem_filter.1 hmem).1, hlevel⟩
  have hbase : ∀ base ∈ sampler.difficultyLevels.keys, saturatingAdd base
      sampler.config.capabilityFrontierMaxAhead = allowedMax →
      ∃ candidate ∈ sampler.candidates, candidate.difficultyLevel ≤ allowedMax := by
    rintro base hmem rfl
    obtain ⟨candidate, hcandidate, rfl⟩ := hkeys base hmem
    exact ⟨candidate, hcandidate, le_min (Nat.le_add_right ..) candidate.difficultyLevel_le⟩
  unfold capabilityFrontierAllowedMaxDifficulty at h
  simp only at h
  split at h
  · simp at h
  · next minDifficulty backedMastered levels heq =>
    have hlevels : (minDifficulty, backedMastered) :: levels =
        sampler.difficultyLevels.entries.map fun level =>
          (level.1, sampler.coverageMastered library level.2) := heq.symm
    have hfst : minDifficulty :: levels.map Prod.fst = sampler.difficultyLevels.keys := by
      have := congrArg (List.map Prod.fst) hlevels
      simpa [BTreeMap.keys, Function.comp_def] using this
    refine hbase _ ?_ (Option.some_inj.1 h)
    rw [← hfst]
    split
    · rcases masteredBase_mem minDifficulty levels with hm | hm
      · rw [hm]
        exact mem_cons_self ..
      · exact mem_cons_of_mem _ hm
    · exact mem_cons_self ..

theorem enforceCapabilityFrontier_distributes (h : sampler.Distributes probs) :
    sampler.Distributes (sampler.enforceCapabilityFrontier library probs) := by
  have hnormalize : ∀ allowedMax f, sampler.Distributes (normalizeDistribution
      (((probs.zip sampler.candidates).zip
        (sampler.allowedCapabilityFrontierDistribution allowedMax)).map f)) := by
    refine fun allowedMax f => .normalize ?_ h.ne_nil
    simp [allowedCapabilityFrontierDistribution, length_normalizeDistribution, h.length_eq]
  unfold enforceCapabilityFrontier
  split
  · exact h
  · split
    · exact h
    · simp only
      split_ifs
      · exact h
      · exact h
      · exact h
      · exact h
      · exact hnormalize _ _
      · exact hnormalize _ _

theorem le_foldl_max {n : ℕ} {ns : List ℕ} (start : ℕ) (h : n ≤ start ∨ n ∈ ns) :
    n ≤ ns.foldl max start := by
  induction ns generalizing start with
  | nil => simpa using h
  | cons m ns ih =>
    refine ih (max start m) ?_
    rcases h with h | h
    · exact .inl (h.trans (Nat.le_max_left ..))
    · rcases mem_cons.1 h with rfl | h
      · exact .inl (Nat.le_max_right ..)
      · exact .inr h

variable {candidate : RuliadSamplerCandidate K}

theorem le_maxDifficultyLevel (h : candidate ∈ sampler.candidates) :
    candidate.difficultyLevel ≤ sampler.maxDifficultyLevel :=
  le_foldl_max 0 (.inr (mem_map_of_mem h))

/-- The distribution over the allowed candidates. -/
theorem allowedCapabilityFrontierDistribution_eq
    (hnormal : ∀ candidate ∈ sampler.candidates, NormalSize candidate)
    (hallowed : ∃ candidate ∈ sampler.candidates, candidate.difficultyLevel ≤ allowedMax) :
    ∃ weight : RuliadSamplerCandidate K → K,
      sampler.allowedCapabilityFrontierDistribution allowedMax = sampler.candidates.map weight ∧
      (∀ candidate, 0 ≤ weight candidate) ∧
      (∀ candidate, blocked allowedMax candidate = true → weight candidate = 0) ∧
      (sampler.candidates.map weight).sum = 1 := by
  let share (candidate : RuliadSamplerCandidate K) : K :=
    if candidate.difficultyLevel ≤ allowedMax then candidate.priorWeight else 0
  have hshare : ∀ candidate, 0 ≤ share candidate := fun candidate => by
    by_cases hle : candidate.difficultyLevel ≤ allowedMax
    · simpa [share, hle] using priorWeight_nonneg candidate
    · simp [share, hle]
  have hnonneg : ∀ w ∈ sampler.candidates.map share, 0 ≤ w := by
    intro w hw
    obtain ⟨candidate, -, rfl⟩ := mem_map.1 hw
    exact hshare candidate
  have hsum : floatEpsilon K < (sampler.candidates.map share).sum := by
    obtain ⟨candidate, hmem, hle⟩ := hallowed
    refine (hnormal candidate hmem).trans_le ?_
    have hcandidate : share candidate = candidate.priorWeight := if_pos hle
    exact hcandidate ▸ single_le_sum hnonneg _ (mem_map_of_mem hmem)
  have hpos := floatEpsilon_pos.trans hsum
  refine ⟨fun candidate => share candidate / (sampler.candidates.map share).sum, ?_, ?_, ?_, ?_⟩
  · exact (normalizeDistribution_of_weights hnonneg hsum).trans (map_map ..)
  · exact fun candidate => div_nonneg (hshare candidate) hpos.le
  · intro candidate hblocked
    have hgt : ¬ candidate.difficultyLevel ≤ allowedMax := by simpa [blocked] using hblocked
    simp [share, hgt]
  · have h := (IsDistribution.of_weights hnonneg hpos).sum_eq_one
    rwa [map_map] at h

/-- **The capability frontier caps the candidates above the allowed difficulty.** -/
theorem enforceCapabilityFrontier_capped (h : sampler.Distributes probs)
    (hnormal : ∀ candidate ∈ sampler.candidates, NormalSize candidate)
    (hposteriors : sampler.capabilityPosteriors.entries ≠ [])
    (hallowed : sampler.capabilityFrontierAllowedMaxDifficulty library = some allowedMax) :
    probabilityOf (blocked allowedMax) (sampler.enforceCapabilityFrontier library probs)
      sampler.candidates ≤ sampler.maxUnverifiedProbability := by
  have hprobs : probs ≠ [] := h.isDistribution.ne_nil
  have hcap : 0 ≤ sampler.maxUnverifiedProbability := clamp_nonneg _
  unfold enforceCapabilityFrontier
  rw [if_neg (by simp [hprobs, hposteriors]), hallowed]
  simp only
  generalize hentries : probs.zip sampler.candidates = entries
  have hfst : entries.map Prod.fst = probs := by
    rw [← hentries, map_fst_zip h.length_eq.le]
  have hsnd : entries.map Prod.snd = sampler.candidates := by
    rw [← hentries, map_snd_zip h.length_eq.ge]
  have hnonneg : ∀ e ∈ entries, 0 ≤ e.1 := fun e he =>
    h.isDistribution.nonneg _ (hfst ▸ mem_map_of_mem he)
  have hzip : ∀ f : K × RuliadSamplerCandidate K → K, probabilityOf (blocked allowedMax)
      (entries.map f) sampler.candidates = mass (blocked allowedMax) (entries.map fun e => (f e, e.2)) :=
    fun f => by rw [probabilityOf, ← hsnd, zip_map']
  have hmass : probabilityOf (blocked allowedMax) probs sampler.candidates =
      mass (blocked allowedMax) entries := by rw [probabilityOf, hentries]
  -- what is returned when mass is moved to the allowed candidates
  obtain ⟨weight, hweights, hweight, hzero, hone⟩ :=
    allowedCapabilityFrontierDistribution_eq hnormal (exists_allowed hallowed)
  have hallowedEntries : sampler.allowedCapabilityFrontierDistribution allowedMax =
      entries.map fun e => weight e.2 := by
    rw [hweights, ← hsnd, map_map]
    rfl
  have hredistributed : ∀ {s x : K}, 0 ≤ s → 0 ≤ x →
      floatEpsilon K < mass (blocked allowedMax) entries * s +
        (1 - mass (blocked allowedMax) entries) + x →
      probabilityOf (blocked allowedMax) (normalizeDistribution ((entries.zip
        (sampler.allowedCapabilityFrontierDistribution allowedMax)).map fun entry =>
          if blocked allowedMax entry.1.2 then entry.1.1 * s else entry.1.1 + x * entry.2))
        sampler.candidates =
      mass (blocked allowedMax) entries * s / (mass (blocked allowedMax) entries * s +
        (1 - mass (blocked allowedMax) entries) + x) := by
    intro s x hs hx hepsilon
    have hmap : (entries.zip (sampler.allowedCapabilityFrontierDistribution allowedMax)).map
        (fun entry => if blocked allowedMax entry.1.2 then entry.1.1 * s
          else entry.1.1 + x * entry.2) =
        entries.map (redistribute (blocked allowedMax) s x weight) := by
      rw [hallowedEntries]
      have hself : entries.zip (entries.map fun e => weight e.2) =
          entries.map fun e => (e, weight e.2) := by
        rw [← zip_map', map_id']
      rw [hself, map_map]
      rfl
    have hsum := sum_map_redistribute (s := s) (x := x) entries hzero (by
      rw [← hallowedEntries, hweights, hone])
    rw [hfst, h.isDistribution.sum_eq_one] at hsum
    rw [hmap, normalizeDistribution_of_weights _ (hsum ▸ hepsilon), hsum, map_map, hzip]
    · exact mass_map_redistribute_div ..
    · intro w hw
      obtain ⟨e, he, rfl⟩ := mem_map.1 hw
      exact redistribute_nonneg (hnonneg e he) hs hx (hweight e.2)
  rw [hmass]
  split_ifs with hmax hone hle hempty hepsilon
  · -- no candidate is blocked
    rw [hmass, mass_eq_zero]
    · exact hcap
    · intro e he
      have hmem : e.2 ∈ sampler.candidates := hsnd ▸ mem_map_of_mem he
      simpa [blocked] using (le_maxDifficultyLevel hmem).trans hmax
  · rw [hmass]
    have hsum := mass_le_sum (p := blocked allowedMax) hnonneg
    rw [hfst, h.isDistribution.sum_eq_one] at hsum
    exact hsum.trans hone
  · rwa [hmass]
  · rw [hmass]
    have hlength : (sampler.allowedCapabilityFrontierDistribution allowedMax).length =
        sampler.candidates.length := by
      simp [allowedCapabilityFrontierDistribution, length_normalizeDistribution]
    rw [isEmpty_iff.1 hempty] at hlength
    exact absurd (length_eq_zero_iff.1 hlength.symm) h.ne_nil
  · -- what is blocked is tiny and is removed
    have hhalf : floatEpsilon K ≤ 1 / 2 := by
      rw [floatEpsilon, div_le_div_iff₀ (by positivity) (by positivity)]
      norm_num
    have hB := not_le.1 hle
    rw [hredistributed le_rfl (sub_nonneg.2 hB.le) (by linarith), mul_zero, zero_div]
    exact hcap
  · have hB := not_le.1 hle
    have hpos : 0 < mass (blocked allowedMax) entries := hcap.trans_lt hB
    have hone : mass (blocked allowedMax) entries *
        (sampler.maxUnverifiedProbability / mass (blocked allowedMax) entries) +
          (1 - mass (blocked allowedMax) entries) +
          (mass (blocked allowedMax) entries - sampler.maxUnverifiedProbability) = 1 := by
      rw [mul_div_cancel₀ _ hpos.ne']
      ring
    rw [hredistributed (div_nonneg hcap hpos.le) (sub_nonneg.2 hB.le)
      (by rw [hone]; exact floatEpsilon_lt_one), hone, div_one, mul_div_cancel₀ _ hpos.ne']

/-! ## The limits on the answer contracts -/

theorem length_foldl_eq {α β : Type*} {f : List α → β → List α} {bs : List β} {as : List α}
    (h : ∀ as b, (f as b).length = as.length) : (bs.foldl f as).length = as.length := by
  induction bs generalizing as with
  | nil => rfl
  | cons b bs ih => exact ih.trans (h as b)

@[simp] theorem length_scaleAt (probs : List K) (indices : List ℕ) (scale : K) :
    (scaleAt probs indices scale).length = probs.length :=
  length_foldl_eq fun _ _ => length_modify ..

@[simp] theorem length_distributeProbabilityAddition (sampler : RuliadFrontierSampler K)
    (probs : List K) (indices : List ℕ) (addition : K) :
    (sampler.distributeProbabilityAddition probs indices addition).length = probs.length := by
  unfold distributeProbabilityAddition
  simp only
  split_ifs
  · rfl
  · exact length_foldl_eq fun _ _ => length_modify ..
  · exact length_foldl_eq fun _ _ => length_modify ..

theorem length_scaleDownToCap (cap : K) (groups : List (AnswerContractGroup K)) (probs : List K) :
    (scaleDownToCap cap groups probs).1.length = probs.length := by
  induction groups generalizing probs with
  | nil => rfl
  | cons group groups ih =>
    unfold scaleDownToCap
    split
    · exact ih probs
    · exact (ih _).trans (length_scaleAt ..)

theorem length_enforceAnswerContractCap (cap : K) (groups : List (AnswerContractGroup K))
    (probs : List K) : (sampler.enforceAnswerContractCap cap groups probs).length = probs.length := by
  unfold enforceAnswerContractCap
  simp only [length_normalizeDistribution]
  split
  · exact length_scaleDownToCap cap groups probs
  · refine (length_foldl_eq fun probs group => ?_).trans (length_scaleDownToCap cap groups probs)
    split
    · rfl
    · exact length_distributeProbabilityAddition ..

theorem length_enforceAnswerContractFloor (floor : K) (groups : List (AnswerContractGroup K))
    (probs : List K) :
    (sampler.enforceAnswerContractFloor floor groups probs).length = probs.length := by
  unfold enforceAnswerContractFloor
  simp only
  split_ifs
  · rfl
  · rfl
  · refine (length_foldl_eq fun probs group => length_distributeProbabilityAddition ..).trans
      (length_foldl_eq fun probs group => ?_)
    split
    · rfl
    · exact length_scaleAt ..

theorem enforceAnswerContractBalance_distributes (h : sampler.Distributes probs) :
    sampler.Distributes (sampler.enforceAnswerContractBalance probs) := by
  unfold enforceAnswerContractBalance
  split_ifs
  · exact h
  · exact h
  · exact h
  · refine .normalize ?_ h.ne_nil
    have hnormal : (normalizeDistribution probs).length = sampler.candidates.length :=
      (length_normalizeDistribution probs).trans h.length_eq
    cases sampler.answerContractCap <;> cases sampler.answerContractFloor <;>
      simp only [length_enforceAnswerContractFloor, length_enforceAnswerContractCap, hnormal]

/-- No answer contract is above the cap or below the floor, or there is only one. -/
def MeetsAnswerContractLimits (sampler : RuliadFrontierSampler K) (probs : List K) : Prop :=
  sampler.answerContractIndices.entries.length ≤ 1 ∨
    ∀ group ∈ sampler.answerContractGroups probs,
      (∀ cap, sampler.answerContractCap = some cap → group.mass ≤ cap) ∧
      ∀ floor, sampler.answerContractFloor = some floor → floor - group.mass ≤ floatEpsilon K

variable {groups : List (AnswerContractGroup K)}

theorem scaleDownToCap_eq_self {cap : K} (h : ∀ group ∈ groups, group.mass ≤ cap) :
    scaleDownToCap cap groups probs = (probs, groups, 0) := by
  induction groups with
  | nil => rfl
  | cons group groups ih =>
    have hgroup := h group (mem_cons_self ..)
    rw [scaleDownToCap, ih fun g hg => h g (mem_cons_of_mem _ hg)]
    simp [hgroup]

theorem enforceAnswerContractCap_eq_self {cap : K} (hprobs : IsDistribution probs)
    (h : ∀ group ∈ groups, group.mass ≤ cap) :
    sampler.enforceAnswerContractCap cap groups probs = probs := by
  have hnothing : ((0 : K) ≤ floatEpsilon K) := floatEpsilon_pos.le
  simp [enforceAnswerContractCap, scaleDownToCap_eq_self h, hnothing,
    normalizeDistribution_eq_self hprobs]

theorem enforceAnswerContractFloor_eq_self {floor : K}
    (h : ∀ group ∈ groups, floor - group.mass ≤ floatEpsilon K) :
    sampler.enforceAnswerContractFloor floor groups probs = probs := by
  have hnil : (groups.filter fun group => floatEpsilon K < max (floor - group.mass) 0) = [] := by
    refine filter_eq_nil_iff.2 fun group hgroup => ?_
    simpa using ⟨sub_le_iff_le_add.1 (h group hgroup), floatEpsilon_pos.le⟩
  unfold enforceAnswerContractFloor
  simp only [hnil]
  simp

/-- **A distribution that meets the limits is not changed.** -/
theorem enforceAnswerContractBalance_eq_self (h : IsDistribution probs)
    (hlimits : sampler.MeetsAnswerContractLimits probs) :
    sampler.enforceAnswerContractBalance probs = probs := by
  unfold enforceAnswerContractBalance
  split_ifs with hlength hsingle hnone
  · rfl
  · rfl
  · rfl
  · have hgroups := hlimits.resolve_left hsingle
    have hcap : ∀ cap, sampler.answerContractCap = some cap →
        sampler.enforceAnswerContractCap cap (sampler.answerContractGroups probs) probs = probs :=
      fun cap hcap => enforceAnswerContractCap_eq_self h fun group hgroup =>
        (hgroups group hgroup).1 cap hcap
    have hfloor : ∀ floor, sampler.answerContractFloor = some floor →
        sampler.enforceAnswerContractFloor floor (sampler.answerContractGroups probs) probs = probs :=
      fun floor hfloor => enforceAnswerContractFloor_eq_self fun group hgroup =>
        (hgroups group hgroup).2 floor hfloor
    simp only [normalizeDistribution_eq_self h]
    cases hc : sampler.answerContractCap <;> cases hf : sampler.answerContractFloor <;>
      simp [hc, hf, hcap, hfloor, normalizeDistribution_eq_self h]

/-! ## Reachable samplers -/

/-- The samplers that are reached from candidates of normal size by added candidates, telemetry and
capability feedback. -/
inductive Reachable (matchesLabel : RuliadSamplerCandidate K → String → Bool)
    (config : RuliadSamplerConfig K) : RuliadFrontierSampler K → Prop
  | start {candidates : List (RuliadSamplerCandidate K)} :
    (∀ candidate ∈ candidates, NormalSize candidate) →
    Reachable matchesLabel config (start config candidates)
  | addCandidate {sampler : RuliadFrontierSampler K} {candidate : RuliadSamplerCandidate K} :
    Reachable matchesLabel config sampler → NormalSize candidate →
    Reachable matchesLabel config (sampler.addCandidate candidate)
  | recordTelemetry {sampler : RuliadFrontierSampler K} {telemetry : RuliadSampleTelemetry K} :
    Reachable matchesLabel config sampler →
    (∀ candidate ∈ sampler.candidates, NormalSize { candidate with
      cost := telemetry.verificationCost }) →
    Reachable matchesLabel config (sampler.recordTelemetry telemetry)
  | recordCapabilityFeedback {sampler : RuliadFrontierSampler K}
    {feedback : RuliadCapabilityFeedback K} :
    Reachable matchesLabel config sampler →
    Reachable matchesLabel config (sampler.recordCapabilityFeedback matchesLabel feedback)

theorem mem_modify {α : Type*} {as : List α} {i : ℕ} {f : α → α} {b : α} (h : b ∈ as.modify i f) :
    b ∈ as ∨ ∃ a ∈ as, b = f a := by
  obtain ⟨j, hj, rfl⟩ := mem_iff_getElem.1 h
  rw [getElem_modify]
  have hmem := getElem_mem (l := as) (by simpa using hj)
  split
  · exact .inr ⟨_, hmem, rfl⟩
  · exact .inl hmem

variable {matchesLabel : RuliadSamplerCandidate K → String → Bool} {config : RuliadSamplerConfig K}

theorem NormalSize.recordTelemetry {telemetry : RuliadSampleTelemetry K}
    (h : NormalSize { candidate with cost := telemetry.verificationCost }) :
    NormalSize (candidate.recordTelemetry telemetry) := by
  have hmax : max (max telemetry.verificationCost (1 / 10 ^ 6)) (1 / 10 ^ 6) =
      max telemetry.verificationCost (1 / 10 ^ 6) := max_eq_left (le_max_right _ _)
  simpa [NormalSize, RuliadSamplerCandidate.priorWeight, RuliadSamplerCandidate.recordTelemetry, hmax]
    using h

theorem NormalSize.promote (h : NormalSize candidate) (loss alignment promotionWeight : K) :
    NormalSize (candidate.promote loss alignment promotionWeight) := by
  unfold RuliadSamplerCandidate.promote
  split
  · exact h
  · exact h

/-- The candidates keep their normal size. -/
theorem Reachable.normalSize (h : Reachable matchesLabel config sampler) :
    ∀ candidate ∈ sampler.candidates, NormalSize candidate := by
  induction h with
  | start hcandidates => exact hcandidates
  | @addCandidate sampler candidate _ hcandidate ih =>
    unfold RuliadFrontierSampler.addCandidate
    split
    · split
      · exact ih
      · intro c hc
        rcases mem_modify hc with hc | ⟨existing, hexisting, rfl⟩
        · exact ih c hc
        · exact ih existing hexisting
    · intro c hc
      rcases mem_append.1 hc with hc | hc
      · exact ih c hc
      · exact mem_singleton.1 hc ▸ hcandidate
  | @recordTelemetry sampler telemetry _ hcost ih =>
    unfold RuliadFrontierSampler.recordTelemetry
    split
    · exact ih
    · split
      · intro c hc
        rcases mem_modify hc with hc | ⟨candidate, hcandidate, rfl⟩
        · exact ih c hc
        · exact (hcost candidate hcandidate).recordTelemetry
      · exact ih
  | @recordCapabilityFeedback sampler feedback _ ih =>
    have hrecorded : ∀ candidate ∈ sampler.candidates.map fun candidate =>
        if matchesLabel candidate feedback.groupLabel then candidate.recordFeedback feedback
        else candidate, NormalSize candidate := by
      intro c hc
      obtain ⟨candidate, hcandidate, rfl⟩ := mem_map.1 hc
      split
      · exact ih candidate hcandidate
      · exact ih candidate hcandidate
    unfold RuliadFrontierSampler.recordCapabilityFeedback
    simp only
    split_ifs
    · exact ih
    · exact hrecorded
    · intro c hc
      obtain ⟨candidate, hcandidate, rfl⟩ := mem_map.1 hc
      split
      · exact (hrecorded candidate hcandidate).promote ..
      · exact hrecorded candidate hcandidate

/-- **The frontier cap holds until the limits on the answer contracts are enforced.** The distribution
is one for every reachable sampler; once feedback has been recorded, the candidates above the allowed
difficulty get at most the configured probability before the limits on the answer contracts are
enforced, and so in the result if it meets these limits by then. -/
theorem probabilities_capped (hlibrary : library.Lawful) {allowedMax : ℕ}
    (hreachable : Reachable matchesLabel config sampler)
    (hposteriors : sampler.capabilityPosteriors.entries ≠ [])
    (hallowed : sampler.capabilityFrontierAllowedMaxDifficulty library = some allowedMax) :
    (∀ p ∈ sampler.probabilities library, 0 ≤ p) ∧ (sampler.probabilities library).sum = 1 ∧
    (sampler.probabilities library).length = sampler.candidates.length ∧
    probabilityOf (blocked allowedMax) (sampler.frontierProbabilities library) sampler.candidates ≤
      sampler.maxUnverifiedProbability ∧
    (sampler.MeetsAnswerContractLimits (sampler.frontierProbabilities library) →
      probabilityOf (blocked allowedMax) (sampler.probabilities library) sampler.candidates ≤
        sampler.maxUnverifiedProbability) := by
  obtain ⟨candidate, hcandidate, -⟩ := exists_allowed hallowed
  have hne : sampler.candidates ≠ [] := List.ne_nil_of_mem hcandidate
  have hmastery := enforceMasteryFrontier_distributes (exploring_distributes hlibrary hne)
  have hfrontier : sampler.Distributes (sampler.frontierProbabilities library) :=
    enforceCapabilityFrontier_distributes hmastery
  have hbalance := enforceAnswerContractBalance_distributes hfrontier
  have hcapped := enforceCapabilityFrontier_capped hmastery hreachable.normalSize hposteriors hallowed
  rw [probabilities, if_neg (by simpa using hne)]
  refine ⟨hbalance.isDistribution.nonneg, hbalance.isDistribution.sum_eq_one, hbalance.length_eq,
    hcapped, fun hlimits => ?_⟩
  rw [enforceAnswerContractBalance_eq_self hfrontier.isDistribution hlimits]
  exact hcapped

/-! ## Two contracts -/

/-- The library functions at the points that the samplers below use. -/
def pointLibrary : FloatLibrary ℚ where
  exp x := if x = 0 then 1 else 1 / 2
  ln _ := 0
  sqrt _ := 0

theorem pointLibrary_lawful : pointLibrary.Lawful where
  exp_pos x := by
    unfold pointLibrary
    simp only
    split <;> norm_num
  exp_zero := rfl

/-- The default configuration, with a limit on the answer contracts. -/
def contractConfig (maxAnswerContractProbability : ℚ) : RuliadSamplerConfig ℚ where
  temperature := 1
  explorationFloor := 5 / 100
  targetLoss := 2
  hashNoisePenalty := 4
  masteryEscapeWeight := 4
  masteryEscapeThreshold := 70 / 100
  masteryMinNormalizedDifficulty := 90 / 100
  masteryMinMaxDifficultyProbability := 35 / 100
  masteryHashNoiseMaxProbability := 1 / 100
  maxAnswerContractProbability := maxAnswerContractProbability
  minAnswerContractProbability := 0
  capabilityFrontierMaxAhead := 1
  capabilityFrontierMaxUnverifiedProbability := 8 / 100
  capabilityRemediationWeight := 75 / 100
  capabilityFrontierMinCoverage := 1
  capabilityMastery := ⟨16, 1, 50 / 100, 75 / 100, 25 / 100, 5 / 100, 5 / 100⟩

def contractCandidate (oracleHash answerContract : String) (difficultyLevel : ℕ)
    (h : difficultyLevel ≤ usizeMax) : RuliadSamplerCandidate ℚ where
  oracleHash := oracleHash
  family := ""
  taskKind := ""
  answerContract := answerContract
  difficultyLevel := difficultyLevel
  prior := 1
  cost := 1
  lossEma := 0
  previousLossEma := 0
  gradientAlignment := 0
  isHashNoise := false
  capabilityFeedbackCount := 0
  capabilityVerifierEma := 0
  capabilityPartialEma := 0
  capabilityCompletionHealthEma := 0
  capabilitySchemaWrongEma := 0
  capabilityMalformedEma := 0
  capabilityMissingEma := 0
  difficultyLevel_le := h

def bucketLabel (candidate : RuliadSamplerCandidate ℚ) (label : String) : Bool :=
  label = "bucket:" ++ candidate.oracleHash

/-- An easy and a hard candidate of two contracts, after feedback on the easy one. -/
def contractSampler (maxAnswerContractProbability : ℚ) : RuliadFrontierSampler ℚ :=
  (start (contractConfig maxAnswerContractProbability)
    [contractCandidate "a" "x" 0 (by decide), contractCandidate "b" "y" 5 (by decide)]
    ).recordCapabilityFeedback bucketLabel ⟨"bucket:a", 1, 0, 0, 0, 0, 0, 0⟩

theorem contractSampler_reachable (maxAnswerContractProbability : ℚ) :
    Reachable bucketLabel (contractConfig maxAnswerContractProbability)
      (contractSampler maxAnswerContractProbability) := by
  refine .recordCapabilityFeedback (.start fun candidate hcandidate => ?_)
  have hweight : candidate.priorWeight = 1 := by
    simp only [mem_cons, not_mem_nil, or_false] at hcandidate
    rcases hcandidate with rfl | rfl <;>
      norm_num [RuliadSamplerCandidate.priorWeight, contractCandidate]
  rw [NormalSize, hweight]
  exact floatEpsilon_lt_one

theorem probabilities_capped_contractSampler :
    probabilityOf (blocked 1) ((contractSampler 1).probabilities pointLibrary)
      (contractSampler 1).candidates ≤ (contractSampler 1).maxUnverifiedProbability := by
  have hposteriors : (contractSampler 1).capabilityPosteriors.entries ≠ [] := by
    rw [← List.length_pos_iff]
    decide +kernel
  refine (probabilities_capped pointLibrary_lawful (contractSampler_reachable 1) hposteriors
    (by decide +kernel)).2.2.2.2 (.inr fun group _ => ⟨fun cap hcap => ?_, fun floor hfloor => ?_⟩)
  · have hnone : (contractSampler 1).answerContractCap = none := by decide +kernel
    simp [hnone] at hcap
  · have hnone : (contractSampler 1).answerContractFloor = none := by decide +kernel
    simp [hnone] at hfloor

/-- **The limit on the answer contracts moves mass above the cap.** With at most six tenths for a
contract, the hard candidate gets four tenths, where the cap is eight hundredths. -/
theorem contract_limit_exceeds_cap :
    Reachable bucketLabel (contractConfig (60 / 100)) (contractSampler (60 / 100)) ∧
    0 < (contractSampler (60 / 100)).capabilityPosteriors.entries.length ∧
    (contractSampler (60 / 100)).capabilityFrontierAllowedMaxDifficulty pointLibrary = some 1 ∧
    (contractSampler (60 / 100)).maxUnverifiedProbability = 8 / 100 ∧
    probabilityOf (blocked 1) ((contractSampler (60 / 100)).probabilities pointLibrary)
      (contractSampler (60 / 100)).candidates = 40 / 100 :=
  ⟨contractSampler_reachable _, by decide +kernel, by decide +kernel, by decide +kernel,
    by decide +kernel⟩

end RuliadFrontierSampler

end BurnDragon.Ruliad
