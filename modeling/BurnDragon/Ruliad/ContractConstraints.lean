import BurnDragon.Ruliad.ContractLimits

/-!
# The constraints on the probabilities

Without cutoffs `apply_probability_constraints` does what it is for: the result is a distribution
in which every answer contract is within its limits, the candidates of a contract keep their
proportions, and a second application changes nothing (`applyConstraintsWith_meets`).
-/

namespace BurnDragon.Ruliad

open Probability Rust List

namespace RuliadFrontierSampler

variable {K : Type*} [Field K] [LinearOrder K] {sampler : RuliadFrontierSampler K}
  {probs probs' out : List K}

/-! ## Stages -/

/-- The cap stage, if there is a cap. -/
def capStep (sampler : RuliadFrontierSampler K) (probs : List K) : List K :=
  match sampler.answerContractCap with
  | some cap => sampler.enforceCapWith exactCutoffs cap (sampler.answerContractGroups probs) probs
  | none => probs

/-- The floor stage, if there is a floor. -/
def floorStep (sampler : RuliadFrontierSampler K) (probs : List K) : List K :=
  match sampler.answerContractFloor with
  | some floor =>
    sampler.enforceFloorWith exactCutoffs floor (sampler.answerContractGroups probs) probs
  | none => probs

theorem enforceBalanceWith_exactCutoffs (sampler : RuliadFrontierSampler K) (probs : List K) :
    sampler.enforceBalanceWith exactCutoffs probs =
      if probs.isEmpty || probs.length ≠ sampler.candidates.length then probs
      else if sampler.answerContractIndices.entries.length ≤ 1 then probs
      else if sampler.answerContractCap.isNone && sampler.answerContractFloor.isNone then probs
      else normalizeWith exactCutoffs
        (sampler.floorStep (sampler.capStep (normalizeWith exactCutoffs probs))) := rfl

/-- The total is at most the cap. -/
def WithinCap (sampler : RuliadFrontierSampler K) (m : K) : Prop :=
  ∀ cap, sampler.answerContractCap = some cap → m ≤ cap

/-- The total is between the floor and the cap. -/
def WithinLimits (sampler : RuliadFrontierSampler K) (m : K) : Prop :=
  sampler.WithinCap m ∧ ∀ floor, sampler.answerContractFloor = some floor → floor ≤ m

/-- A stage after which every total has a property. It empties no contract, and it leaves a
distribution alone that already has the property. -/
structure Stage (sampler : RuliadFrontierSampler K) (P : K → Prop) (probs out : List K) : Prop where
  distributes : sampler.Distributes out
  within : ∀ entry ∈ sampler.answerContractIndices.entries, P (massAt out entry.2)
  relevels : ∃ newMass, Relevels sampler newMass probs out ∧
    ∀ entry ∈ sampler.answerContractIndices.entries,
      newMass entry.2 = 0 → massAt probs entry.2 = 0
  fixed : (∀ entry ∈ sampler.answerContractIndices.entries, P (massAt probs entry.2)) → out = probs

theorem Stage.trans [IsStrictOrderedRing K] {P Q : K → Prop} (hprobs : sampler.Distributes probs)
    (h : Stage sampler P probs probs') (h' : Stage sampler Q probs' out) (hQ : ∀ m, Q m → P m) :
    Stage sampler Q probs out where
  distributes := h'.distributes
  within := h'.within
  relevels := by
    obtain ⟨newMass, hrelevels, hempty⟩ := h.relevels
    obtain ⟨newMass', hrelevels', hempty'⟩ := h'.relevels
    refine ⟨newMass', hrelevels.trans hprobs.isDistribution.nonneg hrelevels' hempty, ?_⟩
    intro entry hentry hzero
    refine hempty entry hentry ?_
    rw [← (hrelevels.regroups entry hentry).massAt_eq]
    exact hempty' entry hentry hzero
  fixed hwithin := by
    have hmiddle := h.fixed fun entry hentry => hQ _ (hwithin entry hentry)
    exact (h'.fixed (hmiddle ▸ hwithin)).trans hmiddle

section

variable (hcontracts : ∀ candidate ∈ sampler.candidates, candidate.contract.isSome = true)
  (hprobs : sampler.Distributes probs)

variable [IsStrictOrderedRing K]

include hcontracts hprobs in
/-- Candidates whose contracts keep their totals keep their probabilities. -/
theorem Relevels.eq_self (h : Relevels sampler (massAt probs) probs out) : out = probs := by
  refine ext_getElem h.length_eq fun index hindex hindex' => ?_
  have hcovered : index ∈ sampler.answerContractIndices.entries.flatMap Prod.snd :=
    (flatMap_indices_perm hcontracts).mem_iff.2 (mem_range.2 (hprobs.length_eq ▸ hindex'))
  obtain ⟨entry, hentry, hmem⟩ := mem_flatMap.1 hcovered
  obtain ⟨hnonneg, hmass, hproportional⟩ := h.regroups entry hentry
  have hvalue : out.getD index 0 = probs.getD index 0 := by
    by_cases hzero : massAt probs entry.2 = 0
    · rw [getD_eq_zero hnonneg (hmass.trans hzero) hmem,
        getD_eq_zero (fun index _ => getD_nonneg hprobs.isDistribution.nonneg index) hzero hmem]
    · exact mul_right_cancel₀ hzero (hproportional index hmem)
  rwa [getD_eq_getElem?_getD, getD_eq_getElem?_getD, getElem?_eq_getElem hindex,
    getElem?_eq_getElem hindex'] at hvalue

omit [IsStrictOrderedRing K] in
include hprobs in
theorem Stage.refl {P : K → Prop}
    (h : ∀ entry ∈ sampler.answerContractIndices.entries, P (massAt probs entry.2)) :
    Stage sampler P probs probs :=
  ⟨hprobs, h, ⟨massAt probs, .refl hprobs.isDistribution.nonneg, fun _ _ h => h⟩, fun _ => rfl⟩

omit [IsStrictOrderedRing K] in
theorem length_masses (sampler : RuliadFrontierSampler K) (probs : List K) :
    (sampler.masses probs).length = sampler.answerContractIndices.entries.length :=
  length_map ..

/-- The cap is at least the equal share. -/
theorem answerContractCap_spec {cap : K} (h : sampler.answerContractCap = some cap)
    (hpos : 0 < sampler.answerContractIndices.entries.length) :
    0 < cap ∧ 1 ≤ (sampler.answerContractIndices.entries.length : K) * cap := by
  have hn : (0 : K) < sampler.answerContractIndices.entries.length := Nat.cast_pos.2 hpos
  have hle : sampler.groupUniform ≤ cap := by
    unfold answerContractCap at h
    simp only at h
    split_ifs at h
    rw [← Option.some.inj h]
    exact le_max_right ..
  rw [groupUniform] at hle
  exact ⟨(div_pos zero_lt_one hn).trans_le hle, by rwa [div_le_iff₀' hn] at hle⟩

/-- The floor is at most the equal share and the cap. -/
theorem answerContractFloor_spec {floor : K} (h : sampler.answerContractFloor = some floor)
    (hpos : 0 < sampler.answerContractIndices.entries.length) :
    0 < floor ∧ (sampler.answerContractIndices.entries.length : K) * floor ≤ 1 ∧
      sampler.WithinCap floor := by
  have hn : (0 : K) < sampler.answerContractIndices.entries.length := Nat.cast_pos.2 hpos
  have huniform : 0 < sampler.groupUniform := div_pos zero_lt_one hn
  unfold answerContractFloor at h
  simp only at h
  split_ifs at h with hconfigured
  rw [← Option.some.inj h]
  refine ⟨lt_min (lt_max_of_lt_right (lt_min hconfigured huniform)) ?_, ?_, fun cap hcap => ?_⟩
  · cases hcap : sampler.answerContractCap with
    | none => exact zero_lt_one
    | some cap => exact (answerContractCap_spec hcap hpos).1
  · have hle : min (clamp sampler.config.minAnswerContractProbability 0 sampler.groupUniform)
        (sampler.answerContractCap.getD 1) ≤ sampler.groupUniform :=
      (min_le_left _ _).trans (max_le huniform.le (min_le_right _ _))
    refine (mul_le_mul_of_nonneg_left hle hn.le).trans_eq ?_
    rw [groupUniform, mul_div_cancel₀ _ hn.ne']
  · rw [hcap]
    exact min_le_right _ _

include hcontracts hprobs in
/-- **The cap stage brings every contract under the cap.** -/
theorem capStage {cap : K} (hcap : sampler.answerContractCap = some cap)
    (hpos : 0 < sampler.answerContractIndices.entries.length) :
    Stage sampler sampler.WithinCap probs
      (sampler.enforceCapWith exactCutoffs cap (sampler.answerContractGroups probs) probs) := by
  obtain ⟨hcapPos, hroom⟩ := answerContractCap_spec hcap hpos
  have hsum := sum_masses_eq_one hcontracts hprobs
  have hle : (sampler.masses probs).sum ≤ (sampler.masses probs).length * cap := by
    rw [hsum, length_masses]
    exact hroom
  have hrelevels := relevels_enforceCapWith hcontracts hprobs hcapPos (hsum ▸ hle)
  refine ⟨hrelevels.distributes hcontracts hprobs.length_eq ?_, fun entry hentry cap' hcap' => ?_,
    ⟨_, hrelevels, fun entry _ hzero => ?_⟩, fun hwithin => ?_⟩
  · have hlevels := sum_levelDown hle
    rw [masses, map_map] at hlevels
    exact hlevels.trans hsum
  · obtain rfl := Option.some.inj (hcap.symm.trans hcap')
    rw [(hrelevels.regroups entry hentry).massAt_eq]
    exact levelDown_le hle _
  · have hleft := sub_surplus_le_levelDown cap (sampler.masses probs) (massAt probs entry.2)
    rw [hzero, sub_surplus] at hleft
    exact le_antisymm ((min_le_iff.1 hleft).resolve_right (not_le.2 hcapPos)) (massAt_nonneg ..)
  · refine Relevels.eq_self hcontracts hprobs (hrelevels.congr fun entry hentry => ?_)
    refine levelDown_eq_self (fun m hm => ?_) (mem_map_of_mem hentry)
    obtain ⟨other, hother, rfl⟩ := mem_map.1 hm
    exact hwithin other hother cap hcap

include hcontracts hprobs in
/-- **The floor stage brings every contract over the floor**, and none over the cap. -/
theorem floorStage {floor : K} (hfloor : sampler.answerContractFloor = some floor)
    (hpos : 0 < sampler.answerContractIndices.entries.length)
    (hcapped : ∀ entry ∈ sampler.answerContractIndices.entries,
      sampler.WithinCap (massAt probs entry.2)) :
    Stage sampler sampler.WithinLimits probs
      (sampler.enforceFloorWith exactCutoffs floor (sampler.answerContractGroups probs)
        probs) := by
  obtain ⟨hfloorPos, hbelow, hfloorCap⟩ := answerContractFloor_spec hfloor hpos
  have hsum := sum_masses_eq_one hcontracts hprobs
  have hle : (sampler.masses probs).length * floor ≤ (sampler.masses probs).sum := by
    rw [hsum, length_masses]
    exact hbelow
  have hrelevels := relevels_enforceFloorWith hcontracts hprobs hfloorPos (hsum ▸ hle)
  refine ⟨hrelevels.distributes hcontracts hprobs.length_eq ?_,
    fun entry hentry => ⟨fun cap hcap => ?_, fun floor' hfloor' => ?_⟩,
    ⟨_, hrelevels, fun entry _ hzero => ?_⟩, fun hwithin => ?_⟩
  · have hlevels := sum_levelUp hle
    rw [masses, map_map] at hlevels
    exact hlevels.trans hsum
  · rw [(hrelevels.regroups entry hentry).massAt_eq]
    exact (levelUp_le ..).trans (max_le (hcapped entry hentry cap hcap) (hfloorCap cap hcap))
  · obtain rfl := Option.some.inj (hfloor.symm.trans hfloor')
    rw [(hrelevels.regroups entry hentry).massAt_eq]
    exact le_levelUp hle _
  · exact absurd (hzero ▸ le_levelUp hle (massAt probs entry.2)) (not_le.2 hfloorPos)
  · refine Relevels.eq_self hcontracts hprobs (hrelevels.congr fun entry hentry => ?_)
    refine levelUp_eq_self (fun m hm => ?_) (mem_map_of_mem hentry)
    obtain ⟨other, hother, rfl⟩ := mem_map.1 hm
    exact (hwithin other hother).2 floor hfloor

include hcontracts hprobs in
/-- The stages one after the other. -/
theorem balanceStage (htwo : 2 ≤ sampler.answerContractIndices.entries.length) :
    Stage sampler sampler.WithinLimits probs (sampler.enforceBalanceWith exactCutoffs probs) := by
  have hpos : 0 < sampler.answerContractIndices.entries.length := Nat.zero_lt_of_lt htwo
  have hrun : ¬(probs.isEmpty || decide (probs.length ≠ sampler.candidates.length)) = true := by
    rw [Bool.or_eq_true, decide_eq_true_eq, List.isEmpty_iff, ← List.length_eq_zero_iff,
      hprobs.length_eq, length_eq_zero_iff]
    exact not_or.2 ⟨hprobs.ne_nil, not_not.2 rfl⟩
  rw [enforceBalanceWith_exactCutoffs, if_neg hrun, if_neg (not_le.2 htwo)]
  split_ifs with hnone
  · rw [Bool.and_eq_true, Option.isNone_iff_eq_none, Option.isNone_iff_eq_none] at hnone
    refine .refl hprobs fun entry _ => ⟨fun cap hcap => ?_, fun floor hfloor => ?_⟩
    · exact nomatch hnone.1.symm.trans hcap
    · exact nomatch hnone.2.symm.trans hfloor
  · have hcap : Stage sampler sampler.WithinCap probs (sampler.capStep probs) := by
      unfold capStep
      split
      · next cap hcap => exact capStage hcontracts hprobs hcap hpos
      · next hcap => exact .refl hprobs fun entry _ cap hsome => nomatch hcap.symm.trans hsome
    have hfloor : Stage sampler sampler.WithinLimits (sampler.capStep probs)
        (sampler.floorStep (sampler.capStep probs)) := by
      unfold floorStep
      split
      · next floor hfloor => exact floorStage hcontracts hcap.distributes hfloor hpos hcap.within
      · next hfloor => exact .refl hcap.distributes fun entry hentry =>
          ⟨hcap.within entry hentry, fun floor hsome => nomatch hfloor.symm.trans hsome⟩
    rw [normalizeWith_eq_self hprobs.isDistribution,
      normalizeWith_eq_self hfloor.distributes.isDistribution]
    exact hcap.trans hprobs hfloor fun _ h => h.1

end

/-! ## Normalization -/

section

variable [IsStrictOrderedRing K]

/-- Values with a positive total are divided by it. -/
theorem normalizeWith_of_pos (h : ∀ p ∈ probs, 0 ≤ p) (hsum : 0 < probs.sum) :
    normalizeWith exactCutoffs probs = probs.map (· / probs.sum) := by
  unfold normalizeWith
  simp only [filter_pos_sum h]
  rw [if_neg (show ¬probs.sum ≤ exactCutoffs.epsilon from not_le.2 hsum)]
  refine map_congr_left fun p hp => ?_
  rcases (h p hp).lt_or_eq with hlt | heq
  · rw [if_pos hlt]
  · simp [← heq]

theorem normalizeWith_distributes (h : ∀ p ∈ probs, 0 ≤ p)
    (hlength : probs.length = sampler.candidates.length) (hne : sampler.candidates ≠ []) :
    sampler.Distributes (normalizeWith exactCutoffs probs) := by
  have hprobs : probs ≠ [] := fun hnil => hne (length_eq_zero_iff.1 (hlength ▸ hnil ▸ rfl))
  rcases (sum_nonneg h).eq_or_lt with hzero | hpos
  · have huniform : normalizeWith exactCutoffs probs =
        probs.map fun _ => 1 / (probs.length : K) := by
      unfold normalizeWith
      simp only [filter_pos_sum h, ← hzero]
      exact if_pos le_rfl
    rw [huniform]
    exact ⟨.uniform hprobs, (length_map _).trans hlength⟩
  · rw [normalizeWith_of_pos h hpos]
    refine ⟨⟨fun q hq => ?_, ?_⟩, (length_map _).trans hlength⟩
    · obtain ⟨p, hp, rfl⟩ := mem_map.1 hq
      exact div_nonneg (h p hp) hpos.le
    · simp only [div_eq_mul_inv]
      rw [sum_map_mul_right, map_id', mul_inv_cancel₀ hpos.ne']

end

/-! ## The constraints -/

/-- The answer contracts that occur. -/
def contracts (sampler : RuliadFrontierSampler K) : List String :=
  (sampler.candidates.filterMap RuliadSamplerCandidate.contract).dedup

/-- The total of the candidates of an answer contract. -/
def contractTotal (sampler : RuliadFrontierSampler K) (probs : List K) (contract : String) : K :=
  ∑ index ∈ Finset.range sampler.candidates.length with sampler.contractAt index = some contract,
    probs.getD index 0

/-- What the constraints ask of the probabilities. -/
structure MeetsConstraints (sampler : RuliadFrontierSampler K) (probs out : List K) : Prop where
  length_eq : out.length = probs.length
  nonneg : ∀ p ∈ out, 0 ≤ p
  sum_eq_one : out.sum = 1
  le_cap : sampler.config.maxAnswerContractProbability < 1 → ∀ contract ∈ sampler.contracts,
    sampler.contractTotal out contract ≤
      max sampler.config.maxAnswerContractProbability (1 / sampler.contracts.length)
  floor_le : 0 < sampler.config.minAnswerContractProbability → ∀ contract ∈ sampler.contracts,
    min sampler.config.minAnswerContractProbability (1 / sampler.contracts.length) ≤
      sampler.contractTotal out contract
  proportional : ∀ contract, 0 < sampler.contractTotal probs contract →
    ∃ scale, 0 < scale ∧ ∀ index, sampler.contractAt index = some contract →
      out.getD index 0 = scale * probs.getD index 0

section Constraints

omit [Field K] [LinearOrder K] in
theorem mem_contracts {contract : String} :
    contract ∈ sampler.contracts ↔ ∃ index, sampler.contractAt index = some contract := by
  rw [contracts, mem_dedup, mem_filterMap]
  constructor
  · rintro ⟨candidate, hmem, hcontract⟩
    obtain ⟨index, hindex⟩ := mem_iff_getElem?.1 hmem
    exact ⟨index, Option.bind_eq_some_iff.2 ⟨candidate, hindex, hcontract⟩⟩
  · rintro ⟨index, hindex⟩
    obtain ⟨candidate, hcandidate, hcontract⟩ := Option.bind_eq_some_iff.1 hindex
    exact ⟨candidate, mem_of_getElem? hcandidate, hcontract⟩

omit [Field K] [LinearOrder K] in
/-- There is one group for each contract. -/
theorem length_contracts :
    sampler.contracts.length = sampler.answerContractIndices.entries.length := by
  have hperm : sampler.contracts.Perm sampler.answerContractIndices.keys :=
    (perm_ext_iff_of_nodup (nodup_dedup _)
      sampler.answerContractIndices.nodup_keys).2 fun contract =>
        mem_contracts.trans mem_keys_answerContractIndices.symm
  exact hperm.length_eq.trans (length_map _)

theorem massAt_eq_contractTotal {entry : String × List ℕ}
    (hentry : entry ∈ sampler.answerContractIndices.entries) (h : ∀ p ∈ probs, 0 ≤ p) :
    massAt probs entry.2 = sampler.contractTotal probs entry.1 := by
  obtain ⟨hnodup, -, hindices⟩ := indices_of_mem hentry
  rw [massAt_eq_sum fun index _ => ⟨rfl, getD_nonneg h index⟩, ← sum_toFinset _ hnodup,
    contractTotal]
  refine Finset.sum_congr (Finset.ext fun index => ?_) fun _ _ => rfl
  rw [mem_toFinset, hindices, Finset.mem_filter, Finset.mem_range]
  exact ⟨fun hat => ⟨lt_length_of_contractAt hat, hat⟩, fun hat => hat.2⟩

omit [Field K] [LinearOrder K] in
theorem exists_entry {contract : String} (h : ∃ index, sampler.contractAt index = some contract) :
    ∃ indices, (contract, indices) ∈ sampler.answerContractIndices.entries := by
  obtain ⟨entry, hentry, rfl⟩ := mem_map.1 (mem_keys_answerContractIndices.2 h)
  exact ⟨entry.2, hentry⟩

variable [IsStrictOrderedRing K]

/-- The equal share is below the cap, or below one. -/
theorem groupUniform_le_cap (hpos : 0 < sampler.answerContractIndices.entries.length) :
    sampler.groupUniform ≤ sampler.answerContractCap.getD 1 := by
  have hn : (0 : K) < sampler.answerContractIndices.entries.length := Nat.cast_pos.2 hpos
  cases hcap : sampler.answerContractCap with
  | none =>
    rw [groupUniform, Option.getD_none, div_le_one hn]
    exact_mod_cast hpos
  | some cap =>
    rw [groupUniform, Option.getD_some, div_le_iff₀' hn]
    exact (answerContractCap_spec hcap hpos).2

theorem WithinLimits.le_cap {m : K} (h : sampler.WithinLimits m)
    (henabled : sampler.config.maxAnswerContractProbability < 1) :
    m ≤ max sampler.config.maxAnswerContractProbability (1 / sampler.contracts.length) := by
  have hcap := h.1 (max (clamp sampler.config.maxAnswerContractProbability 0 1)
    sampler.groupUniform) (by rw [answerContractCap]; exact if_pos henabled)
  have huniform : (0 : K) ≤ 1 / sampler.contracts.length :=
    div_nonneg zero_le_one (Nat.cast_nonneg _)
  refine hcap.trans (max_le (max_le (huniform.trans (le_max_right ..))
    ((min_le_left _ _).trans (le_max_left ..))) ?_)
  rw [groupUniform, length_contracts]
  exact le_max_right ..

theorem WithinLimits.floor_le {m : K} (h : sampler.WithinLimits m)
    (henabled : 0 < sampler.config.minAnswerContractProbability)
    (hpos : 0 < sampler.answerContractIndices.entries.length) :
    min sampler.config.minAnswerContractProbability (1 / sampler.contracts.length) ≤ m := by
  have hfloor := h.2 (min (clamp sampler.config.minAnswerContractProbability 0
    sampler.groupUniform) (sampler.answerContractCap.getD 1))
    (by rw [answerContractFloor]; exact if_pos henabled)
  rw [length_contracts]
  refine (le_min (le_max_right ..) ?_).trans hfloor
  exact (min_le_right _ _).trans (groupUniform_le_cap hpos)

theorem getD_normalizeWith (h : ∀ p ∈ probs, 0 ≤ p) (hsum : 0 < probs.sum) (index : ℕ) :
    (normalizeWith exactCutoffs probs).getD index 0 = probs.getD index 0 / probs.sum := by
  rw [normalizeWith_of_pos h hsum, getD_eq_getElem?_getD, getD_eq_getElem?_getD, getElem?_map]
  cases probs[index]? with
  | none => exact (zero_div _).symm
  | some p => rfl

/-- Normalization divides the total of a contract by that of all candidates. -/
theorem contractTotal_normalizeWith (h : ∀ p ∈ probs, 0 ≤ p) (hsum : 0 < probs.sum)
    (contract : String) : sampler.contractTotal (normalizeWith exactCutoffs probs) contract =
      sampler.contractTotal probs contract / probs.sum := by
  rw [contractTotal, contractTotal, Finset.sum_div]
  exact Finset.sum_congr rfl fun index _ => getD_normalizeWith h hsum index

/-- **The constraints are met, and applying them again changes nothing.** Every candidate has an
answer contract, and there are at least two of them. -/
theorem applyConstraintsWith_meets
    (hcontracts : ∀ candidate ∈ sampler.candidates, candidate.contract.isSome = true)
    (htwo : 2 ≤ sampler.contracts.length) (hlength : probs.length = sampler.candidates.length)
    (hprobs : ∀ p ∈ probs, 0 ≤ p) :
    MeetsConstraints sampler probs (sampler.applyConstraintsWith exactCutoffs probs) ∧
      sampler.applyConstraintsWith exactCutoffs
        (sampler.applyConstraintsWith exactCutoffs probs) =
          sampler.applyConstraintsWith exactCutoffs probs := by
  rw [length_contracts] at htwo
  have hpos : 0 < sampler.answerContractIndices.entries.length := Nat.zero_lt_of_lt htwo
  have hne : sampler.candidates ≠ [] := fun hnil => by
    have hnone : sampler.answerContractIndices.entries.length = 0 := by
      rw [answerContractIndices, hnil]
      rfl
    exact hpos.ne' hnone
  have hnormal := normalizeWith_distributes hprobs hlength hne
  have hstage := balanceStage hcontracts hnormal htwo
  have happly : ∀ ps : List K, ps.length = sampler.candidates.length →
      sampler.applyConstraintsWith exactCutoffs ps =
        sampler.enforceBalanceWith exactCutoffs (normalizeWith exactCutoffs ps) := fun ps hps => by
    rw [applyConstraintsWith, if_neg (not_not.2 hps)]
  rw [happly probs hlength]
  set out := sampler.enforceBalanceWith exactCutoffs (normalizeWith exactCutoffs probs) with hout
  have hnonneg := hstage.distributes.isDistribution.nonneg
  have hwithin : ∀ contract ∈ sampler.contracts,
      sampler.WithinLimits (sampler.contractTotal out contract) := fun contract hcontract => by
    obtain ⟨indices, hentry⟩ := exists_entry (mem_contracts.1 hcontract)
    rw [← massAt_eq_contractTotal hentry hnonneg]
    exact hstage.within _ hentry
  refine ⟨⟨hstage.distributes.length_eq.trans hlength.symm, hnonneg,
    hstage.distributes.isDistribution.sum_eq_one,
    fun henabled contract hcontract => (hwithin contract hcontract).le_cap henabled,
    fun henabled contract hcontract => (hwithin contract hcontract).floor_le henabled hpos,
    fun contract hcontract => ?_⟩, ?_⟩
  · have hindex : ∃ index, sampler.contractAt index = some contract := by
      by_contra hnone
      have hempty : (Finset.range sampler.candidates.length).filter
          (fun index => sampler.contractAt index = some contract) = ∅ :=
        Finset.filter_eq_empty_iff.2 fun {index} _ hat => hnone ⟨index, hat⟩
      rw [contractTotal, hempty, Finset.sum_empty] at hcontract
      exact lt_irrefl _ hcontract
    obtain ⟨indices, hentry⟩ := exists_entry hindex
    have htotal : massAt probs indices = sampler.contractTotal probs contract :=
      massAt_eq_contractTotal hentry hprobs
    have hsum : 0 < probs.sum := by
      rw [← sum_masses hcontracts hlength hprobs]
      refine (hcontract.trans_eq htotal.symm).trans_le (List.single_le_sum (fun m hm => ?_) _
        (List.mem_map_of_mem hentry))
      obtain ⟨entry, -, rfl⟩ := List.mem_map.1 hm
      exact massAt_nonneg ..
    have hstart : massAt (normalizeWith exactCutoffs probs) indices =
        sampler.contractTotal probs contract / probs.sum :=
      (massAt_eq_contractTotal hentry hnormal.isDistribution.nonneg).trans
        (contractTotal_normalizeWith hprobs hsum contract)
    have hstartPos : 0 < massAt (normalizeWith exactCutoffs probs) indices :=
      hstart ▸ div_pos hcontract hsum
    obtain ⟨newMass, hrelevels, hempty⟩ := hstage.relevels
    have hregroups := hrelevels.regroups _ hentry
    have hnewPos : 0 < newMass indices :=
      (hregroups.massAt_eq ▸ massAt_nonneg out indices).lt_of_ne fun hzero =>
        hstartPos.ne' (hempty _ hentry hzero.symm)
    refine ⟨newMass indices / massAt (normalizeWith exactCutoffs probs) indices / probs.sum,
      div_pos (div_pos hnewPos hstartPos) hsum, fun index hat => ?_⟩
    have hproportional := hregroups.proportional index
      (((indices_of_mem hentry).2.2 index).2 hat)
    rw [getD_normalizeWith hprobs hsum] at hproportional
    rw [eq_div_of_mul_eq hstartPos.ne' hproportional]
    ring
  · rw [happly out hstage.distributes.length_eq,
      normalizeWith_eq_self hstage.distributes.isDistribution]
    exact (balanceStage hcontracts hstage.distributes htwo).fixed hstage.within

theorem applyConstraintsWith_meets_contractSampler :
    MeetsConstraints (contractSampler (60 / 100)) [3 / 4, 1 / 4]
        ((contractSampler (60 / 100)).applyConstraintsWith exactCutoffs [3 / 4, 1 / 4]) ∧
      (contractSampler (60 / 100)).applyConstraintsWith exactCutoffs
        ((contractSampler (60 / 100)).applyConstraintsWith exactCutoffs [3 / 4, 1 / 4]) =
          (contractSampler (60 / 100)).applyConstraintsWith exactCutoffs [3 / 4, 1 / 4] :=
  applyConstraintsWith_meets (by decide +kernel) (by decide +kernel) (by decide +kernel)
    (by decide +kernel)

end Constraints

end RuliadFrontierSampler

end BurnDragon.Ruliad
