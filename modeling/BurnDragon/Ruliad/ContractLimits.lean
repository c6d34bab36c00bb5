import BurnDragon.Ruliad.ContractRegroups

/-!
# Every answer contract within its limits

The balance gives the answer contracts new totals: first the totals are levelled down to the cap and
then up to the floor (`limited`). The cap is at least the equal share and the floor at most, so that
both can be met (`applyConstraintsWith_balanced`).
-/

namespace BurnDragon.Ruliad

open Probability Rust List

namespace RuliadFrontierSampler

variable {K : Type*} {sampler : RuliadFrontierSampler K}

/-! ## The candidates by contract -/

/-- The answer contract of the candidate at an index. -/
def contractAt (sampler : RuliadFrontierSampler K) (index : ℕ) : Option String :=
  sampler.candidates[index]?.bind RuliadSamplerCandidate.contract

/-- The indices of a contract are collected in order. -/
theorem get?_foldl_contracts (entries : List (RuliadSamplerCandidate K × ℕ))
    (m : BTreeMap String (List ℕ)) (contract : String) :
    (entries.foldl (fun groups entry =>
      match entry.1.contract with
      | some contract => groups.push contract entry.2
      | none => groups) m).get? contract =
      if entries.filter (fun entry => entry.1.contract = some contract) = [] then m.get? contract
      else some ((m.get? contract).getD [] ++
        (entries.filter fun entry => entry.1.contract = some contract).map Prod.snd) := by
  induction entries generalizing m with
  | nil => rw [filter_nil, if_pos rfl]; rfl
  | cons entry entries ih =>
    rw [foldl_cons, ih]
    cases hcontract : entry.1.contract with
    | none => rw [filter_cons_of_neg (by simp [hcontract])]
    | some other =>
      simp only [BTreeMap.push, BTreeMap.get?_insert]
      by_cases hother : contract = other
      · subst hother
        rw [filter_cons_of_pos (by simp [hcontract]), if_pos rfl,
          if_neg (cons_ne_nil _ _), Option.getD_some, map_cons, append_assoc,
          singleton_append]
        split_ifs with hnil
        · rw [hnil]
          rfl
        · rfl
      · rw [filter_cons_of_neg (by simpa [hcontract] using Ne.symm hother), if_neg hother]

theorem get?_answerContractIndices (contract : String) :
    sampler.answerContractIndices.get? contract =
      if sampler.candidates.zipIdx.filter (fun entry => entry.1.contract = some contract) = [] then
        none
      else some ((sampler.candidates.zipIdx.filter fun entry =>
        entry.1.contract = some contract).map Prod.snd) :=
  get?_foldl_contracts sampler.candidates.zipIdx .empty contract

variable {contract : String}

/-- The group of a contract holds the indices of its candidates, each once. -/
theorem indices_of_mem {indices : List ℕ}
    (h : (contract, indices) ∈ sampler.answerContractIndices.entries) :
    indices.Nodup ∧ indices ≠ [] ∧
      ∀ index, index ∈ indices ↔ sampler.contractAt index = some contract := by
  have hget := BTreeMap.get?_eq_some_iff.2 h
  rw [get?_answerContractIndices] at hget
  split_ifs at hget with hnil
  obtain rfl := Option.some.inj hget
  refine ⟨?_, ?_, fun index => ?_⟩
  · have hall : (sampler.candidates.zipIdx.map Prod.snd).Nodup := by
      rw [zipIdx_map_snd]
      exact nodup_range'
    exact hall.sublist (filter_sublist.map _)
  · simpa using hnil
  · simp only [mem_map, mem_filter, decide_eq_true_eq, contractAt, Option.bind_eq_some_iff]
    constructor
    · rintro ⟨⟨candidate, i⟩, ⟨hmem, hcontract⟩, rfl⟩
      exact ⟨candidate, mem_zipIdx_iff_getElem?.1 hmem, hcontract⟩
    · rintro ⟨candidate, hget, hcontract⟩
      exact ⟨(candidate, index), ⟨mem_zipIdx_iff_getElem?.2 hget, hcontract⟩, rfl⟩

/-- The contracts with a group are those of the candidates. -/
theorem mem_keys_answerContractIndices :
    contract ∈ sampler.answerContractIndices.keys ↔
      ∃ index, sampler.contractAt index = some contract := by
  constructor
  · intro h
    obtain ⟨⟨contract, indices⟩, hentry, rfl⟩ := mem_map.1 h
    obtain ⟨-, hne, hindices⟩ := indices_of_mem hentry
    obtain ⟨index, hindex⟩ := exists_mem_of_ne_nil _ hne
    exact ⟨index, (hindices index).1 hindex⟩
  · rintro ⟨index, hindex⟩
    by_contra hkey
    have hget := BTreeMap.get?_eq_none_iff.2 hkey
    rw [get?_answerContractIndices] at hget
    split_ifs at hget with hnil
    obtain ⟨candidate, hcandidate, hcontract⟩ := Option.bind_eq_some_iff.1 hindex
    have hmem : (candidate, index) ∈ sampler.candidates.zipIdx.filter
        (fun entry => entry.1.contract = some contract) :=
      mem_filter.2 ⟨mem_zipIdx_iff_getElem?.2 hcandidate, by simpa using hcontract⟩
    exact not_mem_nil (hnil ▸ hmem)

theorem indices_disjoint : sampler.answerContractIndices.entries.Pairwise fun entry other =>
    entry.2.Disjoint other.2 := by
  have hnodup : sampler.answerContractIndices.entries.Pairwise fun entry other =>
      entry.1 ≠ other.1 := pairwise_map.1 sampler.answerContractIndices.nodup_keys
  refine hnodup.imp_of_mem fun {entry other} hentry hother hne index hindex hindex' => hne ?_
  have h := ((indices_of_mem hentry).2.2 index).1 hindex
  have h' := ((indices_of_mem hother).2.2 index).1 hindex'
  exact Option.some.inj (h.symm.trans h')

theorem lt_length_of_contractAt {index : ℕ} (h : sampler.contractAt index = some contract) :
    index < sampler.candidates.length := by
  obtain ⟨candidate, hcandidate, -⟩ := Option.bind_eq_some_iff.1 h
  exact (List.getElem?_eq_some_iff.1 hcandidate).1

theorem lt_length_of_mem {entry : String × List ℕ} {index : ℕ}
    (hentry : entry ∈ sampler.answerContractIndices.entries) (hindex : index ∈ entry.2) :
    index < sampler.candidates.length :=
  lt_length_of_contractAt (((indices_of_mem hentry).2.2 index).1 hindex)

/-- If every candidate has a contract, the groups hold every index once. -/
theorem flatMap_indices_perm
    (hcontracts : ∀ candidate ∈ sampler.candidates, candidate.contract.isSome = true) :
    (sampler.answerContractIndices.entries.flatMap Prod.snd).Perm
      (List.range sampler.candidates.length) := by
  have hnodup : (sampler.answerContractIndices.entries.flatMap Prod.snd).Nodup :=
    nodup_flatMap.2 ⟨fun entry hentry => (indices_of_mem hentry).1, indices_disjoint⟩
  refine (perm_ext_iff_of_nodup hnodup nodup_range).2 fun index => ?_
  rw [mem_flatMap, mem_range]
  constructor
  · rintro ⟨entry, hentry, hindex⟩
    exact lt_length_of_contractAt (((indices_of_mem hentry).2.2 index).1 hindex)
  · intro hlt
    obtain ⟨contract, hcontract⟩ := Option.isSome_iff_exists.1
      (hcontracts _ (getElem_mem hlt))
    have hat : sampler.contractAt index = some contract := by
      rw [contractAt, getElem?_eq_getElem hlt]
      exact hcontract
    obtain ⟨entry, hentry, rfl⟩ :=
      mem_map.1 (mem_keys_answerContractIndices.2 ⟨index, hat⟩)
    exact ⟨entry, hentry, ((indices_of_mem hentry).2.2 index).2 hat⟩

/-! ## New totals for all contracts -/

variable [Field K] [LinearOrder K]

/-- The totals of the contracts. -/
def masses (sampler : RuliadFrontierSampler K) (probs : List K) : List K :=
  sampler.answerContractIndices.entries.map fun entry => massAt probs entry.2

/-- The candidates of every contract get a new total. -/
structure Relevels (sampler : RuliadFrontierSampler K) (newMass : List ℕ → K)
    (probs probs' : List K) : Prop where
  length_eq : probs'.length = probs.length
  regroups : ∀ entry ∈ sampler.answerContractIndices.entries,
    Regroups entry.2 (newMass entry.2) probs probs'

variable {probs probs' probs'' : List K} {newMass newMass' : List ℕ → K}

theorem Relevels.masses_eq (h : Relevels sampler newMass probs probs') :
    sampler.masses probs' =
      sampler.answerContractIndices.entries.map fun entry => newMass entry.2 :=
  map_congr_left fun entry hentry => (h.regroups entry hentry).massAt_eq

/-- Only the totals of the contracts matter. -/
theorem Relevels.congr (h : Relevels sampler newMass probs probs')
    (hmass : ∀ entry ∈ sampler.answerContractIndices.entries,
      newMass entry.2 = newMass' entry.2) : Relevels sampler newMass' probs probs' :=
  ⟨h.length_eq, fun entry hentry => hmass entry hentry ▸ h.regroups entry hentry⟩

theorem getD_nonneg (h : ∀ p ∈ probs, 0 ≤ p) (index : ℕ) : 0 ≤ probs.getD index 0 := by
  rw [getD_eq_getElem?_getD]
  cases hget : probs[index]? with
  | none => exact le_rfl
  | some p => exact h p (mem_of_getElem? hget)

theorem Relevels.refl (h : ∀ p ∈ probs, 0 ≤ p) : Relevels sampler (massAt probs) probs probs :=
  ⟨rfl, fun _ _ => .refl fun index _ => getD_nonneg h index⟩

theorem Relevels.trans [IsStrictOrderedRing K] (hprobs : ∀ p ∈ probs, 0 ≤ p)
    (h : Relevels sampler newMass probs probs') (h' : Relevels sampler newMass' probs' probs'')
    (hempty : ∀ entry ∈ sampler.answerContractIndices.entries,
      newMass entry.2 = 0 → massAt probs entry.2 = 0) :
    Relevels sampler newMass' probs probs'' where
  length_eq := h'.length_eq.trans h.length_eq
  regroups entry hentry := (h.regroups entry hentry).trans
    (fun index _ => getD_nonneg hprobs index) (h'.regroups entry hentry) (hempty entry hentry)

section Covered

variable (hcontracts : ∀ candidate ∈ sampler.candidates, candidate.contract.isSome = true)

include hcontracts in
/-- The totals of the contracts add up to the total of the candidates. -/
theorem sum_masses (hlength : probs.length = sampler.candidates.length)
    (hprobs : ∀ p ∈ probs, 0 ≤ p) : (sampler.masses probs).sum = probs.sum := by
  have hvalues : (List.range sampler.candidates.length).map (fun index => probs.getD index 0) =
      probs := by
    refine ext_getElem? fun index => ?_
    rw [getElem?_map, ← hlength]
    by_cases hindex : index < probs.length
    · rw [getElem?_range hindex, Option.map_some, getD_eq_getElem?_getD,
        getElem?_eq_getElem hindex, Option.getD_some]
    · rw [getElem?_eq_none (not_lt.1 hindex), getElem?_eq_none (by simpa using hindex),
        Option.map_none]
  have hsum := ((flatMap_indices_perm hcontracts).map fun index => probs.getD index 0).sum_eq
  rw [hvalues, map_flatMap, List.flatMap, sum_flatten, map_map] at hsum
  rw [← hsum]
  exact congrArg List.sum (map_congr_left fun entry _ =>
    massAt_eq_sum fun index _ => ⟨rfl, getD_nonneg hprobs index⟩)

include hcontracts in
/-- The values are not negative. -/
theorem Relevels.nonneg (h : Relevels sampler newMass probs probs')
    (hlength : probs.length = sampler.candidates.length) : ∀ p ∈ probs', 0 ≤ p := by
  intro p hp
  obtain ⟨index, hindex, rfl⟩ := mem_iff_getElem.1 hp
  have hcovered : index ∈ sampler.answerContractIndices.entries.flatMap Prod.snd :=
    (flatMap_indices_perm hcontracts).mem_iff.2
      (mem_range.2 (h.length_eq.trans hlength ▸ hindex))
  obtain ⟨entry, hentry, hmem⟩ := mem_flatMap.1 hcovered
  have hvalue := (h.regroups entry hentry).nonneg index hmem
  rwa [getD_eq_getElem?_getD, getElem?_eq_getElem hindex, Option.getD_some] at hvalue

include hcontracts in
/-- Totals that add up to one make a distribution. -/
theorem Relevels.distributes (h : Relevels sampler newMass probs probs')
    (hlength : probs.length = sampler.candidates.length)
    (hsum : (sampler.answerContractIndices.entries.map fun entry => newMass entry.2).sum = 1) :
    sampler.Distributes probs' := by
  have hlength' : probs'.length = sampler.candidates.length := h.length_eq.trans hlength
  have hnonneg := h.nonneg hcontracts hlength
  refine ⟨⟨hnonneg, ?_⟩, hlength'⟩
  rw [← sum_masses hcontracts hlength' hnonneg, h.masses_eq, hsum]

end Covered

/-! ## The loops of the stages -/

/-- A loop over the groups of a list, run on a list in which the totals may have changed. -/
theorem relevels_foldl (newMass : List ℕ → K) {op : List K → AnswerContractGroup K → List K}
    {start : List K}
    (hop : ∀ entry ∈ sampler.answerContractIndices.entries, ∀ current : List K,
      current.length = start.length → (∀ index, 0 ≤ current.getD index 0) →
      massAt current entry.2 = newMass entry.2 →
      Regroups entry.2 (newMass' entry.2) current (op current ⟨entry.2, massAt probs entry.2⟩) ∧
        ChangesAt entry.2 current (op current ⟨entry.2, massAt probs entry.2⟩))
    (hstart : ∀ p ∈ start, 0 ≤ p)
    (hmass : ∀ entry ∈ sampler.answerContractIndices.entries,
      massAt start entry.2 = newMass entry.2) :
    Relevels sampler newMass' start ((sampler.answerContractGroups probs).foldl op start) := by
  obtain ⟨hlength, -, hgroups⟩ := foldl_regroups op (fun group => newMass group.indices)
    (fun group => newMass' group.indices)
    (pairwise_map.2 indices_disjoint : (sampler.answerContractGroups probs).Pairwise _)
    (fun group hgroup => by
      obtain ⟨entry, hentry, rfl⟩ := mem_map.1 hgroup
      exact hop entry hentry)
    (fun index => getD_nonneg hstart index)
    (fun group hgroup => by
      obtain ⟨entry, hentry, rfl⟩ := mem_map.1 hgroup
      exact hmass entry hentry)
  exact ⟨hlength, fun entry hentry => hgroups _ (mem_map_of_mem hentry)⟩

/-! ## The cap stage -/

variable [IsStrictOrderedRing K]

/-- A distribution is not changed. -/
theorem normalizeWith_eq_self (h : IsDistribution probs) :
    normalizeWith exactCutoffs probs = probs := by
  have hpos : ¬(1 : K) ≤ exactCutoffs.epsilon := not_le.2 zero_lt_one
  unfold normalizeWith
  simp only [filter_pos_sum h.nonneg, h.sum_eq_one, div_one]
  rw [if_neg hpos]
  refine (map_congr_left fun p hp => ?_).trans (map_id _)
  rcases (h.nonneg p hp).lt_or_eq with hlt | heq
  · rw [if_pos hlt]
    rfl
  · simp [← heq]

/-- The first loop over the groups, with the groups and the excess that it leaves. -/
theorem scaleDownToCapWith_eq {cap : K} (hcap : 0 < cap) (groups : List (AnswerContractGroup K))
    (probs : List K) :
    scaleDownToCapWith exactCutoffs cap groups probs =
      (groups.foldl (fun probs group =>
          if group.mass ≤ cap then probs else scaleAt probs group.indices (cap / group.mass)) probs,
        groups.map fun group => { group with mass := min group.mass cap },
        (groups.map fun group => surplus cap group.mass).sum) := by
  induction groups generalizing probs with
  | nil => rfl
  | cons group groups ih =>
    rw [scaleDownToCapWith, foldl_cons, map_cons, map_cons, sum_cons]
    by_cases hgroup : group.mass ≤ cap
    · rw [if_pos (by simp [hgroup]), if_pos hgroup, ih, min_eq_left hgroup, surplus_of_le hgroup,
        zero_add]
    · have hlt := not_le.1 hgroup
      have hmass : ¬group.mass ≤ exactCutoffs.epsilon := not_le.2 (hcap.trans hlt)
      have hboth : ¬(decide (group.mass ≤ cap) || decide (group.mass ≤ exactCutoffs.epsilon)) =
          true := by
        rw [Bool.or_eq_true, decide_eq_true_eq, decide_eq_true_eq]
        exact not_or.2 ⟨hgroup, hmass⟩
      rw [if_neg hboth, if_neg hgroup, ih, min_eq_right hlt.le, surplus_of_ge hlt.le]

theorem room_min (cap m : K) : room cap (min m cap) = room cap m := by
  rcases le_total m cap with h | h
  · rw [min_eq_left h]
  · rw [min_eq_right h, room_of_ge h, room_of_ge le_rfl]

section Stages

variable (hcontracts : ∀ candidate ∈ sampler.candidates, candidate.contract.isSome = true)
  (hprobs : sampler.Distributes probs)

omit [IsStrictOrderedRing K] in
include hcontracts hprobs in
theorem sum_masses_eq_one : (sampler.masses probs).sum = 1 := by
  rw [sum_masses hcontracts hprobs.length_eq hprobs.isDistribution.nonneg,
    hprobs.isDistribution.sum_eq_one]

variable {cap : K}

include hprobs in
/-- The groups above the cap are scaled down to it. -/
theorem relevels_scaleDown (hcap : 0 < cap) :
    Relevels sampler (fun indices => min (massAt probs indices) cap) probs
      ((sampler.answerContractGroups probs).foldl (fun probs group =>
        if group.mass ≤ cap then probs else scaleAt probs group.indices (cap / group.mass))
        probs) := by
  refine relevels_foldl (massAt probs) ?_ hprobs.isDistribution.nonneg fun _ _ => rfl
  intro entry hentry current hlength hcurrent hmass
  have hnodup := (indices_of_mem hentry).1
  simp only
  split_ifs with hle
  · refine ⟨?_, .refl ..⟩
    rw [min_eq_left hle, ← hmass]
    exact .refl fun index _ => hcurrent index
  · have hlt := not_le.1 hle
    refine ⟨?_, changesAt_scaleAt hnodup _⟩
    have hscaled := regroups_scaleAt hnodup
      (fun index hindex => (lt_length_of_mem hentry hindex).trans_eq
        (hlength.trans hprobs.length_eq).symm) (fun index _ => hcurrent index)
      (div_nonneg hcap.le (hcap.trans hlt).le)
    rw [min_eq_right hlt.le]
    rwa [hmass, mul_div_cancel₀ _ (hcap.trans hlt).ne'] at hscaled

include hcontracts hprobs in
/-- The groups with room get their shares of the excess. -/
theorem relevels_fillRoom {excess headroom : K} (hexcess : 0 ≤ excess) (hheadroom : 0 ≤ headroom)
    {scaled : List K}
    (hscaled : Relevels sampler (fun indices => min (massAt probs indices) cap) probs scaled) :
    Relevels sampler (fun indices => min (massAt probs indices) cap +
        excess * room cap (massAt probs indices) / headroom) scaled
      (((sampler.answerContractGroups probs).map fun group =>
        { group with mass := min group.mass cap }).foldl (fun probs group =>
          let room := max (cap - group.mass) 0
          if room ≤ 0 then probs
          else sampler.distributeAdditionWith exactCutoffs probs group.indices
            (excess * room / headroom)) scaled) := by
  rw [foldl_map]
  refine relevels_foldl (fun indices => min (massAt probs indices) cap) ?_
    (hscaled.nonneg hcontracts hprobs.length_eq) fun entry hentry =>
      (hscaled.regroups entry hentry).massAt_eq
  intro entry hentry current hlength hcurrent hmass
  obtain ⟨hnodup, hne, -⟩ := indices_of_mem hentry
  have hlength' : current.length = sampler.candidates.length :=
    hlength.trans (hscaled.length_eq.trans hprobs.length_eq)
  simp only [show max (cap - min (massAt probs entry.2) cap) 0 = room cap (massAt probs entry.2)
    from room_min ..]
  split_ifs with hroom
  · refine ⟨?_, .refl ..⟩
    rw [le_antisymm hroom (room_nonneg ..), mul_zero, zero_div, add_zero, ← hmass]
    exact .refl fun index _ => hcurrent index
  · refine ⟨?_, changesAt_distributeAdditionWith sampler hnodup _⟩
    rw [← hmass]
    exact regroups_distributeAdditionWith hnodup
      (fun index hindex => (lt_length_of_mem hentry hindex).trans_eq hlength'.symm)
      (fun index _ => hcurrent index) sampler hlength' hne
      (div_nonneg (mul_nonneg hexcess (room_nonneg ..)) hheadroom)

include hcontracts hprobs in
/-- **The cap stage levels the totals down.** -/
theorem relevels_enforceCapWith (hcap : 0 < cap) (hroom : 1 ≤ (sampler.masses probs).length * cap) :
    Relevels sampler
      (fun indices => levelDown cap (sampler.masses probs) (massAt probs indices)) probs
      (sampler.enforceCapWith exactCutoffs cap (sampler.answerContractGroups probs) probs) := by
  set ms := sampler.masses probs with hms
  have hsum : ms.sum = 1 := sum_masses_eq_one hcontracts hprobs
  have hle : ms.sum ≤ ms.length * cap := hsum.trans_le hroom
  have hscaled := relevels_scaleDown hprobs hcap
  set scaled := (sampler.answerContractGroups probs).foldl (fun probs group =>
    if group.mass ≤ cap then probs else scaleAt probs group.indices (cap / group.mass)) probs
    with hscaledDef
  have hexcess : ((sampler.answerContractGroups probs).map fun group =>
      surplus cap group.mass).sum = totalSurplus cap ms := by
    rw [answerContractGroups, map_map, totalSurplus, hms, masses, map_map]
    rfl
  have hheadroom : (((sampler.answerContractGroups probs).map fun group =>
      { group with mass := min group.mass cap }).map fun group => max (cap - group.mass) 0).sum =
      totalRoom cap ms := by
    rw [answerContractGroups, map_map, map_map, totalRoom, hms, masses, map_map]
    exact congrArg List.sum (map_congr_left fun entry _ => room_min ..)
  -- Without excess the second loop is left out, and the totals are those of the first.
  have hfilled : Relevels sampler (fun indices => levelDown cap ms (massAt probs indices)) probs
      (if totalSurplus cap ms ≤ 0 || totalRoom cap ms ≤ 0 then scaled
        else ((sampler.answerContractGroups probs).map fun group =>
          { group with mass := min group.mass cap }).foldl (fun probs group =>
            let room := max (cap - group.mass) 0
            if room ≤ 0 then probs
            else sampler.distributeAdditionWith exactCutoffs probs group.indices
              (totalSurplus cap ms * room / totalRoom cap ms)) scaled) := by
    split_ifs with hnothing
    · have hnone : totalSurplus cap ms = 0 := by
        refine le_antisymm ?_ (totalSurplus_nonneg ..)
        rcases Bool.or_eq_true_iff.1 hnothing with h | h
        · exact of_decide_eq_true h
        · exact (totalSurplus_le_totalRoom hle).trans (of_decide_eq_true h)
      refine hscaled.congr fun entry _ => ?_
      rw [levelDown, hnone, zero_mul, zero_div, add_zero, sub_surplus]
    · refine (hscaled.trans hprobs.isDistribution.nonneg (relevels_fillRoom hcontracts hprobs
        (totalSurplus_nonneg ..) (totalRoom_nonneg ..) hscaled) fun entry _ hzero => ?_).congr
        fun entry _ => ?_
      · rcases min_choice (massAt probs entry.2) cap with h | h
        · exact h.symm.trans hzero
        · exact absurd (h.symm.trans hzero) hcap.ne'
      · rw [levelDown, sub_surplus]
  have hdistributes := hfilled.distributes hcontracts hprobs.length_eq (by
    have hlevels := sum_levelDown hle
    rw [hms, masses, map_map] at hlevels
    exact hlevels.trans hsum)
  unfold enforceCapWith
  rw [scaleDownToCapWith_eq hcap]
  simp only
  rw [hexcess, hheadroom]
  exact (congrArg (Relevels sampler _ probs)
    (normalizeWith_eq_self hdistributes.isDistribution)).mpr hfilled

/-! ## The floor stage -/

variable {floor : K}

include hprobs in
/-- The groups above the floor give up their shares of the transfer. -/
theorem relevels_takeSurplus {transfer total : K} (hfloor : 0 < floor) (htransfer : 0 ≤ transfer)
    (hle : transfer ≤ total) :
    Relevels sampler (fun indices =>
        massAt probs indices - transfer * surplus floor (massAt probs indices) / total) probs
      ((sampler.answerContractGroups probs).foldl (fun probs group =>
        if max (group.mass - floor) 0 ≤ 0 || group.mass ≤ 0 then probs
        else
          let removal := transfer * max (group.mass - floor) 0 / max total 0
          scaleAt probs group.indices (clamp ((group.mass - removal) / group.mass) 0 1))
        probs) := by
  have htotal : 0 ≤ total := htransfer.trans hle
  refine relevels_foldl (massAt probs) ?_ hprobs.isDistribution.nonneg fun _ _ => rfl
  intro entry hentry current hlength hcurrent hmass
  have hnodup := (indices_of_mem hentry).1
  simp only [max_eq_left htotal, show max (massAt probs entry.2 - floor) 0 =
    surplus floor (massAt probs entry.2) from rfl]
  split_ifs with hnothing
  · have hnone : surplus floor (massAt probs entry.2) = 0 := by
      rcases Bool.or_eq_true_iff.1 hnothing with h | h
      · exact le_antisymm (of_decide_eq_true h) (surplus_nonneg ..)
      · exact surplus_of_le ((of_decide_eq_true h).trans hfloor.le)
    refine ⟨?_, .refl ..⟩
    rw [hnone, mul_zero, zero_div, sub_zero, ← hmass]
    exact .refl fun index _ => hcurrent index
  · have hpos : 0 < massAt probs entry.2 :=
      not_le.1 fun h => hnothing (Bool.or_eq_true_iff.2 (.inr (decide_eq_true h)))
    have hshare := share_le (surplus_nonneg floor (massAt probs entry.2)) htotal hle
    have hsurplus : surplus floor (massAt probs entry.2) ≤ massAt probs entry.2 :=
      max_le (sub_le_self _ hfloor.le) hpos.le
    have hshare_nonneg : 0 ≤ transfer * surplus floor (massAt probs entry.2) / total :=
      div_nonneg (mul_nonneg htransfer (surplus_nonneg ..)) htotal
    have hscale : 0 ≤ (massAt probs entry.2 -
          transfer * surplus floor (massAt probs entry.2) / total) / massAt probs entry.2 ∧
        (massAt probs entry.2 -
          transfer * surplus floor (massAt probs entry.2) / total) / massAt probs entry.2 ≤ 1 :=
      ⟨div_nonneg (by linarith) hpos.le, (div_le_one hpos).2 (sub_le_self _ hshare_nonneg)⟩
    refine ⟨?_, changesAt_scaleAt hnodup _⟩
    have hscaled := regroups_scaleAt hnodup
      (fun index hindex => (lt_length_of_mem hentry hindex).trans_eq
        (hlength.trans hprobs.length_eq).symm) (fun index _ => hcurrent index) hscale.1
    rw [clamp, min_eq_left hscale.2, max_eq_right hscale.1]
    rwa [hmass, mul_div_cancel₀ _ hpos.ne'] at hscaled

include hcontracts hprobs in
/-- The groups below the floor are filled up to it. -/
theorem relevels_fillDeficits {total : K} {left : List ℕ → K} {taken : List K} (htotal : 0 < total)
    (htaken : Relevels sampler left probs taken) :
    Relevels sampler (fun indices => left indices + room floor (massAt probs indices)) taken
      (((sampler.answerContractGroups probs).filter fun group =>
        0 < max (floor - group.mass) 0).foldl (fun probs group =>
          sampler.distributeAdditionWith exactCutoffs probs group.indices
            (total * max (floor - group.mass) 0 / max total 0)) taken) := by
  rw [foldl_filter]
  refine relevels_foldl left ?_ (htaken.nonneg hcontracts hprobs.length_eq) fun entry hentry =>
    (htaken.regroups entry hentry).massAt_eq
  intro entry hentry current hlength hcurrent hmass
  obtain ⟨hnodup, hne, -⟩ := indices_of_mem hentry
  have hlength' : current.length = sampler.candidates.length :=
    hlength.trans (htaken.length_eq.trans hprobs.length_eq)
  simp only [max_eq_left htotal.le, mul_div_cancel_left₀ _ htotal.ne',
    show max (floor - massAt probs entry.2) 0 = room floor (massAt probs entry.2) from rfl]
  split_ifs with hroom
  · refine ⟨?_, changesAt_distributeAdditionWith sampler hnodup _⟩
    rw [← hmass]
    exact regroups_distributeAdditionWith hnodup
      (fun index hindex => (lt_length_of_mem hentry hindex).trans_eq hlength'.symm)
      (fun index _ => hcurrent index) sampler hlength' hne (room_nonneg ..)
  · have hnone : room floor (massAt probs entry.2) = 0 :=
      le_antisymm (not_lt.1 fun h => hroom (decide_eq_true h)) (room_nonneg ..)
    refine ⟨?_, .refl ..⟩
    rw [hnone, add_zero, ← hmass]
    exact .refl fun index _ => hcurrent index

omit [IsStrictOrderedRing K] in
/-- The floor stage without cutoffs. -/
theorem enforceFloorWith_exactCutoffs (floor : K) (groups : List (AnswerContractGroup K))
    (probs : List K) :
    sampler.enforceFloorWith exactCutoffs floor groups probs =
      let deficits := groups.filter fun group => 0 < max (floor - group.mass) 0
      let deficitTotal := (deficits.map fun group => max (floor - group.mass) 0).sum
      let surplusTotal := (groups.map fun group => max (group.mass - floor) 0).sum
      let transfer := min deficitTotal surplusTotal
      if floor ≤ 0 || groups.isEmpty then probs
      else if deficits.isEmpty || transfer ≤ 0 then probs
      else deficits.foldl (fun probs group =>
        sampler.distributeAdditionWith exactCutoffs probs group.indices
          (transfer * max (floor - group.mass) 0 / max deficitTotal 0))
        (groups.foldl (fun probs group =>
          if max (group.mass - floor) 0 ≤ 0 || group.mass ≤ 0 then probs
          else
            let removal := transfer * max (group.mass - floor) 0 / max surplusTotal 0
            scaleAt probs group.indices (clamp ((group.mass - removal) / group.mass) 0 1))
          probs) := rfl

include hcontracts hprobs in
/-- **The floor stage levels the totals up.** -/
theorem relevels_enforceFloorWith (hfloor : 0 < floor)
    (hbelow : (sampler.masses probs).length * floor ≤ 1) :
    Relevels sampler
      (fun indices => levelUp floor (sampler.masses probs) (massAt probs indices)) probs
      (sampler.enforceFloorWith exactCutoffs floor (sampler.answerContractGroups probs) probs) := by
  set ms := sampler.masses probs with hms
  have hle : totalRoom floor ms ≤ totalSurplus floor ms :=
    totalRoom_le_totalSurplus (hbelow.trans_eq (sum_masses_eq_one hcontracts hprobs).symm)
  have hdeficits : (((sampler.answerContractGroups probs).filter fun group =>
      0 < max (floor - group.mass) 0).map fun group => max (floor - group.mass) 0).sum =
      totalRoom floor ms := by
    have hvalues : ∀ value ∈ (sampler.answerContractGroups probs).map
        (fun group => max (floor - group.mass) 0), 0 ≤ value := fun value hvalue => by
      obtain ⟨group, -, rfl⟩ := mem_map.1 hvalue
      exact le_max_right ..
    have hfilter := filter_pos_sum hvalues
    rw [filter_map] at hfilter
    refine hfilter.trans ?_
    rw [answerContractGroups, map_map, totalRoom, hms, masses, map_map]
    rfl
  have hsurpluses : ((sampler.answerContractGroups probs).map fun group =>
      max (group.mass - floor) 0).sum = totalSurplus floor ms := by
    rw [answerContractGroups, map_map, totalSurplus, hms, masses, map_map]
    rfl
  -- Without deficits every total is what levelling it up gives.
  have hnothing : totalRoom floor ms = 0 → Relevels sampler
      (fun indices => levelUp floor ms (massAt probs indices)) probs probs := fun hnone => by
    refine (Relevels.refl hprobs.isDistribution.nonneg).congr fun entry hentry => ?_
    rw [levelUp, hnone, room_eq_zero hnone (mem_map_of_mem hentry), zero_mul, zero_div,
      sub_zero, add_zero]
  rw [enforceFloorWith_exactCutoffs]
  simp only [hdeficits, hsurpluses, min_eq_left hle]
  split_ifs with hskip hnone
  · refine (Relevels.refl hprobs.isDistribution.nonneg).congr fun entry hentry => ?_
    rcases Bool.or_eq_true_iff.1 hskip with h | h
    · exact absurd hfloor (not_lt.2 (of_decide_eq_true h))
    · rw [List.isEmpty_iff, answerContractGroups, List.map_eq_nil_iff] at h
      exact absurd hentry (h ▸ not_mem_nil)
  · refine hnothing ?_
    rcases Bool.or_eq_true_iff.1 hnone with h | h
    · rw [← hdeficits, isEmpty_iff.1 h]
      rfl
    · exact le_antisymm (of_decide_eq_true h) (totalRoom_nonneg ..)
  · have hpos : 0 < totalRoom floor ms :=
      not_le.1 fun h => hnone (Bool.or_eq_true_iff.2 (.inr (decide_eq_true h)))
    have htaken := relevels_takeSurplus hprobs hfloor hpos.le hle
    refine htaken.trans hprobs.isDistribution.nonneg
      (relevels_fillDeficits hcontracts hprobs hpos htaken) fun entry _ hzero => ?_
    -- A group is left with what it had below the floor, or with the floor.
    have hshare := share_le (surplus_nonneg floor (massAt probs entry.2))
      (totalSurplus_nonneg floor ms) hle
    rcases le_total (massAt probs entry.2) floor with h | h
    · rw [surplus_of_le h] at hshare
      rw [surplus_of_le h, mul_zero, zero_div, sub_zero] at hzero
      exact hzero
    · rw [surplus_of_ge h] at hshare
      rw [surplus_of_ge h] at hzero
      linarith

end Stages

end RuliadFrontierSampler

end BurnDragon.Ruliad
