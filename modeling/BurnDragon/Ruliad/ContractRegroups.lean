import BurnDragon.Ruliad.ContractBalance

/-!
# New totals for groups of candidates

A stage of the balance gives the candidates at some indices a new total, in proportion to what they
had (`Regroups`), and leaves the others alone (`ChangesAt`). Stages of one group follow each other
(`Regroups.trans`), and a loop over groups without common indices does for each group what its own
pass does (`foldl_regroups`).
-/

namespace BurnDragon.Ruliad

open Probability Rust List

variable {K : Type*} [Field K]

/-! ## Changes at indices -/

theorem getD_modify (f : K → K) (xs : List K) (i j : ℕ) :
    (xs.modify i f).getD j 0 = if i = j ∧ j < xs.length then f (xs.getD j 0) else xs.getD j 0 := by
  rw [getD_eq_getElem?_getD, getD_eq_getElem?_getD, getElem?_modify]
  by_cases hj : j < xs.length
  · rw [getElem?_eq_getElem hj]
    by_cases hij : i = j
    · simp [hij, hj]
    · simp [hij]
  · rw [getElem?_eq_none (not_lt.1 hj)]
    simp [hj]

/-- Every index of the list is changed once. -/
theorem getD_foldl_modify (g : ℕ → K → K) {indices : List ℕ} (h : indices.Nodup) (xs : List K)
    (j : ℕ) :
    (indices.foldl (fun xs i => xs.modify i (g i)) xs).getD j 0 =
      if j ∈ indices ∧ j < xs.length then g j (xs.getD j 0) else xs.getD j 0 := by
  induction indices generalizing xs with
  | nil => simp
  | cons i indices ih =>
    obtain ⟨hi, hrest⟩ := nodup_cons.1 h
    rw [foldl_cons, ih hrest, length_modify, getD_modify]
    by_cases hj : i = j
    · subst hj
      simp [hi]
    · simp [hj, Ne.symm hj]

/-- Only the values at the indices change. -/
structure ChangesAt (indices : List ℕ) (probs probs' : List K) : Prop where
  length_eq : probs'.length = probs.length
  getD_eq : ∀ index, index ∉ indices → probs'.getD index 0 = probs.getD index 0

theorem ChangesAt.refl (indices : List ℕ) (probs : List K) : ChangesAt indices probs probs :=
  ⟨rfl, fun _ _ => rfl⟩

theorem changesAt_foldl_modify (g : ℕ → K → K) {indices : List ℕ} (h : indices.Nodup)
    (probs : List K) :
    ChangesAt indices probs (indices.foldl (fun probs i => probs.modify i (g i)) probs) where
  length_eq := RuliadFrontierSampler.length_foldl_eq fun _ _ => length_modify ..
  getD_eq index hindex := by rw [getD_foldl_modify g h, if_neg fun hboth => hindex hboth.1]

namespace RuliadFrontierSampler

variable [LinearOrder K] {indices : List ℕ} {probs probs' probs'' : List K} {mass' mass'' : K}

/-- The candidates at the indices have a total, in proportion to what they had before. -/
structure Regroups (indices : List ℕ) (mass' : K) (probs probs' : List K) : Prop where
  nonneg : ∀ index ∈ indices, 0 ≤ probs'.getD index 0
  massAt_eq : massAt probs' indices = mass'
  proportional : ∀ index ∈ indices,
    probs'.getD index 0 * massAt probs indices = probs.getD index 0 * mass'

theorem massAt_congr (h : ∀ index ∈ indices, probs'.getD index 0 = probs.getD index 0) :
    massAt probs' indices = massAt probs indices :=
  congrArg List.sum (map_congr_left fun index hindex => by rw [h index hindex])

/-- The total of values that are not negative. -/
theorem massAt_eq_sum {f : ℕ → K}
    (h : ∀ index ∈ indices, probs.getD index 0 = f index ∧ 0 ≤ f index) :
    massAt probs indices = (indices.map f).sum :=
  congrArg List.sum (map_congr_left fun index hindex => by
    rw [(h index hindex).1, max_eq_left (h index hindex).2])

theorem Regroups.refl (h : ∀ index ∈ indices, 0 ≤ probs.getD index 0) :
    Regroups indices (massAt probs indices) probs probs := ⟨h, rfl, fun _ _ => rfl⟩

/-- Only the values at the indices matter. -/
theorem Regroups.congr {left right : List K} (h : Regroups indices mass' probs probs')
    (hleft : ∀ index ∈ indices, left.getD index 0 = probs.getD index 0)
    (hright : ∀ index ∈ indices, right.getD index 0 = probs'.getD index 0) :
    Regroups indices mass' left right where
  nonneg index hindex := hright index hindex ▸ h.nonneg index hindex
  massAt_eq := (massAt_congr hright).trans h.massAt_eq
  proportional index hindex := by
    rw [massAt_congr hleft, hleft index hindex, hright index hindex, h.proportional index hindex]

variable [IsStrictOrderedRing K]

theorem massAt_nonneg (probs : List K) (indices : List ℕ) : 0 ≤ massAt probs indices := by
  refine sum_nonneg fun x hx => ?_
  obtain ⟨index, -, rfl⟩ := mem_map.1 hx
  exact le_max_right ..

theorem getD_eq_zero (hprobs : ∀ index ∈ indices, 0 ≤ probs.getD index 0)
    (h : massAt probs indices = 0) {index : ℕ} (hindex : index ∈ indices) :
    probs.getD index 0 = 0 := by
  refine le_antisymm ?_ (hprobs index hindex)
  have hle : max (probs.getD index 0) 0 ≤ massAt probs indices := by
    refine single_le_sum (fun x hx => ?_) _ (mem_map_of_mem hindex)
    obtain ⟨i, -, rfl⟩ := mem_map.1 hx
    exact le_max_right ..
  exact (le_max_left _ 0).trans (hle.trans_eq h)

/-- Two stages, where the first does not empty the group. -/
theorem Regroups.trans (hprobs : ∀ index ∈ indices, 0 ≤ probs.getD index 0)
    (h : Regroups indices mass' probs probs') (h' : Regroups indices mass'' probs' probs'')
    (hempty : mass' = 0 → massAt probs indices = 0) : Regroups indices mass'' probs probs'' where
  nonneg := h'.nonneg
  massAt_eq := h'.massAt_eq
  proportional index hindex := by
    have hfirst := h.proportional index hindex
    have hsecond := h'.proportional index hindex
    rw [h.massAt_eq] at hsecond
    by_cases hzero : mass' = 0
    · rw [hempty hzero, mul_zero, getD_eq_zero hprobs (hempty hzero) hindex, zero_mul]
    · refine mul_right_cancel₀ hzero ?_
      calc probs''.getD index 0 * massAt probs indices * mass'
          = probs''.getD index 0 * mass' * massAt probs indices := by ring
        _ = probs'.getD index 0 * massAt probs indices * mass'' := by rw [hsecond]; ring
        _ = probs.getD index 0 * mass'' * mass' := by rw [hfirst]; ring

/-! ## The operations on a group -/

section Group

variable (hnodup : indices.Nodup) (hrange : ∀ index ∈ indices, index < probs.length)
  (hprobs : ∀ index ∈ indices, 0 ≤ probs.getD index 0)

omit [IsStrictOrderedRing K] in
include hnodup hrange in
/-- A loop that changes the value at each index. -/
theorem regroups_foldl_modify (g : ℕ → K → K) {f : ℕ → K}
    (hf : ∀ index ∈ indices, g index (probs.getD index 0) = f index ∧ 0 ≤ f index)
    (hproportional : ∀ index ∈ indices,
      f index * massAt probs indices = probs.getD index 0 * (indices.map f).sum) :
    Regroups indices (indices.map f).sum probs
      (indices.foldl (fun probs index => probs.modify index (g index)) probs) := by
  have hvalue : ∀ index ∈ indices,
      (indices.foldl (fun probs index => probs.modify index (g index)) probs).getD index 0 =
        f index := fun index h => by
    rw [getD_foldl_modify g hnodup, if_pos ⟨h, hrange index h⟩, (hf index h).1]
  refine ⟨fun index h => hvalue index h ▸ (hf index h).2,
    massAt_eq_sum fun index h => ⟨hvalue index h, (hf index h).2⟩, fun index h => ?_⟩
  rw [hvalue index h, hproportional index h]

include hnodup hrange hprobs in
theorem regroups_scaleAt {scale : K} (hscale : 0 ≤ scale) :
    Regroups indices (massAt probs indices * scale) probs (scaleAt probs indices scale) := by
  have hsum : massAt probs indices * scale =
      (indices.map fun index => probs.getD index 0 * scale).sum := by
    rw [sum_map_mul_right, massAt_eq_sum fun index h => ⟨rfl, hprobs index h⟩]
  rw [hsum]
  refine regroups_foldl_modify hnodup hrange (fun _ prob => prob * scale)
    (fun index h => ⟨rfl, mul_nonneg (hprobs index h) hscale⟩) fun index _ => ?_
  rw [← hsum]
  ring

theorem priorWeight_pos (candidate : RuliadSamplerCandidate K) : 0 < candidate.priorWeight :=
  div_pos (lt_max_of_lt_right (by positivity)) (lt_max_of_lt_right (by positivity))

variable (sampler : RuliadFrontierSampler K)

include hnodup hrange hprobs in
/-- An addition is shared out in proportion to the values, or to the weights if there are none. -/
theorem regroups_distributeAdditionWith (hlength : probs.length = sampler.candidates.length)
    (hne : indices ≠ []) {addition : K} (haddition : 0 ≤ addition) :
    Regroups indices (massAt probs indices + addition) probs
      (sampler.distributeAdditionWith exactCutoffs probs indices addition) := by
  have hmass : massAt probs indices = (indices.map fun index => probs.getD index 0).sum :=
    massAt_eq_sum fun index h => ⟨rfl, hprobs index h⟩
  rcases haddition.eq_or_lt with rfl | haddition
  · rw [distributeAdditionWith, if_pos (by simp [exactCutoffs]), add_zero]
    exact .refl hprobs
  · have hsome : ¬(indices.isEmpty || decide (addition ≤ exactCutoffs.epsilon)) = true := by
      rw [Bool.or_eq_true, not_or, List.isEmpty_iff, decide_eq_true_eq]
      exact ⟨hne, not_le.2 haddition⟩
    rw [distributeAdditionWith, if_neg hsome]
    by_cases hexisting : 0 < massAt probs indices
    · -- The values are scaled up together.
      rw [show (if exactCutoffs.epsilon < massAt probs indices then _ else _) = _ from
        if_pos hexisting]
      have hsum : massAt probs indices + addition = (indices.map fun index =>
          probs.getD index 0 * (1 + addition / massAt probs indices)).sum := by
        rw [sum_map_mul_right, ← hmass, mul_add, mul_one, mul_div_cancel₀ _ hexisting.ne']
      rw [hsum]
      refine regroups_foldl_modify hnodup hrange
        (fun _ prob => prob + addition * max prob 0 / massAt probs indices)
        (fun index h => ⟨?_, ?_⟩) fun index _ => ?_
      · rw [max_eq_left (hprobs index h)]
        ring
      · exact mul_nonneg (hprobs index h)
          (add_nonneg zero_le_one (div_nonneg haddition.le hexisting.le))
      · rw [← hsum]
        field_simp
    · -- There is nothing to scale.
      have hzero : massAt probs indices = 0 :=
        le_antisymm (not_lt.1 hexisting) (massAt_nonneg probs indices)
      set weight : ℕ → K := fun index =>
        (sampler.candidates[index]?.map fun c => c.priorWeight).getD 0 with hweight
      have hpos : ∀ index ∈ indices, 0 < weight index := fun index h => by
        have hlt : index < sampler.candidates.length := hlength ▸ hrange index h
        rw [hweight]
        simp only [getElem?_eq_getElem hlt, Option.map_some, Option.getD_some]
        exact priorWeight_pos _
      have htotal : 0 < (indices.map weight).sum := by
        refine sum_pos _ (fun x hx => ?_) (by simpa using hne)
        obtain ⟨index, h, rfl⟩ := mem_map.1 hx
        exact hpos index h
      have hsum : massAt probs indices + addition = (indices.map fun index =>
          addition / (indices.map weight).sum * weight index).sum := by
        rw [hzero, zero_add, sum_map_mul_left, div_mul_cancel₀ _ htotal.ne']
      rw [show (if exactCutoffs.epsilon < massAt probs indices then _ else _) = _ from
        if_neg hexisting, hsum]
      refine regroups_foldl_modify hnodup hrange
        (fun index prob => prob + addition * weight index / max (indices.map weight).sum 0)
        (fun index h => ⟨?_, ?_⟩) fun index h => ?_
      · rw [getD_eq_zero hprobs hzero h, max_eq_left htotal.le]
        ring
      · exact mul_nonneg (div_nonneg haddition.le htotal.le) (hpos index h).le
      · rw [hzero, getD_eq_zero hprobs hzero h]
        ring

end Group

section Others

omit [LinearOrder K] [IsStrictOrderedRing K] in
theorem changesAt_scaleAt (hnodup : indices.Nodup) (scale : K) :
    ChangesAt indices probs (scaleAt probs indices scale) :=
  changesAt_foldl_modify (fun _ prob => prob * scale) hnodup probs

omit [IsStrictOrderedRing K] in
theorem changesAt_distributeAdditionWith (sampler : RuliadFrontierSampler K)
    (hnodup : indices.Nodup) (addition : K) :
    ChangesAt indices probs
      (sampler.distributeAdditionWith exactCutoffs probs indices addition) := by
  unfold distributeAdditionWith
  simp only
  split_ifs
  · exact .refl ..
  · exact changesAt_foldl_modify _ hnodup probs
  · exact changesAt_foldl_modify _ hnodup probs

end Others

/-! ## Loops over groups -/

omit [IsStrictOrderedRing K] in
/-- A loop over groups without common indices. If a pass gives its group the new total, knowing its
old one, and leaves the other candidates alone, so does the loop. -/
theorem foldl_regroups (op : List K → AnswerContractGroup K → List K)
    (mass newMass : AnswerContractGroup K → K) {groups : List (AnswerContractGroup K)}
    (hdisjoint : groups.Pairwise fun group other => group.indices.Disjoint other.indices)
    (hop : ∀ group ∈ groups, ∀ current : List K, current.length = probs.length → (∀ index, 0 ≤
      current.getD index 0) → massAt current group.indices = mass group → Regroups group.indices
      (newMass group) current (op current group) ∧ ChangesAt group.indices current (op current
      group)) (hprobs : ∀ index, 0 ≤ probs.getD index 0)
    (hmass : ∀ group ∈ groups, massAt probs group.indices = mass group) :
    (groups.foldl op probs).length = probs.length ∧
      (∀ index, (∀ group ∈ groups, index ∉ group.indices) →
        (groups.foldl op probs).getD index 0 = probs.getD index 0) ∧
      ∀ group ∈ groups, Regroups group.indices (newMass group) probs (groups.foldl op probs) := by
  induction groups generalizing probs with
  | nil => exact ⟨rfl, fun _ _ => rfl, fun group hgroup => nomatch hgroup⟩
  | cons group groups ih =>
    obtain ⟨hfirst, hrest⟩ := pairwise_cons.1 hdisjoint
    obtain ⟨hregroups, hchanges⟩ := hop group (mem_cons_self ..) probs rfl hprobs
      (hmass group (mem_cons_self ..))
    have hnonneg : ∀ index, 0 ≤ (op probs group).getD index 0 := fun index => by
      by_cases hindex : index ∈ group.indices
      · exact hregroups.nonneg index hindex
      · exact hchanges.getD_eq index hindex ▸ hprobs index
    have hsame : ∀ other ∈ groups, ∀ index ∈ other.indices,
        (op probs group).getD index 0 = probs.getD index 0 := fun other hother index hindex =>
      hchanges.getD_eq index fun h => hfirst other hother h hindex
    obtain ⟨hlength, hothers, hgroups⟩ := ih hrest
      (fun other hother current hcurrent => hop other (mem_cons_of_mem _ hother) current
        (hcurrent.trans hchanges.length_eq)) hnonneg
      (fun other hother => (massAt_congr (hsame other hother)).trans
        (hmass other (mem_cons_of_mem _ hother)))
    refine ⟨hlength.trans hchanges.length_eq, fun index hindex => ?_, fun other hother => ?_⟩
    · exact (hothers index fun other hother => hindex other (mem_cons_of_mem _ hother)).trans
        (hchanges.getD_eq index (hindex group (mem_cons_self ..)))
    · rcases mem_cons.1 hother with rfl | hother
      · -- The later passes leave the first group alone.
        exact hregroups.congr (fun _ _ => rfl) fun index hindex =>
          hothers index fun later hlater h => hfirst later hlater hindex h
      · exact (hgroups other hother).congr
          (fun index hindex => (hsame other hother index hindex).symm) fun _ _ => rfl

end RuliadFrontierSampler

end BurnDragon.Ruliad
