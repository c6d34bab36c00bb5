import BurnDragon.Training.ContinualBackprop

/-!
# What a step of continual backpropagation replaces

The features that a step selects are different ones, mature, and no more than the budget and the
maximum of the interval allow. `StepLaw` says this of a step, with all that the step does to the
counters, the budget, the ages and the deadlines; `stepImpl_law` proves it.
-/

namespace BurnDragon.Training

open Rust List

variable {K : Type} [Field K]

/-- Only a selection of features costs something. -/
theorem ite_isEmpty_sub (budget : K) (selected : List ℕ) :
    (if selected.isEmpty then budget else budget - selected.length) =
      budget - selected.length := by
  cases selected with
  | nil => rw [isEmpty_nil, if_pos rfl, length_nil, Nat.cast_zero, sub_zero]
  | cons idx selected => rw [isEmpty_cons, if_neg Bool.false_ne_true]

variable [LinearOrder K]
variable {Module Grads FreshModel Records : Type} {featureCount : ℕ}

namespace ContinualBackpropAdamWOptimizer

variable {metrics : ContinualBackpropFeatureMetrics K}
  {state : ContinualBackpropState K featureCount} {config : ContinualBackpropConfig K}

/-! ## Eligible features -/

variable {idx : ℕ}

theorem mem_eligible {age : List K} :
    idx ∈ eligible config age ↔ ∃ a, age[idx]? = some a ∧ (config.maturitySteps : K) ≤ a := by
  simp only [eligible, mem_map, mem_filter, Prod.exists, mem_zipIdx_iff_getElem?, decide_eq_true_eq]
  constructor
  · rintro ⟨a, i, ⟨hage, hle⟩, rfl⟩
    exact ⟨a, hage, hle⟩
  · rintro ⟨a, hage, hle⟩
    exact ⟨a, idx, ⟨hage, hle⟩, rfl⟩

theorem nodup_eligible (config : ContinualBackpropConfig K) (age : List K) :
    (eligible config age).Nodup := by
  have hsub : (eligible config age).Sublist (age.zipIdx.map Prod.snd) :=
    filter_sublist.map Prod.snd
  rw [zipIdx_map_snd] at hsub
  exact hsub.nodup nodup_range'

/-- The features of the ranking are eligible ones, in their order. -/
theorem ranked_sublist (config : ContinualBackpropConfig K)
    (metrics : ContinualBackpropFeatureMetrics K) (state : ContinualBackpropState K featureCount) :
    ((ranked config metrics state).map Prod.fst).Sublist (eligible config state.age) := by
  rw [ranked]
  generalize eligible config state.age = features
  induction features with
  | nil => exact .slnil
  | cons idx features ih =>
    rw [filterMap_cons]
    cases score config metrics state idx with
    | none => exact ih.cons idx
    | some utility => exact ih.cons_cons idx

/-- The features of least utility. -/
def leastUseful (config : ContinualBackpropConfig K) (metrics : ContinualBackpropFeatureMetrics K)
    (state : ContinualBackpropState K featureCount) (count : ℕ) : List ℕ :=
  ((sortByKey Prod.snd (ranked config metrics state)).take count).map Prod.fst

theorem leastUseful_subperm (config : ContinualBackpropConfig K)
    (metrics : ContinualBackpropFeatureMetrics K) (state : ContinualBackpropState K featureCount)
    (count : ℕ) : (leastUseful config metrics state count).Subperm (eligible config state.age) := by
  have htake := (take_sublist count (sortByKey Prod.snd (ranked config metrics state))).map
    Prod.fst
  have hperm := (sortByKey_perm Prod.snd (ranked config metrics state)).map Prod.fst
  exact (htake.subperm.trans hperm.subperm).trans (ranked_sublist config metrics state).subperm

theorem length_leastUseful_le (config : ContinualBackpropConfig K)
    (metrics : ContinualBackpropFeatureMetrics K) (state : ContinualBackpropState K featureCount)
    (count : ℕ) : (leastUseful config metrics state count).length ≤ count := by
  rw [leastUseful, length_map]
  exact length_take_le _ _

/-! ## The state -/

/-- The state of the optimizer, which the first step makes. -/
def currentState (optimizer : ContinualBackpropAdamWOptimizer K FreshModel Records featureCount) :
    ContinualBackpropState K featureCount :=
  optimizer.state.getD .initial

omit [LinearOrder K] in
/-- The counters of the state with which a step looks for features. -/
theorem advanced_eq (adapter : ContinualBackpropAdapter K Module Grads FreshModel Records)
    (optimizer : ContinualBackpropAdamWOptimizer K FreshModel Records featureCount)
    (module : Module) :
    (advanced adapter optimizer module).step = saturatingAdd optimizer.currentState.step 1 ∧
    (advanced adapter optimizer module).replacementBudget =
      optimizer.currentState.replacementBudget ∧
    (advanced adapter optimizer module).age = optimizer.currentState.age.map (· + 1) := by
  rw [advanced]
  cases adapter.takeBatchStats module with
  | none => exact ⟨rfl, rfl, rfl⟩
  | some batchStats =>
    simp only [ContinualBackpropState.updateFromBatchStats]
    split
    · exact ⟨rfl, rfl, rfl⟩
    · exact ⟨rfl, rfl, rfl⟩

/-! ## The selection -/

variable [FloorSemiring K]

/-- What a selection adds to the budget. -/
def accrued (powf : K → K → K)
    (optimizer : ContinualBackpropAdamWOptimizer K FreshModel Records featureCount)
    (state : ContinualBackpropState K featureCount) (lr targetLrScale : K) : K :=
  if (optimizer.pausedReason state.step).isSome then 0
  else optimizer.effectiveReplacementRate * lrMultiplier powf optimizer lr targetLrScale *
    (eligible optimizer.config state.age).length * optimizer.config.replaceIntervalSteps

/-- The budget of a selection is spent on the features that it selects. -/
theorem selectFeaturesToReplace_cases (powf : K → K → K)
    (optimizer : ContinualBackpropAdamWOptimizer K FreshModel Records featureCount)
    (metrics : ContinualBackpropFeatureMetrics K) (state : ContinualBackpropState K featureCount)
    (lr targetLrScale : K) :
    let selection := selectFeaturesToReplace powf optimizer metrics state lr targetLrScale
    let budget := state.replacementBudget + accrued powf optimizer state lr targetLrScale
    selection.selected = [] ∧ selection.state = { state with replacementBudget := budget } ∨
      optimizer.pausedReason state.step = none ∧ ∃ count,
        count ≤ ⌊budget⌋₊ ∧ count ≤ optimizer.effectiveMaxReplacementsPerInterval ∧
        selection.selected = leastUseful optimizer.config metrics state count ∧
        selection.state =
          { state with replacementBudget := budget - selection.selected.length } := by
  intro selection budget
  cases hpaused : optimizer.pausedReason state.step with
  | some reason =>
    have haccrued : accrued powf optimizer state lr targetLrScale = 0 := by
      rw [accrued, hpaused, Option.isSome_some, if_pos rfl]
    have hselection : selection.selected = [] ∧ selection.state = state := by
      simp only [selection, selectFeaturesToReplace, hpaused, and_self]
    refine .inl ⟨hselection.1, ?_⟩
    rw [hselection.2, show budget = state.replacementBudget by
      rw [← add_zero state.replacementBudget, ← haccrued]]
  | none =>
    have haccrued : accrued powf optimizer state lr targetLrScale =
        optimizer.effectiveReplacementRate * lrMultiplier powf optimizer lr targetLrScale *
          (eligible optimizer.config state.age).length * optimizer.config.replaceIntervalSteps := by
      rw [accrued, hpaused, Option.isSome_none, if_neg Bool.false_ne_true]
    by_cases hmature : (eligible optimizer.config state.age).isEmpty
    · -- without a mature feature nothing is accrued
      have hbudget : budget = state.replacementBudget := by
        simp only [budget]
        rw [haccrued, isEmpty_iff.mp hmature, length_nil, Nat.cast_zero, mul_zero,
          zero_mul, add_zero]
      refine .inl ?_
      rw [hbudget]
      simp only [selection, selectFeaturesToReplace, hpaused, hmature, if_true, and_self]
    · have hbudget : state.replacementBudget + optimizer.effectiveReplacementRate *
          lrMultiplier powf optimizer lr targetLrScale *
          (eligible optimizer.config state.age).length * optimizer.config.replaceIntervalSteps =
            budget := by
        rw [← haccrued]
      by_cases hcount :
          min (min ⌊budget⌋₊ usizeMax) optimizer.effectiveMaxReplacementsPerInterval = 0
      · left
        simp only [selection, selectFeaturesToReplace, hpaused, hmature, hbudget, hcount, if_true,
          Bool.false_eq_true, if_false, and_self]
      · right
        refine ⟨rfl, min (min (min ⌊budget⌋₊ usizeMax)
          optimizer.effectiveMaxReplacementsPerInterval) metrics.incomingL1.length, ?_, ?_, ?_⟩
        · exact (min_le_left _ _).trans ((min_le_left _ _).trans (min_le_left _ _))
        · exact (min_le_left _ _).trans (min_le_right _ _)
        · have hselected : selection.selected = leastUseful optimizer.config metrics state
              (min (min (min ⌊budget⌋₊ usizeMax) optimizer.effectiveMaxReplacementsPerInterval)
                metrics.incomingL1.length) := by
            simp only [selection, selectFeaturesToReplace, hpaused, hmature, hbudget, hcount,
              Bool.false_eq_true, if_false]
            rfl
          refine ⟨hselected, ?_⟩
          rw [hselected]
          simp only [selection, selectFeaturesToReplace, hpaused, hmature, hbudget, hcount,
            Bool.false_eq_true, if_false, ite_isEmpty_sub]
          rfl

/-- What is selected, and what is left of the budget. -/
structure SelectionLaw
    (optimizer : ContinualBackpropAdamWOptimizer K FreshModel Records featureCount)
    (state : ContinualBackpropState K featureCount) (accrual : K)
    (selection : Selection K featureCount) : Prop where
  subperm : selection.selected.Subperm (eligible optimizer.config state.age)
  length_le : selection.selected.length ≤ optimizer.effectiveMaxReplacementsPerInterval
  length_le_budget : selection.selected.length ≤ ⌊state.replacementBudget + accrual⌋₊
  unpaused : selection.selected ≠ [] → optimizer.pausedReason state.step = none
  state_eq : selection.state = { state with
    replacementBudget := state.replacementBudget + accrual - selection.selected.length }

theorem selectFeaturesToReplace_law (powf : K → K → K)
    (optimizer : ContinualBackpropAdamWOptimizer K FreshModel Records featureCount)
    (metrics : ContinualBackpropFeatureMetrics K) (state : ContinualBackpropState K featureCount)
    (lr targetLrScale : K) :
    SelectionLaw optimizer state (accrued powf optimizer state lr targetLrScale)
      (selectFeaturesToReplace powf optimizer metrics state lr targetLrScale) := by
  rcases selectFeaturesToReplace_cases powf optimizer metrics state lr targetLrScale with
    ⟨hselected, hstate⟩ | ⟨hpaused, count, hbudget, hmax, hselected, hstate⟩
  · refine ⟨?_, ?_, ?_, fun h => absurd hselected h, ?_⟩
    · rw [hselected]
      exact nil_subperm
    · rw [hselected]
      exact Nat.zero_le _
    · rw [hselected]
      exact Nat.zero_le _
    · rw [hstate, hselected, length_nil, Nat.cast_zero, sub_zero]
  · have hlength := length_leastUseful_le optimizer.config metrics state count
    rw [← hselected] at hlength
    refine ⟨?_, hlength.trans hmax, hlength.trans hbudget, fun _ => hpaused, hstate⟩
    rw [hselected]
    exact leastUseful_subperm _ _ _ _

/-! ## Steps -/

/-- What a step of the optimizer does, when it selects the given features. -/
structure StepLaw (optimizer : ContinualBackpropAdamWOptimizer K FreshModel Records featureCount)
    (accrual : K) (selected : List ℕ)
    (after : ContinualBackpropAdamWOptimizer K FreshModel Records featureCount) : Prop where
  config : after.config = optimizer.config
  scale : after.replacementRateScale = optimizer.replacementRateScale
  override : after.maxReplacementsPerIntervalOverride = optimizer.maxReplacementsPerIntervalOverride
  pauseUntil : after.pauseUntilStep = optimizer.pauseUntilStep
  step : after.currentState.step = saturatingAdd optimizer.currentState.step 1
  cooldownUntil : after.cooldownUntilStep = if selected.isEmpty then optimizer.cooldownUntilStep
    else saturatingAdd after.currentState.step optimizer.config.cooldownSteps
  age : after.currentState.age = ContinualBackpropState.clear
    (selected.filter (· < featureCount)) (optimizer.currentState.age.map (· + 1))
  budget : after.currentState.replacementBudget =
    optimizer.currentState.replacementBudget + accrual - selected.length
  subperm : selected.Subperm
    (eligible optimizer.config (optimizer.currentState.age.map (· + 1)))
  length_le : selected.length ≤ optimizer.effectiveMaxReplacementsPerInterval
  length_le_budget :
    selected.length ≤ ⌊optimizer.currentState.replacementBudget + accrual⌋₊
  unpaused : selected ≠ [] → optimizer.pausedReason after.currentState.step = none

/-- What a step adds to the budget when the inner optimizer has passed over the module. -/
def updatedAccrual (powf : K → K → K)
    (adapter : ContinualBackpropAdapter K Module Grads FreshModel Records)
    (optimizer : ContinualBackpropAdamWOptimizer K FreshModel Records featureCount)
    (module : Module) (lr : K) : K :=
  let state := advanced adapter optimizer module
  if optimizer.config.replaceIntervalSteps ∣ state.step then
    accrued powf optimizer state lr (adapter.targetLrScale module)
  else 0

theorem applyContinualBackprop_law (powf : K → K → K)
    (adapter : ContinualBackpropAdapter K Module Grads FreshModel Records)
    (optimizer : ContinualBackpropAdamWOptimizer K FreshModel Records featureCount)
    (module : Module) (lr : K) :
    StepLaw optimizer (updatedAccrual powf adapter optimizer module lr)
      (applyContinualBackprop powf adapter optimizer module lr).1.2
      (applyContinualBackprop powf adapter optimizer module lr).2 := by
  obtain ⟨hstep, hbudget, hage⟩ := advanced_eq adapter optimizer module
  rw [applyContinualBackprop, updatedAccrual]
  generalize advanced adapter optimizer module = state at hstep hbudget hage ⊢
  by_cases hinterval : optimizer.config.replaceIntervalSteps ∣ state.step
  · have hlaw := selectFeaturesToReplace_law powf optimizer (adapter.featureMetrics module) state lr
      (adapter.targetLrScale module)
    simp only [if_pos hinterval]
    generalize accrued powf optimizer state lr (adapter.targetLrScale module) = accrual at hlaw ⊢
    generalize selectFeaturesToReplace powf optimizer (adapter.featureMetrics module) state lr
      (adapter.targetLrScale module) = selection at hlaw ⊢
    obtain ⟨selected, telemetry, selectionState, pauseReason⟩ := selection
    obtain ⟨hsubperm, hmax, hfloor, hpaused, hstate⟩ := hlaw
    simp only at hsubperm hmax hfloor hpaused hstate
    subst hstate
    cases selected with
    | nil =>
      simp only [isEmpty_nil, if_true]
      exact
        { config := rfl
          scale := rfl
          override := rfl
          pauseUntil := rfl
          step := hstep
          cooldownUntil := rfl
          age := hage
          budget := by rw [← hbudget]; rfl
          subperm := nil_subperm
          length_le := Nat.zero_le _
          length_le_budget := Nat.zero_le _
          unpaused := fun h => absurd rfl h }
    | cons idx selected =>
      simp only [isEmpty_cons, Bool.false_eq_true, if_false]
      exact
        { config := rfl
          scale := rfl
          override := rfl
          pauseUntil := rfl
          step := hstep
          cooldownUntil := rfl
          age := by rw [← hage]; rfl
          budget := by rw [← hbudget]; rfl
          subperm := by rwa [← hage]
          length_le := hmax
          length_le_budget := by rwa [← hbudget]
          unpaused := hpaused }
  · simp only [if_neg hinterval]
    exact
      { config := rfl
        scale := rfl
        override := rfl
        pauseUntil := rfl
        step := hstep
        cooldownUntil := rfl
        age := hage
        budget := by
          rw [add_zero, length_nil, Nat.cast_zero, sub_zero]
          exact hbudget
        subperm := nil_subperm
        length_le := Nat.zero_le _
        length_le_budget := Nat.zero_le _
        unpaused := fun h => absurd rfl h }

/-- What a step adds to the budget. -/
def stepAccrual (powf : K → K → K)
    (adapter : ContinualBackpropAdapter K Module Grads FreshModel Records)
    (optimizer : ContinualBackpropAdamWOptimizer K FreshModel Records featureCount)
    (lr : K) (module : Module) (grads : Grads) : K :=
  updatedAccrual powf adapter optimizer (adapter.adamw lr module grads optimizer.records).1 lr

/-- **The law of a step.** -/
theorem stepImpl_law (powf : K → K → K)
    (adapter : ContinualBackpropAdapter K Module Grads FreshModel Records)
    (optimizer : ContinualBackpropAdamWOptimizer K FreshModel Records featureCount)
    (lr : K) (module : Module) (grads : Grads) :
    StepLaw optimizer (stepAccrual powf adapter optimizer lr module grads)
      (stepImpl powf adapter optimizer lr module grads).1.2
      (stepImpl powf adapter optimizer lr module grads).2 := by
  rw [stepImpl, stepAccrual]
  obtain ⟨updated, records⟩ := adapter.adamw lr module grads optimizer.records
  have h := applyContinualBackprop_law powf adapter { optimizer with records := records } updated lr
  exact ⟨h.config, h.scale, h.override, h.pauseUntil, h.step, h.cooldownUntil, h.age, h.budget,
    h.subperm, h.length_le, h.length_le_budget, h.unpaused⟩

/-! ## Ages -/

variable {optimizer after : ContinualBackpropAdamWOptimizer K FreshModel Records featureCount}
  {selected : List ℕ}

omit [LinearOrder K] [FloorSemiring K] in
theorem getElem?_clear (indices : List ℕ) (values : List K) (idx : ℕ) :
    (ContinualBackpropState.clear indices values)[idx]? =
      if idx ∈ indices then values[idx]?.map (fun _ => 0) else values[idx]? := by
  induction indices generalizing values with
  | nil => rfl
  | cons i indices ih =>
    rw [ContinualBackpropState.clear, foldl_cons, ← ContinualBackpropState.clear, ih]
    by_cases hi : i = idx
    · subst hi
      have hset : (values.set i 0)[i]? = values[i]?.map (fun _ => 0) := by
        rw [getElem?_set_self']
        rfl
      rw [if_pos mem_cons_self, hset, Option.map_map]
      exact ite_self _
    · have hmem : idx ∈ i :: indices ↔ idx ∈ indices := by
        rw [mem_cons, or_iff_right (Ne.symm hi)]
      rw [getElem?_set_ne hi]
      simp only [hmem]

variable {accrual : K}

/-- The age of a feature behind a step. -/
theorem StepLaw.age_cases (h : StepLaw optimizer accrual selected after) {a : K}
    (hage : after.currentState.age[idx]? = some a) :
    ∃ old, optimizer.currentState.age[idx]? = some old ∧ (a = 0 ∨ a = old + 1) := by
  rw [h.age, getElem?_clear, getElem?_map] at hage
  cases hold : optimizer.currentState.age[idx]? with
  | none => simp [hold] at hage
  | some old =>
    refine ⟨old, rfl, ?_⟩
    rw [hold] at hage
    split at hage
    · exact .inl (Option.some.inj hage).symm
    · exact .inr (Option.some.inj hage).symm

/-- With the step, a selected feature is mature. -/
theorem StepLaw.mature (h : StepLaw optimizer accrual selected after) (hidx : idx ∈ selected) :
    ∃ age, optimizer.currentState.age[idx]? = some age ∧
      (optimizer.config.maturitySteps : K) ≤ age + 1 := by
  obtain ⟨a, ha, hmature⟩ := mem_eligible.mp (h.subperm.subset hidx)
  rw [getElem?_map, Option.map_eq_some_iff] at ha
  obtain ⟨age, hage, rfl⟩ := ha
  exact ⟨age, hage, hmature⟩

theorem StepLaw.lt_featureCount (h : StepLaw optimizer accrual selected after)
    (hidx : idx ∈ selected) : idx < featureCount := by
  obtain ⟨age, hage, -⟩ := h.mature hidx
  exact optimizer.currentState.length_age ▸ (List.getElem?_eq_some_iff.mp hage).1

theorem StepLaw.nodup (h : StepLaw optimizer accrual selected after) :
    selected.Nodup := by
  obtain ⟨features, hperm, hsublist⟩ := h.subperm
  exact hperm.nodup_iff.mp (hsublist.nodup (nodup_eligible _ _))

/-- A replaced feature begins its life again. -/
theorem StepLaw.age_selected (h : StepLaw optimizer accrual selected after) (hidx : idx ∈ selected)
    {a : K} (ha : after.currentState.age[idx]? = some a) : a = 0 := by
  have hfilter : idx ∈ selected.filter (· < featureCount) :=
    mem_filter.mpr ⟨hidx, decide_eq_true (h.lt_featureCount hidx)⟩
  rw [h.age, getElem?_clear, if_pos hfilter, Option.map_eq_some_iff] at ha
  obtain ⟨_, -, rfl⟩ := ha
  rfl

/-! ## Accruals -/

theorem lrMultiplier_nonneg [IsStrictOrderedRing K] {powf : K → K → K}
    (hpowf : ∀ x p, 0 ≤ x → 0 ≤ p → 0 ≤ powf x p)
    (optimizer : ContinualBackpropAdamWOptimizer K FreshModel Records featureCount)
    (lr targetLrScale : K) : 0 ≤ lrMultiplier powf optimizer lr targetLrScale := by
  have hbase : (0 : K) ≤ if 0 < optimizer.baseLearningRate
      then max (lr / optimizer.baseLearningRate) 0 else 1 := by
    split
    · exact le_max_right _ _
    · exact zero_le_one
  refine hpowf _ _ ?_ (le_max_right _ _)
  cases optimizer.config.lrCoupling with
  | none => exact zero_le_one
  | globalRatio => exact hbase
  | targetGroupRatio => exact mul_nonneg hbase (le_max_right _ _)

/-- No accrual is negative. -/
theorem stepAccrual_nonneg [IsStrictOrderedRing K] {powf : K → K → K}
    (hpowf : ∀ x p, 0 ≤ x → 0 ≤ p → 0 ≤ powf x p)
    (adapter : ContinualBackpropAdapter K Module Grads FreshModel Records)
    (hrate : 0 ≤ optimizer.config.replacementRate) (lr : K) (module : Module) (grads : Grads) :
    0 ≤ stepAccrual powf adapter optimizer lr module grads := by
  rw [stepAccrual, updatedAccrual]
  split
  · rw [accrued]
    split
    · exact le_rfl
    · have hscale : 0 ≤ optimizer.effectiveReplacementRate :=
        mul_nonneg hrate (le_max_right _ _)
      exact mul_nonneg (mul_nonneg (mul_nonneg hscale (lrMultiplier_nonneg hpowf optimizer _ _))
        (Nat.cast_nonneg _)) (Nat.cast_nonneg _)
  · exact le_rfl

end ContinualBackpropAdamWOptimizer

end BurnDragon.Training
