import BurnDragon.Training.ReplacementBudget

/-!
# Continual backpropagation across a checkpoint

The record of the optimizer has the records of the inner optimizer and the state, but neither the
end of a pause nor that of a cooldown. An optimizer that was resumed from it agrees with the one
that was not interrupted in all but these (`Resumes`). So the two replace the same features in every
run in which no step of the latter still waits for a deadline of the checkpoint
(`resumed_reply_eq`).
-/

namespace BurnDragon.Training

open Rust Transition

variable {K : Type} [Field K] [LinearOrder K] [FloorSemiring K]
variable {Module Grads FreshModel Records : Type} {featureCount : ℕ}

open ContinualBackpropAdamWOptimizer

/-! ## Resuming -/

/-- The optimizer with other deadlines. -/
def withDeadlines (optimizer : ContinualBackpropAdamWOptimizer K FreshModel Records featureCount)
    (pauseUntilStep cooldownUntilStep : ℕ) (pauseReason : Option String)
    (lastTelemetry : Option (ContinualBackpropTelemetry K)) :
    ContinualBackpropAdamWOptimizer K FreshModel Records featureCount :=
  { optimizer with
    pauseUntilStep := pauseUntilStep
    cooldownUntilStep := cooldownUntilStep
    pauseReason := pauseReason
    lastTelemetry := lastTelemetry }

/-- A fresh optimizer of the same configuration that loads the record, with the same control. -/
def resumed (optimizer : ContinualBackpropAdamWOptimizer K FreshModel Records featureCount)
    (noRecords : Records) : ContinualBackpropAdamWOptimizer K FreshModel Records featureCount :=
  ((ContinualBackpropAdamWOptimizer.new optimizer.config optimizer.baseLearningRate noRecords
    optimizer.freshModel).loadRecord optimizer.toRecord).setRuntimeControl
      optimizer.replacementRateScale optimizer.maxReplacementsPerIntervalOverride

/-- A deadline that another one agrees with, unless it is the lost one, which the other is not
behind. -/
def KeptOr (lost deadline other : ℕ) : Prop :=
  other = deadline ∨ deadline = lost ∧ other ≤ lost

/-- The second optimizer agrees with the first in all but the deadlines, and in these where the
first has other ones than `pause` and `cooldown`. -/
def Resumes (pause cooldown : ℕ)
    (optimizer other : ContinualBackpropAdamWOptimizer K FreshModel Records featureCount) : Prop :=
  ∃ pauseUntilStep cooldownUntilStep pauseReason lastTelemetry,
    other = withDeadlines optimizer pauseUntilStep cooldownUntilStep pauseReason lastTelemetry ∧
    KeptOr pause optimizer.pauseUntilStep pauseUntilStep ∧
    KeptOr cooldown optimizer.cooldownUntilStep cooldownUntilStep

/-- The optimizer would look for features at its next step if it did not wait for a deadline that
still is `pause` or `cooldown`. -/
def Misses (pause cooldown : ℕ)
    (optimizer : ContinualBackpropAdamWOptimizer K FreshModel Records featureCount) : Prop :=
  let step := saturatingAdd optimizer.currentState.step 1
  optimizer.config.replaceIntervalSteps ∣ step ∧ optimizer.config.warmupSteps < step ∧
    optimizer.recoveryPlasticityActive = false ∧
    eligible optimizer.config (optimizer.currentState.age.map (· + 1)) ≠ [] ∧
    (step < optimizer.pauseUntilStep ∨ step < optimizer.cooldownUntilStep) ∧
    (step < optimizer.pauseUntilStep → optimizer.pauseUntilStep = pause) ∧
    (step < optimizer.cooldownUntilStep → optimizer.cooldownUntilStep = cooldown)

instance (pause cooldown : ℕ)
    (optimizer : ContinualBackpropAdamWOptimizer K FreshModel Records featureCount) :
    Decidable (Misses pause cooldown optimizer) :=
  inferInstanceAs (Decidable (_ ∧ _ ∧ _ ∧ _ ∧ _ ∧ _ ∧ _))

variable {powf : K → K → K} {adapter : ContinualBackpropAdapter K Module Grads FreshModel Records}
  {optimizer other : ContinualBackpropAdamWOptimizer K FreshModel Records featureCount}
  {pause cooldown step : ℕ}

omit [FloorSemiring K] in
/-- A resumed optimizer has lost the deadlines of the checkpoint. -/
theorem resumes_resumed (noRecords : Records) (hscale : 0 ≤ optimizer.replacementRateScale) :
    Resumes optimizer.pauseUntilStep optimizer.cooldownUntilStep optimizer
      (resumed optimizer noRecords) := by
  refine ⟨0, 0, none, none, ?_, .inr ⟨rfl, Nat.zero_le _⟩, .inr ⟨rfl, Nat.zero_le _⟩⟩
  rw [resumed, setRuntimeControl, max_eq_left hscale]
  rfl

/-! ## One step -/

omit [FloorSemiring K] in
theorem pausedReason_eq_none_iff
    (optimizer : ContinualBackpropAdamWOptimizer K FreshModel Records featureCount) (step : ℕ) :
    optimizer.pausedReason step = none ↔ optimizer.recoveryPlasticityActive = true ∨
      optimizer.config.warmupSteps < step ∧ optimizer.pauseUntilStep ≤ step ∧
        optimizer.cooldownUntilStep ≤ step := by
  rw [pausedReason]
  cases optimizer.recoveryPlasticityActive with
  | true => simp
  | false =>
    simp only [Bool.not_false, Bool.true_and, decide_eq_true_eq, Bool.false_eq_true, false_or]
    split
    · next h => simp [h]
    · next h =>
      split
      · next h' => cases optimizer.pauseReason <;> simp [h']
      · next h' =>
        split
        · next h'' => simp [h'']
        · next h'' => simp [not_le.mp h, not_lt.mp h', not_lt.mp h'']

variable {lost deadline : ℕ}

/-- A deadline that lies ahead and is not the lost one is that of both optimizers. -/
theorem KeptOr.le_iff {other : ℕ} (h : KeptOr lost deadline other)
    (hkept : step < deadline → deadline ≠ lost) : other ≤ step ↔ deadline ≤ step := by
  rcases h with rfl | ⟨rfl, hle⟩
  · exact Iff.rfl
  · exact ⟨fun _ => not_lt.mp fun hlt => hkept hlt rfl, fun h => hle.trans h⟩

theorem KeptOr.le {other : ℕ} (h : KeptOr lost deadline other) :
    other ≤ deadline := by
  rcases h with rfl | ⟨rfl, hle⟩
  · exact le_rfl
  · exact hle

omit [FloorSemiring K] in
/-- A step that looks for mature features and misses nothing is paused in both optimizers or in
neither. -/
theorem pausedReason_resumes (h : Resumes pause cooldown optimizer other)
    (hmisses : ¬ Misses pause cooldown optimizer)
    (hstep : step = saturatingAdd optimizer.currentState.step 1)
    (hinterval : optimizer.config.replaceIntervalSteps ∣ step)
    (hmature : eligible optimizer.config (optimizer.currentState.age.map (· + 1)) ≠ []) :
    other.pausedReason step = none ↔ optimizer.pausedReason step = none := by
  obtain ⟨pauseUntil, cooldownUntil, reason, telemetry, rfl, hpause, hcooldown⟩ := h
  rw [pausedReason_eq_none_iff, pausedReason_eq_none_iff]
  refine or_congr_right' fun hrecovery => and_congr_right fun hwarmup => ?_
  rw [Bool.not_eq_true] at hrecovery
  change pauseUntil ≤ step ∧ cooldownUntil ≤ step ↔ _
  refine ⟨fun ⟨hpauseUntil, hcooldownUntil⟩ => ?_, fun ⟨hpauseUntil, hcooldownUntil⟩ =>
    ⟨hpause.le.trans hpauseUntil, hcooldown.le.trans hcooldownUntil⟩⟩
  -- a deadline that only the first optimizer waits for is the lost one
  by_contra hwaits
  refine hmisses ⟨hstep ▸ hinterval, hstep ▸ hwarmup, hrecovery, hmature, ?_, ?_, ?_⟩
  · rwa [not_and_or, not_le, not_le, hstep] at hwaits
  · intro hlt
    rw [← hstep] at hlt
    by_contra hne
    exact absurd ((hpause.le_iff fun _ => hne).mp hpauseUntil) (not_le.mpr hlt)
  · intro hlt
    rw [← hstep] at hlt
    by_contra hne
    exact absurd ((hcooldown.le_iff fun _ => hne).mp hcooldownUntil) (not_le.mpr hlt)

variable {state : ContinualBackpropState K featureCount}

theorem selectFeaturesToReplace_of_isSome (powf : K → K → K)
    (metrics : ContinualBackpropFeatureMetrics K) (lr targetLrScale : K)
    (h : (optimizer.pausedReason state.step).isSome) :
    (selectFeaturesToReplace powf optimizer metrics state lr targetLrScale).selected = [] ∧
      (selectFeaturesToReplace powf optimizer metrics state lr targetLrScale).state = state := by
  obtain ⟨reason, hreason⟩ := Option.isSome_iff_exists.mp h
  simp only [selectFeaturesToReplace, hreason, and_self]

theorem selectFeaturesToReplace_of_eligible_eq_nil (powf : K → K → K)
    (metrics : ContinualBackpropFeatureMetrics K) (lr targetLrScale : K)
    (h : eligible optimizer.config state.age = []) :
    (selectFeaturesToReplace powf optimizer metrics state lr targetLrScale).selected = [] ∧
      (selectFeaturesToReplace powf optimizer metrics state lr targetLrScale).state = state := by
  cases hpaused : optimizer.pausedReason state.step with
  | some reason =>
    exact selectFeaturesToReplace_of_isSome powf metrics lr targetLrScale (by rw [hpaused]; rfl)
  | none => simp only [selectFeaturesToReplace, hpaused, h, List.isEmpty_nil, if_true, and_self]

/-- Where both optimizers are paused or neither is, they select the same. -/
theorem selectFeaturesToReplace_withDeadlines (powf : K → K → K)
    {pauseUntilStep cooldownUntilStep : ℕ} {pauseReason : Option String}
    {lastTelemetry : Option (ContinualBackpropTelemetry K)}
    (hother : other = withDeadlines optimizer pauseUntilStep cooldownUntilStep pauseReason
      lastTelemetry) (metrics : ContinualBackpropFeatureMetrics K) (lr targetLrScale : K)
    (h : other.pausedReason state.step = none ↔ optimizer.pausedReason state.step = none) :
    (selectFeaturesToReplace powf other metrics state lr targetLrScale).selected =
        (selectFeaturesToReplace powf optimizer metrics state lr targetLrScale).selected ∧
      (selectFeaturesToReplace powf other metrics state lr targetLrScale).state =
        (selectFeaturesToReplace powf optimizer metrics state lr targetLrScale).state := by
  cases hpaused : optimizer.pausedReason state.step with
  | none =>
    have hconfig : other.config = optimizer.config := by rw [hother]; rfl
    have hrate : other.effectiveReplacementRate = optimizer.effectiveReplacementRate := by
      rw [hother]; rfl
    have hmultiplier : lrMultiplier powf other lr targetLrScale =
        lrMultiplier powf optimizer lr targetLrScale := by rw [hother]; rfl
    have hmax : other.effectiveMaxReplacementsPerInterval =
        optimizer.effectiveMaxReplacementsPerInterval := by rw [hother]; rfl
    simp only [selectFeaturesToReplace, hpaused, h.mpr hpaused, hconfig, hrate, hmultiplier, hmax]
    split
    · exact ⟨rfl, rfl⟩
    · split
      · exact ⟨rfl, rfl⟩
      · exact ⟨rfl, rfl⟩
  | some reason =>
    have hsome : (optimizer.pausedReason state.step).isSome := by rw [hpaused]; rfl
    have hsome' : (other.pausedReason state.step).isSome := by
      rw [Option.isSome_iff_ne_none, ne_eq, h, hpaused]
      exact Option.some_ne_none reason
    obtain ⟨hselected, hstate⟩ :=
      selectFeaturesToReplace_of_isSome powf metrics lr targetLrScale hsome
    obtain ⟨hselected', hstate'⟩ :=
      selectFeaturesToReplace_of_isSome powf metrics lr targetLrScale hsome'
    exact ⟨hselected'.trans hselected.symm, hstate'.trans hstate.symm⟩

/-- What a step that misses nothing replaces does not depend on the lost deadlines. -/
theorem applyContinualBackprop_resumes (hresumes : Resumes pause cooldown optimizer other)
    (hmisses : ¬ Misses pause cooldown optimizer) (module : Module) (lr : K) :
    (applyContinualBackprop powf adapter other module lr).1 =
        (applyContinualBackprop powf adapter optimizer module lr).1 ∧
      Resumes pause cooldown (applyContinualBackprop powf adapter optimizer module lr).2
        (applyContinualBackprop powf adapter other module lr).2 := by
  obtain ⟨pauseUntil, cooldownUntil, reason, telemetry, hother, hpause, hcooldown⟩ := id hresumes
  obtain ⟨hstep, -, hage⟩ := advanced_eq adapter optimizer module
  have hadvanced : advanced adapter other module = advanced adapter optimizer module := by
    rw [hother]; rfl
  have hconfig : other.config = optimizer.config := by rw [hother]; rfl
  rw [applyContinualBackprop, applyContinualBackprop, hadvanced, hconfig]
  generalize advanced adapter optimizer module = state at hstep hage ⊢
  by_cases hinterval : optimizer.config.replaceIntervalSteps ∣ state.step
  · simp only [if_pos hinterval]
    have hselection :
        (selectFeaturesToReplace powf other (adapter.featureMetrics module) state lr
            (adapter.targetLrScale module)).selected =
          (selectFeaturesToReplace powf optimizer (adapter.featureMetrics module) state lr
            (adapter.targetLrScale module)).selected ∧
        (selectFeaturesToReplace powf other (adapter.featureMetrics module) state lr
            (adapter.targetLrScale module)).state =
          (selectFeaturesToReplace powf optimizer (adapter.featureMetrics module) state lr
            (adapter.targetLrScale module)).state := by
      by_cases hmature : eligible optimizer.config state.age = []
      · obtain ⟨hselected, hstate⟩ := selectFeaturesToReplace_of_eligible_eq_nil powf
          (adapter.featureMetrics module) lr (adapter.targetLrScale module) hmature
        obtain ⟨hselected', hstate'⟩ := selectFeaturesToReplace_of_eligible_eq_nil powf
          (adapter.featureMetrics module) lr (adapter.targetLrScale module) (hconfig ▸ hmature)
        exact ⟨hselected'.trans hselected.symm, hstate'.trans hstate.symm⟩
      · exact selectFeaturesToReplace_withDeadlines powf hother _ _ _
          (pausedReason_resumes hresumes hmisses hstep hinterval (hage ▸ hmature))
    generalize selectFeaturesToReplace powf other (adapter.featureMetrics module) state lr
      (adapter.targetLrScale module) = selection' at hselection ⊢
    generalize selectFeaturesToReplace powf optimizer (adapter.featureMetrics module) state lr
      (adapter.targetLrScale module) = selection at hselection ⊢
    obtain ⟨hselected, hstate⟩ := hselection
    rw [hselected, hstate, hother]
    split
    · exact ⟨rfl, pauseUntil, cooldownUntil, _, _, rfl, hpause, hcooldown⟩
    · exact ⟨rfl, pauseUntil, _, _, _, rfl, hpause, .inl rfl⟩
  · rw [if_neg hinterval, if_neg hinterval, hother]
    exact ⟨rfl, pauseUntil, cooldownUntil, _, _, rfl, hpause, hcooldown⟩

theorem stepImpl_resumes (powf : K → K → K)
    (adapter : ContinualBackpropAdapter K Module Grads FreshModel Records)
    (h : Resumes pause cooldown optimizer other)
    (hmisses : ¬ Misses pause cooldown optimizer) (lr : K) (module : Module) (grads : Grads) :
    (stepImpl powf adapter other lr module grads).1 =
        (stepImpl powf adapter optimizer lr module grads).1 ∧
      Resumes pause cooldown (stepImpl powf adapter optimizer lr module grads).2
        (stepImpl powf adapter other lr module grads).2 := by
  obtain ⟨pauseUntil, cooldownUntil, reason, telemetry, rfl, hpause, hcooldown⟩ := h
  rw [stepImpl, stepImpl]
  generalize adapter.adamw lr module grads = adamw
  have hresumes : Resumes pause cooldown
      { optimizer with records := (adamw optimizer.records).2 }
      { withDeadlines optimizer pauseUntil cooldownUntil reason telemetry with
        records := (adamw optimizer.records).2 } :=
    ⟨pauseUntil, cooldownUntil, reason, telemetry, rfl, hpause, hcooldown⟩
  exact applyContinualBackprop_resumes hresumes hmisses _ _

/-! ## Other calls -/

/-- A later pause is one of both optimizers. -/
theorem KeptOr.max {other : ℕ} (h : KeptOr lost deadline other) (later : ℕ) :
    KeptOr lost (max deadline later) (max other later) := by
  rcases h with rfl | ⟨rfl, hle⟩
  · exact .inl rfl
  · rcases le_total deadline later with hlater | hlater
    · rw [max_eq_right hlater, max_eq_right (hle.trans hlater)]
      exact .inl rfl
    · rw [max_eq_left hlater]
      exact .inr ⟨rfl, max_le hle hlater⟩

/-- A call that is no missed step has the same reply. -/
theorem optimizerCall_resumes (h : Resumes pause cooldown optimizer other)
    (call : OptimizerCall K Module Grads FreshModel)
    (hmisses : call.isStep = true → ¬ Misses pause cooldown optimizer) :
    (optimizerCall powf adapter other call).1 = (optimizerCall powf adapter optimizer call).1 ∧
      Resumes pause cooldown (optimizerCall powf adapter optimizer call).2
        (optimizerCall powf adapter other call).2 := by
  cases call with
  | step lr module grads =>
    obtain ⟨hselected, hafter⟩ := stepImpl_resumes powf adapter h
      (hmisses rfl) lr module grads
    exact ⟨congrArg Prod.snd hselected, hafter⟩
  | pauseForSteps steps reason =>
    obtain ⟨pauseUntil, cooldownUntil, reason', telemetry, rfl, hpause, hcooldown⟩ := h
    refine ⟨rfl, ?_⟩
    simp only [optimizerCall, pauseForSteps]
    split
    · exact ⟨pauseUntil, cooldownUntil, _, _, rfl, hpause, hcooldown⟩
    · exact ⟨_, cooldownUntil, _, _, rfl, hpause.max _, hcooldown⟩
  | clearPause =>
    obtain ⟨pauseUntil, cooldownUntil, reason', telemetry, rfl, hpause, hcooldown⟩ := h
    exact ⟨rfl, 0, cooldownUntil, _, _, rfl, .inl rfl, hcooldown⟩
  | setRuntimeControl scale limit =>
    obtain ⟨pauseUntil, cooldownUntil, reason', telemetry, rfl, hpause, hcooldown⟩ := h
    exact ⟨rfl, pauseUntil, cooldownUntil, _, _, rfl, hpause, hcooldown⟩
  | refreshFreshModel freshModel =>
    obtain ⟨pauseUntil, cooldownUntil, reason', telemetry, rfl, hpause, hcooldown⟩ := h
    exact ⟨rfl, pauseUntil, cooldownUntil, _, _, rfl, hpause, hcooldown⟩
  | prepareAfterModuleScale module =>
    obtain ⟨pauseUntil, cooldownUntil, reason', telemetry, rfl, hpause, hcooldown⟩ := h
    exact ⟨rfl, pauseUntil, cooldownUntil, _, _, rfl, hpause, hcooldown⟩

/-! ## Runs -/

/-- The scale of the control is never negative. -/
theorem optimizerCall_scale [IsStrictOrderedRing K]
    (optimizer : ContinualBackpropAdamWOptimizer K FreshModel Records featureCount)
    (call : OptimizerCall K Module Grads FreshModel) (h : 0 ≤ optimizer.replacementRateScale) :
    0 ≤ (optimizerCall powf adapter optimizer call).2.replacementRateScale := by
  cases call with
  | step lr module grads => exact (stepImpl_law powf adapter optimizer lr module grads).scale ▸ h
  | pauseForSteps steps reason =>
    simp only [optimizerCall, pauseForSteps]
    split
    · exact h
    · exact h
  | setRuntimeControl scale limit => exact le_max_right _ _
  | clearPause => exact h
  | refreshFreshModel freshModel => exact h
  | prepareAfterModuleScale module => exact h

/-- **A resumed optimizer replaces what the other does**, in every run in which no later step misses
a deadline of the checkpoint. -/
theorem resumed_reply_eq [IsStrictOrderedRing K] (powf : K → K → K)
    (adapter : ContinualBackpropAdapter K Module Grads FreshModel Records)
    (config : ContinualBackpropConfig K) (learningRate : K) (noRecords : Records)
    (freshModel : FreshModel) (before after : List (OptimizerCall K Module Grads FreshModel))
    (interrupted : ContinualBackpropAdamWOptimizer K FreshModel Records featureCount)
    (hinterrupted : lastState (optimizerCall powf adapter)
      (.new config learningRate noRecords freshModel) before = interrupted)
    (hmisses : ∀ e ∈ callEvents powf adapter interrupted after, e.request.isStep = true →
      ¬ Misses interrupted.pauseUntilStep interrupted.cooldownUntilStep e.before) :
    (callEvents powf adapter (resumed interrupted noRecords) after).map Answered.reply =
      (callEvents powf adapter interrupted after).map Answered.reply := by
  have hscale : 0 ≤ interrupted.replacementRateScale := by
    rw [← hinterrupted]
    refine lastState_invariant (I := fun
      optimizer : ContinualBackpropAdamWOptimizer K FreshModel Records featureCount =>
        0 ≤ optimizer.replacementRateScale) ?_ optimizerCall_scale before
    exact zero_le_one
  exact trace_reply_eq (G := fun e => e.request.isStep = true →
      ¬ Misses interrupted.pauseUntilStep interrupted.cooldownUntilStep e.before)
    (fun _ _ call hresumes hguard => optimizerCall_resumes hresumes call hguard) after
    (resumes_resumed noRecords hscale) hmisses

/-- A first step replaces a feature and begins a cooldown of 10 steps. The next step replaces
nothing, unless the optimizer was resumed between the two. -/
theorem eager_resumed_reply :
    let interrupted := lastState (optimizerCall (fun x _ => x) evenAdapter) (eagerOptimizer 10)
      [.step 1 () ()]
    (callEvents (fun x _ => x) evenAdapter interrupted [.step 1 () ()]).map Answered.reply = [[]] ∧
    (callEvents (fun x _ => x) evenAdapter (resumed interrupted ()) [.step 1 () ()]).map
      Answered.reply = [[0]] := by
  decide +kernel

/-- In the same cooldown, a control that asks for more replacements. -/
theorem resumed_reply_eq_recovery :
    let interrupted := lastState (optimizerCall (fun x _ => x) evenAdapter) (eagerOptimizer 10)
      [.step 1 () ()]
    let calls := [.setRuntimeControl 2 none, .step 1 () ()]
    (callEvents (fun x _ => x) evenAdapter (resumed interrupted ()) calls).map Answered.reply =
      (callEvents (fun x _ => x) evenAdapter interrupted calls).map Answered.reply :=
  resumed_reply_eq (fun x _ => x) evenAdapter (eagerConfig 10) 1 () () _ _ _ rfl
    (by decide +kernel)

end BurnDragon.Training
