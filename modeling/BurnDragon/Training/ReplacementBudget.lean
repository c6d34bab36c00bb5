import BurnDragon.Training.FeatureSelection
import BurnDragon.Transition.Trace

/-!
# The replacement budget over a run

`ReplacementLaws` collects what holds of the features that a run of optimizer calls replaces: each
selection is within bounds, no feature comes again before it is mature, the budget pays for every
replacement, and nothing is replaced in a warmup, a pause or a cooldown, unless the control asks for
it. `replacementLaws` proves them for every run, from any optimizer whose budget is not negative.
-/

namespace BurnDragon.Training

open Rust Transition List

variable {K : Type} [Field K] [LinearOrder K] [FloorSemiring K]
variable {Module Grads FreshModel Records : Type} {featureCount : ℕ}

open ContinualBackpropAdamWOptimizer

/-! ## Calls -/

/-- The step up to which a call pauses the optimizer. -/
def pausedUntil (optimizer : ContinualBackpropAdamWOptimizer K FreshModel Records featureCount) :
    OptimizerCall K Module Grads FreshModel → ℕ
  | .pauseForSteps steps _ =>
    if steps = 0 then optimizer.pauseUntilStep
    else max optimizer.pauseUntilStep (saturatingAdd optimizer.currentState.step steps)
  | .clearPause => 0
  | _ => optimizer.pauseUntilStep

/-- What a call that is no step leaves as it is. -/
structure ControlLaw (optimizer : ContinualBackpropAdamWOptimizer K FreshModel Records featureCount)
    (call : OptimizerCall K Module Grads FreshModel)
    (after : ContinualBackpropAdamWOptimizer K FreshModel Records featureCount) : Prop where
  config : after.config = optimizer.config
  step : after.currentState.step = optimizer.currentState.step
  age : after.currentState.age = optimizer.currentState.age
  budget : after.currentState.replacementBudget = optimizer.currentState.replacementBudget ∨
    after.currentState.replacementBudget = 0
  pauseUntil : after.pauseUntilStep = pausedUntil optimizer call
  cooldownUntil : after.cooldownUntilStep = optimizer.cooldownUntilStep

variable {powf : K → K → K} {adapter : ContinualBackpropAdapter K Module Grads FreshModel Records}
  {optimizer after : ContinualBackpropAdamWOptimizer K FreshModel Records featureCount}
  {call : OptimizerCall K Module Grads FreshModel} {selected : List ℕ}

omit [LinearOrder K] [FloorSemiring K] in
theorem currentStep_eq
    (optimizer : ContinualBackpropAdamWOptimizer K FreshModel Records featureCount) :
    optimizer.currentStep = optimizer.currentState.step := by
  rw [currentStep, currentState]
  cases optimizer.state <;> rfl

omit [LinearOrder K] [FloorSemiring K] in
theorem prepareAfterModuleScale_law
    (adapter : ContinualBackpropAdapter K Module Grads FreshModel Records)
    (optimizer : ContinualBackpropAdamWOptimizer K FreshModel Records featureCount)
    (module : Module) :
    ControlLaw optimizer (.prepareAfterModuleScale module : OptimizerCall K Module Grads FreshModel)
      (optimizer.prepareAfterModuleScale adapter module featureCount) := by
  have hafter : (optimizer.prepareAfterModuleScale adapter module featureCount).state =
      optimizer.state.map fun state =>
        { state.expand featureCount with replacementBudget := 0 } := rfl
  refine ⟨rfl, ?_, ?_, ?_, rfl, rfl⟩
  · rw [currentState, currentState, hafter]
    cases optimizer.state <;> rfl
  · rw [currentState, currentState, hafter]
    cases optimizer.state with
    | none => rfl
    | some state => exact ContinualBackpropState.expandVector_of_length state.length_age
  · rw [currentState, currentState, hafter]
    cases optimizer.state with
    | none => exact .inl rfl
    | some state => exact .inr rfl

/-- A call is a step, which may replace features, or it replaces nothing. -/
theorem optimizerCall_cases (h : optimizerCall powf adapter optimizer call = (selected, after)) :
    (∃ lr module grads, call = .step lr module grads ∧
      StepLaw optimizer (stepAccrual powf adapter optimizer lr module grads) selected after) ∨
    (∀ lr module grads, call ≠ .step lr module grads) ∧ selected = [] ∧
      ControlLaw optimizer call after := by
  cases call with
  | step lr module grads =>
    have hlaw := stepImpl_law powf adapter optimizer lr module grads
    obtain ⟨rfl, rfl⟩ := Prod.mk.inj h
    exact .inl ⟨lr, module, grads, rfl, hlaw⟩
  | pauseForSteps steps reason =>
    obtain ⟨rfl, rfl⟩ := Prod.mk.inj h
    refine .inr ⟨nofun, rfl, ?_⟩
    rw [pauseForSteps]
    split
    · next hsteps => exact ⟨rfl, rfl, rfl, .inl rfl, by rw [pausedUntil, if_pos hsteps], rfl⟩
    · next hsteps =>
      refine ⟨rfl, rfl, rfl, .inl rfl, ?_, rfl⟩
      rw [pausedUntil, if_neg hsteps, ← currentStep_eq]
  | clearPause =>
    obtain ⟨rfl, rfl⟩ := Prod.mk.inj h
    exact .inr ⟨nofun, rfl, rfl, rfl, rfl, .inl rfl, rfl, rfl⟩
  | setRuntimeControl scale limit =>
    obtain ⟨rfl, rfl⟩ := Prod.mk.inj h
    exact .inr ⟨nofun, rfl, rfl, rfl, rfl, .inl rfl, rfl, rfl⟩
  | refreshFreshModel freshModel =>
    obtain ⟨rfl, rfl⟩ := Prod.mk.inj h
    exact .inr ⟨nofun, rfl, rfl, rfl, rfl, .inl rfl, rfl, rfl⟩
  | prepareAfterModuleScale module =>
    obtain ⟨rfl, rfl⟩ := Prod.mk.inj h
    exact .inr ⟨nofun, rfl, prepareAfterModuleScale_law adapter optimizer module⟩

/-! ## Runs -/

/-- A call of a run, with the optimizer before and after it. -/
abbrev CallEvent (K Module Grads FreshModel Records : Type) (featureCount : ℕ) :=
  Answered (ContinualBackpropAdamWOptimizer K FreshModel Records featureCount)
    (OptimizerCall K Module Grads FreshModel) (List ℕ)

/-- The calls of a run. -/
abbrev callEvents (powf : K → K → K)
    (adapter : ContinualBackpropAdapter K Module Grads FreshModel Records)
    (start : ContinualBackpropAdamWOptimizer K FreshModel Records featureCount)
    (calls : List (OptimizerCall K Module Grads FreshModel)) :
    List (CallEvent K Module Grads FreshModel Records featureCount) :=
  trace (optimizerCall powf adapter) start calls

def OptimizerCall.isStep : OptimizerCall K Module Grads FreshModel → Bool
  | .step .. => true
  | _ => false

/-- What a call adds to the budget. -/
def accrual (powf : K → K → K)
    (adapter : ContinualBackpropAdapter K Module Grads FreshModel Records)
    (event : CallEvent K Module Grads FreshModel Records featureCount) : K :=
  match event.request with
  | .step lr module grads => stepAccrual powf adapter event.before lr module grads
  | _ => 0

/-- The steps among the calls behind `j`, up to `k`. -/
def stepsBetween (events : List (CallEvent K Module Grads FreshModel Records featureCount))
    (j k : ℕ) : ℕ :=
  ((events.take (k + 1)).drop (j + 1)).countP (·.request.isStep)

/-- What holds of the replacements of a run. -/
structure ReplacementLaws (powf : K → K → K)
    (adapter : ContinualBackpropAdapter K Module Grads FreshModel Records)
    (start : ContinualBackpropAdamWOptimizer K FreshModel Records featureCount)
    (events : List (CallEvent K Module Grads FreshModel Records featureCount)) : Prop where
  nodup : ∀ e ∈ events, e.reply.Nodup
  inRange : ∀ e ∈ events, ∀ idx ∈ e.reply, idx < featureCount
  bounded : ∀ e ∈ events, e.reply.length ≤ e.before.effectiveMaxReplacementsPerInterval
  /-- With the step itself, a feature has the age of maturity. -/
  mature : ∀ e ∈ events, ∀ idx ∈ e.reply, ∃ age, e.before.currentState.age[idx]? = some age ∧
    (start.config.maturitySteps : K) ≤ age + 1
  /-- No feature is replaced twice within `maturity_steps` steps. -/
  separated : ∀ j k : ℕ, ∀ e ∈ events[j]?, ∀ e' ∈ events[k]?, ∀ idx, j < k → idx ∈ e.reply →
    idx ∈ e'.reply → start.config.maturitySteps ≤ stepsBetween events j k
  budget : ∀ e ∈ events, 0 ≤ e.after.currentState.replacementBudget
  total : (events.map fun e => (e.reply.length : K)).sum ≤
    start.currentState.replacementBudget + (events.map (accrual powf adapter)).sum
  warmup : ∀ e ∈ events, e.reply ≠ [] → e.before.recoveryPlasticityActive = false →
    start.config.warmupSteps < e.after.currentState.step
  /-- Neither deadline lies ahead. -/
  deadlines : ∀ e ∈ events, e.reply ≠ [] → e.before.recoveryPlasticityActive = false →
    e.before.pauseUntilStep ≤ e.after.currentState.step ∧
      e.before.cooldownUntilStep ≤ e.after.currentState.step
  /-- A pause that no call has ended is over. -/
  pause : ∀ j k : ℕ, ∀ e ∈ events[j]?, ∀ e' ∈ events[k]?, j < k → ∀ steps reason, 0 < steps →
    e.request = .pauseForSteps steps reason →
    (∀ i : ℕ, j < i → i < k → ∀ e'' ∈ events[i]?, e''.request ≠ .clearPause) →
    e'.reply ≠ [] → e'.before.recoveryPlasticityActive = false →
    saturatingAdd e.before.currentState.step steps ≤ e'.after.currentState.step
  /-- The cooldown of every earlier replacement is over. -/
  cooldown : ∀ j k : ℕ, ∀ e ∈ events[j]?, ∀ e' ∈ events[k]?, j < k → e.reply ≠ [] → e'.reply ≠ [] →
    e'.before.recoveryPlasticityActive = false →
    saturatingAdd e.after.currentState.step start.config.cooldownSteps ≤
      e'.after.currentState.step

/-! ## Invariants of a run -/

variable {start : ContinualBackpropAdamWOptimizer K FreshModel Records featureCount}
  {calls : List (OptimizerCall K Module Grads FreshModel)}
  {e e' : CallEvent K Module Grads FreshModel Records featureCount} {j k : ℕ}

theorem callEvents_cases (h : (callEvents powf adapter start calls)[k]? = some e) :
    (e.request.isStep = true ∧
      StepLaw e.before (accrual powf adapter e) e.reply e.after) ∨
    e.request.isStep = false ∧ e.reply = [] ∧ accrual powf adapter e = 0 ∧
      ControlLaw e.before e.request e.after := by
  rcases optimizerCall_cases (trace_step h) with ⟨lr, module, grads, hcall, hlaw⟩ |
    ⟨hcall, hreply, hlaw⟩
  · left
    rw [accrual, hcall]
    exact ⟨rfl, hlaw⟩
  · right
    rw [accrual]
    cases hrequest : e.request with
    | step lr module grads => exact absurd hrequest (hcall lr module grads)
    | _ => exact ⟨rfl, hreply, rfl, hrequest ▸ hlaw⟩

theorem callEvents_config (h : (callEvents powf adapter start calls)[k]? = some e) :
    e.before.config = start.config := by
  refine trace_invariant (I := fun _ optimizer => optimizer.config = start.config) rfl ?_ h
  intro k e h hconfig
  rcases callEvents_cases h with ⟨-, hlaw⟩ | ⟨-, -, -, hlaw⟩
  · exact hlaw.config.trans hconfig
  · exact hlaw.config.trans hconfig

section Budget

variable [IsStrictOrderedRing K]

section

variable (hpowf : ∀ x p, 0 ≤ x → 0 ≤ p → 0 ≤ powf x p) (hrate : 0 ≤ start.config.replacementRate)
include hpowf hrate

theorem accrual_nonneg (h : (callEvents powf adapter start calls)[k]? = some e) :
    0 ≤ accrual powf adapter e := by
  have hconfig := callEvents_config h
  rw [accrual]
  split
  · exact stepAccrual_nonneg hpowf adapter (hconfig ▸ hrate) _ _ _
  · exact le_rfl

/-- What a call leaves of the budget. -/
theorem budget_after (h : (callEvents powf adapter start calls)[k]? = some e)
    (hbudget : 0 ≤ e.before.currentState.replacementBudget) :
    0 ≤ e.after.currentState.replacementBudget ∧
      (e.reply.length : K) + e.after.currentState.replacementBudget ≤
        e.before.currentState.replacementBudget + accrual powf adapter e := by
  have haccrual := accrual_nonneg hpowf hrate h
  rcases callEvents_cases h with ⟨-, hlaw⟩ | ⟨-, hreply, hzero, hlaw⟩
  · have hle : (e.reply.length : K) ≤
        e.before.currentState.replacementBudget + accrual powf adapter e :=
      (Nat.cast_le.mpr hlaw.length_le_budget).trans (Nat.floor_le (add_nonneg hbudget haccrual))
    rw [hlaw.budget]
    exact ⟨sub_nonneg.mpr hle, (add_sub_cancel _ _).le⟩
  · rw [hreply, length_nil, Nat.cast_zero, zero_add, hzero, add_zero]
    rcases hlaw.budget with hkept | hcleared
    · rw [hkept]
      exact ⟨hbudget, le_rfl⟩
    · rw [hcleared]
      exact ⟨le_rfl, hbudget⟩

theorem budget_nonneg (hbudget : 0 ≤ start.currentState.replacementBudget)
    (h : (callEvents powf adapter start calls)[k]? = some e) :
    0 ≤ e.before.currentState.replacementBudget :=
  trace_invariant (I := fun _ optimizer => 0 ≤ optimizer.currentState.replacementBudget) hbudget
    (fun _ _ h hnonneg => (budget_after hpowf hrate h hnonneg).1) h

end

end Budget

/-! ## Ages -/

omit [Field K] [LinearOrder K] [FloorSemiring K] in
theorem stepsBetween_succ {events : List (CallEvent K Module Grads FreshModel Records featureCount)}
    (hjk : j ≤ k) (h : events[k + 1]? = some e) :
    stepsBetween events j (k + 1) =
      stepsBetween events j k + if e.request.isStep then 1 else 0 := by
  obtain ⟨hk, rfl⟩ := List.getElem?_eq_some_iff.mp h
  have htake : events.take (k + 2) = events.take (k + 1) ++ [events[k + 1]] :=
    take_succ_eq_append_getElem hk
  rw [stepsBetween, stepsBetween, htake, drop_append_of_le_length, countP_append,
    countP_singleton]
  rw [length_take]
  omega

/-- A replaced feature is no older than the steps since. -/
theorem age_le_stepsBetween [IsStrictOrderedRing K]
    (h : (callEvents powf adapter start calls)[j]? = some e) {idx : ℕ} (hidx : idx ∈ e.reply)
    (hjk : j < k) (h' : (callEvents powf adapter start calls)[k]? = some e') :
    ∀ a : K, e'.before.currentState.age[idx]? = some a →
      a ≤ stepsBetween (callEvents powf adapter start calls) j (k - 1) := by
  refine trace_invariant_from (I := fun k optimizer => ∀ a : K,
    optimizer.currentState.age[idx]? = some a →
      a ≤ stepsBetween (callEvents powf adapter start calls) j (k - 1)) h ?_ ?_ hjk h'
  · intro a ha
    rcases callEvents_cases h with ⟨-, hlaw⟩ | ⟨-, hreply, -⟩
    · rw [hlaw.age_selected hidx ha]
      exact Nat.cast_nonneg _
    · exact absurd hidx (hreply ▸ not_mem_nil)
  · intro k e hjk h hbefore a ha
    obtain ⟨k, rfl⟩ : ∃ k', k = k' + 1 := ⟨k - 1, by omega⟩
    rw [Nat.add_sub_cancel] at hbefore ⊢
    rw [stepsBetween_succ (by omega) h]
    rcases callEvents_cases h with ⟨hstep, hlaw⟩ | ⟨hstep, -, -, hlaw⟩
    · obtain ⟨old, hold, hcases⟩ := hlaw.age_cases ha
      rw [if_pos hstep, Nat.cast_add, Nat.cast_one]
      rcases hcases with rfl | rfl
      · exact add_nonneg (Nat.cast_nonneg _) zero_le_one
      · exact add_le_add_left (hbefore old hold) 1
    · rw [hlaw.age] at ha
      rw [if_neg (by rw [hstep]; exact Bool.false_ne_true), Nat.add_zero]
      exact hbefore a ha

/-- **No feature is replaced twice within the steps of maturity.** -/
theorem maturity_le_stepsBetween [IsStrictOrderedRing K]
    (h : (callEvents powf adapter start calls)[j]? = some e)
    (h' : (callEvents powf adapter start calls)[k]? = some e') (hjk : j < k) {idx : ℕ}
    (hidx : idx ∈ e.reply) (hidx' : idx ∈ e'.reply) :
    start.config.maturitySteps ≤ stepsBetween (callEvents powf adapter start calls) j k := by
  rcases callEvents_cases h' with ⟨hstep, hlaw⟩ | ⟨-, hreply, -⟩
  · obtain ⟨age, hage, hmature⟩ := hlaw.mature hidx'
    have hle := age_le_stepsBetween h hidx hjk h' age hage
    obtain ⟨k, rfl⟩ : ∃ k', k = k' + 1 := ⟨k - 1, by omega⟩
    rw [Nat.add_sub_cancel] at hle
    rw [stepsBetween_succ (by omega) h', if_pos hstep, ← callEvents_config h']
    have hcast : (e'.before.config.maturitySteps : K) ≤
        (stepsBetween (callEvents powf adapter start calls) j k + 1 : ℕ) := by
      rw [Nat.cast_add, Nat.cast_one]
      exact hmature.trans (add_le_add_left hle 1)
    exact Nat.cast_le.mp hcast
  · exact absurd hidx' (hreply ▸ not_mem_nil)

/-! ## Deadlines -/

omit [FloorSemiring K] in
theorem le_of_pausedReason_none (hpaused : optimizer.pausedReason k = none)
    (hrecovery : optimizer.recoveryPlasticityActive = false) :
    optimizer.config.warmupSteps < k ∧ optimizer.pauseUntilStep ≤ k ∧
      optimizer.cooldownUntilStep ≤ k := by
  rw [pausedReason, hrecovery] at hpaused
  simp only [Bool.not_false, Bool.true_and, decide_eq_true_eq] at hpaused
  split at hpaused
  · cases hpaused
  · next hwarmup =>
    split at hpaused
    · cases hreason : optimizer.pauseReason <;> simp [hreason] at hpaused
    · next hpause =>
      split at hpaused
      · cases hpaused
      · next hcooldown => exact ⟨not_le.mp hwarmup, not_lt.mp hpause, not_lt.mp hcooldown⟩

/-- What a replacement without recovery plasticity waits for. -/
theorem deadlines_of_reply (h : (callEvents powf adapter start calls)[k]? = some e)
    (hreply : e.reply ≠ []) (hrecovery : e.before.recoveryPlasticityActive = false) :
    start.config.warmupSteps < e.after.currentState.step ∧
      e.before.pauseUntilStep ≤ e.after.currentState.step ∧
      e.before.cooldownUntilStep ≤ e.after.currentState.step := by
  rcases callEvents_cases h with ⟨-, hlaw⟩ | ⟨-, hnil, -⟩
  · rw [← callEvents_config h]
    exact le_of_pausedReason_none (hlaw.unpaused hreply) hrecovery
  · exact absurd hnil hreply

/-- A pause lasts until a call ends it. -/
theorem pause_le_pauseUntilStep (h : (callEvents powf adapter start calls)[j]? = some e)
    (h' : (callEvents powf adapter start calls)[k]? = some e') (hjk : j < k) {steps : ℕ}
    {reason : String} (hsteps : 0 < steps) (hpause : e.request = .pauseForSteps steps reason)
    (hkept : ∀ i : ℕ, j < i → i < k → ∀ e'' ∈ (callEvents powf adapter start calls)[i]?,
      e''.request ≠ .clearPause) :
    saturatingAdd e.before.currentState.step steps ≤ e'.before.pauseUntilStep := by
  refine trace_invariant_from (I := fun i optimizer => i ≤ k →
    saturatingAdd e.before.currentState.step steps ≤ optimizer.pauseUntilStep)
    h (fun _ => ?_) ?_ hjk h' le_rfl
  · rcases callEvents_cases h with ⟨hstep, -⟩ | ⟨-, -, -, hlaw⟩
    · rw [hpause] at hstep
      cases hstep
    · rw [hlaw.pauseUntil, hpause, pausedUntil, if_neg hsteps.ne']
      exact le_max_right _ _
  · intro i e'' hji hi hbefore hik
    have hle := hbefore (Nat.le_of_succ_le hik)
    rcases callEvents_cases hi with ⟨-, hlaw⟩ | ⟨-, -, -, hlaw⟩
    · rwa [hlaw.pauseUntil]
    · have hclear := hkept i hji hik e'' hi
      rw [hlaw.pauseUntil]
      cases hrequest : e''.request with
      | clearPause => exact absurd hrequest hclear
      | pauseForSteps steps' reason' =>
        rw [pausedUntil]
        split
        · exact hle
        · exact hle.trans (le_max_left _ _)
      | step => exact hle
      | setRuntimeControl => exact hle
      | refreshFreshModel => exact hle
      | prepareAfterModuleScale => exact hle

theorem saturatingAdd_mono {m n : ℕ} (h : m ≤ n) (steps : ℕ) :
    saturatingAdd m steps ≤ saturatingAdd n steps :=
  min_le_min_right _ (Nat.add_le_add_right h steps)

/-- A cooldown lasts until its last step. -/
theorem cooldown_le_cooldownUntilStep (h : (callEvents powf adapter start calls)[j]? = some e)
    (h' : (callEvents powf adapter start calls)[k]? = some e') (hjk : j < k)
    (hreply : e.reply ≠ []) :
    saturatingAdd e.after.currentState.step start.config.cooldownSteps ≤
      e'.before.cooldownUntilStep := by
  -- the counter does not go down, so a later cooldown ends later
  have hinvariant := trace_invariant_from (I := fun _ optimizer =>
    e.after.currentState.step ≤ optimizer.currentState.step ∧
      optimizer.currentState.step ≤ usizeMax ∧
      saturatingAdd e.after.currentState.step start.config.cooldownSteps ≤
        optimizer.cooldownUntilStep) h ?_ ?_ hjk h'
  · exact hinvariant.2.2
  · rcases callEvents_cases h with ⟨-, hlaw⟩ | ⟨-, hnil, -⟩
    · refine ⟨le_rfl, hlaw.step ▸ saturatingAdd_le_usizeMax _ _, ?_⟩
      rw [hlaw.cooldownUntil, if_neg (by simpa using hreply), callEvents_config h]
    · exact absurd hnil hreply
  · rintro i e'' - hi ⟨hstep, hmax, hcooldown⟩
    rcases callEvents_cases hi with ⟨-, hlaw⟩ | ⟨-, -, -, hlaw⟩
    · have hgrow : e''.before.currentState.step ≤ e''.after.currentState.step := by
        rw [hlaw.step, saturatingAdd]
        exact le_min (Nat.le_succ _) hmax
      refine ⟨hstep.trans hgrow, hlaw.step ▸ saturatingAdd_le_usizeMax _ _, ?_⟩
      rw [hlaw.cooldownUntil, callEvents_config hi]
      split
      · exact hcooldown
      · exact saturatingAdd_mono (hstep.trans hgrow) _
    · rw [hlaw.step, hlaw.cooldownUntil]
      exact ⟨hstep, hmax, hcooldown⟩

/-! ## The laws -/

/-- **Feature replacement respects its budget**, over every run of calls. -/
theorem replacementLaws [IsStrictOrderedRing K] (powf : K → K → K)
    (hpowf : ∀ x p, 0 ≤ x → 0 ≤ p → 0 ≤ powf x p)
    (adapter : ContinualBackpropAdapter K Module Grads FreshModel Records)
    (start : ContinualBackpropAdamWOptimizer K FreshModel Records featureCount)
    (hrate : 0 ≤ start.config.replacementRate)
    (hbudget : 0 ≤ start.currentState.replacementBudget)
    (calls : List (OptimizerCall K Module Grads FreshModel)) :
    ReplacementLaws powf adapter start (callEvents powf adapter start calls) := by
  have hcases : ∀ e ∈ callEvents powf adapter start calls, ∃ k,
      (callEvents powf adapter start calls)[k]? = some e := fun e he =>
    List.mem_iff_getElem?.mp he
  refine
    { nodup := fun e he => ?_
      inRange := fun e he idx hidx => ?_
      bounded := fun e he => ?_
      mature := fun e he idx hidx => ?_
      separated := fun j k e h e' h' idx hjk hidx hidx' =>
        maturity_le_stepsBetween h h' hjk hidx hidx'
      budget := fun e he => ?_
      total := ?_
      warmup := fun e he hreply hrecovery => ?_
      deadlines := fun e he hreply hrecovery => ?_
      pause := fun j k e h e' h' hjk steps reason hsteps hpause hkept hreply hrecovery =>
        (pause_le_pauseUntilStep h h' hjk hsteps hpause hkept).trans
          (deadlines_of_reply h' hreply hrecovery).2.1
      cooldown := fun j k e h e' h' hjk hreply hreply' hrecovery =>
        (cooldown_le_cooldownUntilStep h h' hjk hreply).trans
          (deadlines_of_reply h' hreply' hrecovery).2.2 }
  · obtain ⟨k, h⟩ := hcases e he
    rcases callEvents_cases h with ⟨-, hlaw⟩ | ⟨-, hnil, -⟩
    · exact hlaw.nodup
    · exact hnil ▸ List.nodup_nil
  · obtain ⟨k, h⟩ := hcases e he
    rcases callEvents_cases h with ⟨-, hlaw⟩ | ⟨-, hnil, -⟩
    · exact hlaw.lt_featureCount hidx
    · exact absurd hidx (hnil ▸ List.not_mem_nil)
  · obtain ⟨k, h⟩ := hcases e he
    rcases callEvents_cases h with ⟨-, hlaw⟩ | ⟨-, hnil, -⟩
    · exact hlaw.length_le
    · exact hnil ▸ Nat.zero_le _
  · obtain ⟨k, h⟩ := hcases e he
    rw [← callEvents_config h]
    rcases callEvents_cases h with ⟨-, hlaw⟩ | ⟨-, hnil, -⟩
    · exact hlaw.mature hidx
    · exact absurd hidx (hnil ▸ List.not_mem_nil)
  · obtain ⟨k, h⟩ := hcases e he
    exact (budget_after hpowf hrate h (budget_nonneg hpowf hrate hbudget h)).1
  · refine trace_spent_le
      (fun optimizer : ContinualBackpropAdamWOptimizer K FreshModel Records featureCount =>
        optimizer.currentState.replacementBudget) (fun e he => ?_) (fun e he => ?_) hbudget
    · obtain ⟨k, h⟩ := hcases e he
      exact (budget_after hpowf hrate h (budget_nonneg hpowf hrate hbudget h)).1
    · obtain ⟨k, h⟩ := hcases e he
      exact (budget_after hpowf hrate h (budget_nonneg hpowf hrate hbudget h)).2
  · obtain ⟨k, h⟩ := hcases e he
    exact (deadlines_of_reply h hreply hrecovery).1
  · obtain ⟨k, h⟩ := hcases e he
    exact (deadlines_of_reply h hreply hrecovery).2

/-- A module of two features that are of equal use. -/
def evenAdapter : ContinualBackpropAdapter ℚ Unit Unit Unit Unit where
  adamw _ module _ records := (module, records)
  takeBatchStats _ := none
  targetLrScale _ := 1
  featureMetrics _ := ⟨[1, 1], [1, 1]⟩
  reinitializeFeatures module _ _ := module
  resetOptimizerState _ records _ := records
  retainRecords _ records := records

/-- A replacement at every step, but for the cooldown. -/
def eagerConfig (cooldownSteps : ℕ) : ContinualBackpropConfig ℚ where
  utilityDecay := 0
  replacementRate := 1
  maturitySteps := 1
  replaceIntervalSteps := 1
  utilityEpsilon := 1
  lrCoupling := .none
  lrCouplingPower := 1
  warmupSteps := 0
  cooldownSteps := cooldownSteps
  maxReplacementsPerInterval := 1

def eagerOptimizer (cooldownSteps : ℕ) : ContinualBackpropAdamWOptimizer ℚ Unit Unit 2 :=
  .new (eagerConfig cooldownSteps) 1 () ()

theorem replacementLaws_eager : ReplacementLaws (fun x _ => x) evenAdapter (eagerOptimizer 4)
    (callEvents (fun x _ => x) evenAdapter (eagerOptimizer 4)
      [.step 1 () (), .pauseForSteps 2 "regression", .step 1 () ()]) :=
  replacementLaws (fun x _ => x) (fun _ _ hx _ => hx) evenAdapter (eagerOptimizer 4) zero_le_one
    le_rfl _

end BurnDragon.Training
