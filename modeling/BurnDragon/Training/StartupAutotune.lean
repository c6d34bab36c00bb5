import BurnDragon.Training.StartupProbes

/-!
# The search of the startup autotune

`resolve_startup_batch_size_with_probe` of `startup_autotune.rs`: the batch sizes are doubled until
one does not fit, and the bracket that is left is bisected. A candidate is skipped, predicted, or
probed (`examineCandidate`); both loops keep the largest candidate that fits as the lower end of
the bracket.

What the probe and `/proc/meminfo` report is arbitrary and may change from call to call: both are
functions of the probes made so far.
-/

namespace BurnDragon.Training

open Rust List

/-- `BatchAutotuneSettings`, with what `resolve_batch_autotune_settings` ensures of the range. -/
structure BatchAutotuneSettings where
  configSource : String
  targetDeviceMemoryMb : ℕ
  minBatchSize : ℕ
  maxBatchSize : ℕ
  maxProbeBatchSize : Option ℕ
  probeSteps : ℕ
  binarySearch : Bool
  maxSystemMemoryFraction : Float32
  probeSafetyMargin : Float32
  one_le_min : 1 ≤ minBatchSize
  min_le_max : minBatchSize ≤ maxBatchSize
  max_le_usizeMax : maxBatchSize ≤ usizeMax

/-- What the search gets to see of the machine, by the probes made so far. -/
structure ProbeEnvironment where
  /-- The readings of the system memory during one step. -/
  systemMemorySnapshot : List StartupAutotuneProbe → ℕ → Option SystemMemorySnapshot
  probeBatchSize : List StartupAutotuneProbe → ℕ → StartupAutotuneProbe

/-! ## Candidates -/

variable {maxBatchSize current : ℕ}

theorem lt_doubled (hmax : maxBatchSize ≤ usizeMax) (hlt : current < maxBatchSize)
    (hne : min (saturatingMul current 2) maxBatchSize ≠ current) :
    current < min (saturatingMul current 2) maxBatchSize := by
  have hle : current ≤ saturatingMul current 2 := le_min (by omega) (by omega)
  omega

/-- The loop of `startup_candidate_sequence`, after the current candidate. -/
def doubledCandidates (maxBatchSize : ℕ) (hmax : maxBatchSize ≤ usizeMax) (current : ℕ) : List ℕ :=
  if hlt : current < maxBatchSize then
    let next := min (saturatingMul current 2) maxBatchSize
    if hne : next = current then [] else next :: doubledCandidates maxBatchSize hmax next
  else []
termination_by maxBatchSize - current
decreasing_by
  have := lt_doubled hmax hlt hne
  omega

/-- Doubling goes on up to the largest candidate. -/
theorem doubledCandidates_eq_cons (hmax : maxBatchSize ≤ usizeMax) (hpos : 0 < current)
    (hlt : current < maxBatchSize) :
    ∃ next, current < next ∧ next ≤ maxBatchSize ∧
      doubledCandidates maxBatchSize hmax current =
        next :: doubledCandidates maxBatchSize hmax next := by
  have hsat : current < saturatingMul current 2 := lt_min (by omega) (by omega)
  have hnext : current < min (saturatingMul current 2) maxBatchSize := lt_min hsat hlt
  refine ⟨_, hnext, min_le_right _ _, ?_⟩
  rw [doubledCandidates, dif_pos hlt]
  exact dif_neg hnext.ne'

theorem doubledCandidates_eq_nil (hmax : maxBatchSize ≤ usizeMax) (hge : ¬ current < maxBatchSize) :
    doubledCandidates maxBatchSize hmax current = [] := by
  rw [doubledCandidates, dif_neg hge]

def startupCandidateSequence (minBatchSize maxBatchSize : ℕ) (hmax : maxBatchSize ≤ usizeMax) :
    List ℕ :=
  max minBatchSize 1 :: doubledCandidates maxBatchSize hmax (max minBatchSize 1)

def candidateExceedsProbeCap (candidate : ℕ) (maxProbeBatchSize : Option ℕ) : Bool :=
  maxProbeBatchSize.any fun maxProbeBatchSize => candidate > max maxProbeBatchSize 1

def resolveGradientAccumulationSteps (resolvedBatchSize configuredGradientAccumulationSteps : ℕ)
    (targetEffectiveBatchSize : Option ℕ) : ℕ :=
  match targetEffectiveBatchSize with
  | some target =>
    let batchSize := max resolvedBatchSize 1
    max ((max target batchSize + batchSize - 1) / batchSize) 1
  | none => max configuredGradientAccumulationSteps 1

/-! ## The search -/

structure SearchState where
  probes : List StartupAutotuneProbe
  low : ℕ
  high : ℕ
  bestFit : Option ℕ
  bestFitVerified : Bool

section Search

variable (autotune : BatchAutotuneSettings) (env : ProbeEnvironment)
  (deviceTargetBytes hostCapBytes : Option ℕ)

/-- One candidate, in either loop: the probe to record, and when the candidate fits, whether that
has been verified. -/
def examineCandidate (probes : List StartupAutotuneProbe) (candidate : ℕ) :
    StartupAutotuneProbe × Option Bool :=
  match probeMemoryCapSkipWithSnapshot candidate probes deviceTargetBytes hostCapBytes
      autotune.probeSafetyMargin (env.systemMemorySnapshot probes 0) with
  | some skip => (skip, none)
  | none =>
    if candidateExceedsProbeCap candidate autotune.maxProbeBatchSize then
      match predictedFitProbeWithSnapshot candidate probes deviceTargetBytes hostCapBytes
          autotune.probeSafetyMargin (env.systemMemorySnapshot probes 1) with
      | none => (probeCapSkipProbe candidate (env.systemMemorySnapshot probes 2), none)
      | some predicted => (predicted, some false)
    else
      let probe := env.probeBatchSize probes candidate
      (probe, if probe.fitTarget then some true else none)

/-- The state after a candidate has been examined. -/
def SearchState.record (state : SearchState) (candidate : ℕ)
    (examined : StartupAutotuneProbe × Option Bool) : SearchState :=
  match examined.2 with
  | some verified =>
    { probes := state.probes ++ [examined.1]
      low := candidate
      high := state.high
      bestFit := some candidate
      bestFitVerified := verified }
  | none => { state with probes := state.probes ++ [examined.1], high := candidate }

/-- The loop over the doubled candidates. -/
def doublingPhase (maxBatchSize : ℕ) : List ℕ → SearchState → SearchState
  | [], state => state
  | candidate :: candidates, state =>
    let examined := examineCandidate autotune env deviceTargetBytes hostCapBytes state.probes
      candidate
    let state := state.record candidate examined
    if examined.2.isNone || candidate == maxBatchSize then state
    else doublingPhase maxBatchSize candidates state

/-- The bisection of the bracket. -/
def bisectionPhase (state : SearchState) : SearchState :=
  if state.high > state.low + 1 then
    let candidate := state.low + (state.high - state.low) / 2
    bisectionPhase (state.record candidate
      (examineCandidate autotune env deviceTargetBytes hostCapBytes state.probes candidate))
  else state
termination_by state.high - state.low
decreasing_by
  unfold SearchState.record
  split <;> simp only <;> omega

/-- Both loops. -/
def searchBatchSize : SearchState :=
  let maxBatchSize := max autotune.maxBatchSize autotune.minBatchSize
  let state := doublingPhase autotune env deviceTargetBytes hostCapBytes maxBatchSize
    (startupCandidateSequence autotune.minBatchSize maxBatchSize
      (max_le autotune.max_le_usizeMax (autotune.min_le_max.trans autotune.max_le_usizeMax)))
    ⟨[], autotune.minBatchSize, maxBatchSize, none, false⟩
  if autotune.binarySearch && state.bestFit.isSome && state.high > state.low + 1 then
    bisectionPhase autotune env deviceTargetBytes hostCapBytes state
  else state

/-! ## What the search has examined -/

/-- The recorded probes are those of the candidates, each examined after the ones before it. -/
inductive Examined : List StartupAutotuneProbe → List ℕ → Prop
  | nil : Examined [] []
  | snoc {probes : List StartupAutotuneProbe} {candidates : List ℕ} (candidate : ℕ) :
      Examined probes candidates → Examined
        (probes ++
          [(examineCandidate autotune env deviceTargetBytes hostCapBytes probes candidate).1])
        (candidates ++ [candidate])

/-- The candidate has been examined with this outcome. -/
def Outcome (probes : List StartupAutotuneProbe) (candidates : List ℕ) (candidate : ℕ)
    (outcome : Option Bool) : Prop :=
  ∃ i, candidates[i]? = some candidate ∧
    (examineCandidate autotune env deviceTargetBytes hostCapBytes (probes.take i) candidate).2 =
      outcome

/-- What holds throughout the search: each candidate is examined once, none of them lies inside the
bracket, and the best fit is the lower end of the bracket. -/
structure SearchInvariant (state : SearchState) (candidates : List ℕ) : Prop where
  examined : Examined autotune env deviceTargetBytes hostCapBytes state.probes candidates
  nodup : candidates.Nodup
  range : ∀ c ∈ candidates, autotune.minBatchSize ≤ c ∧ c ≤ autotune.maxBatchSize
  min_le_low : autotune.minBatchSize ≤ state.low
  high_le_max : state.high ≤ autotune.maxBatchSize
  outside : ∀ c ∈ candidates, c ≤ state.low ∨ state.high ≤ c
  bestFit : ∀ b, state.bestFit = some b → b = state.low ∧
    Outcome autotune env deviceTargetBytes hostCapBytes state.probes candidates b
      (some state.bestFitVerified)

variable {autotune env deviceTargetBytes hostCapBytes} {state : SearchState} {candidates : List ℕ}
  {candidate : ℕ}

theorem Examined.length_eq {probes : List StartupAutotuneProbe}
    (h : Examined autotune env deviceTargetBytes hostCapBytes probes candidates) :
    probes.length = candidates.length := by
  induction h with
  | nil => rfl
  | snoc _ _ ih => simp [ih]

/-- An outcome stays when more candidates are examined. -/
theorem Outcome.append {probes more : List StartupAutotuneProbe} {rest : List ℕ} {b : ℕ}
    {outcome : Option Bool} (hlength : probes.length = candidates.length)
    (h : Outcome autotune env deviceTargetBytes hostCapBytes probes candidates b outcome) :
    Outcome autotune env deviceTargetBytes hostCapBytes (probes ++ more) (candidates ++ rest) b
      outcome := by
  obtain ⟨i, hi, houtcome⟩ := h
  have hlt : i < candidates.length := (List.getElem?_eq_some_iff.1 hi).1
  refine ⟨i, by rw [getElem?_append_left hlt, hi], ?_⟩
  rwa [take_append_of_le_length (by omega)]

/-- Examining a new candidate inside the bracket. -/
theorem SearchInvariant.record
    (h : SearchInvariant autotune env deviceTargetBytes hostCapBytes state candidates)
    (hrange : autotune.minBatchSize ≤ candidate ∧ candidate ≤ autotune.maxBatchSize)
    (hnew : ∀ c ∈ candidates, c < candidate ∨ state.high ≤ c) (hhigh : ∀ c ∈ candidates,
      state.high ≤ c → candidate < c) :
    SearchInvariant autotune env deviceTargetBytes hostCapBytes (state.record candidate
      (examineCandidate autotune env deviceTargetBytes hostCapBytes state.probes candidate))
      (candidates ++ [candidate]) := by
  have hexamined := h.examined.snoc candidate
  have hmem : candidate ∉ candidates := fun hmem =>
    (hnew candidate hmem).elim (lt_irrefl _) fun hle => lt_irrefl _ (hhigh candidate hmem hle)
  have hnodup : (candidates ++ [candidate]).Nodup :=
    nodup_append.2 ⟨h.nodup, nodup_singleton _, fun a ha b hb heq =>
      hmem (mem_singleton.1 hb ▸ heq ▸ ha)⟩
  have hlast : Outcome autotune env deviceTargetBytes hostCapBytes (state.probes ++
      [(examineCandidate autotune env deviceTargetBytes hostCapBytes state.probes candidate).1])
      (candidates ++ [candidate]) candidate (examineCandidate autotune env deviceTargetBytes
        hostCapBytes state.probes candidate).2 := by
    refine ⟨candidates.length, by simp, ?_⟩
    rw [← h.examined.length_eq, take_left]
  have hrange' : ∀ c ∈ candidates ++ [candidate],
      autotune.minBatchSize ≤ c ∧ c ≤ autotune.maxBatchSize := by
    intro c hc
    rcases mem_append.1 hc with hc | hc
    · exact h.range c hc
    · exact mem_singleton.1 hc ▸ hrange
  cases houtcome : (examineCandidate autotune env deviceTargetBytes hostCapBytes state.probes
      candidate).2 with
  | some verified =>
    rw [houtcome] at hlast
    simp only [SearchState.record, houtcome]
    refine ⟨hexamined, hnodup, hrange', hrange.1, h.high_le_max, fun c hc => ?_, fun b hb => ?_⟩
    · rcases mem_append.1 hc with hc | hc
      · exact (hnew c hc).imp le_of_lt id
      · exact .inl (mem_singleton.1 hc).le
    · obtain rfl := Option.some.inj hb
      exact ⟨rfl, hlast⟩
  | none =>
    simp only [SearchState.record, houtcome]
    refine ⟨hexamined, hnodup, hrange', h.min_le_low, hrange.2, fun c hc => ?_, fun b hb => ?_⟩
    · rcases mem_append.1 hc with hc | hc
      · rcases h.outside c hc with hle | hle
        · exact .inl hle
        · exact .inr (hhigh c hc hle).le
      · exact .inr (mem_singleton.1 hc).ge
    · obtain ⟨hblow, hb⟩ := h.bestFit b hb
      exact ⟨hblow, hb.append h.examined.length_eq⟩

theorem record_of_fits {examined : StartupAutotuneProbe × Option Bool} {verified : Bool}
    (h : examined.2 = some verified) : state.record candidate examined =
      { probes := state.probes ++ [examined.1], low := candidate, high := state.high,
        bestFit := some candidate, bestFitVerified := verified } := by
  rw [SearchState.record, h]

theorem record_of_rejected {examined : StartupAutotuneProbe × Option Bool}
    (h : examined.2 = none) : state.record candidate examined =
      { state with probes := state.probes ++ [examined.1], high := candidate } := by
  rw [SearchState.record, h]

/-- The doubling phase keeps the invariant. -/
theorem SearchInvariant.doublingPhase {hmax : maxBatchSize ≤ usizeMax}
    (hmaxeq : maxBatchSize = autotune.maxBatchSize)
    (h : SearchInvariant autotune env deviceTargetBytes hostCapBytes state candidates)
    (hhigh : state.high = maxBatchSize) (hnew : ∀ c ∈ candidates, c < current)
    (hmin : autotune.minBatchSize ≤ current) (hle : current ≤ maxBatchSize) :
    ∃ candidates', SearchInvariant autotune env deviceTargetBytes hostCapBytes
      (doublingPhase autotune env deviceTargetBytes hostCapBytes maxBatchSize
        (current :: doubledCandidates maxBatchSize hmax current) state) candidates' := by
  induction hn : maxBatchSize - current using Nat.strong_induction_on
    generalizing current state candidates with
  | _ n ih =>
  have hcurrent : autotune.minBatchSize ≤ current ∧ current ≤ autotune.maxBatchSize :=
    ⟨hmin, hmaxeq ▸ hle⟩
  have hrecord := h.record hcurrent (fun c hc => .inl (hnew c hc))
    (fun c hc hc' => absurd (hnew c hc) (by omega))
  rw [Training.doublingPhase]
  split_ifs with hstop
  · exact ⟨_, hrecord⟩
  · have hfits : ∃ verified, (examineCandidate autotune env deviceTargetBytes hostCapBytes
        state.probes current).2 = some verified := by
      cases houtcome : (examineCandidate autotune env deviceTargetBytes hostCapBytes state.probes
          current).2 with
      | none => simp [houtcome] at hstop
      | some verified => exact ⟨verified, rfl⟩
    obtain ⟨verified, hverified⟩ := hfits
    rw [record_of_fits hverified] at hrecord ⊢
    by_cases hlt : current < maxBatchSize
    · obtain ⟨next, hnext, hnextle, heq⟩ :=
        doubledCandidates_eq_cons hmax (autotune.one_le_min.trans hmin) hlt
      rw [heq]
      refine ih _ (by omega) hrecord hhigh (fun c hc => ?_) (by omega) hnextle rfl
      rcases mem_append.1 hc with hc | hc
      · exact (hnew c hc).trans hnext
      · exact mem_singleton.1 hc ▸ hnext
    · rw [doubledCandidates_eq_nil hmax hlt]
      exact ⟨_, hrecord⟩

/-- The bisection keeps the invariant. -/
theorem SearchInvariant.bisectionPhase
    (h : SearchInvariant autotune env deviceTargetBytes hostCapBytes state candidates) :
    ∃ candidates', SearchInvariant autotune env deviceTargetBytes hostCapBytes
      (bisectionPhase autotune env deviceTargetBytes hostCapBytes state) candidates' := by
  induction state using bisectionPhase.induct autotune env deviceTargetBytes hostCapBytes
    generalizing candidates with
  | case1 state hlt =>
    rename_i ih
    rw [Training.bisectionPhase, if_pos hlt]
    have hmin := h.min_le_low
    have hmax := h.high_le_max
    have hcandidate : state.low < state.low + (state.high - state.low) / 2 ∧
        state.low + (state.high - state.low) / 2 < state.high := by omega
    refine ih (h.record (by omega) (fun c hc => ?_) fun c _ hc => ?_)
    · exact (h.outside c hc).imp_left fun hle => hle.trans_lt hcandidate.1
    · exact hcandidate.2.trans_le hc
  | case2 state hge =>
    rw [Training.bisectionPhase, if_neg hge]
    exact ⟨candidates, h⟩

/-! ## Sizes that fit up to a threshold -/

/-- The lower end of the bracket fits, the upper end does not, unless the bracket has reached the
largest candidate. -/
structure Bracketed (threshold maxBatchSize : ℕ) (state : SearchState) : Prop where
  bestFit : state.bestFit = some state.low
  low_le : state.low ≤ threshold
  high_le : state.high ≤ maxBatchSize
  lt_high : threshold < state.high ∨ state.low = maxBatchSize

section Threshold

variable {threshold maxBatchSize : ℕ}
  (hcap : autotune.maxProbeBatchSize = none)
  (hfits : ∀ probes c, (env.probeBatchSize probes c).fitTarget = decide (c ≤ threshold))
include hcap hfits

/-- Without caps every candidate is probed. -/
theorem examineCandidate_of_threshold (probes : List StartupAutotuneProbe) (c : ℕ) :
    (examineCandidate autotune env none none probes c).2 =
      if c ≤ threshold then some true else none := by
  have hexceeds : candidateExceedsProbeCap c autotune.maxProbeBatchSize = false := by
    rw [hcap]
    rfl
  simp [examineCandidate, probeMemoryCapSkipWithSnapshot_none, hexceeds, hfits]

theorem doublingPhase_of_threshold (hmax : maxBatchSize ≤ usizeMax) (hpos : 0 < current)
    (hle : current ≤ maxBatchSize) (hhigh : state.high = maxBatchSize)
    (hstate : state.bestFit = none ∧ current = autotune.minBatchSize ∨ state.bestFit = some
      state.low ∧ state.low ≤ threshold) :
    let final := doublingPhase autotune env none none maxBatchSize
      (current :: doubledCandidates maxBatchSize hmax current) state
    final.bestFit = none ∧ threshold < autotune.minBatchSize ∨
      Bracketed threshold maxBatchSize final := by
  induction hn : maxBatchSize - current using Nat.strong_induction_on
    generalizing current state with
  | _ n ih =>
  have houtcome := examineCandidate_of_threshold hcap hfits state.probes current
  simp only [doublingPhase]
  by_cases hcurrent : current ≤ threshold
  · rw [if_pos hcurrent] at houtcome
    rw [record_of_fits houtcome]
    by_cases hlt : current < maxBatchSize
    · obtain ⟨next, hnext, hnextle, heq⟩ := doubledCandidates_eq_cons hmax hpos hlt
      rw [if_neg (by simp [houtcome, hlt.ne]), heq]
      exact ih _ (by omega) (by omega) hnextle hhigh (.inr ⟨rfl, hcurrent⟩) rfl
    · obtain rfl : current = maxBatchSize := by omega
      rw [if_pos (by simp)]
      exact .inr ⟨rfl, hcurrent, hhigh.le, .inr rfl⟩
  · rw [if_neg hcurrent] at houtcome
    rw [record_of_rejected houtcome, if_pos (by simp [houtcome])]
    rcases hstate with ⟨hnone, rfl⟩ | ⟨hsome, hlow⟩
    · exact .inl ⟨hnone, not_le.1 hcurrent⟩
    · exact .inr ⟨hsome, hlow, hle, .inl (not_le.1 hcurrent)⟩

theorem Bracketed.bisectionPhase (h : Bracketed threshold maxBatchSize state) :
    Bracketed threshold maxBatchSize (bisectionPhase autotune env none none state) ∧
      ¬ (Training.bisectionPhase autotune env none none state).high >
        (Training.bisectionPhase autotune env none none state).low + 1 := by
  induction state using bisectionPhase.induct autotune env none none with
  | case1 state hlt =>
    rename_i ih
    rw [Training.bisectionPhase, if_pos hlt]
    have hle := h.high_le
    have hhigh : threshold < state.high := h.lt_high.resolve_right (by omega)
    have houtcome := examineCandidate_of_threshold hcap hfits state.probes
      (state.low + (state.high - state.low) / 2)
    refine ih ?_
    split_ifs at houtcome with hmid
    · rw [record_of_fits houtcome]
      exact ⟨rfl, hmid, hle, .inl hhigh⟩
    · rw [record_of_rejected houtcome]
      exact ⟨h.bestFit, h.low_le, by simp only; omega, .inl (not_le.1 hmid)⟩
  | case2 state hge =>
    rw [Training.bisectionPhase, if_neg hge]
    exact ⟨h, hge⟩

end Threshold

end Search

/-! ## The resolved batch size -/

/-- The cap on the memory of the device. -/
def BatchAutotuneSettings.deviceTargetBytes (autotune : BatchAutotuneSettings) : Option ℕ :=
  if autotune.targetDeviceMemoryMb > 0 then some (autotune.targetDeviceMemoryMb * 1024 * 1024)
  else none

/-- The cap on the memory of the host, when its total is known. -/
def BatchAutotuneSettings.hostCapBytes (autotune : BatchAutotuneSettings)
    (systemMemoryTotalBytes : Option ℕ) : Option ℕ :=
  systemMemoryTotalBytes.map fun bytes =>
    asU64 (Float.ofNat bytes *
      (float32Clamp autotune.maxSystemMemoryFraction float32Epsilon 0.9).toFloat)

def resolveMemoryCapBytes (autotune : BatchAutotuneSettings)
    (systemMemoryTotalBytes : Option ℕ) : Option ℕ :=
  match autotune.deviceTargetBytes, autotune.hostCapBytes systemMemoryTotalBytes with
  | some target, some host => some (min target host)
  | some target, none => some target
  | none, host => host

/-- The part of the training configuration that is read here. -/
structure BatchConfig where
  targetEffectiveBatchSize : Option ℕ
  gradientAccumulationSteps : ℕ

structure StartupAutotuneReport where
  backendName : String
  configSource : String
  targetDeviceMemoryMb : ℕ
  resolvedMemoryCapMb : Option Float
  systemMemoryTotalMb : Option Float
  maxSystemMemoryFraction : Float32
  probeSafetyMargin : Float32
  targetEffectiveBatchSize : Option ℕ
  minBatchSize : ℕ
  maxBatchSize : ℕ
  maxProbeBatchSize : Option ℕ
  probeSteps : ℕ
  resolvedBatchSize : ℕ
  resolvedBatchSizeVerified : Bool
  selectionBasis : String
  resolvedGradientAccumulationSteps : ℕ
  resolvedEffectiveBatchSize : ℕ
  probes : List StartupAutotuneProbe

section Resolve

variable (config : BatchConfig) (backendName : String) (env : ProbeEnvironment)
  (systemMemoryTotalBytes : Option ℕ) (formatProbeSummary : List StartupAutotuneProbe → String)
  (useTargetEffectiveBatchSize : Bool)

/-- The report of a batch size. -/
def autotuneReport (autotune : BatchAutotuneSettings) (state : SearchState)
    (resolvedBatchSize : ℕ) : StartupAutotuneReport :=
  let targetEffectiveBatchSize :=
    (if useTargetEffectiveBatchSize then config.targetEffectiveBatchSize else none).filter (0 < ·)
  let steps := resolveGradientAccumulationSteps resolvedBatchSize
    config.gradientAccumulationSteps targetEffectiveBatchSize
  { backendName := backendName
    configSource := autotune.configSource
    targetDeviceMemoryMb := autotune.targetDeviceMemoryMb
    resolvedMemoryCapMb :=
      (resolveMemoryCapBytes autotune systemMemoryTotalBytes).map bytesToMb
    systemMemoryTotalMb := systemMemoryTotalBytes.map bytesToMb
    maxSystemMemoryFraction := autotune.maxSystemMemoryFraction
    probeSafetyMargin := autotune.probeSafetyMargin
    targetEffectiveBatchSize := targetEffectiveBatchSize
    minBatchSize := autotune.minBatchSize
    maxBatchSize := max autotune.maxBatchSize autotune.minBatchSize
    maxProbeBatchSize := autotune.maxProbeBatchSize
    probeSteps := autotune.probeSteps
    resolvedBatchSize := resolvedBatchSize
    resolvedBatchSizeVerified := state.bestFitVerified
    selectionBasis := if state.bestFitVerified then "verified" else "predicted"
    resolvedGradientAccumulationSteps := steps
    resolvedEffectiveBatchSize := saturatingMul resolvedBatchSize steps
    probes := state.probes }

def resolveStartupBatchSizeWithProbe (settings : Option BatchAutotuneSettings) :
    Except String (Option StartupAutotuneReport) :=
  match settings with
  | none => .ok none
  | some autotune =>
    let state := searchBatchSize autotune env autotune.deviceTargetBytes
      (autotune.hostCapBytes systemMemoryTotalBytes)
    match state.bestFit with
    | none => .error ("startup autotune could not find a safe batch size between " ++
        toString autotune.minBatchSize ++ " and " ++
        toString (max autotune.maxBatchSize autotune.minBatchSize) ++ " under target " ++
        toString autotune.targetDeviceMemoryMb ++ " MiB; probes=" ++
        formatProbeSummary state.probes)
    | some resolvedBatchSize => .ok (some (autotuneReport config backendName systemMemoryTotalBytes
        useTargetEffectiveBatchSize autotune state resolvedBatchSize))

end Resolve

/-- The candidate is probed, and fits. -/
def ProbedFitting (autotune : BatchAutotuneSettings) (env : ProbeEnvironment)
    (probes : List StartupAutotuneProbe) (candidate : ℕ) : Prop :=
  candidateExceedsProbeCap candidate autotune.maxProbeBatchSize = false ∧
    (env.probeBatchSize probes candidate).fitTarget = true

/-- The candidate is above the probe cap, and predicted to fit. -/
def PredictedFitting (autotune : BatchAutotuneSettings) (env : ProbeEnvironment)
    (deviceTargetBytes hostCapBytes : Option ℕ) (probes : List StartupAutotuneProbe)
    (candidate : ℕ) : Prop :=
  candidateExceedsProbeCap candidate autotune.maxProbeBatchSize = true ∧
    ∃ probe, predictedFitProbeWithSnapshot candidate probes deviceTargetBytes hostCapBytes
      autotune.probeSafetyMargin (env.systemMemorySnapshot probes 1) = some probe

theorem fitting_of_examineCandidate {autotune : BatchAutotuneSettings} {env : ProbeEnvironment}
    {deviceTargetBytes hostCapBytes : Option ℕ} {probes : List StartupAutotuneProbe}
    {candidate : ℕ} {verified : Bool}
    (h : (examineCandidate autotune env deviceTargetBytes hostCapBytes probes candidate).2 =
      some verified) :
    verified = true ∧ ProbedFitting autotune env probes candidate ∨
      verified = false ∧
        PredictedFitting autotune env deviceTargetBytes hostCapBytes probes candidate := by
  unfold examineCandidate at h
  split at h
  · nomatch h
  split_ifs at h with hexceeds
  · split at h
    · nomatch h
    · exact .inr ⟨(Option.some.inj h).symm, hexceeds, _, by assumption⟩
  · simp only at h
    split_ifs at h with hfit
    exact .inl ⟨(Option.some.inj h).symm, by simpa using hexceeds, hfit⟩

/-- The invariant at the end of the search. -/
theorem searchInvariant_searchBatchSize (autotune : BatchAutotuneSettings)
    (env : ProbeEnvironment) (deviceTargetBytes hostCapBytes : Option ℕ) :
    ∃ candidates, SearchInvariant autotune env deviceTargetBytes hostCapBytes
      (searchBatchSize autotune env deviceTargetBytes hostCapBytes) candidates := by
  have hmaxeq : max autotune.maxBatchSize autotune.minBatchSize = autotune.maxBatchSize :=
    max_eq_left autotune.min_le_max
  have hmin : max autotune.minBatchSize 1 = autotune.minBatchSize :=
    max_eq_left autotune.one_le_min
  have hstart : SearchInvariant autotune env deviceTargetBytes hostCapBytes
      ⟨[], autotune.minBatchSize, max autotune.maxBatchSize autotune.minBatchSize, none, false⟩
      [] :=
    ⟨.nil, nodup_nil, fun _ h => (nomatch h), le_rfl, hmaxeq.le, fun _ h => (nomatch h),
      fun _ h => (nomatch h)⟩
  obtain ⟨candidates, h⟩ := hstart.doublingPhase hmaxeq rfl (fun _ h => (nomatch h))
    (le_refl autotune.minBatchSize) (le_max_right _ _)
  unfold searchBatchSize startupCandidateSequence
  simp only [hmin]
  split_ifs
  · exact h.bisectionPhase
  · exact ⟨candidates, h⟩

/-- The bracket at the end of a search without caps. -/
theorem searchBatchSize_of_threshold {autotune : BatchAutotuneSettings} {env : ProbeEnvironment}
    (hcap : autotune.maxProbeBatchSize = none) (hbinary : autotune.binarySearch = true)
    {threshold : ℕ}
    (hfits : ∀ probes c, (env.probeBatchSize probes c).fitTarget = decide (c ≤ threshold)) :
    let final := searchBatchSize autotune env none none
    final.bestFit = none ∧ threshold < autotune.minBatchSize ∨
      final.bestFit = some final.low ∧ final.low ≤ threshold ∧
        ∀ c, c ≤ autotune.maxBatchSize → c ≤ threshold → c ≤ final.low := by
  have hmaxeq : max autotune.maxBatchSize autotune.minBatchSize = autotune.maxBatchSize :=
    max_eq_left autotune.min_le_max
  have hmin : max autotune.minBatchSize 1 = autotune.minBatchSize :=
    max_eq_left autotune.one_le_min
  have hlargest : ∀ state : SearchState, Bracketed threshold autotune.maxBatchSize state →
      ¬ state.high > state.low + 1 → state.bestFit = some state.low ∧ state.low ≤ threshold ∧
        ∀ c, c ≤ autotune.maxBatchSize → c ≤ threshold → c ≤ state.low := by
    intro state h hnarrow
    refine ⟨h.bestFit, h.low_le, fun c hcmax hc => ?_⟩
    rcases h.lt_high with hlt | heq <;> omega
  have hhigh : (⟨[], autotune.minBatchSize, autotune.maxBatchSize, none, false⟩ :
      SearchState).high = autotune.maxBatchSize := rfl
  have hphase := doublingPhase_of_threshold hcap hfits autotune.max_le_usizeMax
    autotune.one_le_min autotune.min_le_max hhigh (.inl ⟨rfl, rfl⟩)
  simp only [searchBatchSize, startupCandidateSequence, hmin, hmaxeq, hbinary, Bool.true_and]
  rcases hphase with ⟨hnone, hlt⟩ | hbracketed
  · rw [if_neg (by simp [hnone])]
    exact .inl ⟨hnone, hlt⟩
  · right
    split_ifs with hwide
    · obtain ⟨hb, hnarrow⟩ := hbracketed.bisectionPhase hcap hfits
      exact hlargest _ hb hnarrow
    · exact hlargest _ hbracketed fun h => hwide (by simp [hbracketed.bestFit, h])

/-- What holds of the report of a resolved batch size. -/
structure ResolvedBatch (autotune : BatchAutotuneSettings) (env : ProbeEnvironment)
    (systemMemoryTotalBytes : Option ℕ) (report : StartupAutotuneReport) : Prop where
  range : autotune.minBatchSize ≤ report.resolvedBatchSize ∧
    report.resolvedBatchSize ≤ autotune.maxBatchSize
  /-- The size has been examined once, and fits: it is verified when that was a probe. -/
  fits : ∃ candidates : List ℕ, Examined autotune env autotune.deviceTargetBytes
      (autotune.hostCapBytes systemMemoryTotalBytes) report.probes candidates ∧
    candidates.Nodup ∧ ∃ i, candidates[i]? = some report.resolvedBatchSize ∧
      (report.resolvedBatchSizeVerified = true ∧
          ProbedFitting autotune env (report.probes.take i) report.resolvedBatchSize ∨
        report.resolvedBatchSizeVerified = false ∧
          PredictedFitting autotune env autotune.deviceTargetBytes
            (autotune.hostCapBytes systemMemoryTotalBytes) (report.probes.take i)
            report.resolvedBatchSize)
  steps : ∀ target, report.targetEffectiveBatchSize = some target →
    target ≤ report.resolvedGradientAccumulationSteps * report.resolvedBatchSize ∧
      (report.resolvedBatchSize ≤ target →
        report.resolvedGradientAccumulationSteps * report.resolvedBatchSize <
          target + report.resolvedBatchSize)

theorem resolveGradientAccumulationSteps_bounds {batchSize configured target : ℕ}
    (hpos : 0 < batchSize) :
    target ≤ resolveGradientAccumulationSteps batchSize configured (some target) * batchSize ∧
      (batchSize ≤ target → resolveGradientAccumulationSteps batchSize configured (some target) *
        batchSize < target + batchSize) := by
  have hmax : max batchSize 1 = batchSize := max_eq_left hpos
  simp only [resolveGradientAccumulationSteps, hmax]
  have hle : batchSize ≤ max target batchSize := le_max_right _ _
  have hone : 1 ≤ (max target batchSize + batchSize - 1) / batchSize :=
    (Nat.le_div_iff_mul_le hpos).2 (by omega)
  rw [max_eq_left hone]
  have hdiv := Nat.div_add_mod (max target batchSize + batchSize - 1) batchSize
  have hmod := Nat.mod_lt (max target batchSize + batchSize - 1) hpos
  rw [Nat.mul_comm] at hdiv
  exact ⟨by omega, fun _ => by omega⟩

section Resolve

variable (autotune : BatchAutotuneSettings) (config : BatchConfig) (backendName : String)
  (env : ProbeEnvironment) (systemMemoryTotalBytes : Option ℕ)
  (formatProbeSummary : List StartupAutotuneProbe → String) (useTargetEffectiveBatchSize : Bool)

end Resolve

/-- Sizes from 1 to 8, of which those up to 5 fit. -/
def smallAutotune : BatchAutotuneSettings where
  configSource := "training.auto_batch_size"
  targetDeviceMemoryMb := 0
  minBatchSize := 1
  maxBatchSize := 8
  maxProbeBatchSize := none
  probeSteps := 1
  binarySearch := true
  maxSystemMemoryFraction := 0.9
  probeSafetyMargin := 1.0
  one_le_min := le_rfl
  min_le_max := by decide
  max_le_usizeMax := by decide

def smallEnvironment : ProbeEnvironment where
  systemMemorySnapshot _ _ := none
  probeBatchSize _ candidate :=
    { probeCapSkipProbe candidate none with fitTarget := decide (candidate ≤ 5), status := "ok" }

end BurnDragon.Training
