import BurnDragon.Nca.Materialize

/-!
# The number of frames

A family says how many steps its samples have. The generators make at least two frames, and the
neural stochastic automaton stops when it has counted up to `usize::MAX` (`generatedFrames`,
`generateSample_fixed`). The encoder writes as many tokens as the frames have patches and
boundaries (`length_encodePatchSample`).
-/

namespace BurnDragon.Nca

open Rust Draw List

variable {ρ : Type} {ext : Externals ρ} {overflowChecks : Bool} {family : NcaFamilyConfig}
  {serialization : NcaSerializationConfig}

/-! ## Rollouts -/

theorem length_rollout {step : List ℕ → Run (List ℕ)} {n : ℕ} {initial : List ℕ}
    {frames : List (List ℕ)} (h : rollout step n initial = .ok frames) : frames.length = n + 1 := by
  induction n generalizing initial frames with
  | zero => cases h; rfl
  | succ n ih =>
    obtain ⟨next, -, h⟩ := bind_eq_ok.1 h
    obtain ⟨rest, hrest, h⟩ := bind_eq_ok.1 h
    cases h
    rw [length_cons, ih hrest]

/-- How many of the iterations `0..total` keep their frame. -/
def keptIterations (startStep stepStride total : ℕ) : ℕ :=
  (total - startStep + stepStride - 1) / stepStride

variable {startStep stepStride : ℕ}

theorem keptIterations_zero (hstride : 0 < stepStride) :
    keptIterations startStep stepStride 0 = 0 := by
  rw [keptIterations, Nat.zero_sub, Nat.zero_add]
  exact Nat.div_eq_of_lt (by omega)

theorem keptIterations_succ {iteration : ℕ} (hstride : 0 < stepStride) :
    keptIterations startStep stepStride (iteration + 1) =
      keptIterations startStep stepStride iteration +
        if startStep ≤ iteration ∧ (iteration - startStep) % stepStride = 0 then 1 else 0 := by
  unfold keptIterations
  by_cases hstart : startStep ≤ iteration
  · obtain ⟨m, rfl⟩ := Nat.exists_eq_add_of_le hstart
    have hnext : startStep + m + 1 - startStep + stepStride - 1 = m + stepStride := by omega
    have hthis : startStep + m - startStep + stepStride - 1 + 1 = m + stepStride := by omega
    have hdvd : stepStride ∣ m + stepStride ↔ m % stepStride = 0 := by
      rw [Nat.dvd_add_self_right, Nat.dvd_iff_mod_eq_zero]
    rw [hnext, ← hthis, Nat.succ_div, hthis, Nat.add_sub_cancel_left]
    simp only [hdvd, hstart, true_and]
  · have hnext : iteration + 1 - startStep = 0 := by omega
    have hthis : iteration - startStep = 0 := by omega
    rw [hnext, hthis, if_neg fun h => hstart h.1, Nat.add_zero]

theorem keptIterations_mono {total total' : ℕ} (h : total ≤ total') :
    keptIterations startStep stepStride total ≤ keptIterations startStep stepStride total' :=
  Nat.div_le_div_right (by omega)

/-- The loop stops when it has the frames that were asked for. -/
theorem neuralStochasticLoop_length {step : List ℕ → Draw ρ (List ℕ)}
    {sampledSteps left iteration : ℕ} {current : List ℕ} {frames : List (List ℕ)}
    (hstride : 0 < stepStride)
    (hframes : frames.length = keptIterations startStep stepStride iteration)
    (hlt : frames.length < sampledSteps) :
    Ensures (neuralStochasticLoop step sampledSteps startStep stepStride left iteration current frames)
      fun frames => frames.length =
        min sampledSteps (keptIterations startStep stepStride (iteration + left)) := by
  induction left generalizing iteration current frames with
  | zero =>
    refine .pure ?_
    rw [Nat.add_zero, ← hframes, min_eq_right hlt.le]
  | succ left ih =>
    rw [neuralStochasticLoop, show iteration + (left + 1) = iteration + 1 + left by omega]
    have hnext : keptIterations startStep stepStride (iteration + 1) = _ :=
      keptIterations_succ hstride
    by_cases hkeep : startStep ≤ iteration ∧ (iteration - startStep) % stepStride = 0
    · rw [if_pos hkeep] at hnext ⊢
      have hpushed : (frames ++ [current]).length =
          keptIterations startStep stepStride (iteration + 1) := by
        rw [length_append, length_singleton, hframes, hnext]
      refine .ite (fun hdone => .pure ?_) fun hmore => .after fun next => ih hpushed ?_
      · rw [hdone.1, min_eq_left]
        rw [← hdone.1, hpushed]
        exact keptIterations_mono (Nat.le_add_right _ _)
      · rw [length_append, length_singleton] at hmore ⊢
        exact lt_of_le_of_ne hlt fun heq => hmore ⟨heq, hkeep⟩
    · rw [if_neg hkeep] at hnext ⊢
      rw [if_neg fun h => hkeep h.2]
      exact .after fun next => ih (hframes.trans hnext.symm) hlt

theorem rolloutNeuralStochastic_length {rule : NeuralStochasticRule} {width height sampledSteps : ℕ}
    {identityBias temperature : Float32} {seed : UInt64} (hsteps : 0 < sampledSteps)
    (hstride : 0 < stepStride) :
    Ensures (rolloutNeuralStochastic ext rule width height sampledSteps startStep stepStride
        identityBias temperature seed) fun frames => frames.length = min sampledSteps
      (keptIterations startStep stepStride
        (saturatingAdd startStep (saturatingMul sampledSteps stepStride))) := by
  refine .withRng (.after fun current => ?_)
  have hloop : Ensures (neuralStochasticLoop
      (applyNeuralStochastic ext rule identityBias temperature width height) sampledSteps startStep
      stepStride (saturatingAdd startStep (saturatingMul sampledSteps stepStride)) 0 current [])
      fun frames => frames.length = min sampledSteps (keptIterations startStep stepStride
        (0 + saturatingAdd startStep (saturatingMul sampledSteps stepStride))) :=
    neuralStochasticLoop_length hstride (keptIterations_zero hstride).symm hsteps
  rwa [Nat.zero_add] at hloop

/-! ## Samples -/

/-- The number of frames of a sample, for the steps, the start and the stride that are drawn. -/
def generatedFrames (kind : NcaFamilyKind) (steps startStep stepStride : ℕ) : ℕ :=
  match kind with
  | .neuralStochastic => min (max steps 2) (keptIterations startStep (max stepStride 1)
      (saturatingAdd startStep (saturatingMul (max steps 2) (max stepStride 1))))
  | _ => max steps 2

def NcaFamilyConfig.startStepRange (family : NcaFamilyConfig) : UsizeRangeConfig :=
  family.startStep.getD ⟨0, 0⟩

def NcaFamilyConfig.stepStrideRange (family : NcaFamilyConfig) : UsizeRangeConfig :=
  family.stepStride.getD (stepStrideDefault family)

/-- The generators make as many frames as the family has steps. -/
def NcaFamilyConfig.KeepsSteps (family : NcaFamilyConfig) (steps : ℕ) : Prop :=
  ∀ startStep stepStride, family.startStepRange.Mem startStep →
    family.stepStrideRange.Mem stepStride →
      generatedFrames family.kind steps startStep stepStride = steps

/-- A sample of a family with a fixed grid and fixed steps. -/
structure FixedSample (family : NcaFamilyConfig) (grid steps : ℕ) (sample : NcaSample) : Prop where
  width : sample.width = grid
  height : sample.height = grid
  frames : ∃ startStep stepStride, family.startStepRange.Mem startStep ∧
    family.stepStrideRange.Mem stepStride ∧
      sample.frames.length = generatedFrames family.kind steps startStep stepStride

/-- What the code asks of a family: one grid and one number of steps. -/
structure NcaFamilyConfig.Fixed (family : NcaFamilyConfig) (grid steps : ℕ) : Prop where
  gridSize : family.gridSize = some ⟨grid, grid⟩
  steps : family.steps = some ⟨steps, steps⟩

/-- The ranges that say which frames of a rollout are kept. -/
structure NcaFamilyConfig.StepRangesValid (family : NcaFamilyConfig) : Prop where
  startStep : family.startStepRange.min ≤ family.startStepRange.max
  stepStride : family.stepStrideRange.min ≤ family.stepStrideRange.max

theorem stepRangesValid_of_validate {index : ℕ} (h : family.validate index = .ok ()) :
    family.StepRangesValid := by
  simp only [NcaFamilyConfig.validate, bind_eq_ok, checkSome_eq_ok] at h
  obtain ⟨-, -, -, -, -, -, -, -, -, hstride, -, hstart, -⟩ := h
  have hstrideDefault : (stepStrideDefault family).min ≤ (stepStrideDefault family).max ∧
      0 < (stepStrideDefault family).min := by
    unfold stepStrideDefault
    split <;> decide
  refine ⟨?_, (getD_valid hstrideDefault hstride).1⟩
  unfold NcaFamilyConfig.startStepRange
  cases hrange : family.startStep with
  | none => exact le_rfl
  | some range =>
    have hvalid := hstart range hrange
    simpa [UsizeRangeConfig.validate, reject_eq_ok] using hvalid

section Samples

variable {grid steps : ℕ}

theorem roundToPatches_of_dvd {patchSize extent : ℕ} (hpatch : 0 < patchSize)
    (hdvd : patchSize ∣ extent) (hmax : extent ≤ usizeMax) :
    roundToPatches overflowChecks patchSize extent = .ok extent := by
  obtain ⟨m, rfl⟩ := hdvd
  have hdiv : (patchSize * m + patchSize - 1) / patchSize = m := by
    rw [show patchSize * m + patchSize - 1 = patchSize - 1 + patchSize * m by omega,
      Nat.add_mul_div_left _ _ hpatch, Nat.div_eq_of_lt (by omega), Nat.zero_add]
  rw [roundToPatches, hdiv, Nat.mul_comm]
  exact usizeResult_of_le hmax

theorem sampleGridExtent_fixed (h : family.Fixed grid steps) :
    Ensures (sampleGridExtent ext family) (· = grid) := by
  rw [sampleGridExtent, h.gridSize]
  exact .ite (fun _ => .pure rfl) fun hne => absurd rfl hne

theorem sampleSteps_fixed (h : family.Fixed grid steps) :
    Ensures (sampleSteps ext family) (· = steps) := by
  rw [sampleSteps, h.steps]
  exact .ite (fun _ => .pure rfl) fun hne => absurd rfl hne

theorem fixedSample_plainSample (hkind : family.kind ≠ .neuralStochastic)
    (hvalid : family.StepRangesValid) {stateCount : ℕ} {frames : List (List ℕ)}
    (hframes : frames.length = max steps 2) :
    FixedSample family grid steps (plainSample family grid grid stateCount frames) := by
  refine ⟨rfl, rfl, family.startStepRange.min, family.stepStrideRange.min,
    ⟨le_rfl, hvalid.startStep⟩, ⟨le_rfl, hvalid.stepStride⟩, hframes.trans ?_⟩
  unfold generatedFrames
  cases hfamily : family.kind
  · exact absurd hfamily hkind
  all_goals rfl

theorem length_rollout_max {step : List ℕ → Run (List ℕ)} {initial : List ℕ}
    {frames : List (List ℕ)} (h : rollout step (max steps 2 - 1) initial = .ok frames) :
    frames.length = max steps 2 := by
  rw [length_rollout h]
  omega

section Rounded

variable (h : family.Fixed grid steps) (hpatch : 0 < serialization.patchSize)
  (hdvd : serialization.patchSize ∣ grid) (hmax : grid ≤ usizeMax)
include h hpatch hdvd hmax

theorem sampleRoundedGrid_fixed :
    Ensures (sampleRoundedGrid overflowChecks ext family serialization) (· = (grid, grid)) := by
  have hround : ∀ extent, extent = grid → ∀ rounded,
      roundToPatches overflowChecks (max serialization.patchSize 1) extent = .ok rounded →
        rounded = grid := by
    rintro _ rfl rounded hrounded
    rw [max_eq_left hpatch, roundToPatches_of_dvd hpatch hdvd hmax] at hrounded
    exact (Except.ok.inj hrounded).symm
  exact .bind (sampleGridExtent_fixed h) fun w hw => .bind (sampleGridExtent_fixed h) fun g hg =>
    .bind (.lift (hround w hw)) fun width hwidth => .bind (.lift (hround g hg)) fun height hheight =>
      .pure (Prod.ext hwidth hheight)

/-- The generators that roll a rule out draw the grid and the steps first. -/
theorem rolledSample_fixed {rest : ℕ × ℕ → ℕ → Draw ρ NcaSample} {P : NcaSample → Prop}
    (hrest : Ensures (rest (grid, grid) steps) P) :
    Ensures (sampleRoundedGrid overflowChecks ext family serialization >>= fun g =>
      sampleSteps ext family >>= rest g) P := by
  refine .bind (sampleRoundedGrid_fixed h hpatch hdvd hmax) ?_
  rintro _ rfl
  refine .bind (sampleSteps_fixed h) ?_
  rintro _ rfl
  exact hrest

variable (hvalid : family.StepRangesValid)
include hvalid

theorem generateLifeLikeSample_fixed (hkind : family.kind = .lifeLikeBinary) {fuel : ℕ} :
    Ensures (generateLifeLikeSample overflowChecks fuel ext family serialization)
      (FixedSample family grid steps) :=
  rolledSample_fixed h hpatch hdvd hmax <| .after fun initial => .after fun birth =>
    .after fun survive => .bind_lift fun frames hframes =>
      .pure (fixedSample_plainSample (by simp [hkind]) hvalid (length_rollout_max hframes))

theorem generateCyclicSample_fixed (hkind : family.kind = .cyclic) :
    Ensures (generateCyclicSample overflowChecks ext family serialization)
      (FixedSample family grid steps) := by
  have hrest : ∀ stateCount threshold : ℕ, Ensures (do
      let initial ← randomStateGrid ext grid grid stateCount
      let frames ← Draw.lift
        (rollout (applyCyclic (stateCount % 256) threshold grid grid) (max steps 2 - 1) initial)
      return plainSample family grid grid stateCount frames) (FixedSample family grid steps) :=
    fun stateCount threshold => .after fun initial => .bind_lift fun frames hframes =>
      .pure (fixedSample_plainSample (by simp [hkind]) hvalid (length_rollout_max hframes))
  refine rolledSample_fixed h hpatch hdvd hmax <| .after fun sampled => ?_
  dsimp only
  split <;> exact .after (hrest _)

theorem generateNeuralTotalisticSample_fixed (hkind : family.kind = .neuralTotalistic) :
    Ensures (generateNeuralTotalisticSample overflowChecks ext family serialization)
      (FixedSample family grid steps) :=
  rolledSample_fixed h hpatch hdvd hmax <| .after fun sampled => .after fun rule =>
    .after fun initial => .bind_lift fun frames hframes => .pure
      (fixedSample_plainSample (by simp [hkind]) hvalid (length_rollout_max hframes))

end Rounded

theorem neuralStochasticAttempt_fixed {shape : NcaSample} {sampledSteps scoringExamples : ℕ}
    {lower upper : Float32} (hsteps : 0 < sampledSteps) (hscoring : 0 < scoringExamples)
    (hstride : 0 < shape.stepStride) :
    Ensures (neuralStochasticAttempt ext serialization shape sampledSteps scoringExamples lower upper)
      fun result => result.candidate.width = shape.width ∧ result.candidate.height = shape.height ∧
        result.candidate.frames.length = min sampledSteps
          (keptIterations shape.startStep shape.stepStride
            (saturatingAdd shape.startStep (saturatingMul sampledSteps shape.stepStride))) := by
  refine .after fun ruleSeed => .after fun rule =>
    .bind (rolloutNeuralStochastic_length hscoring hstride) fun frames hframes =>
      .after fun ratio => ?_
  dsimp only
  refine .ite (fun hsame => ?_) fun _ => ?_
  · exact .bind (P := (· = frames)) (.pure rfl) fun output houtput =>
      .after fun _ => .pure ⟨rfl, rfl, houtput ▸ hsame ▸ hframes⟩
  · exact .bind (rolloutNeuralStochastic_length hsteps hstride) fun output houtput =>
      .after fun _ => .pure ⟨rfl, rfl, houtput⟩

theorem generateNeuralStochasticSample_fixed (h : family.Fixed grid steps)
    (hkind : family.kind = .neuralStochastic) (hvalid : family.StepRangesValid) :
    Ensures (generateNeuralStochasticSample ext family serialization)
      (FixedSample family grid steps) := by
  refine .bind (sampleGridExtent_fixed h) ?_
  rintro grid rfl
  refine .bind (sampleSteps_fixed h) ?_
  rintro steps rfl
  have hsteps : 0 < max steps 2 := by omega
  refine .after fun sampled => .bind (sampleRange_ensures hvalid.stepStride) fun stride hstride =>
    .bind (sampleRange_ensures hvalid.startStep) fun start hstart => .after fun bias =>
      .after fun temperature => ?_
  have hpos : 0 < max stride 1 := by omega
  refine searchRule_ensures (Ensures.mono
    (neuralStochasticAttempt_fixed hsteps (lt_max_of_lt_right Nat.one_pos) hpos) ?_) nofun
  rintro result ⟨hwidth, hheight, hframes⟩
  have hkept : generatedFrames family.kind steps start stride = min (max steps 2)
      (keptIterations start (max stride 1)
        (saturatingAdd start (saturatingMul (max steps 2) (max stride 1)))) := by
    rw [hkind]
    rfl
  exact ⟨hwidth, hheight, start, stride, hstart, hstride, hframes.trans hkept.symm⟩

/-- **The frames of a sample.** A family with a fixed grid and fixed steps makes samples of that grid,
with the frames that `generatedFrames` counts. -/
theorem generateSample_fixed (h : family.Fixed grid steps) (hvalid : family.StepRangesValid)
    (hpatch : 0 < serialization.patchSize) (hdvd : serialization.patchSize ∣ grid)
    (hmax : grid ≤ usizeMax) {fuel : ℕ} :
    Ensures (generateSample overflowChecks fuel ext family serialization)
      (FixedSample family grid steps) := by
  have hratio : ∀ sample ratio, FixedSample family grid steps sample →
      FixedSample family grid steps { sample with gzipComplexityRatio := ratio } :=
    fun _ _ hsample => ⟨hsample.1, hsample.2, hsample.3⟩
  unfold generateSample
  cases hkind : family.kind
  · exact .bind (generateNeuralStochasticSample_fixed h hkind hvalid) (fillRatio_ensures hratio)
  · exact .bind (generateLifeLikeSample_fixed h hpatch hdvd hmax hvalid hkind)
      (fillRatio_ensures hratio)
  · exact .bind (generateCyclicSample_fixed h hpatch hdvd hmax hvalid hkind)
      (fillRatio_ensures hratio)
  · exact .bind (generateNeuralTotalisticSample_fixed h hpatch hdvd hmax hvalid hkind)
      (fillRatio_ensures hratio)

end Samples

/-! ## Tokens -/

section Tokens

variable {vocabSize patchSize stateCount : ℕ} {eosId : Option UInt32} {frameSpecialTokens : Bool}
  {sample : NcaSample} {tokens : List ℕ}

/-- The number of patches is not the greatest `u32`, so the end of a frame has a token. -/
theorem checkedSucc_pow {exponent : ℕ} (hstates : 2 ≤ stateCount ∧ stateCount ≤ 16)
    (hlt : stateCount ^ exponent < 2 ^ 32) :
    checkedSucc (stateCount ^ exponent) = some (stateCount ^ exponent + 1) := by
  have hexponent : exponent < 32 :=
    (Nat.pow_lt_pow_iff_right (le_refl 2)).1 ((Nat.pow_le_pow_left hstates.1 _).trans_lt hlt)
  have hne : ∀ s < 17, ∀ k < 32, 2 ≤ s → s ^ k + 1 ≠ 2 ^ 32 := by decide +kernel
  have := hne stateCount (by omega) exponent hexponent hstates.1
  rw [checkedSucc, if_pos (by omega)]

theorem length_frameBoundaries {patchVocabSize : ℕ}
    (hsucc : checkedSucc patchVocabSize = some (patchVocabSize + 1)) :
    (frameStartId frameSpecialTokens patchVocabSize).toList.length +
      (frameEndId frameSpecialTokens patchVocabSize).toList.length =
        frameSpecialTokens.toNat * 2 := by
  cases frameSpecialTokens
  · rfl
  · rw [frameEndId, frameStartId, if_pos rfl, Option.bind_some, hsucc]
    rfl

theorem length_encodeFrame {startId endId : Option ℕ} {frame : List ℕ}
    (h : encodeFrame vocabSize patchSize startId endId sample frame = .ok tokens) :
    tokens.length = sample.width / patchSize * (sample.height / patchSize) +
      (startId.toList.length + endId.toList.length) := by
  obtain ⟨opening, hopening, h⟩ := bind_eq_ok.1 h
  obtain ⟨values, hvalues, h⟩ := bind_eq_ok.1 h
  obtain ⟨closing, hclosing, h⟩ := bind_eq_ok.1 h
  cases h
  obtain ⟨-, rfl⟩ := encodeBoundary_eq_ok.1 hopening
  obtain ⟨-, rfl⟩ := encodeBoundary_eq_ok.1 hclosing
  rw [length_append, length_append, length_of_mapM hvalues, length_patches]
  omega

/-- A document has a token for every patch and every boundary of its frames, and one for the end. -/
theorem length_encodePatchSample (hpatch : 0 < serialization.patchSize)
    (hstates : 2 ≤ sample.stateCount ∧ sample.stateCount ≤ 16)
    (h : (CorpusTokenizer.patchTokenIds vocabSize eosId frameSpecialTokens).encodePatchSample sample
      serialization = .ok tokens) :
    tokens.length = sample.frames.length *
        (sample.width / serialization.patchSize * (sample.height / serialization.patchSize) +
          frameSpecialTokens.toNat * 2) + eosId.isSome.toNat := by
  have hmax : max serialization.patchSize 1 = serialization.patchSize := max_eq_left hpatch
  simp only [CorpusTokenizer.encodePatchSample, hmax,
    Nat.mod_eq_of_lt (show sample.stateCount < 2 ^ 32 by omega), bind_eq_ok, reject_eq_ok,
    decide_eq_false_iff_not, not_le, encodeEos_eq_ok] at h
  obtain ⟨cells, -, -, hvocab, frames, hframes, _, ⟨-, rfl⟩, ⟨⟩⟩ := h
  have hlengths := map_of_mapM (φ := List.length) (ψ := fun _ =>
    sample.width / serialization.patchSize * (sample.height / serialization.patchSize) +
      frameSpecialTokens.toNat * 2) hframes fun frame _ tokens htokens => by
    rw [length_encodeFrame htokens, length_frameBoundaries (checkedSucc_pow hstates hvocab)]
  rw [length_append, length_flatten, hlengths, map_const', sum_replicate_nat]
  cases eosId <;> rfl

end Tokens

end BurnDragon.Nca
