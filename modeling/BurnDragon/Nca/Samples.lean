import BurnDragon.Nca.Generate

/-!
# What the generators make

Whatever is drawn, a sample has a state count and a grid from the ranges of its family, and every cell
of every frame is below the state count (`generateSample_ensures`).
-/

namespace BurnDragon.Nca

open Rust List

/-! ## The samples of a family -/

def UsizeRangeConfig.Mem (range : UsizeRangeConfig) (value : ℕ) : Prop :=
  range.min ≤ value ∧ value ≤ range.max

/-- The state count that a generator makes of a drawn one. -/
def generatedStateCount (kind : NcaFamilyKind) (sampled : ℕ) : ℕ :=
  match kind with
  | .neuralStochastic => clamp sampled 2 10
  | .lifeLikeBinary => 2
  | .cyclic => clamp sampled 3 16
  | .neuralTotalistic => clamp sampled 4 16

/-- The state counts of the samples of a family. -/
def NcaFamilyConfig.HasStateCount (family : NcaFamilyConfig) (stateCount : ℕ) : Prop :=
  ∃ sampled, (family.stateCount.getD (stateCountDefault family)).Mem sampled ∧
    stateCount = generatedStateCount family.kind sampled

/-- The grids of the samples of a family. -/
def NcaFamilyConfig.HasGrid (overflowChecks : Bool) (family : NcaFamilyConfig) (patchSize : ℕ)
    (width height : ℕ) : Prop :=
  match family.kind with
  | .neuralStochastic => width = height ∧ (family.gridSize.getD (gridDefault family)).Mem width
  | _ => ∃ w h, (family.gridSize.getD (gridDefault family)).Mem w ∧
      (family.gridSize.getD (gridDefault family)).Mem h ∧
      roundToPatches overflowChecks patchSize w = .ok width ∧
      roundToPatches overflowChecks patchSize h = .ok height

/-- A frame of a grid. -/
structure FrameOf (width height stateCount : ℕ) (frame : List ℕ) : Prop where
  length : frame.length = width * height
  cell_lt : ∀ cell ∈ frame, cell < stateCount

/-- A sample that has the shape of a family. -/
structure SampleOf (overflowChecks : Bool) (serialization : NcaSerializationConfig)
    (family : NcaFamilyConfig) (sample : NcaSample) : Prop where
  stateCount : family.HasStateCount sample.stateCount
  grid : family.HasGrid overflowChecks serialization.patchSize sample.width sample.height
  frames : ∀ frame ∈ sample.frames, FrameOf sample.width sample.height sample.stateCount frame

theorem NcaFamilyConfig.HasStateCount.bounds {family : NcaFamilyConfig} {stateCount : ℕ}
    (h : family.HasStateCount stateCount) : 2 ≤ stateCount ∧ stateCount ≤ 16 := by
  obtain ⟨sampled, -, rfl⟩ := h
  unfold generatedStateCount clamp
  cases family.kind <;> simp only <;> omega

/-! ## Frames -/

section Frames

variable {ρ : Type} {ext : Externals ρ} {width height stateCount : ℕ} {frame : List ℕ}

open Draw

theorem length_coordinates (width height : ℕ) : (coordinates width height).length = width * height := by
  simp [coordinates, Nat.mul_comm]

variable {next : List ℕ}

/-- A step of an automaton that computes every cell. -/
theorem frameOf_of_mapM {cell : ℕ × ℕ → Run ℕ} (h : (coordinates width height).mapM cell = .ok next)
    (hcell : ∀ p c, cell p = .ok c → c < stateCount) : FrameOf width height stateCount next := by
  have hcells := forall₂_of_mapM h
  refine ⟨hcells.length_eq.symm.trans (length_coordinates width height), fun c hc => ?_⟩
  obtain ⟨i, hi, rfl⟩ := mem_iff_getElem.1 hc
  exact hcell _ _ (hcells.get (hcells.length_eq ▸ hi) hi)

variable {current : List ℕ}

theorem frameOf_applyLifeLike {birth survive : List ℕ}
    (h : applyLifeLike birth survive width height current = .ok next) :
    FrameOf width height 2 next := by
  refine frameOf_of_mapM h ?_
  rintro ⟨x, y⟩ c hc
  obtain ⟨alive, -, hc⟩ := bind_eq_ok.1 hc
  obtain ⟨cell, -, hc⟩ := bind_eq_ok.1 hc
  cases hc
  have := Bool.toNat_le (survive.contains alive)
  have := Bool.toNat_le (birth.contains alive)
  split_ifs <;> omega

theorem frameOf_applyCyclic {threshold : ℕ} (hpos : 0 < stateCount)
    (hcurrent : FrameOf width height stateCount current)
    (h : applyCyclic stateCount threshold width height current = .ok next) :
    FrameOf width height stateCount next := by
  refine frameOf_of_mapM h ?_
  rintro ⟨x, y⟩ c hc
  obtain ⟨state, hstate, hc⟩ := bind_eq_ok.1 hc
  obtain ⟨target, htarget, hc⟩ := bind_eq_ok.1 hc
  obtain ⟨neighbors, -, hc⟩ := bind_eq_ok.1 hc
  cases hc
  rw [remainder_of_pos hpos] at htarget
  cases htarget
  split_ifs
  · exact Nat.mod_lt _ hpos
  · exact hcurrent.cell_lt state (mem_of_getElem? (index_eq_ok.1 hstate))

theorem frameOf_applyNeuralTotalistic {rule : NeuralTotalisticRule}
    (hrule : rule.weights.length = stateCount) (hcurrent : FrameOf width height stateCount current)
    (h : applyNeuralTotalistic rule width height current = .ok next) :
    FrameOf width height stateCount next := by
  refine frameOf_of_mapM h ?_
  rintro ⟨x, y⟩ c hc
  obtain ⟨state, hstate, hc⟩ := bind_eq_ok.1 hc
  obtain ⟨neighbors, -, hc⟩ := bind_eq_ok.1 hc
  obtain ⟨-, -, hc⟩ := bind_eq_ok.1 hc
  obtain ⟨best, hbest, hc⟩ := bind_eq_ok.1 hc
  cases hc
  have hstate' := hcurrent.cell_lt state (mem_of_getElem? (index_eq_ok.1 hstate))
  -- The best state is the current one or one of the states of the loop.
  have hloop : ∀ (states : List ℕ) (start best : ℕ × ℤ), (∀ s ∈ states, s < stateCount) →
      start.1 < stateCount → states.foldlM (fun (best : ℕ × ℤ) nextState => do
        let score ← totalisticScore rule state ((List.range rule.weights.length).map neighbors.count)
          nextState
        return if best.2 < score then (nextState, score) else best) start = .ok best →
      best.1 < stateCount := by
    intro states
    induction states with
    | nil => rintro start _ - hstart ⟨⟩; exact hstart
    | cons s states ih =>
      intro start best hstates hstart hfold
      rw [foldlM_cons] at hfold
      obtain ⟨mid, hmid, hrest⟩ := bind_eq_ok.1 hfold
      obtain ⟨score, -, hmid⟩ := bind_eq_ok.1 hmid
      cases hmid
      refine ih _ best (fun s' hs' => hstates s' (mem_cons_of_mem s hs')) ?_ hrest
      split_ifs
      · exact hstates s mem_cons_self
      · exact hstart
  have hlt := hloop _ _ best (fun s hs => hrule ▸ mem_range.1 hs) hstate' hbest
  exact (Nat.mod_le _ _).trans_lt hlt

/-- Every frame of a rollout is a frame of the grid. -/
theorem frameOf_rollout {step : List ℕ → Run (List ℕ)} {n : ℕ} {initial : List ℕ}
    {frames : List (List ℕ)} (hinitial : FrameOf width height stateCount initial)
    (hstep : ∀ current next, FrameOf width height stateCount current → step current = .ok next →
      FrameOf width height stateCount next)
    (h : rollout step n initial = .ok frames) :
    ∀ frame ∈ frames, FrameOf width height stateCount frame := by
  induction n generalizing initial frames with
  | zero => cases h; simpa using hinitial
  | succ n ih =>
    obtain ⟨next, hnext, h⟩ := bind_eq_ok.1 h
    obtain ⟨rest, hrest, h⟩ := bind_eq_ok.1 h
    cases h
    simpa using ⟨hinitial, ih (hstep initial next hinitial hnext) hrest⟩

theorem randomBinaryGrid_ensures :
    Ensures (randomBinaryGrid ext width height) (FrameOf width height 2) := by
  refine .after fun density => Ensures.mono (Ensures.times (P := (· < 2)) ?_ _) fun xs hxs => ⟨hxs.1, hxs.2⟩
  exact .after fun alive => .pure (by have := Bool.toNat_le alive; omega)

theorem randomStateGrid_ensures (hpos : 0 < stateCount) :
    Ensures (randomStateGrid ext width height stateCount) (FrameOf width height stateCount) := by
  refine Ensures.mono (Ensures.times (P := (· < stateCount)) ?_ _) fun xs hxs => ⟨hxs.1, hxs.2⟩
  refine .bind (.genUsize (Nat.zero_le _)) fun state hstate => .pure ?_
  have := Nat.mod_le state 256
  omega

theorem argmax_lt {values : List Float32} (h : values ≠ []) : argmax values < values.length := by
  have hloop : ∀ (entries : List (Float32 × ℕ)) (best : ℕ × Float32), best.1 < values.length →
      (∀ entry ∈ entries, entry.2 < values.length) →
      (entries.foldl (fun best entry =>
        if best.2 < entry.1 then (entry.2, entry.1) else best) best).1 < values.length := by
    intro entries
    induction entries with
    | nil => exact fun _ hbest _ => hbest
    | cons entry entries ih =>
      intro best hbest hentries
      refine ih _ ?_ fun e he => hentries e (mem_cons_of_mem entry he)
      dsimp only
      split_ifs
      · exact hentries entry mem_cons_self
      · exact hbest
  refine hloop _ _ (length_pos_of_ne_nil h) fun entry hentry => ?_
  exact (mem_zipIdx hentry).2.1.trans_le (by omega)

theorem spendTarget_lt {weights : List Float32} {target : Float32} {start i : ℕ}
    (h : spendTarget target start weights = some i) : i < start + weights.length := by
  induction weights generalizing target start with
  | nil => cases h
  | cons weight weights ih =>
    rw [spendTarget] at h
    split_ifs at h
    · obtain rfl := Option.some.inj h
      simp
    · have := ih h
      rw [length_cons]
      omega

theorem sampleCategorical_ensures {logits : List Float32} (h : logits ≠ []) :
    Ensures (sampleCategorical ext logits) (· < logits.length) := by
  have hpos := length_pos_of_ne_nil h
  unfold sampleCategorical
  refine .ite (fun _ => .pure (argmax_lt h)) fun _ => .after fun target => .pure ?_
  cases hspend : spendTarget target 0 (logits.map fun logit =>
      (logit - logits.foldl floatMax floatNegInfinity).exp) with
  | none => rw [Option.getD_none]; omega
  | some i =>
    have := spendTarget_lt hspend
    rw [length_map] at this
    rw [Option.getD_some]
    omega

/-- The rules of the neural stochastic automaton, as far as the next state depends on them. -/
structure RuleOf (stateCount : ℕ) (rule : NeuralStochasticRule) : Prop where
  conv2Bias : rule.conv2Bias.length = stateCount
  initLogits : rule.initLogits.length = stateCount

theorem sampleNeuralStochasticRule_ensures :
    Ensures (sampleNeuralStochasticRule ext stateCount) (RuleOf stateCount) := by
  refine .after fun _ => .after fun _ => .after fun _ => .after fun _ => .after fun _ => ?_
  exact .bind (.times .trivial _) fun conv2Bias hconv2Bias =>
    .bind (.times .trivial _) fun initLogits hinitLogits => .pure ⟨hconv2Bias.1, hinitLogits.1⟩

variable {rule : NeuralStochasticRule} {identityBias : Float32}

theorem length_cellLogits {x y : ℕ} {logits : List Float32}
    (h : cellLogits rule frame width height identityBias x y = .ok logits) :
    logits.length = rule.conv2Bias.length := by
  obtain ⟨conv3, -, h⟩ := bind_eq_ok.1 h
  obtain ⟨hidden, -, h⟩ := bind_eq_ok.1 h
  obtain ⟨state, -, h⟩ := bind_eq_ok.1 h
  exact (forall₂_of_mapM h).length_eq.symm.trans length_range

theorem initNeuralStochasticState_ensures (hpos : 0 < stateCount) (hrule : RuleOf stateCount rule) :
    Ensures (initNeuralStochasticState ext rule width height) (FrameOf width height stateCount) := by
  refine Ensures.mono (Ensures.times (P := (· < stateCount)) ?_ _) fun xs hxs => ⟨hxs.1, hxs.2⟩
  have hlogits : rule.initLogits ≠ [] := ne_nil_of_length_pos (hrule.initLogits ▸ hpos)
  refine .bind (sampleCategorical_ensures hlogits) fun state hstate => .pure ?_
  rw [hrule.initLogits] at hstate
  exact (Nat.mod_le _ _).trans_lt hstate

theorem applyNeuralStochastic_ensures {temperature : Float32} (hpos : 0 < stateCount)
    (hrule : RuleOf stateCount rule) (current : List ℕ) :
    Ensures (applyNeuralStochastic ext rule identityBias temperature width height current)
      (FrameOf width height stateCount) := by
  refine Ensures.mono (Ensures.mapM (P := (· < stateCount)) ?_) fun xs hxs =>
    ⟨hxs.1.trans (length_coordinates width height), hxs.2⟩
  rintro ⟨x, y⟩ -
  refine .bind (.lift fun logits hlogits => (length_cellLogits hlogits).trans hrule.conv2Bias)
    fun logits hlogits => ?_
  have hne : logits ≠ [] := ne_nil_of_length_pos (hlogits ▸ hpos)
  have hbyte : ∀ nextState, nextState < stateCount →
      Ensures (pure (nextState % 256) : Draw ρ ℕ) (· < stateCount) :=
    fun nextState hnext => .pure ((Nat.mod_le _ _).trans_lt hnext)
  dsimp only
  refine .ite (fun _ => .bind (.pure (hlogits ▸ argmax_lt hne)) hbyte) fun _ =>
    .bind (Ensures.mono (sampleCategorical_ensures (by simpa using hne)) fun state hstate => ?_) hbyte
  rwa [length_map, hlogits] at hstate

theorem neuralStochasticLoop_ensures {step : List ℕ → Draw ρ (List ℕ)}
    {sampledSteps startStep stepStride left iteration : ℕ} {frames : List (List ℕ)}
    (hstep : ∀ current, Ensures (step current) (FrameOf width height stateCount))
    (hcurrent : FrameOf width height stateCount current)
    (hframes : ∀ frame ∈ frames, FrameOf width height stateCount frame) :
    Ensures (neuralStochasticLoop step sampledSteps startStep stepStride left iteration current frames)
      fun frames => ∀ frame ∈ frames, FrameOf width height stateCount frame := by
  induction left generalizing iteration current frames with
  | zero => exact .pure hframes
  | succ left ih =>
    rw [neuralStochasticLoop]
    have hpushed : ∀ frame ∈ if startStep ≤ iteration ∧ (iteration - startStep) % stepStride = 0 then
        frames ++ [current] else frames, FrameOf width height stateCount frame := by
      split_ifs
      · simpa [or_imp, forall_and] using ⟨hframes, hcurrent⟩
      · exact hframes
    exact .ite (fun _ => .pure hpushed) fun _ =>
      .bind (hstep current) fun next hnext => ih hnext hpushed

theorem rolloutNeuralStochastic_ensures
    {sampledSteps startStep stepStride : ℕ} {temperature : Float32} {seed : UInt64}
    (hpos : 0 < stateCount) (hrule : RuleOf stateCount rule) :
    Ensures (rolloutNeuralStochastic ext rule width height sampledSteps startStep stepStride
        identityBias temperature seed)
      fun frames => ∀ frame ∈ frames, FrameOf width height stateCount frame :=
  .withRng (.bind (initNeuralStochasticState_ensures hpos hrule) fun _ hcurrent =>
    neuralStochasticLoop_ensures (applyNeuralStochastic_ensures hpos hrule) hcurrent (by simp))

end Frames

/-! ## Samples -/

section Samples

variable {ρ : Type} {ext : Externals ρ} {overflowChecks : Bool} {family : NcaFamilyConfig}
  {serialization : NcaSerializationConfig}

open Draw

/-- The ranges that `validate` checks, as far as a sample depends on them. -/
structure NcaFamilyConfig.RangesValid (family : NcaFamilyConfig) : Prop where
  grid : (family.gridSize.getD (gridDefault family)).min ≤
    (family.gridSize.getD (gridDefault family)).max
  gridPos : 0 < (family.gridSize.getD (gridDefault family)).min
  stateCount : (family.stateCount.getD (stateCountDefault family)).min ≤
    (family.stateCount.getD (stateCountDefault family)).max

theorem sampleRange_ensures {range : UsizeRangeConfig} (h : range.min ≤ range.max) :
    Ensures (sampleRange ext range) range.Mem :=
  .ite (fun heq => .pure ⟨le_rfl, heq.le⟩) fun _ => .genUsize h

theorem sampleRoundedGrid_ensures (h : family.RangesValid) (hkind : family.kind ≠ .neuralStochastic)
    (hpatch : 0 < serialization.patchSize) :
    Ensures (sampleRoundedGrid overflowChecks ext family serialization) fun grid =>
      family.HasGrid overflowChecks serialization.patchSize grid.1 grid.2 := by
  refine .bind (sampleRange_ensures h.grid) fun w hw => .bind (sampleRange_ensures h.grid) fun g hg =>
    .bind (.lift fun width hwidth => hwidth) fun width hwidth =>
      .bind (.lift fun height hheight => hheight) fun height hheight => .pure ?_
  rw [max_eq_left hpatch] at hwidth hheight
  unfold NcaFamilyConfig.HasGrid
  cases hfamily : family.kind
  · exact absurd hfamily hkind
  all_goals exact ⟨w, g, hw, hg, hwidth, hheight⟩

theorem searchRule_ensures {attempt : Draw ρ Attempt} {P : NcaSample → Prop}
    (h : Ensures attempt fun result => P result.candidate) {left : ℕ} {distance : Float32}
    {best : Option NcaSample} (hbest : ∀ sample ∈ best, P sample) :
    Ensures (searchRule attempt left distance best) P := by
  induction left generalizing distance best with
  | zero =>
    refine .lift fun sample hsample => ?_
    cases best with
    | none => cases hsample
    | some candidate =>
      cases hsample
      exact hbest _ rfl
  | succ left ih =>
    refine .bind h fun result hresult => .ite (fun _ => .pure hresult) fun _ =>
      .ite (fun _ => ih ?_) fun _ => ih hbest
    rintro _ ⟨⟩
    exact hresult

theorem neuralStochasticAttempt_ensures {shape : NcaSample} {steps scoringExamples : ℕ}
    {lower upper : Float32} (hpos : 0 < shape.stateCount) :
    Ensures (neuralStochasticAttempt ext serialization shape steps scoringExamples lower upper)
      fun result => result.candidate.width = shape.width ∧ result.candidate.height = shape.height ∧
        result.candidate.stateCount = shape.stateCount ∧
        ∀ frame ∈ result.candidate.frames, FrameOf shape.width shape.height shape.stateCount frame := by
  refine .after fun ruleSeed => .bind (.withRng sampleNeuralStochasticRule_ensures) fun rule hrule =>
    .bind (rolloutNeuralStochastic_ensures hpos hrule) fun frames hframes => .after fun ratio => ?_
  dsimp only
  refine .ite (fun _ => ?_) fun _ => ?_
  · exact .bind (P := (· = frames)) (.pure rfl) fun output houtput =>
      .after fun _ => .pure ⟨rfl, rfl, rfl, houtput ▸ hframes⟩
  · exact .bind (rolloutNeuralStochastic_ensures hpos hrule) fun output houtput =>
      .after fun _ => .pure ⟨rfl, rfl, rfl, houtput⟩

theorem generateNeuralStochasticSample_ensures (h : family.RangesValid)
    (hkind : family.kind = .neuralStochastic) :
    Ensures (generateNeuralStochasticSample ext family serialization)
      (SampleOf overflowChecks serialization family) := by
  refine .bind (sampleRange_ensures h.grid) fun extent hextent => .after fun sampledSteps =>
    .bind (sampleRange_ensures h.stateCount) fun sampled hsampled => .after fun stride =>
      .after fun start => .after fun bias => .after fun temperature => ?_
  have hpos : 0 < clamp sampled 2 10 := by unfold clamp; omega
  refine searchRule_ensures (Ensures.mono (neuralStochasticAttempt_ensures hpos) ?_) nofun
  rintro result ⟨hwidth, hheight, hstates, hframes⟩
  refine ⟨⟨sampled, hsampled, ?_⟩, ?_, ?_⟩
  · rw [hstates, hkind]
    rfl
  · rw [hwidth, hheight]
    unfold NcaFamilyConfig.HasGrid
    rw [hkind]
    exact ⟨rfl, hextent⟩
  · rw [hwidth, hheight, hstates]
    exact hframes

theorem generateLifeLikeSample_ensures (h : family.RangesValid) (hkind : family.kind = .lifeLikeBinary)
    (hpatch : 0 < serialization.patchSize) {fuel : ℕ} :
    Ensures (generateLifeLikeSample overflowChecks fuel ext family serialization)
      (SampleOf overflowChecks serialization family) := by
  refine .bind (sampleRoundedGrid_ensures h (by simp [hkind]) hpatch) fun grid hgrid =>
    .after fun steps => .bind randomBinaryGrid_ensures fun initial hinitial => .after fun birth =>
      .after fun survive => .bind_lift fun frames hframes => .pure ?_
  obtain ⟨sampled, hsampled⟩ : ∃ sampled,
      (family.stateCount.getD (stateCountDefault family)).Mem sampled := ⟨_, le_rfl, h.stateCount⟩
  exact ⟨⟨sampled, hsampled, by rw [hkind]; rfl⟩, hgrid,
    frameOf_rollout hinitial (fun _ _ _ => frameOf_applyLifeLike) hframes⟩

theorem generateCyclicSample_ensures (h : family.RangesValid) (hkind : family.kind = .cyclic)
    (hpatch : 0 < serialization.patchSize) :
    Ensures (generateCyclicSample overflowChecks ext family serialization)
      (SampleOf overflowChecks serialization family) := by
  refine .bind (sampleRoundedGrid_ensures h (by simp [hkind]) hpatch) fun grid hgrid =>
    .after fun steps => .bind (sampleRange_ensures h.stateCount) fun sampled hsampled => ?_
  have hpos : 0 < clamp sampled 3 16 := by unfold clamp; omega
  have hbyte : clamp sampled 3 16 % 256 = clamp sampled 3 16 :=
    Nat.mod_eq_of_lt (by unfold clamp; omega)
  have hrest : ∀ threshold : ℕ, Ensures (do
      let initial ← randomStateGrid ext grid.1 grid.2 (clamp sampled 3 16)
      let frames ← Draw.lift (rollout
        (applyCyclic (clamp sampled 3 16 % 256) threshold grid.1 grid.2) (max steps 2 - 1) initial)
      return plainSample family grid.1 grid.2 (clamp sampled 3 16) frames)
      (SampleOf overflowChecks serialization family) := fun threshold => by
    refine .bind (randomStateGrid_ensures hpos) fun initial hinitial =>
      .bind_lift fun frames hframes => .pure ⟨⟨sampled, hsampled, by rw [hkind]; rfl⟩, hgrid, ?_⟩
    rw [hbyte] at hframes
    exact frameOf_rollout hinitial (fun _ _ hcurrent => frameOf_applyCyclic hpos hcurrent) hframes
  dsimp only
  split <;> exact .after hrest

theorem generateNeuralTotalisticSample_ensures (h : family.RangesValid)
    (hkind : family.kind = .neuralTotalistic) (hpatch : 0 < serialization.patchSize) :
    Ensures (generateNeuralTotalisticSample overflowChecks ext family serialization)
      (SampleOf overflowChecks serialization family) := by
  refine .bind (sampleRoundedGrid_ensures h (by simp [hkind]) hpatch) fun grid hgrid =>
    .after fun steps => .bind (sampleRange_ensures h.stateCount) fun sampled hsampled => ?_
  have hpos : 0 < clamp sampled 4 16 := by unfold clamp; omega
  refine .bind (P := fun rule => rule.weights.length = clamp sampled 4 16) ?_ fun rule hrule =>
    .bind (randomStateGrid_ensures hpos) fun initial hinitial =>
      .bind_lift fun frames hframes => .pure ⟨⟨sampled, hsampled, by rw [hkind]; rfl⟩, hgrid, ?_⟩
  · exact .bind (.times .trivial _) fun weights hweights => .after fun biases => .pure hweights.1
  · exact frameOf_rollout hinitial (fun _ _ => frameOf_applyNeuralTotalistic hrule) hframes

/-- The complexity ratio is filled in last. -/
theorem fillRatio_ensures {P : NcaSample → Prop}
    (hP : ∀ sample ratio, P sample → P { sample with gzipComplexityRatio := ratio })
    (sample : NcaSample) (hsample : P sample) :
    Ensures (if sample.gzipComplexityRatio == 0.0 then do
        let ratio ← Draw.lift (computeGzipComplexityRatio ext sample serialization)
        return { sample with gzipComplexityRatio := ratio }
      else return sample : Draw ρ NcaSample) P :=
  .ite (fun _ => .after fun _ => .pure (hP _ _ hsample)) fun _ => .pure hsample

/-- **Whatever is drawn, a sample has the shape of its family.** -/
theorem generateSample_ensures (h : family.RangesValid) (hpatch : 0 < serialization.patchSize)
    {fuel : ℕ} :
    Ensures (generateSample overflowChecks fuel ext family serialization)
      (SampleOf overflowChecks serialization family) := by
  have hratio : ∀ sample ratio, SampleOf overflowChecks serialization family sample →
      SampleOf overflowChecks serialization family { sample with gzipComplexityRatio := ratio } :=
    fun _ _ hsample => ⟨hsample.1, hsample.2, hsample.3⟩
  unfold generateSample
  cases hkind : family.kind
  · exact .bind (generateNeuralStochasticSample_ensures h hkind) (fillRatio_ensures hratio)
  · exact .bind (generateLifeLikeSample_ensures h hkind hpatch) (fillRatio_ensures hratio)
  · exact .bind (generateCyclicSample_ensures h hkind hpatch) (fillRatio_ensures hratio)
  · exact .bind (generateNeuralTotalisticSample_ensures h hkind hpatch) (fillRatio_ensures hratio)

end Samples

end BurnDragon.Nca
