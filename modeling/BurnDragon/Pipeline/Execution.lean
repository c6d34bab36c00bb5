import BurnDragon.Pipeline.Complete

/-!
# Pipelined forward passes

The pass over the forwards of a plan in `forward_hidden_with_pipeline_for_objective` and
`forward_loss_with_pipeline` of `steps.rs`. Whatever the plan, every microbatch passes through the
stages in order, so it gets what a single pass through all layers gives it
(`forwardMicrobatches_eq`).

The ends of a pass and a layer, which may read a mask of its microbatch, are parameters. A panic is
`none`.
-/

namespace BurnDragon.Pipeline

open List Rust Scheduling

/-- The operations of a `DragonModel` that a pipeline uses, on the inputs of a microbatch. A layer
reads and writes the stage state and the model state. -/
structure LanguagePipeline (ι σ θ ρ : Type) where
  nLayer : ℕ
  initStateEphemeral : θ
  beginLanguagePipeline : ι → σ
  layer : ι → ℕ → σ × θ → σ × θ
  finishLanguagePipelineHidden : σ × θ → ρ

variable {ι σ θ ρ : Type} (M : LanguagePipeline ι σ θ ρ)

/-! ## The pass -/

/-- `forward_language_pipeline_state_layer_range`. -/
def forwardLayerRange (input : ι) (layerRange : ℕ × ℕ) (s : σ × θ) : σ × θ :=
  let layerEnd := min layerRange.2 M.nLayer
  let start := min layerRange.1 layerEnd
  (List.range' start (layerEnd - start)).foldl (fun s layerIdx => M.layer input layerIdx s) s

/-- `forward_hidden_with_state_from_embedded_single_pass`. -/
def forwardHidden (input : ι) : ρ :=
  M.finishLanguagePipelineHidden
    (forwardLayerRange M input (0, M.nLayer) (M.beginLanguagePipeline input, M.initStateEphemeral))

variable (plan : PipelinePlan) (inputs : List ι)

/-- The forward of an event. A microbatch begins with its first one. -/
def forwardEvent (states : List (Option σ × θ)) (event : PipelineScheduleEvent) :
    Option (List (Option σ × θ)) := do
  let (pipelineState, state) ← states[event.microbatchId]?
  let input ← inputs[event.microbatchId]?
  let stageState := pipelineState.getD (M.beginLanguagePipeline input)
  let layerRange ← plan.stageAssignments[event.virtualStageId]?.map (·.layerRange)
  let (stageState, state) := forwardLayerRange M input layerRange (stageState, state)
  return states.set event.microbatchId (some stageState, state)

/-- The hidden states of the microbatches. -/
def forwardMicrobatches : Option (List ρ) := do
  let states ← (plan.events.filter (·.kind = .forward)).foldlM (forwardEvent M plan inputs)
    (List.replicate plan.microbatches (none, M.initStateEphemeral))
  (List.range plan.microbatches).mapM fun microbatchId => do
    let (pipelineState, state) ← states[microbatchId]?
    return M.finishLanguagePipelineHidden (← pipelineState, state)

/-! ## The order of the forwards -/

section Order

variable {microbatches total physicalStages m : ℕ} {s : EventLoop}

/-- A forward runs strictly after those of the microbatch on the stages before. -/
theorem EventsAt.forward_lt (h : EventsAt microbatches total physicalStages s) {v w k k' : ℕ}
    (hlt : v < w) (hv : (k, (.forward, m, v)) ∈ s.events.map timed)
    (hw : (k', (.forward, m, w)) ∈ s.events.map timed) : k < k' := by
  induction w, hlt using Nat.le_induction generalizing k' with
  | base => exact h.schedule.lt_of_needs hw hv ⟨v.succ_pos, rfl⟩
  | succ w _ ih =>
    obtain ⟨k'', hlt, hmem⟩ := h.schedule.after _ hw (.forward, m, w) ⟨w.succ_pos, rfl⟩
    exact (ih hmem).trans hlt

/-- The virtual stages of the forwards of a microbatch, in the order of the events. -/
def stagesOf (events : List PipelineScheduleEvent) (m : ℕ) : List ℕ :=
  (events.filter (·.microbatchId = m)).map (·.virtualStageId)

/-- **A microbatch passes through the virtual stages in order.** -/
theorem EventsAt.stagesOf_forwards (h : EventsAt microbatches total physicalStages s)
    (hfull : microbatches * total * 2 ≤ s.events.length) (hm : m < microbatches) :
    stagesOf (s.events.filter (·.kind = .forward)) m = List.range total := by
  refine Pairwise.eq_of_mem_iff (r := (· < ·)) ?_ pairwise_lt_range fun v => ?_
  · have hsorted := pairwise_map.1 h.schedule.sorted
    have hnodup := pairwise_map.1 (pairwise_map.1 h.schedule.nodup)
    refine pairwise_map.2 ((((hsorted.and hnodup).filter _).filter _).imp_of_mem ?_)
    intro event event' hfirst hsecond ⟨hle, hne⟩
    obtain ⟨hevent, rfl, hkind⟩ : event ∈ s.events ∧ event.microbatchId = m ∧
      event.kind = .forward := by simpa using hfirst
    obtain ⟨hevent', hm', hkind'⟩ : event' ∈ s.events ∧
      event'.microbatchId = event.microbatchId ∧ event'.kind = .forward := by simpa using hsecond
    have hmem := mem_map_of_mem (f := timed) hevent
    have hmem' := mem_map_of_mem (f := timed) hevent'
    simp only [timed, hkind, hkind', hm'] at hmem hmem' hle hne
    rcases Nat.lt_trichotomy event.virtualStageId event'.virtualStageId with hlt | heq | hgt
    · exact hlt
    · exact absurd (by rw [heq]) hne
    · exact absurd (h.forward_lt hgt hmem' hmem) hle.not_gt
  · have hdone := h.schedule.done_iff (by rwa [card_tasks, length_map]) (.forward, m, v)
    rw [mem_tasks, done_iff_mem, map_map] at hdone
    simpa [stagesOf, timed, hm, and_assoc, and_left_comm] using hdone

end Order

/-! ## A run of the forwards -/

section Run

variable {M inputs plan} {total : ℕ} {cut : ℕ → ℕ}

/-- Two adjacent ranges of layers. -/
theorem forwardLayerRange_forwardLayerRange {a b : ℕ} (hab : a ≤ b) (hb : b ≤ M.nLayer) (input : ι)
    (s : σ × θ) : forwardLayerRange M input (a, b) (forwardLayerRange M input (0, a) s) =
      forwardLayerRange M input (0, b) s := by
  have hrange := List.range'_append_1 (s := 0) (m := a) (n := b - a)
  rw [Nat.zero_add, Nat.add_sub_cancel' hab] at hrange
  simp only [forwardLayerRange, min_eq_left hb, min_eq_left (hab.trans hb), min_eq_left hab,
    Nat.zero_min, Nat.sub_zero, ← hrange, foldl_append]

variable (M cut) in
/-- What is stored for a microbatch that has passed the first virtual stages. -/
def progress (input : ι) (stages : ℕ) : Option σ × θ :=
  let s := forwardLayerRange M input (0, cut stages)
    (M.beginLanguagePipeline input, M.initStateEphemeral)
  (if stages = 0 then none else some s.1, s.2)

variable (hmono : Monotone cut) (hzero : cut 0 = 0) (hlast : cut total = M.nLayer)
  (hassignments : ∀ v < total,
    plan.stageAssignments[v]?.map (·.layerRange) = some (cut v, cut (v + 1)))
include hmono hzero hlast hassignments

theorem forwardEvent_eq {event : PipelineScheduleEvent} {states : List (Option σ × θ)} {input : ι}
    (hinput : inputs[event.microbatchId]? = some input) (hlt : event.virtualStageId < total)
    (hstate : states[event.microbatchId]? = some (progress M cut input event.virtualStageId)) :
    forwardEvent M plan inputs states event = some (states.set event.microbatchId
      (progress M cut input (event.virtualStageId + 1))) := by
  have hstep := forwardLayerRange_forwardLayerRange (hmono event.virtualStageId.le_succ)
    (hlast ▸ hmono hlt) input (M.beginLanguagePipeline input, M.initStateEphemeral)
  rw [forwardEvent, hstate, hinput, hassignments _ hlt]
  by_cases hbegin : event.virtualStageId = 0
  · simp [progress, hbegin, hzero, forwardLayerRange]
  · simp [progress, hbegin, hstep]

/-- The microbatches pass through the virtual stages, however their events are interleaved. -/
theorem foldlM_forwardEvent {events : List PipelineScheduleEvent} {states : List (Option σ × θ)}
    (hevents : ∀ event ∈ events, event.microbatchId < inputs.length)
    (hlength : states.length = inputs.length)
    (hstates : ∀ (m : ℕ) (input : ι), inputs[m]? = some input → ∃ v ≤ total,
      stagesOf events m = List.range' v (total - v) ∧
      states[m]? = some (progress M cut input v)) :
    ∃ states' : List (Option σ × θ),
      events.foldlM (forwardEvent M plan inputs) states = some states' ∧
      ∀ (m : ℕ) (input : ι), inputs[m]? = some input →
        states'[m]? = some (progress M cut input total) := by
  induction events generalizing states with
  | nil =>
    refine ⟨states, rfl, fun m input hinput => ?_⟩
    obtain ⟨v, hle, hnil, hstate⟩ := hstates m input hinput
    have hrest := congrArg List.length hnil
    rw [stagesOf, filter_nil, map_nil, length_nil, length_range'] at hrest
    rw [hstate, show v = total by omega]
  | cons event events ih =>
    obtain ⟨hevent, hevents⟩ := forall_mem_cons.1 hevents
    have hinput := getElem?_eq_getElem hevent
    obtain ⟨v, hle, hfirst, hstate⟩ := hstates _ _ hinput
    rw [stagesOf, filter_cons_of_pos (by simp), map_cons] at hfirst
    obtain ⟨n, hn⟩ : ∃ n, total - v = n + 1 := Nat.exists_eq_succ_of_ne_zero fun hnone => by
      rw [hnone] at hfirst
      cases hfirst
    rw [hn, range'_succ] at hfirst
    obtain ⟨rfl, hrest⟩ := cons.inj hfirst
    rw [foldlM_cons, forwardEvent_eq hmono hzero hlast hassignments hinput (by omega) hstate]
    refine ih hevents (by simpa using hlength) fun m input hinput' => ?_
    by_cases hmm : m = event.microbatchId
    · subst hmm
      obtain rfl := Option.some.inj (hinput.symm.trans hinput')
      refine ⟨_, by omega, ?_, getElem?_set_self (hlength ▸ hevent)⟩
      rw [show total - (event.virtualStageId + 1) = n by omega]
      exact hrest
    · obtain ⟨w, hw, hstages, hstate'⟩ := hstates m input hinput'
      rw [stagesOf, filter_cons_of_neg (by simpa using Ne.symm hmm)] at hstages
      exact ⟨w, hw, hstages, by rw [getElem?_set_ne (Ne.symm hmm), hstate']⟩

end Run

/-! ## Whole plans -/

section Plan

variable {nLayer total : ℕ} {pipeline : ParallelPipelineConfig} {plan : PipelinePlan}

theorem microbatches_of_plan (h : BuildPipelinePlanReturns nLayer pipeline (.ok plan)) :
    plan.microbatches = pipeline.microbatches := by
  obtain ⟨fuel, h⟩ := h
  unfold buildPipelinePlan at h
  split at h
  · cases h
  split at h
  · cases h
  obtain ⟨result, -, h⟩ := Option.map_eq_some_iff.1 h
  cases result with
  | error => cases h
  | ok =>
    obtain rfl := Except.ok.inj h
    rfl

/-- **A pipelined pass is a plain pass.** Every configuration that passes the checks, and whose
number of events does not overflow, has a plan by which all microbatches get what a single pass
through all layers gives them; no state is missing on the way. -/
theorem forwardMicrobatches_eq (hcheck : checkPipelinePlan M.nLayer pipeline = .ok total)
    (hevents : pipeline.microbatches * total * 2 ≤ usizeMax) :
    ∃ plan, BuildPipelinePlanReturns M.nLayer pipeline (.ok plan) ∧
      ∀ inputs : List ι, inputs.length = pipeline.microbatches →
        forwardMicrobatches M plan inputs = some (inputs.map (forwardHidden M)) := by
  obtain ⟨plan, s, hplan, hs, hfull, hassignments, hplanEvents, -⟩ := exists_plan hcheck hevents
  obtain ⟨hstages, hvirtual, -, rfl⟩ := checkPipelinePlan_eq_ok hcheck
  set total := pipeline.stageCount * pipeline.virtualStagesPerRank
  have hpos : 0 < total := Nat.mul_pos hstages hvirtual
  have hmicro := microbatches_of_plan hplan
  refine ⟨plan, hplan, fun inputs hlength => ?_⟩
  have hmem : ∀ event ∈ plan.events.filter (·.kind = .forward),
      event.microbatchId < inputs.length := fun event hevent =>
    hlength ▸ ((hs.complete hfull).only event (hplanEvents ▸ (mem_filter.1 hevent).1)).1
  have hmono : Monotone (layerCursor (M.nLayer / total) (M.nLayer % total)) :=
    monotone_nat_of_le_succ fun v => layerCursor_succ v ▸ Nat.le_add_right _ _
  have hranges : ∀ v < total, plan.stageAssignments[v]?.map (·.layerRange) =
      some (layerCursor (M.nLayer / total) (M.nLayer % total) v,
        layerCursor (M.nLayer / total) (M.nLayer % total) (v + 1)) :=
    fun v hv => by simp [hassignments, hv, stageAssignment]
  have hreplicate : (List.replicate plan.microbatches
      ((none : Option σ), M.initStateEphemeral)).length = inputs.length := by
    rw [length_replicate, hmicro, hlength]
  obtain ⟨states, hrun, hstates⟩ := foldlM_forwardEvent hmono (by simp [layerCursor])
    (layerCursor_total hpos) hranges hmem hreplicate fun m input hinput => by
      have hm := hlength ▸ (List.getElem?_eq_some_iff.1 hinput).1
      refine ⟨0, Nat.zero_le _, ?_, ?_⟩
      · rw [hplanEvents, hs.stagesOf_forwards hfull hm, range_eq_range', Nat.sub_zero]
      · simp [hmicro, hm, progress, layerCursor, forwardLayerRange]
  rw [forwardMicrobatches, hrun, hmicro, ← hlength]
  refine mapM_eq_some_iff.2 (ext_getElem (by simp) fun m hm hm' => ?_)
  have hinput := getElem?_eq_getElem (l := inputs) (i := m) (by simpa using hm)
  simp [hstates m _ hinput, progress, hpos.ne', layerCursor_total hpos, forwardHidden]

/-- Layers that append their number and count their calls. -/
def recordingPipeline : LanguagePipeline ℕ (List ℕ) ℕ (List ℕ × ℕ) where
  nLayer := 8
  initStateEphemeral := 0
  beginLanguagePipeline input := [input]
  layer _ layerIdx s := (s.1 ++ [layerIdx], s.2 + 1)
  finishLanguagePipelineHidden s := s

theorem forwardMicrobatches_eq_interleaved :
    ∃ plan, BuildPipelinePlanReturns 8 interleavedConfig (.ok plan) ∧
      forwardMicrobatches recordingPipeline plan [10, 11, 12, 13] =
        some ([10, 11, 12, 13].map fun input => ([input, 0, 1, 2, 3, 4, 5, 6, 7], 8)) := by
  obtain ⟨plan, hplan, h⟩ := forwardMicrobatches_eq (M := recordingPipeline)
    (show checkPipelinePlan 8 interleavedConfig = .ok 4 from rfl) (by decide)
  exact ⟨plan, hplan, h [10, 11, 12, 13] rfl⟩

end Plan

end BurnDragon.Pipeline
