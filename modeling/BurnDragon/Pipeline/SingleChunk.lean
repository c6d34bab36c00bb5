import BurnDragon.Pipeline.Timetable

/-!
# Schedules with one chunk per stage

With one virtual stage per rank both schedules keep to a timetable that gives the tick of every
forward and backward in closed form (`timetable_gpipe`, `timetable_interleaved`). A plan takes as
many ticks as the last backward needs, and every stage is idle only while the pipeline fills and
drains (`singleChunk_ticks`).
-/

namespace BurnDragon.Pipeline

open Rust Scheduling Transition List

/-! ## Timetables -/

section Times

variable {microbatches stageCount : ℕ}

/-- All forwards pass through the stages, and then all backwards. -/
def gpipeTime (microbatches stageCount : ℕ) : Task → ℕ
  | (.forward, m, q) => m + q
  | (.backward, m, q) => microbatches + stageCount - 1 + m + (stageCount - 1 - q)

/-- A stage alternates between backwards and forwards as soon as the first backward has reached it.
-/
def interleavedTime (stageCount : ℕ) : Task → ℕ
  | (.forward, m, q) => q + m + (m - (2 * stageCount - 2 - 2 * q))
  | (.backward, m, q) => 2 * stageCount - 1 - q + 2 * m

theorem machine_eq {kind : PipelineEventKind} {m q : ℕ} (h : q < stageCount) :
    (pipelineGraph microbatches stageCount stageCount).machine (kind, m, q) = q :=
  Nat.mod_eq_of_lt h

theorem timetable_gpipe : Timetable (pipelineGraph microbatches stageCount stageCount)
    (prefers .gpipe) (gpipeTime microbatches stageCount) (2 * (microbatches + stageCount - 1)) where
  needs_lt := by
    rintro ⟨kind, m, q⟩ ha - b hneeds
    obtain ⟨hm, hq⟩ := mem_tasks.mp ha
    cases kind with
    | forward =>
      obtain ⟨hpos, rfl⟩ := hneeds
      simp only [gpipeTime]
      omega
    | backward =>
      rcases hneeds with rfl | ⟨hlt, rfl⟩
      · simp only [gpipeTime]
        omega
      · simp only [gpipeTime]
        omega
  preferred := by
    rintro ⟨kind, m, q⟩ ha ⟨kind', m', q'⟩ hb hmachine - hle -
    obtain ⟨hm, hq⟩ := mem_tasks.mp ha
    obtain ⟨hm', hq'⟩ := mem_tasks.mp hb
    rw [machine_eq hq, machine_eq hq'] at hmachine
    cases kind with
    | forward =>
      cases kind' with
      | forward =>
        simp only [gpipeTime] at hle
        simp only [prefers]
        omega
      | backward => rfl
    | backward =>
      cases kind' with
      | forward =>
        simp only [gpipeTime] at hle
        omega
      | backward =>
        simp only [gpipeTime] at hle
        simp only [prefers]
        omega
  busy := by
    rintro t ht ⟨kind, m, q⟩ hb hle hneeds
    obtain ⟨hm, hq⟩ := mem_tasks.mp hb
    cases kind with
    | forward =>
      simp only [gpipeTime] at hle
      rcases Nat.eq_zero_or_pos q with rfl | hpos
      · exact ⟨(.forward, t, 0), mem_tasks.mpr ⟨by omega, hq⟩, rfl, rfl⟩
      · have hbefore := hneeds (.forward, m, q - 1) ⟨hpos, rfl⟩
        simp only [gpipeTime] at hbefore
        refine ⟨(.forward, m, q), hb, rfl, ?_⟩
        simp only [gpipeTime]
        omega
    | backward =>
      simp only [gpipeTime] at hle
      have hforward := hneeds (.forward, m, q) (.inl rfl)
      simp only [gpipeTime] at hforward
      by_cases hlast : q + 1 < stageCount
      · have hbefore := hneeds (.backward, m, q + 1) (.inr ⟨hlast, rfl⟩)
        simp only [gpipeTime] at hbefore
        refine ⟨(.backward, m, q), hb, rfl, ?_⟩
        simp only [gpipeTime]
        omega
      · -- the last stage takes the forward of the tick, or later the backward of the tick
        by_cases hphase : t < microbatches + stageCount - 1
        · refine ⟨(.forward, t - q, q), mem_tasks.mpr ⟨by omega, hq⟩, rfl, ?_⟩
          simp only [gpipeTime]
          omega
        · refine ⟨(.backward, t - (microbatches + stageCount - 1), q),
            mem_tasks.mpr ⟨by omega, hq⟩, rfl, ?_⟩
          simp only [gpipeTime]
          omega

theorem timetable_interleaved : Timetable (pipelineGraph microbatches stageCount stageCount)
    (prefers .interleaved1f1b) (interleavedTime stageCount)
    (2 * (microbatches + stageCount - 1)) where
  needs_lt := by
    rintro ⟨kind, m, q⟩ ha - b hneeds
    obtain ⟨hm, hq⟩ := mem_tasks.mp ha
    cases kind with
    | forward =>
      obtain ⟨hpos, rfl⟩ := hneeds
      simp only [interleavedTime]
      omega
    | backward =>
      rcases hneeds with rfl | ⟨hlt, rfl⟩
      · simp only [interleavedTime]
        omega
      · simp only [interleavedTime]
        omega
  preferred := by
    rintro ⟨kind, m, q⟩ ha ⟨kind', m', q'⟩ hb hmachine - hle hneeds
    obtain ⟨hm, hq⟩ := mem_tasks.mp ha
    obtain ⟨hm', hq'⟩ := mem_tasks.mp hb
    rw [machine_eq hq, machine_eq hq'] at hmachine
    subst hmachine
    cases kind with
    | forward =>
      cases kind' with
      | forward =>
        simp only [interleavedTime] at hle
        simp only [prefers]
        omega
      | backward =>
        -- a backward is ready only in its own tick, which has the other parity
        exfalso
        have hforward := hneeds (.forward, m', q) (.inl rfl)
        simp only [interleavedTime] at hle hforward
        by_cases hlast : q + 1 < stageCount
        · have hbefore := hneeds (.backward, m', q + 1) (.inr ⟨hlast, rfl⟩)
          simp only [interleavedTime] at hbefore
          omega
        · omega
    | backward =>
      cases kind' with
      | forward => rfl
      | backward =>
        simp only [interleavedTime] at hle
        simp only [prefers]
        omega
  busy := by
    rintro t ht ⟨kind, m, q⟩ hb hle hneeds
    obtain ⟨hm, hq⟩ := mem_tasks.mp hb
    cases kind with
    | forward =>
      simp only [interleavedTime] at hle
      have hstart : q ≤ t := by
        rcases Nat.eq_zero_or_pos q with rfl | hpos
        · exact Nat.zero_le t
        · have hbefore := hneeds (.forward, m, q - 1) ⟨hpos, rfl⟩
          simp only [interleavedTime] at hbefore
          omega
      by_cases hwarm : t ≤ q + (2 * stageCount - 2 - 2 * q)
      · refine ⟨(.forward, t - q, q), mem_tasks.mpr ⟨by omega, hq⟩, rfl, ?_⟩
        simp only [interleavedTime]
        omega
      · -- forwards and backwards alternate
        rcases Nat.even_or_odd' (t - (q + (2 * stageCount - 2 - 2 * q))) with ⟨j, hj | hj⟩
        · refine ⟨(.forward, 2 * stageCount - 2 - 2 * q + j, q), mem_tasks.mpr ⟨by omega, hq⟩,
            rfl, ?_⟩
          simp only [interleavedTime]
          omega
        · refine ⟨(.backward, j, q), mem_tasks.mpr ⟨by omega, hq⟩, rfl, ?_⟩
          simp only [interleavedTime]
          omega
    | backward =>
      simp only [interleavedTime] at hle
      have hforward := hneeds (.forward, m, q) (.inl rfl)
      simp only [interleavedTime] at hforward
      refine ⟨(.backward, m, q), hb, rfl, ?_⟩
      simp only [interleavedTime]
      by_cases hlast : q + 1 < stageCount
      · have hbefore := hneeds (.backward, m, q + 1) (.inr ⟨hlast, rfl⟩)
        simp only [interleavedTime] at hbefore
        omega
      · omega

theorem gpipeTime_lt {task : Task}
    (h : task ∈ (pipelineGraph microbatches stageCount stageCount).tasks) :
    gpipeTime microbatches stageCount task < 2 * (microbatches + stageCount - 1) := by
  obtain ⟨kind, m, q⟩ := task
  obtain ⟨hm, hq⟩ := mem_tasks.mp h
  cases kind <;> simp only [gpipeTime] <;> omega

theorem interleavedTime_lt {task : Task}
    (h : task ∈ (pipelineGraph microbatches stageCount stageCount).tasks) :
    interleavedTime stageCount task < 2 * (microbatches + stageCount - 1) := by
  obtain ⟨kind, m, q⟩ := task
  obtain ⟨hm, hq⟩ := mem_tasks.mp h
  cases kind <;> simp only [interleavedTime] <;> omega

/-- For each schedule there is a timetable that ends with the backward of the last microbatch on the
first stage. -/
theorem exists_timetable (schedule : PipelineScheduleKind) (hmicrobatches : 0 < microbatches)
    (hstages : 0 < stageCount) :
    ∃ time : Task → ℕ, Timetable (pipelineGraph microbatches stageCount stageCount)
        (prefers schedule) time (2 * (microbatches + stageCount - 1)) ∧
      (∀ task ∈ (pipelineGraph microbatches stageCount stageCount).tasks,
        time task < 2 * (microbatches + stageCount - 1)) ∧
      time (.backward, microbatches - 1, 0) + 1 = 2 * (microbatches + stageCount - 1) := by
  cases schedule with
  | gpipe =>
    refine ⟨_, timetable_gpipe, fun task => gpipeTime_lt, ?_⟩
    simp only [gpipeTime]
    omega
  | interleaved1f1b =>
    refine ⟨_, timetable_interleaved, fun task => interleavedTime_lt, ?_⟩
    simp only [interleavedTime]
    omega

end Times

/-! ## Idle ticks -/

/-- The ticks of a plan in which a physical stage does nothing. -/
def idleTicks (events : List PipelineScheduleEvent) (totalTicks p : ℕ) : Finset ℕ :=
  (Finset.range totalTicks).filter fun k =>
    ∀ event ∈ events, event.tick = k → event.physicalStageId ≠ p

section Idle

variable {microbatches virtualStages physicalStages : ℕ} {s : EventLoop}

/-- A stage is busy in as many ticks as it has events. -/
theorem EventsAt.card_idleTicks (h : EventsAt microbatches virtualStages physicalStages s)
    (hfull : microbatches * virtualStages * 2 ≤ s.events.length) {totalTicks : ℕ}
    (hwithin : ∀ event ∈ s.events, event.tick < totalTicks) (p : ℕ) :
    (idleTicks s.events totalTicks p).card =
      totalTicks - s.events.countP (fun event => event.physicalStageId = p) := by
  have honePerTick := (h.complete hfull).onePerTick
  set busy := (s.events.filter fun event => event.physicalStageId = p).map
    PipelineScheduleEvent.tick with hbusy
  have hnodup : busy.Nodup := by
    refine List.Nodup.map_on (fun a ha b hb htick => ?_) ?_
    · obtain ⟨ha, hap⟩ := mem_filter.mp ha
      obtain ⟨hb, hbp⟩ := mem_filter.mp hb
      exact honePerTick a ha b hb htick
        ((of_decide_eq_true hap).trans (of_decide_eq_true hbp).symm)
    · exact ((h.schedule.nodup.of_map _).of_map _).filter _
  have hidle : idleTicks s.events totalTicks p = Finset.range totalTicks \ busy.toFinset := by
    ext k
    simp only [idleTicks, hbusy, Finset.mem_filter, Finset.mem_range, Finset.mem_sdiff,
      mem_toFinset, mem_map, mem_filter, decide_eq_true_eq]
    refine and_congr_right fun _ => ?_
    constructor
    · rintro hnone ⟨event, ⟨hevent, hp⟩, htick⟩
      exact hnone event hevent htick hp
    · exact fun hnone event hevent htick hp => hnone ⟨event, ⟨hevent, hp⟩, htick⟩
  have hsubset : busy.toFinset ⊆ Finset.range totalTicks := by
    intro k hk
    obtain ⟨event, hevent, rfl⟩ := mem_map.mp (mem_toFinset.mp hk)
    exact Finset.mem_range.mpr (hwithin event (mem_filter.mp hevent).1)
  rw [hidle, Finset.card_sdiff_of_subset hsubset, Finset.card_range,
    toFinset_card_of_nodup hnodup, hbusy, length_map, countP_eq_length_filter]

end Idle

/-- **The length of plans with one chunk per stage.** A plan takes twice as many ticks as a
microbatch and the stages behind it need, and every stage is idle for twice as many ticks as there
are other stages. -/
theorem singleChunk_ticks (nLayer : ℕ) (pipeline : ParallelPipelineConfig) (plan : PipelinePlan)
    (hplan : BuildPipelinePlanReturns nLayer pipeline (.ok plan))
    (hsingle : pipeline.virtualStagesPerRank = 1) :
    plan.metrics.totalTicks = 2 * (pipeline.microbatches + pipeline.stageCount - 1) ∧
    plan.metrics.stageIdleTicks =
      List.replicate pipeline.stageCount (2 * (pipeline.stageCount - 1)) ∧
    ∀ p < pipeline.stageCount,
      (idleTicks plan.events plan.metrics.totalTicks p).card = 2 * (pipeline.stageCount - 1) := by
  obtain ⟨⟨total, hcheck⟩, hmetrics, base, remainder, hloop⟩ := loop_of_plan hplan
  obtain ⟨hstages, -⟩ := checkPipelinePlan_eq_ok hcheck
  obtain ⟨-, hmicrobatches⟩ := checkPipelinePlan_bounds hcheck
  rw [hsingle, Nat.mul_one] at hloop
  obtain ⟨time, htime, hbefore, hlast⟩ :=
    exists_timetable pipeline.schedule hmicrobatches hstages
  obtain ⟨s, hs, hfollows, hfull, hevents⟩ := events_follow htime hstages hloop
  have hfull' : pipeline.microbatches * (pipeline.stageCount * 1) * 2 ≤ s.events.length := by
    rwa [Nat.mul_one]
  have hs' : EventsAt pipeline.microbatches (pipeline.stageCount * 1) pipeline.stageCount s := by
    rwa [Nat.mul_one]
  have hcovered := hs'.ticksCovered hfull'
  rw [hevents, ← hmetrics] at hcovered
  have hmem : ∀ event ∈ s.events, timed event ∈ s.events.map timed := fun _ h =>
    List.mem_map_of_mem h
  have htick : ∀ event ∈ s.events, event.tick = time (timed event).2 := fun event h =>
    hfollows.tick_eq hs.schedule (hmem event h) (hbefore _ (hs.schedule.mem _ (hmem event h)))
  have htotal : plan.metrics.totalTicks =
      2 * (pipeline.microbatches + pipeline.stageCount - 1) := by
    refine le_antisymm (not_lt.mp fun hlt => ?_) ?_
    · -- the tick after the timetable would have an event
      obtain ⟨event, hevent, hlate⟩ := hcovered.busy _ hlt
      rw [← hevents] at hevent
      have hearly := hbefore _ (hs.schedule.mem _ (hmem event hevent))
      rw [← htick event hevent] at hearly
      omega
    · have hcard : (pipelineGraph pipeline.microbatches pipeline.stageCount
          pipeline.stageCount).tasks.card ≤ (s.events.map timed).length := by
        rw [card_tasks, List.length_map]
        exact hfull
      obtain ⟨k, hk⟩ := (hs.schedule.done_iff hcard (.backward, pipeline.microbatches - 1, 0)).mpr
        (mem_tasks.mpr ⟨by omega, hstages⟩)
      obtain ⟨event, hevent, heq⟩ := List.mem_map.mp hk
      have hwithin := hcovered.within event (hevents ▸ hevent)
      have hlate : event.tick = time (.backward, pipeline.microbatches - 1, 0) :=
        (htick event hevent).trans (by rw [heq])
      omega
  have hbusy : 2 * (pipeline.microbatches + pipeline.stageCount - 1) -
      2 * pipeline.microbatches * 1 = 2 * (pipeline.stageCount - 1) := by omega
  refine ⟨htotal, ?_, fun p hp => ?_⟩
  · have hidle : plan.metrics.stageIdleTicks =
        plan.metrics.stageBusyTicks.map (plan.metrics.totalTicks - ·) := by
      rw [hmetrics]
      rfl
    rw [hidle, hcovered.stages, List.map_replicate, htotal, hbusy]
  · rw [← hevents, hs.card_idleTicks hfull (fun event h => hcovered.within event (hevents ▸ h)),
      hs'.countP_stage hfull' hp, htotal, hbusy]

/-- Three stages and four microbatches, in either schedule. -/
def singleChunkConfig (schedule : PipelineScheduleKind) : ParallelPipelineConfig :=
  ⟨true, 3, 1, schedule, 4, .layerContiguous⟩

theorem singleChunk_ticks_three : ∃ plan,
    BuildPipelinePlanReturns 3 (singleChunkConfig .interleaved1f1b) (.ok plan) ∧
      plan.metrics.totalTicks = 12 ∧ plan.metrics.stageIdleTicks = [4, 4, 4] := by
  have hcheck : checkPipelinePlan 3 (singleChunkConfig .interleaved1f1b) = .ok 3 := rfl
  have hevents : 4 * 3 * 2 ≤ usizeMax := by decide
  obtain ⟨plan, -, hplan, -⟩ := exists_plan hcheck hevents
  obtain ⟨htotal, hidle, -⟩ := singleChunk_ticks 3 _ plan hplan rfl
  exact ⟨plan, hplan, htotal, hidle⟩

end BurnDragon.Pipeline
