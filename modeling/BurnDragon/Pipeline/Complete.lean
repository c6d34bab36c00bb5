import BurnDragon.Pipeline.Events

/-!
# Complete plans

A plan is complete when its stages partition the layers (`LayersPartitioned`) and its events run every
forward and every backward once, one a tick on every physical stage, each after what it needs, and with
no empty tick (`EventsComplete`). Every configuration that passes the checks has a complete plan
(`buildPipelinePlan_complete`).
-/

namespace BurnDragon.Pipeline

open Rust Scheduling Transition List

/-! ## The layers -/

/-- How many layers an assignment has. -/
def PipelineStageAssignment.layerCount (a : PipelineStageAssignment) : ℕ :=
  a.layerRange.2 - a.layerRange.1

/-- The assignments are the virtual stages in order, and their layers are those below `nLayer`, one
stage after the other and of nearly equal sizes. -/
structure LayersPartitioned (nLayer total : ℕ) (assignments : List PipelineStageAssignment) :
    Prop where
  length : assignments.length = total
  id : ∀ (v : ℕ) (a : PipelineStageAssignment), assignments[v]? = some a → a.virtualStageId = v
  first : ∀ a, assignments.head? = some a → a.layerRange.1 = 0
  next : ∀ (v : ℕ) (a b : PipelineStageAssignment), assignments[v]? = some a →
    assignments[v + 1]? = some b → b.layerRange.1 = a.layerRange.2
  last : ∀ a, assignments.getLast? = some a → a.layerRange.2 = nLayer
  ordered : ∀ a ∈ assignments, a.layerRange.1 ≤ a.layerRange.2
  balanced : ∀ a ∈ assignments, ∀ b ∈ assignments, a.layerCount ≤ b.layerCount + 1

theorem layersPartitioned_stageAssignment {nLayer total physicalStages : ℕ} (hpos : 0 < total) :
    LayersPartitioned nLayer total ((List.range total).map
      (stageAssignment physicalStages (nLayer / total) (nLayer % total))) := by
  obtain ⟨total, rfl⟩ : ∃ n, total = n + 1 := ⟨total - 1, by omega⟩
  have hget : ∀ {v : ℕ} {a : PipelineStageAssignment}, ((List.range (total + 1)).map
      (stageAssignment physicalStages (nLayer / (total + 1)) (nLayer % (total + 1))))[v]? = some a →
      a = stageAssignment physicalStages (nLayer / (total + 1)) (nLayer % (total + 1)) v := by
    intro v a ha
    rw [getElem?_map, Option.map_eq_some_iff] at ha
    obtain ⟨v', hv', rfl⟩ := ha
    obtain ⟨hlt, rfl⟩ := List.getElem?_eq_some_iff.1 hv'
    rw [getElem_range]
  refine ⟨by simp, fun v a ha => ?_, fun a ha => ?_, fun v a b ha hb => ?_, fun a ha => ?_,
    fun a ha => ?_, fun a ha b hb => ?_⟩
  · rw [hget ha]
    rfl
  · rw [range_succ_eq_map, map_cons, head?_cons, Option.some.injEq] at ha
    rw [← ha]
    simp [stageAssignment, layerCursor]
  · rw [hget ha, hget hb]
    rfl
  · rw [range_succ, map_append, map_singleton, getLast?_concat, Option.some.injEq] at ha
    rw [← ha]
    exact layerCursor_total hpos
  · obtain ⟨v, -, rfl⟩ := mem_map.1 ha
    simp only [stageAssignment, layerCursor_succ]
    exact Nat.le_add_right _ _
  · obtain ⟨v, -, rfl⟩ := mem_map.1 ha
    obtain ⟨w, -, rfl⟩ := mem_map.1 hb
    simp only [PipelineStageAssignment.layerCount, stageAssignment, layerCursor_succ]
    split <;> split <;> omega

/-! ## The events -/

section Events

variable {microbatches virtualStages physicalStages base remainder : ℕ}
  {schedule : PipelineScheduleKind}

variable (schedule microbatches virtualStages base remainder) in
/-- `build_pipeline_events` returns a full list schedule. -/
theorem eventsLoop_returns (hstages : 0 < physicalStages) :
    ∃ result, Loop.Returns (eventsPass (stages virtualStages physicalStages base remainder) schedule
        (microbatches * virtualStages * 2))
        ⟨List.replicate microbatches (List.replicate virtualStages false),
          List.replicate microbatches (List.replicate virtualStages false), [], 0⟩ result ∧
      ∃ s, EventsAt microbatches virtualStages physicalStages s ∧
        microbatches * virtualStages * 2 ≤ s.events.length ∧ result = .ok s.events := by
  refine Loop.exists_returns_of_pass (I := EventsAt microbatches virtualStages physicalStages)
    (fun s => microbatches * virtualStages * 2 - s.events.length) eventsAt_start fun s hs => ?_
  rcases Nat.lt_or_ge s.events.length (microbatches * virtualStages * 2) with hlt | hge
  · obtain ⟨t, hgo, ht, hmore⟩ := hs.pass hstages hlt
    exact .inr ⟨t, hgo, ht, by omega⟩
  · refine .inl ⟨.ok s.events, ?_, s, hs, hge, rfl⟩
    rw [eventsPass, if_neg (Nat.not_lt.2 hge)]

/-- The events run every forward and every backward exactly once and nothing else, at most one a tick
on every physical stage, each strictly after what it needs, and no tick is empty. -/
structure EventsComplete (microbatches virtualStages physicalStages : ℕ)
    (events : List PipelineScheduleEvent) : Prop where
  once : ∀ kind, ∀ m < microbatches, ∀ v < virtualStages, events.countP (fun event =>
    (event.kind, event.microbatchId, event.virtualStageId) = (kind, m, v)) = 1
  only : ∀ event ∈ events, event.microbatchId < microbatches ∧ event.virtualStageId < virtualStages
  placed : ∀ event ∈ events, event.physicalStageId = event.virtualStageId % physicalStages ∧
    event.localStageIndex = event.virtualStageId / physicalStages
  onePerTick : ∀ event ∈ events, ∀ event' ∈ events, event.tick = event'.tick →
    event.physicalStageId = event'.physicalStageId → event = event'
  forward_after_forward : ∀ event ∈ events, ∀ event' ∈ events, event.kind = .forward →
    event'.kind = .forward → event.microbatchId = event'.microbatchId →
    event.virtualStageId = event'.virtualStageId + 1 → event'.tick < event.tick
  backward_after_forward : ∀ event ∈ events, ∀ event' ∈ events, event.kind = .backward →
    event'.kind = .forward → event.microbatchId = event'.microbatchId →
    event.virtualStageId = event'.virtualStageId → event'.tick < event.tick
  backward_after_backward : ∀ event ∈ events, ∀ event' ∈ events, event.kind = .backward →
    event'.kind = .backward → event.microbatchId = event'.microbatchId →
    event'.virtualStageId = event.virtualStageId + 1 → event'.tick < event.tick

theorem EventsAt.complete {s : EventLoop} (h : EventsAt microbatches virtualStages physicalStages s)
    (hfull : microbatches * virtualStages * 2 ≤ s.events.length) :
    EventsComplete microbatches virtualStages physicalStages s.events := by
  have hmem : ∀ event ∈ s.events, timed event ∈ s.events.map timed := fun _ hevent =>
    mem_map_of_mem hevent
  have hcard : (pipelineGraph microbatches virtualStages physicalStages).tasks.card ≤
      (s.events.map timed).length := by
    rw [card_tasks, length_map]
    exact hfull
  have honly : ∀ event ∈ s.events,
      event.microbatchId < microbatches ∧ event.virtualStageId < virtualStages :=
    fun event hevent => mem_tasks.1 (h.schedule.mem _ (hmem event hevent))
  refine ⟨fun kind m hm v hv => ?_, honly, h.placed, fun event hevent event' hevent' htick hstage => ?_,
    fun event hevent event' hevent' hkind hkind' hsame hnext => ?_,
    fun event hevent event' hevent' hkind hkind' hsame hstage => ?_,
    fun event hevent event' hevent' hkind hkind' hsame hnext => ?_⟩
  · have hdone := (h.schedule.done_iff hcard (kind, m, v)).2 (mem_tasks.2 ⟨hm, hv⟩)
    have hcount := count_eq_one_of_mem h.schedule.nodup (done_iff_mem.1 hdone)
    rw [map_map, List.count, countP_map] at hcount
    refine (countP_congr fun event _ => ?_).trans hcount
    simp [timed]
  · have hplace := (h.placed event hevent).1
    have hplace' := (h.placed event' hevent').1
    have heq := h.schedule.machine _ (hmem event hevent) _ (hmem event' hevent') htick
      (hplace.symm.trans (hstage.trans hplace'))
    obtain ⟨tick, p, v, l, m, kind⟩ := event
    obtain ⟨tick', p', v', l', m', kind'⟩ := event'
    simp only [timed, Prod.mk.injEq] at heq
    obtain ⟨rfl, rfl, rfl, rfl⟩ := heq
    obtain rfl : p = p' := hstage
    obtain rfl : l = l' := (h.placed _ hevent).2.trans (h.placed _ hevent').2.symm
    rfl
  · refine h.schedule.lt_of_needs (hmem event hevent) (hmem event' hevent') ?_
    rw [hkind, hkind', hsame, hnext]
    exact ⟨Nat.succ_pos _, rfl⟩
  · refine h.schedule.lt_of_needs (hmem event hevent) (hmem event' hevent') ?_
    rw [hkind, hkind', hsame, hstage]
    exact .inl rfl
  · refine h.schedule.lt_of_needs (hmem event hevent) (hmem event' hevent') ?_
    rw [hkind, hkind', hsame, hnext]
    exact .inr ⟨hnext ▸ (honly event' hevent').2, rfl⟩

/-! ## The metrics -/

/-- Every residue has the same number of virtual stages. -/
theorem countP_mod {p k : ℕ} (hp : p < physicalStages) :
    (List.range (physicalStages * k)).countP (fun v => v % physicalStages = p) = k := by
  induction k with
  | zero => rfl
  | succ k ih =>
    have hlast : (List.range physicalStages).countP
        (fun v => (physicalStages * k + v) % physicalStages = p) = 1 := by
      rw [countP_congr (q := fun v => v == p) fun v hv => ?_]
      · exact count_eq_one_of_mem nodup_range (mem_range.2 hp)
      · rw [Nat.mul_add_mod, Nat.mod_eq_of_lt (mem_range.1 hv)]
        simp
    rw [Nat.mul_succ, range_add, countP_append, ih, countP_map]
    exact congrArg (k + ·) hlast

theorem EventsAt.countP_stage {s : EventLoop} {k p : ℕ}
    (h : EventsAt microbatches (physicalStages * k) physicalStages s)
    (hfull : microbatches * (physicalStages * k) * 2 ≤ s.events.length) (hp : p < physicalStages) :
    s.events.countP (fun event => event.physicalStageId = p) = 2 * microbatches * k := by
  have hcard : (pipelineGraph microbatches (physicalStages * k) physicalStages).tasks.card ≤
      (s.events.map timed).length := by
    rw [card_tasks, length_map]
    exact hfull
  have hmachine := h.schedule.countP_machine hcard p
  have htasks : (pipelineGraph microbatches (physicalStages * k) physicalStages).tasks.filter
      (fun task => (pipelineGraph microbatches (physicalStages * k) physicalStages).machine task = p) =
      {.forward, .backward} ×ˢ Finset.range microbatches ×ˢ
        (Finset.range (physicalStages * k)).filter fun v => v % physicalStages = p := by
    ext ⟨kind, m, v⟩
    have hmachine : (pipelineGraph microbatches (physicalStages * k) physicalStages).machine
        (kind, m, v) = v % physicalStages := rfl
    rw [Finset.mem_filter, mem_tasks, hmachine]
    cases kind <;> simp [and_assoc]
  have hresidue : ((Finset.range (physicalStages * k)).filter fun v => v % physicalStages = p).card =
      k := by
    have hcount := countP_mod (k := k) hp
    rwa [countP_eq_length_filter] at hcount
  rw [htasks, Finset.card_product, Finset.card_product, Finset.card_pair (by decide),
    Finset.card_range, hresidue, countP_map] at hmachine
  rw [← Nat.mul_assoc] at hmachine
  rw [← hmachine]
  refine countP_congr fun event hevent => ?_
  show decide (event.physicalStageId = p) = true ↔
    decide (event.virtualStageId % physicalStages = p) = true
  rw [(h.placed event hevent).1]

/-- The ticks of the metrics: none is empty, and every stage is busy for its share of the tasks. -/
structure TicksCovered (microbatches virtualStagesPerRank physicalStages : ℕ)
    (events : List PipelineScheduleEvent) (metrics : PipelinePlanMetrics) : Prop where
  busy : ∀ k < metrics.totalTicks, ∃ event ∈ events, event.tick = k
  within : ∀ event ∈ events, event.tick < metrics.totalTicks
  stages : metrics.stageBusyTicks =
    List.replicate physicalStages (2 * microbatches * virtualStagesPerRank)

theorem EventsAt.ticksCovered {s : EventLoop} {k : ℕ}
    (h : EventsAt microbatches (physicalStages * k) physicalStages s)
    (hfull : microbatches * (physicalStages * k) * 2 ≤ s.events.length) :
    TicksCovered microbatches k physicalStages s.events
      (buildPipelineMetrics physicalStages s.events) := by
  have hticks : ∀ event ∈ s.events, event.tick < s.tick := fun event hevent =>
    h.schedule.lt (timed event) (mem_map_of_mem hevent)
  have htotal : (buildPipelineMetrics physicalStages s.events).totalTicks =
      ((s.events.map PipelineScheduleEvent.tick).max?.map (· + 1)).getD 0 := rfl
  refine ⟨fun j hj => ?_, fun event hevent => ?_, ?_⟩
  · rw [htotal] at hj
    cases hmax : (s.events.map PipelineScheduleEvent.tick).max? with
    | none => simp [hmax] at hj
    | some last =>
      obtain ⟨event, hevent, rfl⟩ := mem_map.1 (max?_eq_some_iff.1 hmax).1
      rw [hmax, Option.map_some, Option.getD_some] at hj
      obtain ⟨task, htask⟩ := h.schedule.busy j ((Nat.le_of_lt_succ hj).trans_lt (hticks event hevent))
      obtain ⟨event', hevent', heq⟩ := mem_map.1 htask
      exact ⟨event', hevent', congrArg Prod.fst heq⟩
  · rw [htotal]
    have hmem : event.tick ∈ s.events.map PipelineScheduleEvent.tick := mem_map_of_mem hevent
    cases hmax : (s.events.map PipelineScheduleEvent.tick).max? with
    | none => rw [max?_eq_none_iff.1 hmax] at hmem; cases hmem
    | some last => exact Nat.lt_succ_of_le ((max?_eq_some_iff.1 hmax).2 _ hmem)
  · show s.events.foldl (fun busy event => busy.modify event.physicalStageId (· + 1))
      (List.replicate physicalStages 0) = _
    rw [foldl_modify_succ PipelineScheduleEvent.physicalStageId]
    refine ext_getElem (by simp) fun p hp hp' => ?_
    have hp'' : p < physicalStages := by simpa using hp'
    simp only [getElem_mapIdx, getElem_replicate, Nat.zero_add]
    exact h.countP_stage hfull hp''

end Events

/-! ## The plan -/

section Plan

variable {nLayer total : ℕ} {pipeline : ParallelPipelineConfig}

/-- What the checks of a plan establish. -/
theorem checkPipelinePlan_eq_ok (h : checkPipelinePlan nLayer pipeline = .ok total) :
    0 < pipeline.stageCount ∧ 0 < pipeline.virtualStagesPerRank ∧
      pipeline.stageCount * pipeline.virtualStagesPerRank ≤ usizeMax ∧
      total = pipeline.stageCount * pipeline.virtualStagesPerRank := by
  unfold checkPipelinePlan at h
  split_ifs at h with henabled hlayers hstages hvirtual hmany hmicro hschedule
  rw [checkedMul] at h
  split_ifs at h with hfits
  simp only at h
  split_ifs at h with hlimit
  exact ⟨Nat.pos_of_ne_zero hstages, Nat.pos_of_ne_zero hvirtual, hfits, (Except.ok.inj h).symm⟩

/-- A configuration that passes the checks, and whose number of events does not overflow, has a plan
with the events of a full list schedule. -/
theorem exists_plan (hcheck : checkPipelinePlan nLayer pipeline = .ok total)
    (hevents : pipeline.microbatches * total * 2 ≤ usizeMax) :
    ∃ plan s, BuildPipelinePlanReturns nLayer pipeline (.ok plan) ∧
      EventsAt pipeline.microbatches total pipeline.stageCount s ∧
      pipeline.microbatches * total * 2 ≤ s.events.length ∧
      plan.stageAssignments = (List.range total).map
        (stageAssignment pipeline.stageCount (nLayer / total) (nLayer % total)) ∧
      plan.events = s.events ∧
      plan.metrics = buildPipelineMetrics pipeline.stageCount s.events := by
  obtain ⟨hstages, hvirtual, hfits, rfl⟩ := checkPipelinePlan_eq_ok hcheck
  set total := pipeline.stageCount * pipeline.virtualStagesPerRank with htotal
  obtain ⟨result, ⟨fuel, hrun⟩, s, hs, hfull, rfl⟩ := eventsLoop_returns pipeline.microbatches total
    (nLayer / total) (nLayer % total) pipeline.schedule hstages
  have hmul : pipeline.microbatches * total ≤ usizeMax := by omega
  have hassignments := partitionLayers_eq nLayer hfits
  rw [← htotal] at hassignments
  have hrun' : buildPipelineEvents fuel pipeline.stageCount ((List.range total).map
      (stageAssignment pipeline.stageCount (nLayer / total) (nLayer % total))) pipeline.microbatches
      pipeline.schedule = some (.ok s.events) := by
    rw [buildPipelineEvents]
    simp only [length_map, length_range, checkedMul, if_pos hmul, Option.bind_some,
      if_pos hevents, assignmentsByPhysicalStage_eq]
    exact hrun
  have hplan : buildPipelinePlan fuel nLayer pipeline = some (.ok
      { physicalStageCount := pipeline.stageCount
        virtualStagesPerRank := pipeline.virtualStagesPerRank
        totalVirtualStages := total
        microbatches := pipeline.microbatches
        schedule := pipeline.schedule
        partition := pipeline.partition
        stageAssignments := (List.range total).map
          (stageAssignment pipeline.stageCount (nLayer / total) (nLayer % total))
        events := s.events
        metrics := buildPipelineMetrics pipeline.stageCount s.events }) := by
    simp only [buildPipelinePlan, hcheck, hassignments, hrun', Option.map_some]
    rfl
  exact ⟨_, s, ⟨fuel, hplan⟩, hs, hfull, rfl, rfl, rfl⟩

/-- Two stages with two chunks each and four microbatches. -/
def interleavedConfig : ParallelPipelineConfig :=
  ⟨true, 2, 2, .interleaved1f1b, 4, .layerContiguous⟩

end Plan

end BurnDragon.Pipeline
