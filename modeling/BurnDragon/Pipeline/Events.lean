import BurnDragon.Layout.RowMajor
import BurnDragon.Pipeline.Layers
import BurnDragon.Scheduling.ListSchedule

/-!
# The events of a plan

The forwards and backwards of all microbatches on all virtual stages are a task graph
(`pipelineGraph`): a forward needs the forward on the stage before, a backward needs its own forward
and the backward on the stage after. The tables of `build_pipeline_events` say which tasks are done, so
the ready tasks that it collects are the ready tasks of the graph (`EventsAt.mem_readyForwards`,
`EventsAt.mem_readyBackwards`), and whatever
the keys of the schedule, a tick is one of a list scheduler (`EventsAt.pass`).
-/

namespace BurnDragon.Pipeline

open Layout Scheduling Transition List

/-! ## The task graph -/

/-- A forward or backward of a microbatch on a virtual stage. -/
abbrev Task := PipelineEventKind × ℕ × ℕ

/-- The tasks of a plan and what they need. -/
def pipelineGraph (microbatches virtualStages physicalStages : ℕ) : TaskGraph Task ℕ where
  tasks := {.forward, .backward} ×ˢ Finset.range microbatches ×ˢ Finset.range virtualStages
  machine task := task.2.2 % physicalStages
  needs a b :=
    match a with
    | (.forward, m, v) => 0 < v ∧ b = (.forward, m, v - 1)
    | (.backward, m, v) =>
      b = (.forward, m, v) ∨ v + 1 < virtualStages ∧ b = (.backward, m, v + 1)
  rank
    | (.forward, _, v) => v
    | (.backward, _, v) => v + 1 + 2 * (virtualStages - v)
  mem_of_needs {a b} h ha := by
    obtain ⟨kind, m, v⟩ := a
    simp only [Finset.mem_product, Finset.mem_insert, Finset.mem_singleton, Finset.mem_range] at ha ⊢
    cases kind with
    | forward =>
      obtain ⟨hv, rfl⟩ := h
      exact ⟨.inl rfl, ha.2.1, (Nat.sub_le v 1).trans_lt ha.2.2⟩
    | backward =>
      rcases h with rfl | ⟨hv, rfl⟩
      · exact ⟨.inl rfl, ha.2⟩
      · exact ⟨.inr rfl, ha.2.1, hv⟩
  rank_lt {a b} h := by
    obtain ⟨kind, m, v⟩ := a
    cases kind with
    | forward =>
      obtain ⟨hv, rfl⟩ := h
      exact Nat.sub_lt hv Nat.one_pos
    | backward =>
      rcases h with rfl | ⟨hv, rfl⟩
      · show v < v + 1 + 2 * (virtualStages - v)
        omega
      · show v + 1 + 1 + 2 * (virtualStages - (v + 1)) < v + 1 + 2 * (virtualStages - v)
        omega

section Graph

variable {microbatches virtualStages physicalStages : ℕ}

theorem mem_tasks {kind : PipelineEventKind} {m v : ℕ} :
    (kind, m, v) ∈ (pipelineGraph microbatches virtualStages physicalStages).tasks ↔
      m < microbatches ∧ v < virtualStages := by
  cases kind <;> simp [pipelineGraph]

theorem card_tasks : (pipelineGraph microbatches virtualStages physicalStages).tasks.card =
    microbatches * virtualStages * 2 := by
  simp only [pipelineGraph, Finset.card_product, Finset.card_range]
  rw [Finset.card_pair (by decide)]
  ring

end Graph

/-! ## Tables -/

/-- A table of the right size. -/
def FullTable (microbatches virtualStages : ℕ) (table : DoneTable) : Prop :=
  table.length = microbatches ∧ Rect table virtualStages

section Tables

variable {microbatches virtualStages : ℕ} {table : DoneTable}

theorem fullTable_replicate : FullTable microbatches virtualStages
    (List.replicate microbatches (List.replicate virtualStages false)) := by
  refine ⟨length_replicate, fun row hrow => ?_⟩
  rw [eq_of_mem_replicate hrow, length_replicate]

theorem isDone_replicate (m v : ℕ) : isDone
    (List.replicate microbatches (List.replicate virtualStages false)) m v = false := by
  simp only [isDone, getD_eq_getElem?_getD, getElem?_replicate]
  split
  · simp only [Option.getD_some, getElem?_replicate]
    split <;> rfl
  · rfl

variable {m : ℕ}

section

variable (h : FullTable microbatches virtualStages table)
include h

theorem FullTable.exists_row (hm : m < microbatches) :
    ∃ row, table[m]? = some row ∧ row.length = virtualStages :=
  ⟨_, getElem?_eq_getElem (h.1 ▸ hm), h.2 _ (getElem_mem _)⟩

theorem FullTable.length_row (hm : m < microbatches) :
    (table.getD m []).length = virtualStages := by
  obtain ⟨row, hrow, hlen⟩ := h.exists_row hm
  rw [getD_eq_getElem?_getD, hrow, Option.getD_some, hlen]

theorem FullTable.markDone (m v : ℕ) :
    FullTable microbatches virtualStages (markDone table m v) := by
  refine ⟨by rw [Pipeline.markDone, length_modify, h.1], fun row hrow => ?_⟩
  obtain ⟨i, hi, rfl⟩ := getElem_of_mem hrow
  rw [Pipeline.markDone, length_modify] at hi
  simp only [Pipeline.markDone, getElem_modify]
  split
  · rw [length_set]
    exact h.2 _ (getElem_mem hi)
  · exact h.2 _ (getElem_mem hi)

theorem FullTable.isDone_markDone {v : ℕ} (hm : m < microbatches) (hv : v < virtualStages)
    (m' v' : ℕ) :
    isDone (Pipeline.markDone table m v) m' v' = true ↔
      (m' = m ∧ v' = v) ∨ isDone table m' v' = true := by
  obtain ⟨row, hrow, hlen⟩ := h.exists_row hm
  simp only [isDone, Pipeline.markDone, getD_eq_getElem?_getD, getElem?_modify]
  by_cases hm' : m = m'
  · subst hm'
    rw [hrow]
    by_cases hv' : v = v'
    · subst hv'
      simp [hlen, hv]
    · simp [hv', Ne.symm hv']
  · simp [hm', Ne.symm hm']

/-- All entries of a full table. -/
theorem FullTable.isDone_of_all (hall : table.flatten.all id = true) {v : ℕ} (hm : m < microbatches)
    (hv : v < virtualStages) :
    isDone table m v = true := by
  obtain ⟨row, hrow, hlen⟩ := h.exists_row hm
  have hv' : v < row.length := hlen ▸ hv
  rw [isDone, getD_eq_getElem?_getD, getD_eq_getElem?_getD, hrow, Option.getD_some,
    getElem?_eq_getElem hv']
  exact all_eq_true.1 hall _
    (mem_flatten_of_mem (mem_of_getElem? hrow) (getElem_mem hv'))

end

end Tables

/-! ## Runs of the loop -/

section Runs

variable {nLayer microbatches virtualStages physicalStages base remainder : ℕ}
  {schedule : PipelineScheduleKind} {s : EventLoop}

/-- The tick and the task of an event. -/
def timed (event : PipelineScheduleEvent) : ℕ × Task :=
  (event.tick, event.kind, event.microbatchId, event.virtualStageId)

/-- The task that a physical stage has chosen. -/
def chosenTask (ready : ℕ × ReadyTask) : Task :=
  (ready.2.kind, ready.2.microbatchId, ready.2.virtualStageId)

/-- A number of a physical stage and of a local stage that belong to the virtual stage. -/
def PlacedAt (physicalStages virtualStageId physicalStageId localStageIndex : ℕ) : Prop :=
  physicalStageId = virtualStageId % physicalStages ∧
    localStageIndex = virtualStageId / physicalStages

variable (microbatches virtualStages physicalStages) in
/-- The loop of `build_pipeline_events` at the head of a tick: the tables are those of a list
schedule. -/
structure EventsAt (s : EventLoop) : Prop where
  forwardTable : FullTable microbatches virtualStages s.forwardDone
  backwardTable : FullTable microbatches virtualStages s.backwardDone
  forward_iff : ∀ m v, isDone s.forwardDone m v = true ↔
    Done (s.events.map timed) (.forward, m, v)
  backward_iff : ∀ m v, isDone s.backwardDone m v = true ↔
    Done (s.events.map timed) (.backward, m, v)
  placed : ∀ event ∈ s.events,
    PlacedAt physicalStages event.virtualStageId event.physicalStageId event.localStageIndex
  schedule : PartialSchedule (pipelineGraph microbatches virtualStages physicalStages) s.tick
    (s.events.map timed)

theorem eventsAt_start : EventsAt microbatches virtualStages physicalStages
    ⟨List.replicate microbatches (List.replicate virtualStages false),
      List.replicate microbatches (List.replicate virtualStages false), [], 0⟩ where
  forwardTable := fullTable_replicate
  backwardTable := fullTable_replicate
  forward_iff m v := by simp [isDone_replicate, Done]
  backward_iff m v := by simp [isDone_replicate, Done]
  placed _ h := absurd h not_mem_nil
  schedule := .start

/-! ### The tasks that a stage collects -/

variable (physicalStages base remainder) in
/-- The assignments of a physical stage. -/
def stageAssignments (virtualStages p : ℕ) : List PipelineStageAssignment :=
  ((List.range virtualStages).map (stageAssignment physicalStages base remainder)).filter
    fun a => a.physicalStageId = p

variable {p : ℕ}

theorem mem_stageAssignments {a : PipelineStageAssignment} :
    a ∈ stageAssignments physicalStages base remainder virtualStages p ↔
      ∃ v < virtualStages, v % physicalStages = p ∧
        a = stageAssignment physicalStages base remainder v := by
  simp only [stageAssignments, mem_filter, mem_map, mem_range, decide_eq_true_eq]
  constructor
  · rintro ⟨⟨v, hv, rfl⟩, hp⟩
    exact ⟨v, hv, hp, rfl⟩
  · rintro ⟨v, hv, hp, rfl⟩
    exact ⟨⟨v, hv, rfl⟩, hp⟩

variable {task : ReadyTask}

/-- The collected forwards are the ready forwards of the stage. -/
theorem EventsAt.mem_readyForwards (h : EventsAt microbatches virtualStages physicalStages s) :
    task ∈ readyForwards (stageAssignments physicalStages base remainder virtualStages p)
        s.forwardDone ↔
      ∃ m v, v % physicalStages = p ∧
        Ready (pipelineGraph microbatches virtualStages physicalStages) (s.events.map timed)
          (.forward, m, v) ∧
        task = ⟨.forward, m, v, v % physicalStages, v / physicalStages⟩ := by
  simp only [readyForwards, mem_flatMap, mem_filterMap, mem_range,
    Option.ite_none_right_eq_some, Option.some.injEq, mem_stageAssignments]
  constructor
  · rintro ⟨a, ⟨v, hv, hp, rfl⟩, m, hm, hready, rfl⟩
    simp only [stageAssignment, Bool.and_eq_true, Bool.not_eq_true', Bool.or_eq_true, beq_iff_eq]
      at hready
    refine ⟨m, v, hp, ⟨mem_tasks.2 ⟨h.forwardTable.1 ▸ hm, hv⟩, fun hdone => ?_, ?_⟩, rfl⟩
    · rw [(h.forward_iff m v).2 hdone] at hready
      cases hready.1
    · rintro b ⟨hv, rfl⟩
      exact (h.forward_iff m (v - 1)).1 (hready.2.resolve_left hv.ne')
  · rintro ⟨m, v, hp, hready, rfl⟩
    obtain ⟨hm, hv⟩ := mem_tasks.1 hready.mem
    refine ⟨_, ⟨v, hv, hp, rfl⟩, m, h.forwardTable.1.symm ▸ hm, ?_, rfl⟩
    simp only [stageAssignment, Bool.and_eq_true, Bool.not_eq_true', Bool.or_eq_true, beq_iff_eq]
    refine ⟨Bool.eq_false_iff.2 fun hdone => hready.not_done ((h.forward_iff m v).1 hdone), ?_⟩
    rcases Nat.eq_zero_or_pos v with hzero | hpos
    · exact .inl hzero
    · exact .inr ((h.forward_iff m (v - 1)).2 (hready.needs _ ⟨hpos, rfl⟩))

/-- The collected backwards are the ready backwards of the stage. -/
theorem EventsAt.mem_readyBackwards (h : EventsAt microbatches virtualStages physicalStages s) :
    task ∈ readyBackwards (stageAssignments physicalStages base remainder virtualStages p)
        s.forwardDone s.backwardDone ↔
      ∃ m v, v % physicalStages = p ∧
        Ready (pipelineGraph microbatches virtualStages physicalStages) (s.events.map timed)
          (.backward, m, v) ∧
        task = ⟨.backward, m, v, v % physicalStages, v / physicalStages⟩ := by
  simp only [readyBackwards, mem_flatMap, mem_filterMap, mem_range,
    Option.ite_none_right_eq_some, Option.some.injEq, mem_stageAssignments]
  constructor
  · rintro ⟨a, ⟨v, hv, hp, rfl⟩, m, hm, hready, rfl⟩
    have hm : m < microbatches := h.forwardTable.1 ▸ hm
    simp only [stageAssignment, Bool.and_eq_true, Bool.not_eq_true', Bool.or_eq_true, beq_iff_eq,
      h.backwardTable.length_row hm] at hready
    obtain ⟨⟨hnot, hforward⟩, hnext⟩ := hready
    refine ⟨m, v, hp, ⟨mem_tasks.2 ⟨hm, hv⟩, fun hdone => ?_, ?_⟩, rfl⟩
    · rw [(h.backward_iff m v).2 hdone] at hnot
      cases hnot
    · rintro b (rfl | ⟨hv, rfl⟩)
      · exact (h.forward_iff m v).1 hforward
      · exact (h.backward_iff m (v + 1)).1 (hnext.resolve_left hv.ne)
  · rintro ⟨m, v, hp, hready, rfl⟩
    obtain ⟨hm, hv⟩ := mem_tasks.1 hready.mem
    refine ⟨_, ⟨v, hv, hp, rfl⟩, m, h.forwardTable.1.symm ▸ hm, ?_, rfl⟩
    simp only [stageAssignment, Bool.and_eq_true, Bool.not_eq_true', Bool.or_eq_true, beq_iff_eq,
      h.backwardTable.length_row hm]
    refine ⟨⟨Bool.eq_false_iff.2 fun hdone => hready.not_done ((h.backward_iff m v).1 hdone),
      (h.forward_iff m v).2 (hready.needs _ (.inl rfl))⟩, ?_⟩
    rcases Nat.lt_or_ge (v + 1) virtualStages with hlt | hge
    · exact .inr ((h.backward_iff m (v + 1)).2 (hready.needs _ (.inr ⟨hlt, rfl⟩)))
    · exact .inl (by omega)

/-! ### The task that a stage chooses -/

theorem chooseReadyTask_mem {assignments : List PipelineStageAssignment}
    {forwardDone backwardDone : DoneTable} {allForwardsComplete : Bool}
    (h : chooseReadyTask assignments forwardDone backwardDone schedule allForwardsComplete = some
      task) :
    task ∈ readyForwards assignments forwardDone ∨
      task ∈ readyBackwards assignments forwardDone backwardDone := by
  cases schedule with
  | gpipe =>
    simp only [chooseReadyTask] at h
    split at h
    · rcases Option.or_eq_some_iff.1 h with hforward | ⟨-, hbackward⟩
      · exact .inl (argmin_mem hforward)
      · exact .inr (argmin_mem hbackward)
    · exact .inr (argmin_mem h)
  | interleaved1f1b =>
    rcases Option.or_eq_some_iff.1 h with hbackward | ⟨-, hforward⟩
    · exact .inr (argmin_mem hbackward)
    · exact .inl (argmin_mem hforward)

/-- Whatever the keys, a stage chooses a task when it has one. -/
theorem chooseReadyTask_eq_none {assignments : List PipelineStageAssignment}
    {forwardDone backwardDone : DoneTable} {allForwardsComplete : Bool}
    (hall : allForwardsComplete = true → readyForwards assignments forwardDone = [])
    (h : chooseReadyTask assignments forwardDone backwardDone schedule allForwardsComplete = none) :
    readyForwards assignments forwardDone = [] ∧
      readyBackwards assignments forwardDone backwardDone = [] := by
  cases schedule with
  | gpipe =>
    cases allForwardsComplete with
    | false =>
      obtain ⟨hforward, hbackward⟩ := Option.or_eq_none_iff.1 h
      exact ⟨argmin_eq_none.1 hforward, argmin_eq_none.1 hbackward⟩
    | true => exact ⟨hall rfl, argmin_eq_none.1 h⟩
  | interleaved1f1b =>
    obtain ⟨hbackward, hforward⟩ := Option.or_eq_none_iff.1 h
    exact ⟨argmin_eq_none.1 hforward, argmin_eq_none.1 hbackward⟩

variable (physicalStages virtualStages base remainder) in
/-- The assignments of all physical stages, in order. -/
def stages : List (List PipelineStageAssignment) :=
  (List.range physicalStages).map (stageAssignments physicalStages base remainder virtualStages)

theorem mem_chooseReady :
    (p, task) ∈ chooseReady (stages virtualStages physicalStages base remainder) schedule s ↔
      p < physicalStages ∧
        chooseReadyTask (stageAssignments physicalStages base remainder virtualStages p)
          s.forwardDone s.backwardDone schedule (s.forwardDone.flatten.all id) = some task := by
  simp only [chooseReady, stages, mem_filterMap, Prod.exists, mem_zipIdx_iff_getElem?,
    getElem?_map, Option.map_eq_some_iff, Prod.mk.injEq]
  constructor
  · rintro ⟨assignments, p', ⟨q, hq, rfl⟩, task', htask, rfl, rfl⟩
    obtain ⟨hlt, rfl⟩ := List.getElem?_eq_some_iff.1 hq
    rw [getElem_range] at htask
    exact ⟨by simpa using hlt, htask⟩
  · rintro ⟨hp, htask⟩
    exact ⟨_, p, ⟨p, by rw [getElem?_range hp], rfl⟩, task, htask, rfl, rfl⟩

/-- Every physical stage chooses at most once in a tick. -/
theorem nodup_chooseReady :
    ((chooseReady (stages virtualStages physicalStages base remainder) schedule s).map
      Prod.fst).Nodup := by
  have hsublist : ∀ (l : List (List PipelineStageAssignment × ℕ))
      (f : List PipelineStageAssignment × ℕ → Option ReadyTask),
      ((l.filterMap fun entry => (f entry).map fun task => (entry.2, task)).map Prod.fst).Sublist
        (l.map Prod.snd) := by
    intro l f
    induction l with
    | nil => exact .slnil
    | cons entry l ih =>
      cases hf : f entry with
      | none => simpa [hf] using ih.cons entry.2
      | some task => simpa [hf] using ih.cons₂ entry.2
  refine (hsublist _ fun entry => chooseReadyTask entry.1 s.forwardDone s.backwardDone schedule
    (s.forwardDone.flatten.all id)).nodup ?_
  rw [zipIdx_map_snd]
  exact nodup_range'

/-- A chosen task is ready, and it belongs to the physical stage. -/
theorem EventsAt.ready_of_mem (h : EventsAt microbatches virtualStages physicalStages s)
    {ready : ℕ × ReadyTask}
    (hready : ready ∈ chooseReady (stages virtualStages physicalStages base remainder) schedule s) :
    Ready (pipelineGraph microbatches virtualStages physicalStages) (s.events.map timed)
        (chosenTask ready) ∧
      PlacedAt physicalStages ready.2.virtualStageId ready.1 ready.2.localStageIndex := by
  obtain ⟨p, task⟩ := ready
  obtain ⟨hp, htask⟩ := mem_chooseReady.1 hready
  rcases chooseReadyTask_mem htask with hforward | hbackward
  · obtain ⟨m, v, hplace, htaskReady, rfl⟩ := h.mem_readyForwards.1 hforward
    exact ⟨htaskReady, hplace.symm, rfl⟩
  · obtain ⟨m, v, hplace, htaskReady, rfl⟩ := h.mem_readyBackwards.1 hbackward
    exact ⟨htaskReady, hplace.symm, rfl⟩

variable (base remainder schedule) in
/-- While tasks are left, some stage chooses one. -/
theorem EventsAt.chooseReady_ne_nil (h : EventsAt microbatches virtualStages physicalStages s)
    (hstages : 0 < physicalStages)
    (hlt : s.events.length < microbatches * virtualStages * 2) :
    chooseReady (stages virtualStages physicalStages base remainder) schedule s ≠ [] := by
  obtain ⟨⟨kind, m, v⟩, hready⟩ :=
    h.schedule.exists_ready (by rw [length_map, card_tasks]; exact hlt)
  have hp : v % physicalStages < physicalStages := Nat.mod_lt _ hstages
  have hall : s.forwardDone.flatten.all id = true →
      readyForwards (stageAssignments physicalStages base remainder virtualStages
        (v % physicalStages)) s.forwardDone = [] := by
    intro hall
    refine eq_nil_iff_forall_not_mem.2 fun task htask => ?_
    obtain ⟨m', v', -, hready', -⟩ := h.mem_readyForwards.1 htask
    obtain ⟨hm', hv'⟩ := mem_tasks.1 hready'.mem
    exact hready'.not_done ((h.forward_iff m' v').1 (h.forwardTable.isDone_of_all hall hm' hv'))
  intro hnil
  cases hchoice : chooseReadyTask (stageAssignments physicalStages base remainder virtualStages
      (v % physicalStages)) s.forwardDone s.backwardDone schedule
      (s.forwardDone.flatten.all id) with
  | some task =>
    have hmem := mem_chooseReady.2 ⟨hp, hchoice⟩
    rw [hnil] at hmem
    cases hmem
  | none =>
    obtain ⟨hforwards, hbackwards⟩ := chooseReadyTask_eq_none hall hchoice
    cases kind with
    | forward =>
      exact eq_nil_iff_forall_not_mem.1 hforwards _
        (h.mem_readyForwards.2 ⟨m, v, rfl, hready, rfl⟩)
    | backward =>
      exact eq_nil_iff_forall_not_mem.1 hbackwards _
        (h.mem_readyBackwards.2 ⟨m, v, rfl, hready, rfl⟩)

/-! ### A tick -/

/-- The event of a chosen task. -/
def eventOf (tick : ℕ) (ready : ℕ × ReadyTask) : PipelineScheduleEvent :=
  ⟨tick, ready.1, ready.2.virtualStageId, ready.2.localStageIndex, ready.2.microbatchId,
    ready.2.kind⟩

/-- The stages run their tasks: the events are added, and the tables mark these tasks. -/
theorem foldl_runTask {ready : List (ℕ × ReadyTask)}
    (hforward : FullTable microbatches virtualStages s.forwardDone)
    (hbackward : FullTable microbatches virtualStages s.backwardDone)
    (hready : ∀ r ∈ ready, r.2.microbatchId < microbatches ∧ r.2.virtualStageId < virtualStages) :
    (ready.foldl runTask s).events = s.events ++ ready.map (eventOf s.tick) ∧
      (ready.foldl runTask s).tick = s.tick ∧
      FullTable microbatches virtualStages (ready.foldl runTask s).forwardDone ∧
      FullTable microbatches virtualStages (ready.foldl runTask s).backwardDone ∧
      (∀ m v, isDone (ready.foldl runTask s).forwardDone m v = true ↔
        isDone s.forwardDone m v = true ∨ (.forward, m, v) ∈ ready.map chosenTask) ∧
      ∀ m v, isDone (ready.foldl runTask s).backwardDone m v = true ↔
        isDone s.backwardDone m v = true ∨ (.backward, m, v) ∈ ready.map chosenTask := by
  induction ready generalizing s with
  | nil => simp [hforward, hbackward]
  | cons r ready ih =>
    obtain ⟨hm, hv⟩ := hready r mem_cons_self
    have hrest := fun r' hr' => hready r' (mem_cons_of_mem r hr')
    obtain ⟨p, kind, m, v, p', l⟩ := r
    cases kind with
    | forward =>
      obtain ⟨hevents, htick, hfull, hfull', hmarks, hmarks'⟩ :=
        ih (s := runTask s (p, ⟨.forward, m, v, p', l⟩)) (hforward.markDone m v) hbackward hrest
      refine ⟨?_, htick, hfull, hfull', fun m' v' => ?_, fun m' v' => ?_⟩
      · rw [foldl_cons, hevents]
        simp [runTask, eventOf]
      · rw [foldl_cons, hmarks]
        simp only [runTask, hforward.isDone_markDone hm hv, map_cons, mem_cons, chosenTask,
          Prod.mk.injEq, true_and]
        tauto
      · rw [foldl_cons, hmarks']
        simp [runTask, chosenTask]
    | backward =>
      obtain ⟨hevents, htick, hfull, hfull', hmarks, hmarks'⟩ :=
        ih (s := runTask s (p, ⟨.backward, m, v, p', l⟩)) hforward (hbackward.markDone m v) hrest
      refine ⟨?_, htick, hfull, hfull', fun m' v' => ?_, fun m' v' => ?_⟩
      · rw [foldl_cons, hevents]
        simp [runTask, eventOf]
      · rw [foldl_cons, hmarks]
        simp [runTask, chosenTask]
      · rw [foldl_cons, hmarks']
        simp only [runTask, hbackward.isDone_markDone hm hv, map_cons, mem_cons, chosenTask,
          Prod.mk.injEq, true_and]
        tauto

/-- **A tick of the loop is a tick of a list scheduler**, and it adds an event. -/
theorem EventsAt.pass (h : EventsAt microbatches virtualStages physicalStages s)
    (hstages : 0 < physicalStages) (hlt : s.events.length < microbatches * virtualStages * 2) :
    ∃ t, eventsPass (stages virtualStages physicalStages base remainder) schedule
        (microbatches * virtualStages * 2) s = .go t ∧
      EventsAt microbatches virtualStages physicalStages t ∧ s.events.length < t.events.length := by
  have hne := h.chooseReady_ne_nil base remainder schedule hstages hlt
  obtain ⟨ready, hready⟩ :
      ∃ ready, chooseReady (stages virtualStages physicalStages base remainder) schedule s = ready :=
    ⟨_, rfl⟩
  rw [hready] at hne
  have hnodup : (ready.map Prod.fst).Nodup := hready ▸ nodup_chooseReady
  have hspec : ∀ r ∈ ready, Ready (pipelineGraph microbatches virtualStages physicalStages)
      (s.events.map timed) (chosenTask r) ∧
      PlacedAt physicalStages r.2.virtualStageId r.1 r.2.localStageIndex :=
    fun r hr => h.ready_of_mem (hready.symm ▸ hr)
  obtain ⟨hevents, htick, hfull, hfull', hmarks, hmarks'⟩ :=
    foldl_runTask h.forwardTable h.backwardTable fun r hr => mem_tasks.1 (hspec r hr).1.mem
  have hempty : ready.isEmpty = false := by simpa using hne
  have hgo : eventsPass (stages virtualStages physicalStages base remainder) schedule
      (microbatches * virtualStages * 2) s =
      .go { ready.foldl runTask s with tick := s.tick + 1 } := by
    rw [eventsPass, if_pos hlt]
    simp only [hready, hempty, htick, Bool.false_eq_true, if_false]
  have htimed : (ready.foldl runTask s).events.map timed =
      s.events.map timed ++ (ready.map chosenTask).map fun task => (s.tick, task) := by
    rw [hevents, map_append, map_map, map_map]
    rfl
  have hdone : ∀ task, Done ((ready.foldl runTask s).events.map timed) task ↔
      Done (s.events.map timed) task ∨ task ∈ ready.map chosenTask := by
    intro task
    rw [htimed, done_iff_mem, done_iff_mem, map_append, mem_append, map_map]
    simp
  refine ⟨_, hgo, ⟨hfull, hfull', fun m v => ?_, fun m v => ?_, fun event hevent => ?_, ?_⟩, ?_⟩
  · rw [hmarks, hdone, h.forward_iff]
  · rw [hmarks', hdone, h.backward_iff]
  · rcases mem_append.1 (hevents ▸ hevent) with hevent | hevent
    · exact h.placed event hevent
    · obtain ⟨r, hr, rfl⟩ := mem_map.1 hevent
      exact (hspec r hr).2
  · have hmachine : (ready.map chosenTask).map
        (pipelineGraph microbatches virtualStages physicalStages).machine = ready.map Prod.fst := by
      rw [map_map]
      exact map_congr_left fun r hr => (hspec r hr).2.1.symm
    show PartialSchedule _ (s.tick + 1) ((ready.foldl runTask s).events.map timed)
    rw [htimed]
    refine h.schedule.append_tick (by simpa using hne) (fun task htask => ?_) (hmachine ▸ hnodup)
    obtain ⟨r, hr, rfl⟩ := mem_map.1 htask
    exact (hspec r hr).1
  · have hpos := length_pos_iff.2 hne
    show s.events.length < (ready.foldl runTask s).events.length
    rw [hevents, length_append, length_map]
    omega

end Runs

end BurnDragon.Pipeline
