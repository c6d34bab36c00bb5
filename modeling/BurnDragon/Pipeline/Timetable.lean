import BurnDragon.Pipeline.Complete
import BurnDragon.Scheduling.Timetable

/-!
# Pipeline timetables

The keys of both schedules order the ready tasks of a physical stage by microbatch and virtual
stage, and differ in which kind comes first (`prefers`). A stage takes the ready task that it
prefers (`EventsAt.choose_iff`), so the loop of `build_pipeline_events` follows every timetable for
this preference up to its horizon (`eventsPass_follows`).
-/

namespace BurnDragon.Pipeline

open Rust Scheduling Transition List

/-! ## Preferences -/

/-- The order in which a physical stage takes its ready tasks. -/
def prefers (schedule : PipelineScheduleKind) : Task → Task → Prop
  | (.forward, m, v), (.forward, m', v') => m < m' ∨ m = m' ∧ v ≤ v'
  | (.backward, m, v), (.backward, m', v') => m < m' ∨ m = m' ∧ v' ≤ v
  | (.forward, _), (.backward, _) => schedule = .gpipe
  | (.backward, _), (.forward, _) => schedule = .interleaved1f1b

theorem prefers_antisymm {schedule : PipelineScheduleKind} {a b : Task} (h : prefers schedule a b)
    (h' : prefers schedule b a) : a = b := by
  obtain ⟨kind, m, v⟩ := a
  obtain ⟨kind', m', v'⟩ := b
  cases kind with
  | forward =>
    cases kind' with
    | forward =>
      simp only [prefers] at h h'
      obtain ⟨rfl, rfl⟩ : m = m' ∧ v = v' := by omega
      rfl
    | backward =>
      obtain rfl : schedule = .gpipe := h
      cases h'
  | backward =>
    cases kind' with
    | forward =>
      obtain rfl : schedule = .interleaved1f1b := h
      cases h'
    | backward =>
      simp only [prefers] at h h'
      obtain ⟨rfl, rfl⟩ : m = m' ∧ v = v' := by omega
      rfl

/-- The first minimum, where the keys are different. -/
theorem argmin_eq_some_iff_of_inj {α β : Type*} [LinearOrder β] {f : α → β} {l : List α} {a : α}
    (hinj : ∀ a ∈ l, ∀ b ∈ l, f a = f b → a = b) :
    l.argmin f = some a ↔ a ∈ l ∧ ∀ b ∈ l, f a ≤ f b := by
  constructor
  · intro h
    exact ⟨argmin_mem h, fun b hb => le_of_mem_argmin hb h⟩
  · rintro ⟨ha, hmin⟩
    cases hargmin : l.argmin f with
    | none =>
      rw [argmin_eq_none.mp hargmin] at ha
      cases ha
    | some b =>
      have hb : b ∈ l := argmin_mem hargmin
      rw [hinj b hb a ha (le_antisymm (le_of_mem_argmin ha hargmin) (hmin b hb))]

/-- A key that compares the part of a number above the stages first compares the numbers. -/
theorem lex_div_le_iff {v v' d : ℕ} : toLex (v / d, v) ≤ toLex (v' / d, v') ↔ v ≤ v' := by
  rw [Prod.Lex.toLex_le_toLex]
  constructor
  · rintro (hlt | ⟨-, hle⟩)
    · exact (Nat.lt_of_div_lt_div hlt).le
    · exact hle
  · intro hle
    rcases (Nat.div_le_div_right hle (c := d)).lt_or_eq with hlt | heq
    · exact .inl hlt
    · exact .inr ⟨heq, hle⟩

theorem lex_dual_div_le_iff {v v' d : ℕ} :
    toLex (OrderDual.toDual (v / d), OrderDual.toDual v) ≤
      toLex (OrderDual.toDual (v' / d), OrderDual.toDual v') ↔ v' ≤ v := by
  rw [Prod.Lex.toLex_le_toLex]
  constructor
  · rintro (hlt | ⟨-, hle⟩)
    · exact (Nat.lt_of_div_lt_div (OrderDual.toDual_lt_toDual.mp hlt)).le
    · exact OrderDual.toDual_le_toDual.mp hle
  · intro hle
    rcases (Nat.div_le_div_right hle (c := d)).lt_or_eq with hlt | heq
    · exact .inl (OrderDual.toDual_lt_toDual.mpr hlt)
    · exact .inr ⟨congrArg OrderDual.toDual heq.symm, OrderDual.toDual_le_toDual.mpr hle⟩

/-! ## The choice of a stage -/

/-- The task of a ready task. -/
def taskOf (ready : ReadyTask) : Task := (ready.kind, ready.microbatchId, ready.virtualStageId)

section Choice

variable {schedule : PipelineScheduleKind} {κ κ' : Type*} [LinearOrder κ] [LinearOrder κ']
  {f : ReadyTask → κ} {g : ReadyTask → κ'} {l l' : List ReadyTask} {task : ReadyTask}

/-- A list of ready tasks with a key that orders them as the stage prefers them. -/
structure Keyed (schedule : PipelineScheduleKind) (f : ReadyTask → κ) (l : List ReadyTask) :
    Prop where
  le_iff : ∀ a ∈ l, ∀ b ∈ l, f a ≤ f b ↔ prefers schedule (taskOf a) (taskOf b)
  inj : ∀ a ∈ l, ∀ b ∈ l, taskOf a = taskOf b → a = b

theorem Keyed.argmin_iff (h : Keyed schedule f l) :
    l.argmin f = some task ↔
      task ∈ l ∧ ∀ b ∈ l, prefers schedule (taskOf task) (taskOf b) := by
  have hinj : ∀ a ∈ l, ∀ b ∈ l, f a = f b → a = b := fun a ha b hb heq =>
    h.inj a ha b hb (prefers_antisymm ((h.le_iff a ha b hb).mp heq.le)
      ((h.le_iff b hb a ha).mp heq.ge))
  rw [argmin_eq_some_iff_of_inj hinj]
  exact and_congr_right fun htask => forall₂_congr fun b hb => h.le_iff task htask b hb

/-- The first list is preferred to the second. -/
theorem Keyed.or_argmin_iff (h : Keyed schedule f l) (h' : Keyed schedule g l')
    (hfirst : ∀ a ∈ l, ∀ b ∈ l', prefers schedule (taskOf a) (taskOf b))
    (hsecond : ∀ a ∈ l', ∀ b ∈ l, ¬prefers schedule (taskOf a) (taskOf b)) :
    (l.argmin f).or (l'.argmin g) = some task ↔
      (task ∈ l ∨ task ∈ l') ∧
        ∀ b, b ∈ l ∨ b ∈ l' → prefers schedule (taskOf task) (taskOf b) := by
  rw [Option.or_eq_some_iff, h.argmin_iff, h'.argmin_iff, argmin_eq_none]
  constructor
  · rintro (⟨htask, hmin⟩ | ⟨rfl, htask, hmin⟩)
    · exact ⟨.inl htask, fun b hb => hb.elim (hmin b) (hfirst task htask b)⟩
    · exact ⟨.inr htask, fun b hb => hb.elim (fun hb => by cases hb) (hmin b)⟩
  · rintro ⟨htask | htask, hmin⟩
    · exact .inl ⟨htask, fun b hb => hmin b (.inl hb)⟩
    · refine .inr ⟨eq_nil_iff_forall_not_mem.mpr fun b hb => ?_, htask,
        fun b hb => hmin b (.inr hb)⟩
      exact hsecond task htask b hb (hmin b (.inl hb))

end Choice

section Stage

variable {microbatches virtualStages physicalStages base remainder : ℕ}
  {schedule : PipelineScheduleKind} {s : EventLoop} {p : ℕ}

/-- What a stage collects, by kind. -/
theorem EventsAt.eq_of_mem_readyForwards (h : EventsAt microbatches virtualStages physicalStages s)
    {task : ReadyTask} (htask : task ∈ readyForwards
      (stageAssignments physicalStages base remainder virtualStages p) s.forwardDone) :
    ∃ m v, task = ⟨.forward, m, v, v % physicalStages, v / physicalStages⟩ := by
  obtain ⟨m, v, -, -, rfl⟩ := h.mem_readyForwards.mp htask
  exact ⟨m, v, rfl⟩

theorem EventsAt.eq_of_mem_readyBackwards (h : EventsAt microbatches virtualStages physicalStages s)
    {task : ReadyTask} (htask : task ∈ readyBackwards
      (stageAssignments physicalStages base remainder virtualStages p) s.forwardDone
      s.backwardDone) :
    ∃ m v, task = ⟨.backward, m, v, v % physicalStages, v / physicalStages⟩ := by
  obtain ⟨m, v, -, -, rfl⟩ := h.mem_readyBackwards.mp htask
  exact ⟨m, v, rfl⟩

/-- A list in which all tasks are of one kind and placed by their virtual stage. -/
theorem keyed_of_forall {κ : Type*} [LinearOrder κ] {f : ReadyTask → κ} {l : List ReadyTask}
    {kind : PipelineEventKind}
    (hl : ∀ task ∈ l, ∃ m v, task = ⟨kind, m, v, v % physicalStages, v / physicalStages⟩)
    (hf : ∀ m v m' v', f ⟨kind, m, v, v % physicalStages, v / physicalStages⟩ ≤
      f ⟨kind, m', v', v' % physicalStages, v' / physicalStages⟩ ↔
      prefers schedule (kind, m, v) (kind, m', v')) : Keyed schedule f l where
  le_iff a ha b hb := by
    obtain ⟨m, v, rfl⟩ := hl a ha
    obtain ⟨m', v', rfl⟩ := hl b hb
    exact hf m v m' v'
  inj a ha b hb heq := by
    obtain ⟨m, v, rfl⟩ := hl a ha
    obtain ⟨m', v', rfl⟩ := hl b hb
    obtain ⟨-, rfl, rfl⟩ : kind = kind ∧ m = m' ∧ v = v' := by simpa [taskOf] using heq
    rfl

theorem EventsAt.readyForwards_eq_nil (h : EventsAt microbatches virtualStages physicalStages s)
    (hall : s.forwardDone.flatten.all id = true) :
    readyForwards (stageAssignments physicalStages base remainder virtualStages p) s.forwardDone =
      [] := by
  refine eq_nil_iff_forall_not_mem.mpr fun task htask => ?_
  obtain ⟨m, v, -, hready, -⟩ := h.mem_readyForwards.mp htask
  obtain ⟨hm, hv⟩ := mem_tasks.mp hready.mem
  exact hready.not_done ((h.forward_iff m v).mp (h.forwardTable.isDone_of_all hall hm hv))

/-- The choice among what a stage collects. -/
theorem chooseReadyTask_iff {assignments : List PipelineStageAssignment}
    {forwardDone backwardDone : DoneTable} {allForwardsComplete : Bool} {task : ReadyTask}
    (hforward : ∀ task ∈ readyForwards assignments forwardDone,
      ∃ m v, task = ⟨.forward, m, v, v % physicalStages, v / physicalStages⟩)
    (hbackward : ∀ task ∈ readyBackwards assignments forwardDone backwardDone,
      ∃ m v, task = ⟨.backward, m, v, v % physicalStages, v / physicalStages⟩)
    (hall : allForwardsComplete = true → readyForwards assignments forwardDone = []) :
    chooseReadyTask assignments forwardDone backwardDone schedule allForwardsComplete = some task ↔
      (task ∈ readyForwards assignments forwardDone ∨
        task ∈ readyBackwards assignments forwardDone backwardDone) ∧
      ∀ b, b ∈ readyForwards assignments forwardDone ∨
        b ∈ readyBackwards assignments forwardDone backwardDone →
        prefers schedule (taskOf task) (taskOf b) := by
  cases schedule with
  | gpipe =>
    have hforwards : Keyed .gpipe (fun task => toLex (task.microbatchId, task.virtualStageId))
        (readyForwards assignments forwardDone) :=
      keyed_of_forall hforward fun m v m' v' => Prod.Lex.toLex_le_toLex
    have hbackwards : Keyed .gpipe
        (fun task => toLex (task.microbatchId, OrderDual.toDual task.virtualStageId))
        (readyBackwards assignments forwardDone backwardDone) :=
      keyed_of_forall hbackward fun m v m' v' => Prod.Lex.toLex_le_toLex
    have hfirst : ∀ a ∈ readyForwards assignments forwardDone,
        ∀ b ∈ readyBackwards assignments forwardDone backwardDone,
        prefers .gpipe (taskOf a) (taskOf b) ∧ ¬prefers .gpipe (taskOf b) (taskOf a) := by
      intro a ha b hb
      obtain ⟨m, v, rfl⟩ := hforward a ha
      obtain ⟨m', v', rfl⟩ := hbackward b hb
      exact ⟨rfl, fun h => by cases h⟩
    rw [← hforwards.or_argmin_iff hbackwards (fun a ha b hb => (hfirst a ha b hb).1)
      fun b hb a ha => (hfirst a ha b hb).2]
    simp only [chooseReadyTask]
    cases allForwardsComplete with
    | false => rfl
    | true =>
      rw [hall rfl]
      rfl
  | interleaved1f1b =>
    have hforwards : Keyed .interleaved1f1b (fun task => toLex (task.microbatchId,
        toLex (task.localStageIndex, task.virtualStageId)))
        (readyForwards assignments forwardDone) :=
      keyed_of_forall hforward fun m v m' v' =>
        Prod.Lex.toLex_le_toLex.trans (or_congr_right (and_congr_right fun _ => lex_div_le_iff))
    have hbackwards : Keyed .interleaved1f1b (fun task => toLex (task.microbatchId,
        toLex (OrderDual.toDual task.localStageIndex, OrderDual.toDual task.virtualStageId)))
        (readyBackwards assignments forwardDone backwardDone) :=
      keyed_of_forall hbackward fun m v m' v' =>
        Prod.Lex.toLex_le_toLex.trans
          (or_congr_right (and_congr_right fun _ => lex_dual_div_le_iff))
    have hfirst : ∀ a ∈ readyBackwards assignments forwardDone backwardDone,
        ∀ b ∈ readyForwards assignments forwardDone,
        prefers .interleaved1f1b (taskOf a) (taskOf b) ∧
          ¬prefers .interleaved1f1b (taskOf b) (taskOf a) := by
      intro a ha b hb
      obtain ⟨m, v, rfl⟩ := hbackward a ha
      obtain ⟨m', v', rfl⟩ := hforward b hb
      exact ⟨rfl, fun h => by cases h⟩
    simp only [or_comm (a := _ ∈ readyForwards _ _)]
    exact hbackwards.or_argmin_iff hforwards (fun a ha b hb => (hfirst a ha b hb).1)
      fun b hb a ha => (hfirst a ha b hb).2

/-- A ready task of the graph as the stage that collects it sees it. -/
def readyTask (physicalStages : ℕ) (task : Task) : ReadyTask :=
  ⟨task.1, task.2.1, task.2.2, task.2.2 % physicalStages, task.2.2 / physicalStages⟩

/-- What a stage collects is what is ready for it. -/
theorem EventsAt.mem_collected (h : EventsAt microbatches virtualStages physicalStages s)
    {ready : ReadyTask} :
    (ready ∈ readyForwards (stageAssignments physicalStages base remainder virtualStages p)
        s.forwardDone ∨
      ready ∈ readyBackwards (stageAssignments physicalStages base remainder virtualStages p)
        s.forwardDone s.backwardDone) ↔
      ∃ task : Task, task.2.2 % physicalStages = p ∧
        Ready (pipelineGraph microbatches virtualStages physicalStages) (s.events.map timed) task ∧
        ready = readyTask physicalStages task := by
  rw [h.mem_readyForwards, h.mem_readyBackwards]
  constructor
  · rintro (⟨m, v, hp, hready, rfl⟩ | ⟨m, v, hp, hready, rfl⟩)
    · exact ⟨(.forward, m, v), hp, hready, rfl⟩
    · exact ⟨(.backward, m, v), hp, hready, rfl⟩
  · rintro ⟨⟨kind, m, v⟩, hp, hready, rfl⟩
    cases kind with
    | forward => exact .inl ⟨m, v, hp, hready, rfl⟩
    | backward => exact .inr ⟨m, v, hp, hready, rfl⟩

/-- **The choice of a stage** is the ready task that it prefers. -/
theorem EventsAt.choose_iff (h : EventsAt microbatches virtualStages physicalStages s)
    {ready : ReadyTask} :
    chooseReadyTask (stageAssignments physicalStages base remainder virtualStages p) s.forwardDone
        s.backwardDone schedule (s.forwardDone.flatten.all id) = some ready ↔
      ∃ task : Task, task.2.2 % physicalStages = p ∧ ready = readyTask physicalStages task ∧
        Ready (pipelineGraph microbatches virtualStages physicalStages) (s.events.map timed) task ∧
        ∀ b : Task, b.2.2 % physicalStages = p →
          Ready (pipelineGraph microbatches virtualStages physicalStages) (s.events.map timed) b →
          prefers schedule task b := by
  rw [chooseReadyTask_iff (fun _ => h.eq_of_mem_readyForwards) (fun _ => h.eq_of_mem_readyBackwards)
    h.readyForwards_eq_nil, h.mem_collected]
  constructor
  · rintro ⟨⟨task, hp, hready, rfl⟩, hfirst⟩
    exact ⟨task, hp, rfl, hready, fun b hb hbready =>
      hfirst (readyTask physicalStages b) (h.mem_collected.mpr ⟨b, hb, hbready, rfl⟩)⟩
  · rintro ⟨task, hp, rfl, hready, hfirst⟩
    refine ⟨⟨task, hp, hready, rfl⟩, fun b hb => ?_⟩
    obtain ⟨task', hp', hready', rfl⟩ := h.mem_collected.mp hb
    exact hfirst task' hp' hready'

/-! ## The loop -/

/-- The tasks that are chosen in a tick. -/
theorem EventsAt.mem_chosen (h : EventsAt microbatches virtualStages physicalStages s)
    (hstages : 0 < physicalStages) {task : Task} :
    task ∈ (chooseReady (stages virtualStages physicalStages base remainder) schedule s).map
        chosenTask ↔
      Ready (pipelineGraph microbatches virtualStages physicalStages) (s.events.map timed) task ∧
        ∀ b,
          Ready (pipelineGraph microbatches virtualStages physicalStages) (s.events.map timed) b →
          (pipelineGraph microbatches virtualStages physicalStages).machine task =
            (pipelineGraph microbatches virtualStages physicalStages).machine b →
          prefers schedule task b := by
  rw [mem_map]
  constructor
  · rintro ⟨⟨p, ready⟩, hmem, rfl⟩
    obtain ⟨task, rfl, rfl, hready, hfirst⟩ := h.choose_iff.mp (mem_chooseReady.mp hmem).2
    exact ⟨hready, fun b hb hmachine => hfirst b hmachine.symm hb⟩
  · rintro ⟨hready, hfirst⟩
    exact ⟨(task.2.2 % physicalStages, readyTask physicalStages task),
      mem_chooseReady.mpr ⟨Nat.mod_lt _ hstages, h.choose_iff.mpr ⟨task, rfl, rfl, hready,
        fun b hb hbready => hfirst b hbready hb.symm⟩⟩, rfl⟩

/-- What a pass of the loop does. -/
theorem EventsAt.of_pass (h : EventsAt microbatches virtualStages physicalStages s)
    (hstages : 0 < physicalStages) {t : EventLoop}
    (hgo : eventsPass (stages virtualStages physicalStages base remainder) schedule
      (microbatches * virtualStages * 2) s = .go t) :
    EventsAt microbatches virtualStages physicalStages t ∧ t.tick = s.tick + 1 ∧
      t.events.map timed = s.events.map timed ++
        ((chooseReady (stages virtualStages physicalStages base remainder) schedule s).map
          chosenTask).map fun task => (s.tick, task) := by
  have hlt : s.events.length < microbatches * virtualStages * 2 := by
    by_contra hge
    rw [eventsPass, if_neg hge] at hgo
    cases hgo
  obtain ⟨t', hpass, ht', -⟩ : ∃ t', eventsPass (stages virtualStages physicalStages base remainder)
      schedule (microbatches * virtualStages * 2) s = .go t' ∧
      EventsAt microbatches virtualStages physicalStages t' ∧ s.events.length < t'.events.length :=
    h.pass hstages hlt
  obtain rfl : t' = t := Pass.go.inj (hpass.symm.trans hgo)
  have hmem : ∀ r ∈ chooseReady (stages virtualStages physicalStages base remainder) schedule s,
      r.2.microbatchId < microbatches ∧ r.2.virtualStageId < virtualStages :=
    fun r hr => mem_tasks.mp (h.ready_of_mem hr).1.mem
  obtain ⟨hevents, htick, -⟩ := foldl_runTask h.forwardTable h.backwardTable hmem
  have hready : (chooseReady (stages virtualStages physicalStages base remainder) schedule
      s).isEmpty = false := by
    simpa using h.chooseReady_ne_nil base remainder schedule hstages hlt
  rw [eventsPass, if_pos hlt] at hgo
  simp only [hready, Bool.false_eq_true, if_false] at hgo
  obtain rfl := Pass.go.inj hgo
  refine ⟨ht', by rw [htick], ?_⟩
  dsimp only
  rw [hevents, map_append, map_map, map_map]
  rfl

/-- **The loop follows every timetable** for the preference of its schedule, up to the horizon. -/
theorem events_follow {time : Task → ℕ} {horizon : ℕ}
    (htime : Timetable (pipelineGraph microbatches virtualStages physicalStages) (prefers schedule)
      time horizon) (hstages : 0 < physicalStages) {events : List PipelineScheduleEvent}
    (h : Loop.Returns (eventsPass (stages virtualStages physicalStages base remainder) schedule
        (microbatches * virtualStages * 2))
        ⟨List.replicate microbatches (List.replicate virtualStages false),
          List.replicate microbatches (List.replicate virtualStages false), [], 0⟩ (.ok events)) :
    ∃ s, EventsAt microbatches virtualStages physicalStages s ∧
      Follows (pipelineGraph microbatches virtualStages physicalStages) time horizon s.tick
        (s.events.map timed) ∧
      microbatches * virtualStages * 2 ≤ s.events.length ∧ s.events = events := by
  obtain ⟨s, ⟨hs, hfollows⟩, hleave⟩ := h.invariant
    (I := fun s => EventsAt microbatches virtualStages physicalStages s ∧
      Follows (pipelineGraph microbatches virtualStages physicalStages) time horizon s.tick
        (s.events.map timed)) ⟨eventsAt_start, follows_zero _⟩ (by
      rintro s t ⟨hs, hfollows⟩ hgo
      obtain ⟨ht, htick, hevents⟩ := hs.of_pass hstages hgo
      refine ⟨ht, ?_⟩
      rw [htick, hevents]
      refine hfollows.append_tick hs.schedule fun hhorizon task => ?_
      rw [hs.mem_chosen hstages]
      exact htime.chosen_iff (fun _ _ _ => prefers_antisymm) hfollows hs.schedule hhorizon)
  have hdone : microbatches * virtualStages * 2 ≤ s.events.length := by
    by_contra hlt
    obtain ⟨t, hgo, -⟩ := hs.pass hstages (not_le.mp hlt)
    rw [hgo] at hleave
    cases hleave
  refine ⟨s, hs, hfollows, hdone, ?_⟩
  rw [eventsPass, if_neg (not_lt.mpr hdone)] at hleave
  exact Except.ok.inj (Pass.leave.inj hleave)

end Stage

/-! ## The plan -/

section Plan

variable {nLayer : ℕ} {pipeline : ParallelPipelineConfig} {plan : PipelinePlan}

theorem checkPipelinePlan_bounds {total : ℕ} (h : checkPipelinePlan nLayer pipeline = .ok total) :
    pipeline.virtualStagesPerRank ≤ pipeline.stageCount ∧ 0 < pipeline.microbatches := by
  unfold checkPipelinePlan at h
  split_ifs at h with henabled hlayers hstages hvirtual hmany hmicro hschedule
  exact ⟨not_lt.mp hmany, Nat.pos_of_ne_zero hmicro⟩

/-- A returned plan passed the checks, and its events are those of the loop. -/
theorem loop_of_plan (h : BuildPipelinePlanReturns nLayer pipeline (.ok plan)) :
    (∃ total, checkPipelinePlan nLayer pipeline = .ok total) ∧
      plan.metrics = buildPipelineMetrics pipeline.stageCount plan.events ∧
      ∃ base remainder, Loop.Returns (eventsPass
          (stages (pipeline.stageCount * pipeline.virtualStagesPerRank) pipeline.stageCount base
            remainder) pipeline.schedule
          (pipeline.microbatches * (pipeline.stageCount * pipeline.virtualStagesPerRank) * 2))
        ⟨List.replicate pipeline.microbatches
            (List.replicate (pipeline.stageCount * pipeline.virtualStagesPerRank) false),
          List.replicate pipeline.microbatches
            (List.replicate (pipeline.stageCount * pipeline.virtualStagesPerRank) false), [], 0⟩
        (.ok plan.events) := by
  obtain ⟨fuel, hrun⟩ := h
  rw [buildPipelinePlan] at hrun
  cases hcheck : checkPipelinePlan nLayer pipeline with
  | error e =>
    rw [hcheck] at hrun
    cases hrun
  | ok total =>
    obtain ⟨-, -, hfits, -⟩ := checkPipelinePlan_eq_ok hcheck
    simp only [hcheck, partitionLayers_eq nLayer hfits, Option.map_eq_some_iff] at hrun
    obtain ⟨result, hevents, hresult⟩ := hrun
    cases result with
    | error e => cases hresult
    | ok events =>
      obtain rfl := Except.ok.inj hresult
      refine ⟨⟨total, rfl⟩, rfl,
        nLayer / (pipeline.stageCount * pipeline.virtualStagesPerRank),
        nLayer % (pipeline.stageCount * pipeline.virtualStagesPerRank), fuel, ?_⟩
      simp only [buildPipelineEvents, length_map, length_range,
        assignmentsByPhysicalStage_eq] at hevents
      split at hevents
      · cases hevents
      · next totalEvents htotal =>
        obtain ⟨product, hproduct, htwice⟩ := Option.bind_eq_some_iff.mp htotal
        rw [checkedMul] at hproduct htwice
        split_ifs at hproduct htwice
        obtain rfl := Option.some.inj hproduct
        obtain rfl := Option.some.inj htwice
        exact hevents

end Plan

end BurnDragon.Pipeline
