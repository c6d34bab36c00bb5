import BurnDragon.Rust.Machine
import BurnDragon.Transition.Loop

/-!
# Pipeline plans

`build_pipeline_plan` cuts the layers into contiguous virtual stages, deals these round robin to the
physical stages, and schedules one forward and one backward of every microbatch on every virtual stage.
In each tick every physical stage takes the ready task with the smallest key of the schedule, as seen
from the tables before the tick.

The events are made in a loop without a bound, so planning is a relation between its arguments and its
result (`BuildPipelinePlanReturns`).
-/

namespace BurnDragon.Pipeline

open Rust Transition

/-! ## Configuration -/

inductive PipelineScheduleKind
  | gpipe
  | interleaved1f1b
  deriving DecidableEq, Repr

/-- The derived `Debug` text. -/
def PipelineScheduleKind.debug : PipelineScheduleKind → String
  | .gpipe => "Gpipe"
  | .interleaved1f1b => "Interleaved1f1b"

inductive PipelinePartitionKind
  | layerContiguous
  deriving DecidableEq, Repr

structure ParallelPipelineConfig where
  enabled : Bool
  stageCount : ℕ
  virtualStagesPerRank : ℕ
  schedule : PipelineScheduleKind
  microbatches : ℕ
  partition : PipelinePartitionKind
  deriving DecidableEq, Repr

/-! ## Plans -/

inductive PipelineEventKind
  | forward
  | backward
  deriving DecidableEq, Repr

/-- The layers of a virtual stage are those from `layerRange.1` to before `layerRange.2`. -/
structure PipelineStageAssignment where
  virtualStageId : ℕ
  physicalStageId : ℕ
  localStageIndex : ℕ
  layerRange : ℕ × ℕ
  deriving DecidableEq, Repr

structure ReadyTask where
  kind : PipelineEventKind
  microbatchId : ℕ
  virtualStageId : ℕ
  physicalStageId : ℕ
  localStageIndex : ℕ
  deriving DecidableEq, Repr

structure PipelineScheduleEvent where
  tick : ℕ
  physicalStageId : ℕ
  virtualStageId : ℕ
  localStageIndex : ℕ
  microbatchId : ℕ
  kind : PipelineEventKind
  deriving DecidableEq, Repr

/-- The bubble fraction is the exact quotient that the code rounds to `f32`. -/
structure PipelinePlanMetrics where
  totalTicks : ℕ
  totalEvents : ℕ
  stageBusyTicks : List ℕ
  stageIdleTicks : List ℕ
  bubbleFraction : ℚ

structure PipelinePlan where
  physicalStageCount : ℕ
  virtualStagesPerRank : ℕ
  totalVirtualStages : ℕ
  microbatches : ℕ
  schedule : PipelineScheduleKind
  partition : PipelinePartitionKind
  stageAssignments : List PipelineStageAssignment
  events : List PipelineScheduleEvent
  metrics : PipelinePlanMetrics

/-! ## Layers -/

/-- One virtual stage: the layer cursor moves over its layers. -/
def assignLayers (base remainder physicalStageCount : ℕ)
    (s : ℕ × List PipelineStageAssignment) (virtualStageId : ℕ) :
    ℕ × List PipelineStageAssignment :=
  let layerCount := base + if virtualStageId < remainder then 1 else 0
  let nextCursor := s.1 + layerCount
  (nextCursor, s.2 ++ [⟨virtualStageId, virtualStageId % physicalStageCount,
    virtualStageId / physicalStageCount, (s.1, nextCursor)⟩])

def partitionLayers (nLayer physicalStageCount virtualStagesPerRank : ℕ) :
    Except String (List PipelineStageAssignment) :=
  match checkedMul physicalStageCount virtualStagesPerRank with
  | none => .error "pipeline partition overflow"
  | some totalVirtualStages =>
    let base := nLayer / totalVirtualStages
    let remainder := nLayer % totalVirtualStages
    .ok ((List.range totalVirtualStages).foldl (assignLayers base remainder physicalStageCount)
      (0, [])).2

/-! ## Tasks -/

/-- A `Vec<Vec<bool>>` over microbatches and virtual stages. -/
abbrev DoneTable := List (List Bool)

def isDone (table : DoneTable) (microbatchId virtualStageId : ℕ) : Bool :=
  (table.getD microbatchId []).getD virtualStageId false

def markDone (table : DoneTable) (microbatchId virtualStageId : ℕ) : DoneTable :=
  table.modify microbatchId (·.set virtualStageId true)

def assignmentsByPhysicalStage (physicalStageCount : ℕ)
    (stageAssignments : List PipelineStageAssignment) : List (List PipelineStageAssignment) :=
  stageAssignments.foldl
    (fun assignments assignment => assignments.modify assignment.physicalStageId (· ++ [assignment]))
    (List.replicate physicalStageCount [])

/-- The forwards that `choose_ready_task` collects, in its order. -/
def readyForwards (stageAssignments : List PipelineStageAssignment) (forwardDone : DoneTable) :
    List ReadyTask :=
  stageAssignments.flatMap fun assignment =>
    let virtualStageId := assignment.virtualStageId
    (List.range forwardDone.length).filterMap fun microbatchId =>
      if !isDone forwardDone microbatchId virtualStageId &&
          (virtualStageId == 0 || isDone forwardDone microbatchId (virtualStageId - 1)) then
        some ⟨.forward, microbatchId, virtualStageId, assignment.physicalStageId,
          assignment.localStageIndex⟩
      else none

/-- The backwards that `choose_ready_task` collects, in its order. -/
def readyBackwards (stageAssignments : List PipelineStageAssignment)
    (forwardDone backwardDone : DoneTable) : List ReadyTask :=
  stageAssignments.flatMap fun assignment =>
    let virtualStageId := assignment.virtualStageId
    (List.range forwardDone.length).filterMap fun microbatchId =>
      if !isDone backwardDone microbatchId virtualStageId &&
          isDone forwardDone microbatchId virtualStageId &&
          (virtualStageId + 1 == (backwardDone.getD microbatchId []).length ||
            isDone backwardDone microbatchId (virtualStageId + 1)) then
        some ⟨.backward, microbatchId, virtualStageId, assignment.physicalStageId,
          assignment.localStageIndex⟩
      else none

def chooseReadyTask (stageAssignments : List PipelineStageAssignment)
    (forwardDone backwardDone : DoneTable) (schedule : PipelineScheduleKind)
    (allForwardsComplete : Bool) : Option ReadyTask :=
  let forwards := readyForwards stageAssignments forwardDone
  let backwards := readyBackwards stageAssignments forwardDone backwardDone
  match schedule with
  | .gpipe =>
    if !allForwardsComplete then
      (forwards.argmin fun task => toLex (task.microbatchId, task.virtualStageId)).or
        (backwards.argmin fun task =>
          toLex (task.microbatchId, OrderDual.toDual task.virtualStageId))
    else
      backwards.argmin fun task => toLex (task.microbatchId, OrderDual.toDual task.virtualStageId)
  | .interleaved1f1b =>
    (backwards.argmin fun task => toLex (task.microbatchId,
      toLex (OrderDual.toDual task.localStageIndex, OrderDual.toDual task.virtualStageId))).or
    (forwards.argmin fun task => toLex (task.microbatchId,
      toLex (task.localStageIndex, task.virtualStageId)))

/-! ## Events -/

/-- The variables of the loop of `build_pipeline_events`. -/
structure EventLoop where
  forwardDone : DoneTable
  backwardDone : DoneTable
  events : List PipelineScheduleEvent
  tick : ℕ

/-- A physical stage runs its task. -/
def runTask (s : EventLoop) (ready : ℕ × ReadyTask) : EventLoop :=
  let (physicalStageId, task) := ready
  let event := ⟨s.tick, physicalStageId, task.virtualStageId, task.localStageIndex,
    task.microbatchId, task.kind⟩
  match task.kind with
  | .forward =>
    { s with forwardDone := markDone s.forwardDone task.microbatchId task.virtualStageId
             events := s.events ++ [event] }
  | .backward =>
    { s with backwardDone := markDone s.backwardDone task.microbatchId task.virtualStageId
             events := s.events ++ [event] }

/-- The tasks that the physical stages choose in a tick. -/
def chooseReady (assignmentsByPhysical : List (List PipelineStageAssignment))
    (schedule : PipelineScheduleKind) (s : EventLoop) : List (ℕ × ReadyTask) :=
  let allForwardsComplete := s.forwardDone.flatten.all id
  assignmentsByPhysical.zipIdx.filterMap fun (assignments, physicalStageId) =>
    (chooseReadyTask assignments s.forwardDone s.backwardDone schedule allForwardsComplete).map
      fun task => (physicalStageId, task)

/-- One tick of `build_pipeline_events`. -/
def eventsPass (assignmentsByPhysical : List (List PipelineStageAssignment))
    (schedule : PipelineScheduleKind) (totalEvents : ℕ) (s : EventLoop) :
    Pass EventLoop (Except String (List PipelineScheduleEvent)) :=
  if s.events.length < totalEvents then
    let ready := chooseReady assignmentsByPhysical schedule s
    if ready.isEmpty then
      .leave (.error
        s!"pipeline schedule deadlocked at tick {s.tick} with schedule {schedule.debug}")
    else
      let ran := ready.foldl runTask s
      .go { ran with tick := ran.tick + 1 }
  else .leave (.ok s.events)

/-- `build_pipeline_events` with at most `fuel` passes of its loop. -/
def buildPipelineEvents (fuel physicalStageCount : ℕ)
    (stageAssignments : List PipelineStageAssignment) (microbatches : ℕ)
    (schedule : PipelineScheduleKind) : Option (Except String (List PipelineScheduleEvent)) :=
  let totalVirtualStages := stageAssignments.length
  match (checkedMul microbatches totalVirtualStages).bind (checkedMul · 2) with
  | none => some (.error "pipeline event count overflow")
  | some totalEvents =>
    let assignmentsByPhysical := assignmentsByPhysicalStage physicalStageCount stageAssignments
    let done := List.replicate microbatches (List.replicate totalVirtualStages false)
    Loop.run (eventsPass assignmentsByPhysical schedule totalEvents) fuel ⟨done, done, [], 0⟩

def buildPipelineMetrics (physicalStageCount : ℕ) (events : List PipelineScheduleEvent) :
    PipelinePlanMetrics :=
  let totalTicks := ((events.map PipelineScheduleEvent.tick).max?.map (· + 1)).getD 0
  let stageBusyTicks := events.foldl (fun busy event => busy.modify event.physicalStageId (· + 1))
    (List.replicate physicalStageCount 0)
  let stageIdleTicks := stageBusyTicks.map (totalTicks - ·)
  let totalSlots := max (saturatingMul totalTicks physicalStageCount) 1
  ⟨totalTicks, events.length, stageBusyTicks, stageIdleTicks,
    (stageIdleTicks.sum : ℚ) / (totalSlots : ℚ)⟩

/-! ## The plan -/

/-- The checks of `build_pipeline_plan`, with the number of virtual stages that they compute. -/
def checkPipelinePlan (nLayer : ℕ) (pipeline : ParallelPipelineConfig) : Except String ℕ :=
  if !pipeline.enabled then
    .error "pipeline planning requires parallel.pipeline.enabled = true"
  else if nLayer = 0 then .error "pipeline planning requires n_layer > 0"
  else if pipeline.stageCount = 0 then
    .error "pipeline planning requires parallel.pipeline.stage_count > 0"
  else if pipeline.virtualStagesPerRank = 0 then
    .error "pipeline planning requires parallel.pipeline.virtual_stages_per_rank > 0"
  else if pipeline.virtualStagesPerRank > pipeline.stageCount then
    .error (s!"parallel.pipeline.virtual_stages_per_rank must be <= " ++
      s!"parallel.pipeline.stage_count (got {pipeline.virtualStagesPerRank} > " ++
      s!"{pipeline.stageCount})")
  else if pipeline.microbatches = 0 then
    .error "pipeline planning requires parallel.pipeline.microbatches > 0"
  else if pipeline.schedule = .interleaved1f1b ∧ pipeline.microbatches < pipeline.stageCount then
    .error (s!"parallel.pipeline.microbatches must be >= parallel.pipeline.stage_count for " ++
      s!"interleaved_1f1b (got {pipeline.microbatches} < {pipeline.stageCount})")
  else
    match checkedMul pipeline.stageCount pipeline.virtualStagesPerRank with
    | none => .error "pipeline virtual-stage count overflow"
    | some totalVirtualStages =>
      if totalVirtualStages > nLayer then
        .error (s!"pipeline planning requires total virtual stages <= n_layer (got " ++
          s!"{totalVirtualStages} > {nLayer})")
      else .ok totalVirtualStages

/-- `build_pipeline_plan` with at most `fuel` passes of the loop of `build_pipeline_events`. There is
one kind of partition, so the check of the partition does nothing. -/
def buildPipelinePlan (fuel nLayer : ℕ) (pipeline : ParallelPipelineConfig) :
    Option (Except String PipelinePlan) :=
  match checkPipelinePlan nLayer pipeline with
  | .error e => some (.error e)
  | .ok totalVirtualStages =>
    match partitionLayers nLayer pipeline.stageCount pipeline.virtualStagesPerRank with
    | .error e => some (.error e)
    | .ok stageAssignments =>
      (buildPipelineEvents fuel pipeline.stageCount stageAssignments pipeline.microbatches
        pipeline.schedule).map fun result => result.map fun events =>
          { physicalStageCount := pipeline.stageCount
            virtualStagesPerRank := pipeline.virtualStagesPerRank
            totalVirtualStages
            microbatches := pipeline.microbatches
            schedule := pipeline.schedule
            partition := pipeline.partition
            stageAssignments
            events
            metrics := buildPipelineMetrics pipeline.stageCount events }

/-- `build_pipeline_plan` returns `result`. -/
def BuildPipelinePlanReturns (nLayer : ℕ) (pipeline : ParallelPipelineConfig)
    (result : Except String PipelinePlan) : Prop :=
  ∃ fuel, buildPipelinePlan fuel nLayer pipeline = some result

end BurnDragon.Pipeline
