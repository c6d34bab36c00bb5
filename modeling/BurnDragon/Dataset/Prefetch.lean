import BurnDragon.Rust.BTreeMap
import BurnDragon.Rust.Machine
import BurnDragon.Transition.Run

/-!
# Prefetching batches

`RandomPrefetch` of `scheduler.rs`: workers claim task indices from a shared counter, sample the batch
of the index they claimed and send it over a bounded channel; the consumer receives the batches in any
order, keeps those that it does not expect yet and hands them out in the order of their indices.

A step of the system is one atomic action of one thread, so a run is an interleaving of the workers
with the calls of `recv` and `seek_to`. The dataset is a relation between a request and the batches
that it may sample for it.
-/

namespace BurnDragon.Dataset

open Rust Transition

inductive DatasetSplit
  | train
  | val
  deriving DecidableEq

/-- `HostBatchRequest`. -/
structure HostBatchRequest where
  split : DatasetSplit
  batchSize : ℕ
  blockSize : ℕ
  epochIndex : ℕ
  absoluteStep : ℕ
  seed : UInt64
  sourceSelectionEnabled : Bool
  includeRuliadPolicyBatch : Bool
  ruliadPolicyStratifiedDifficultyLevels : ℕ
  deriving DecidableEq

/-- What a loader asks of its dataset, and what the dataset may answer
(`sample_host_batch_with_shape`). -/
structure BatchSource (β : Type*) where
  split : DatasetSplit
  batchSize : ℕ
  blockSize : ℕ
  stepsPerEpoch : ℕ
  seed : UInt64
  sourceSelectionEnabled : Bool
  scheduleIncludes : ℕ → Bool
  ruliadPolicyStratifiedDifficultyLevels : ℕ
  sampleHostBatch : HostBatchRequest → β → Prop

namespace BatchSource

variable {β : Type*}

/-- The request for a step in an epoch. -/
def request (source : BatchSource β) (epochIndex absoluteStep : ℕ) : HostBatchRequest where
  split := source.split
  batchSize := source.batchSize
  blockSize := source.blockSize
  epochIndex := epochIndex
  absoluteStep := absoluteStep
  seed := source.seed
  sourceSelectionEnabled := source.sourceSelectionEnabled
  includeRuliadPolicyBatch := source.scheduleIncludes absoluteStep
  ruliadPolicyStratifiedDifficultyLevels := source.ruliadPolicyStratifiedDifficultyLevels

/-- The epoch of a task index. -/
def epochOf (source : BatchSource β) (taskIndex : ℕ) : ℕ := taskIndex / max source.stepsPerEpoch 1

/-- The batch may be sampled for the task index. -/
def Samples (source : BatchSource β) (taskIndex : ℕ) (batch : β) : Prop :=
  source.sampleHostBatch (source.request (source.epochOf taskIndex) taskIndex) batch

end BatchSource

/-- The arguments of `RandomPrefetch::spawn`. -/
structure PrefetchConfig (β : Type*) where
  source : BatchSource β
  absoluteStepStart : ℕ
  totalSteps : Option ℕ
  depth : ℕ
  workers : ℕ
  start_le : absoluteStepStart ≤ usizeMax
  total_le : ∀ limit, totalSteps = some limit → limit ≤ usizeMax

namespace PrefetchConfig

variable {β : Type*}

def workerCount (config : PrefetchConfig β) : ℕ := max config.workers 1

/-- The capacity of the channel. -/
def capacity (config : PrefetchConfig β) : ℕ := max config.depth config.workerCount

/-- The number of batches that `spawn` waits for. -/
def targetReady (config : PrefetchConfig β) : ℕ := min config.workerCount (max config.depth 1)

/-- A worker that claims this index ends. -/
def LimitReached (config : PrefetchConfig β) (taskIndex : ℕ) : Prop :=
  ∃ limit, config.totalSteps = some limit ∧ limit ≤ taskIndex

end PrefetchConfig

/-! ## States -/

/-- Where a worker is in its loop. -/
inductive Worker (β : Type*)
  | claiming
  | sampling (taskIndex : ℕ)
  | sending (taskIndex : ℕ) (batch : β)
  | exited

/-- What the consumer is doing: nothing, waiting in `prime` or waiting in `recv`. -/
inductive Consumer
  | idle
  | priming
  | receiving
  deriving DecidableEq

structure RandomPrefetch {β : Type*} (config : PrefetchConfig β) where
  nextTask : ℕ
  workers : Fin config.workerCount → Worker β
  channel : List (ℕ × β)
  pending : BTreeMap ℕ β
  nextIndex : ℕ
  consumer : Consumer

/-- What a run shows: the claims of the workers and the calls of the consumer. -/
inductive PrefetchEvent (β : Type*)
  | claimed (taskIndex : ℕ)
  | seekTo (absoluteStep : ℕ)
  | received (batch : Option β)

variable {β : Type*} {config : PrefetchConfig β}

/-- The prefetch with its workers spawned, before `prime`. -/
def RandomPrefetch.spawn (config : PrefetchConfig β) : RandomPrefetch config where
  nextTask := config.absoluteStepStart
  workers _ := .claiming
  channel := []
  pending := .empty
  nextIndex := config.absoluteStepStart
  consumer := .priming

/-- `contiguous_ready` from an index on. The index saturates, so the loop does not end when the last
index is pending; it makes at most one turn more than there are pending batches otherwise. -/
def contiguousReady (pending : BTreeMap ℕ β) : ℕ → ℕ → Option ℕ
  | 0, _ => none
  | fuel + 1, index =>
    match pending.get? index with
    | some _ => (contiguousReady pending fuel (saturatingAdd index 1)).map (saturatingAdd · 1)
    | none => some 0

/-- The loop condition of `prime`, when it can be decided. -/
def RandomPrefetch.Primed (prefetch : RandomPrefetch config) (primed : Prop) : Prop :=
  ∃ count, contiguousReady prefetch.pending (prefetch.pending.entries.length + 1)
    prefetch.nextIndex = some count ∧ (primed ↔ config.targetReady ≤ count)

namespace RandomPrefetch

/-- One worker moves on. -/
def setWorker (prefetch : RandomPrefetch config) (w : Fin config.workerCount) (worker : Worker β) :
    RandomPrefetch config :=
  { prefetch with workers := Function.update prefetch.workers w worker }

/-- The counter after `fetch_add`, which wraps around. -/
def fetchAdd (prefetch : RandomPrefetch config) : RandomPrefetch config :=
  { prefetch with nextTask := (prefetch.nextTask + 1) % 2 ^ 64 }

/-- One atomic action of a worker or of the consumer. -/
inductive Step : RandomPrefetch config → Option (PrefetchEvent β) → RandomPrefetch config → Prop
  /-- A worker claims the next task index. -/
  | claim {prefetch : RandomPrefetch config} {w : Fin config.workerCount} :
    prefetch.workers w = .claiming → ¬ config.LimitReached prefetch.nextTask →
    Step prefetch (some (.claimed prefetch.nextTask))
      (prefetch.fetchAdd.setWorker w (.sampling prefetch.nextTask))
  /-- A worker finds that no steps are left. -/
  | exit {prefetch : RandomPrefetch config} {w : Fin config.workerCount} :
    prefetch.workers w = .claiming → config.LimitReached prefetch.nextTask →
    Step prefetch none (prefetch.fetchAdd.setWorker w .exited)
  | sample {prefetch : RandomPrefetch config} {w : Fin config.workerCount} {taskIndex : ℕ}
    {batch : β} :
    prefetch.workers w = .sampling taskIndex → config.source.Samples taskIndex batch →
    Step prefetch none (prefetch.setWorker w (.sending taskIndex batch))
  /-- A worker sends when the channel has room. -/
  | send {prefetch : RandomPrefetch config} {w : Fin config.workerCount} {taskIndex : ℕ}
    {batch : β} :
    prefetch.workers w = .sending taskIndex batch →
    prefetch.channel.length < config.capacity →
    Step prefetch none { prefetch.setWorker w .claiming with
      channel := prefetch.channel ++ [(taskIndex, batch)] }
  /-- `prime` keeps what it receives. -/
  | prime {prefetch : RandomPrefetch config} {taskIndex : ℕ} {batch : β}
    {rest : List (ℕ × β)} :
    prefetch.consumer = .priming → prefetch.Primed False →
    prefetch.channel = (taskIndex, batch) :: rest →
    Step prefetch none { prefetch with
      channel := rest
      pending := prefetch.pending.insert taskIndex batch }
  | primed {prefetch : RandomPrefetch config} :
    prefetch.consumer = .priming → prefetch.Primed True →
    Step prefetch none { prefetch with consumer := .idle }
  /-- `prime` gives up when all workers have ended. -/
  | primeDisconnected {prefetch : RandomPrefetch config} :
    prefetch.consumer = .priming → prefetch.Primed False → prefetch.channel = [] →
    (∀ w, prefetch.workers w = .exited) →
    Step prefetch none { prefetch with consumer := .idle }
  | seekTo {prefetch : RandomPrefetch config} {absoluteStep : ℕ} :
    prefetch.consumer = .idle → absoluteStep ≤ usizeMax →
    Step prefetch (some (.seekTo absoluteStep)) { prefetch with
      nextIndex := absoluteStep
      pending := prefetch.pending.retainFrom absoluteStep }
  /-- `recv` finds the batch among the pending ones. -/
  | recvPending {prefetch : RandomPrefetch config} {batch : β} :
    prefetch.consumer = .idle → prefetch.pending.get? prefetch.nextIndex = some batch →
    Step prefetch (some (.received (some batch))) { prefetch with
      pending := prefetch.pending.remove prefetch.nextIndex
      nextIndex := saturatingAdd prefetch.nextIndex 1 }
  | recvWait {prefetch : RandomPrefetch config} :
    prefetch.consumer = .idle → prefetch.pending.get? prefetch.nextIndex = none →
    Step prefetch none { prefetch with consumer := .receiving }
  /-- `recv` receives the batch that it expects. -/
  | recvExpected {prefetch : RandomPrefetch config} {batch : β} {rest : List (ℕ × β)} :
    prefetch.consumer = .receiving → prefetch.channel = (prefetch.nextIndex, batch) :: rest →
    Step prefetch (some (.received (some batch))) { prefetch with
      channel := rest
      nextIndex := saturatingAdd prefetch.nextIndex 1
      consumer := .idle }
  /-- `recv` keeps a batch that it does not expect yet. -/
  | recvOther {prefetch : RandomPrefetch config} {taskIndex : ℕ} {batch : β}
    {rest : List (ℕ × β)} :
    prefetch.consumer = .receiving → prefetch.channel = (taskIndex, batch) :: rest →
    taskIndex ≠ prefetch.nextIndex →
    Step prefetch none { prefetch with
      channel := rest
      pending := prefetch.pending.insert taskIndex batch }
  /-- `recv` returns nothing when all workers have ended. -/
  | recvDisconnected {prefetch : RandomPrefetch config} :
    prefetch.consumer = .receiving → prefetch.channel = [] →
    (∀ w, prefetch.workers w = .exited) →
    Step prefetch (some (.received none)) { prefetch with consumer := .idle }

end RandomPrefetch

end BurnDragon.Dataset
