import BurnDragon.Dataset.LoaderEvents
import BurnDragon.Dataset.Prefetch

/-!
# The random data loader

`RandomDataLoader` and `RandomIterator` of `scheduler.rs`. The iterators of a loader share its counter
of consumed steps and its prefetch, which the first iterator that uses it spawns and every later one
seeks to its own start. An iterator without prefetch samples its batches itself, in the epoch in which
it was created.

A step of the system starts a call of `iter` or `next`, or goes on with the call or with the work of
the prefetch. The calls follow one another, in any order and on any iterator.
-/

namespace BurnDragon.Dataset

open Rust Transition

variable {β : Type*}

/-- The settings of a loader. `new` takes at least one step per epoch and drops a limit of zero; the
depth and the workers of the prefetch come from the environment. -/
structure LoaderConfig (β : Type*) where
  source : BatchSource β
  totalSteps : Option ℕ
  prefetchDepth : ℕ
  prefetchWorkers : ℕ
  stepsPerEpoch_pos : 0 < source.stepsPerEpoch
  stepsPerEpoch_le : source.stepsPerEpoch ≤ usizeMax
  totalSteps_pos : ∀ limit, totalSteps = some limit → 0 < limit
  totalSteps_le : ∀ limit, totalSteps = some limit → limit ≤ usizeMax

namespace LoaderConfig

/-- No step is left at the position. -/
def LimitReached (config : LoaderConfig β) (position : ℕ) : Prop :=
  ∃ limit, config.totalSteps = some limit ∧ limit ≤ position

/-- The arguments with which `iter` spawns the prefetch. -/
def prefetchConfig (config : LoaderConfig β) (start : UInt64) : PrefetchConfig β where
  source := config.source
  absoluteStepStart := start.toNat
  totalSteps := config.totalSteps
  depth := config.prefetchDepth
  workers := config.prefetchWorkers
  start_le := Nat.le_pred_of_lt start.toNat_lt
  total_le := config.totalSteps_le

end LoaderConfig

/-! ## States -/

structure RandomIterator where
  stepsTotal : ℕ
  step : ℕ
  epochIndex : ℕ
  usesPrefetch : Bool
  deriving DecidableEq

/-- The prefetch of a loader, with the step at which it was spawned. -/
structure PrefetchSlot (config : LoaderConfig β) where
  start : UInt64
  prefetch : RandomPrefetch (config.prefetchConfig start)

/-- The call that has not returned. -/
inductive Call
  | idle
  | iter
  | next (k : ℕ)
  deriving DecidableEq

structure RandomDataLoader (config : LoaderConfig β) where
  consumedSteps : Option UInt64
  prefetch : Option (PrefetchSlot config)
  iterators : List RandomIterator
  call : Call

variable {config : LoaderConfig β}

def PrefetchSlot.nextIndex (slot : PrefetchSlot config) : ℕ := slot.prefetch.nextIndex

/-- A step of the prefetch in the slot. -/
inductive PrefetchSlot.Step (slot : PrefetchSlot config) :
    Option (PrefetchEvent β) → PrefetchSlot config → Prop
  | of_prefetch {event : Option (PrefetchEvent β)}
    {prefetch' : RandomPrefetch (config.prefetchConfig slot.start)} :
    RandomPrefetch.Step slot.prefetch event prefetch' → Step slot event ⟨slot.start, prefetch'⟩

namespace RandomDataLoader

/-- A loader resumed after some steps. -/
def resume (config : LoaderConfig β) (initialSteps : ℕ) : RandomDataLoader config where
  consumedSteps := initialConsumedSteps config.totalSteps initialSteps
  prefetch := none
  iterators := []
  call := .idle

def absoluteStepStart (loader : RandomDataLoader config) : UInt64 := loader.consumedSteps.getD 0

def stepsTotal (loader : RandomDataLoader config) : ℕ :=
  iterSteps config.totalSteps loader.consumedSteps config.source.stepsPerEpoch

/-- `use_persistent_prefetch`. -/
def usePersistentPrefetch (loader : RandomDataLoader config) : Bool :=
  0 < config.prefetchDepth && 1 < loader.stepsTotal && config.source.split = .train

/-- The absolute step of the next batch of an iterator. -/
def position (loader : RandomDataLoader config) (it : RandomIterator) : ℕ :=
  (loader.consumedSteps.map UInt64.toNat).getD it.step

/-- `iter` returns an iterator. -/
def pushIterator (loader : RandomDataLoader config) : RandomDataLoader config :=
  { loader with
    iterators := loader.iterators ++ [{
      stepsTotal := loader.stepsTotal
      step := 0
      epochIndex := config.source.epochOf loader.absoluteStepStart.toNat
      usesPrefetch := loader.usePersistentPrefetch }]
    call := .idle }

/-- `self.step += 1` in the k-th iterator. -/
def countStep (loader : RandomDataLoader config) (k : ℕ) (it : RandomIterator) :
    RandomDataLoader config :=
  { loader with iterators := loader.iterators.set k { it with step := it.step + 1 } }

/-- The end of `next`: the counter moves on, and past the limit the batch is dropped. -/
def finishNext (loader : RandomDataLoader config) (k : ℕ) (it : RandomIterator) (batch : β) :
    LoaderEvent β × RandomDataLoader config :=
  match loader.consumedSteps with
  | some previous =>
    let counted := { loader with consumedSteps := some (previous + 1), call := .idle }
    match config.totalSteps with
    | some limit =>
      if limit ≤ previous.toNat then (.ended k, counted)
      else (.yielded k previous.toNat batch, counted.countStep k it)
    | none => (.yielded k previous.toNat batch, counted.countStep k it)
  | none => (.yielded k it.step batch, { loader with call := .idle }.countStep k it)

/-- What a step does: it starts a call, or it goes on with what has been started. -/
inductive Action
  | work
  | iter
  | next (k : ℕ)

inductive Step : RandomDataLoader config → Action → Option (LoaderEvent β) →
    RandomDataLoader config → Prop
  /-- The prefetch works. Its consumer only waits within a call of `next`. -/
  | work {loader : RandomDataLoader config} {slot slot' : PrefetchSlot config}
    {event : Option (PrefetchEvent β)} :
    loader.prefetch = some slot → slot.Step event slot' →
    (∀ e ∈ event, ∃ taskIndex, e = .claimed taskIndex) →
    (slot.prefetch.consumer = .idle → slot'.prefetch.consumer = .idle ∨ ∃ k, loader.call = .next k) →
    Step loader .work none { loader with prefetch := some slot' }
  | iterDirect {loader : RandomDataLoader config} :
    loader.call = .idle → loader.usePersistentPrefetch = false →
    Step loader .iter (some (.created loader.absoluteStepStart.toNat)) loader.pushIterator
  /-- The first `iter` that uses the prefetch spawns it. -/
  | iterSpawn {loader : RandomDataLoader config} :
    loader.call = .idle → loader.usePersistentPrefetch = true → loader.prefetch = none →
    Step loader .iter none { loader with
      prefetch := some ⟨loader.absoluteStepStart, .spawn _⟩
      call := .iter }
  /-- It returns when the prefetch is primed. -/
  | iterPrimed {loader : RandomDataLoader config} {slot : PrefetchSlot config} :
    loader.call = .iter → loader.prefetch = some slot → slot.prefetch.consumer = .idle →
    Step loader .work (some (.created loader.absoluteStepStart.toNat)) loader.pushIterator
  | iterSeek {loader : RandomDataLoader config} {slot slot' : PrefetchSlot config} :
    loader.call = .idle → loader.usePersistentPrefetch = true → loader.prefetch = some slot →
    slot.Step (some (.seekTo loader.absoluteStepStart.toNat)) slot' →
    Step loader .iter (some (.created loader.absoluteStepStart.toNat))
      { loader with prefetch := some slot' }.pushIterator
  | nextExhausted {loader : RandomDataLoader config} {k : ℕ} {it : RandomIterator} :
    loader.call = .idle → loader.iterators[k]? = some it → it.stepsTotal ≤ it.step →
    Step loader (.next k) (some (.ended k)) loader
  /-- Without prefetch, the batch is sampled in the epoch of the iterator. -/
  | nextDirect {loader : RandomDataLoader config} {k : ℕ} {it : RandomIterator} {batch : β} :
    loader.call = .idle → loader.iterators[k]? = some it → it.step < it.stepsTotal →
    it.usesPrefetch = false →
    config.source.sampleHostBatch (config.source.request it.epochIndex (loader.position it)) batch →
    Step loader (.next k) (some (loader.finishNext k it batch).1) (loader.finishNext k it batch).2
  | nextNoSlot {loader : RandomDataLoader config} {k : ℕ} {it : RandomIterator} :
    loader.call = .idle → loader.iterators[k]? = some it → it.step < it.stepsTotal →
    it.usesPrefetch = true → loader.prefetch = none → Step loader (.next k) (some (.ended k)) loader
  | nextStart {loader : RandomDataLoader config} {k : ℕ} {it : RandomIterator}
    {slot : PrefetchSlot config} :
    loader.call = .idle → loader.iterators[k]? = some it → it.step < it.stepsTotal →
    it.usesPrefetch = true → loader.prefetch = some slot →
    Step loader (.next k) none { loader with call := .next k }
  | nextReceived {loader : RandomDataLoader config} {k : ℕ} {it : RandomIterator}
    {slot slot' : PrefetchSlot config} {batch : β} :
    loader.call = .next k → loader.iterators[k]? = some it → loader.prefetch = some slot →
    slot.Step (some (.received (some batch))) slot' →
    Step loader .work (some ({ loader with prefetch := some slot' }.finishNext k it batch).1)
      ({ loader with prefetch := some slot' }.finishNext k it batch).2
  | nextNone {loader : RandomDataLoader config} {k : ℕ} {slot slot' : PrefetchSlot config} :
    loader.call = .next k → loader.prefetch = some slot →
    slot.Step (some (.received none)) slot' →
    Step loader .work (some (.ended k)) { loader with prefetch := some slot', call := .idle }

/-- When a step does what it should. An iterator that samples its batches itself has not left the epoch
in which it was created, unless no step is left, and the counter has not come to its end. Without
a limit, the prefetch has been used by one iterator only: none is created after it has delivered, and
it is at the step of the iterator whose `next` is called. -/
def Regular (loader : RandomDataLoader config) : Action → Prop
  | .work => True
  | .iter => config.totalSteps = none → loader.usePersistentPrefetch = true →
      ∀ slot, loader.prefetch = some slot → slot.nextIndex = 0
  | .next k => ∀ it, loader.iterators[k]? = some it → it.step < it.stepsTotal →
      loader.position it < usizeMax ∧
      (it.usesPrefetch = false → ¬ config.LimitReached (loader.position it) →
        it.epochIndex = config.source.epochOf (loader.position it)) ∧
      (it.usesPrefetch = true → config.totalSteps = none →
        ∀ slot, loader.prefetch = some slot → slot.nextIndex = it.step)

/-- A step of a regular run. -/
def RegularStep (loader : RandomDataLoader config) (event : Option (LoaderEvent β))
    (loader' : RandomDataLoader config) : Prop :=
  ∃ action, Step loader action event loader' ∧ loader.Regular action

/-- A step of any run. -/
def AnyStep (loader : RandomDataLoader config) (event : Option (LoaderEvent β))
    (loader' : RandomDataLoader config) : Prop :=
  ∃ action, Step loader action event loader'

end RandomDataLoader

end BurnDragon.Dataset
