import BurnDragon.Rust.Machine

/-!
# What the data loaders share

The loaders of `scheduler.rs` hand out iterators that share a counter of consumed steps. A run of a loader
shows when its iterators are created, what they yield and when they end.
-/

namespace BurnDragon.Dataset

open List

variable {β : Type*}

/-- `steps_total` of a new iterator. -/
def iterSteps (totalSteps : Option ℕ) (consumedSteps : Option UInt64) (stepsPerEpoch : ℕ) : ℕ :=
  match totalSteps, consumedSteps with
  | some limit, some used =>
    if limit ≤ used.toNat then 0 else min (limit - used.toNat) stepsPerEpoch
  | _, _ => stepsPerEpoch

/-- `with_initial_consumed_steps` on a new counter, which only exists with a limit. -/
def initialConsumedSteps (totalSteps : Option ℕ) (initialSteps : ℕ) : Option UInt64 :=
  totalSteps.map fun limit => UInt64.ofNat (min initialSteps limit)

/-- What a run shows: an iterator is created at a step, the k-th iterator yields a batch at a step, or
it has no batch left. -/
inductive LoaderEvent (β : Type*)
  | created (absoluteStepStart : ℕ)
  | yielded (k absoluteStep : ℕ) (batch : β)
  | ended (k : ℕ)

/-! ## What the events say -/

namespace LoaderEvent

/-- The steps at which the iterators were created. -/
def starts (events : List (LoaderEvent β)) : List ℕ :=
  events.filterMap fun event =>
    match event with
    | created start => some start
    | _ => none

/-- The steps at which batches were yielded. -/
def steps (events : List (LoaderEvent β)) : List ℕ :=
  events.filterMap fun event =>
    match event with
    | yielded _ absoluteStep _ => some absoluteStep
    | _ => none

/-- The steps at which the k-th iterator yielded batches. -/
def stepsOf (k : ℕ) (events : List (LoaderEvent β)) : List ℕ :=
  events.filterMap fun event =>
    match event with
    | yielded k' absoluteStep _ => if k' = k then some absoluteStep else none
    | _ => none

variable {events : List (LoaderEvent β)} {k k' n : ℕ} {batch : β}

@[simp] theorem starts_created : starts (events ++ [created n]) = starts events ++ [n] :=
  filterMap_append ..

@[simp] theorem starts_yielded : starts (events ++ [yielded k n batch]) = starts events :=
  (filterMap_append ..).trans (append_nil _)

@[simp] theorem starts_ended : starts (events ++ [ended k]) = starts events :=
  (filterMap_append ..).trans (append_nil _)

@[simp] theorem steps_created : steps (events ++ [created n]) = steps events :=
  (filterMap_append ..).trans (append_nil _)

@[simp] theorem steps_yielded : steps (events ++ [yielded k n batch]) = steps events ++ [n] :=
  filterMap_append ..

@[simp] theorem steps_ended : steps (events ++ [ended k]) = steps events :=
  (filterMap_append ..).trans (append_nil _)

@[simp] theorem stepsOf_created : stepsOf k (events ++ [created n]) = stepsOf k events :=
  (filterMap_append ..).trans (append_nil _)

@[simp] theorem stepsOf_ended : stepsOf k (events ++ [ended k']) = stepsOf k events :=
  (filterMap_append ..).trans (append_nil _)

theorem stepsOf_yielded_self :
    stepsOf k (events ++ [yielded k n batch]) = stepsOf k events ++ [n] := by
  simp [stepsOf]

theorem stepsOf_yielded_of_ne (h : k' ≠ k) :
    stepsOf k (events ++ [yielded k' n batch]) = stepsOf k events := by
  simp [stepsOf, h]

/-- The last batch that was yielded, with its iterator. -/
def lastYield (events : List (LoaderEvent β)) : Option (ℕ × β) :=
  (events.filterMap fun event =>
    match event with
    | yielded k _ batch => some (k, batch)
    | _ => none).getLast?

@[simp] theorem lastYield_created : lastYield (events ++ [created n]) = lastYield events := by
  simp [lastYield]

@[simp] theorem lastYield_ended : lastYield (events ++ [ended k]) = lastYield events := by
  simp [lastYield]

@[simp] theorem lastYield_yielded : lastYield (events ++ [yielded k n batch]) = some (k, batch) := by
  simp [lastYield]

end LoaderEvent


end BurnDragon.Dataset
