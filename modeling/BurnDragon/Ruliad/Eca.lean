import BurnDragon.Rust.Machine

/-!
# Elementary cellular automata

`eca.rs`: cyclic binary states under one of the 256 rules, and the complement that takes a rule to its
mirror under the exchange of the two symbols. Bytes are natural numbers.
-/

namespace BurnDragon.Ruliad.Eca

open Rust

/-- The next value of the cell at an index. -/
def stepCell (rule : ℕ) (state : List ℕ) (i : ℕ) : Run ℕ := do
  let width := state.length
  let before ← remainder (i + width - 1) width
  let after ← remainder (i + 1) width
  let left ← index state before
  let center ← index state i
  let right ← index state after
  let neighborhood := ((left &&& 1) <<< 2) ||| ((center &&& 1) <<< 1) ||| (right &&& 1)
  return (rule >>> neighborhood) &&& 1

/-- `step`. -/
def step (rule : ℕ) (state : List ℕ) : Run (List ℕ) :=
  if state.length = 0 then .ok [] else (List.range state.length).mapM (stepCell rule state)

/-- The loop of `trace`: the given number of frames after a frame. -/
def framesAfter (rule : ℕ) : ℕ → List ℕ → Run (List (List ℕ))
  | 0, _ => .ok []
  | steps + 1, frame => do
    let next ← step rule frame
    let frames ← framesAfter rule steps next
    return next :: frames

/-- `trace`. A frame is a vector of 24 bytes. -/
def trace (rule : ℕ) (initial : List ℕ) (steps : ℕ) : Run (List (List ℕ)) := do
  withCapacity 24 (saturatingAdd steps 1)
  let frames ← framesAfter rule steps initial
  return initial :: frames

/-- `complement_state`. -/
def complementState (state : List ℕ) : List ℕ := state.map fun value => 1 - (value &&& 1)

/-- `complement_rule`. -/
def complementRule (rule : ℕ) : ℕ :=
  (List.range 8).foldl (fun target neighborhood =>
    let sourceNeighborhood := 7 - neighborhood
    let sourceBit := (rule >>> sourceNeighborhood) &&& 1
    target ||| ((1 - sourceBit) <<< neighborhood)) 0

/-- `parse_state`: the zeros and ones of a text. -/
def parseState (value : String) : List ℕ :=
  value.toList.filterMap fun c =>
    if c = '0' then some 0 else if c = '1' then some 1 else none

/-! ## Panics -/

variable {rule steps : ℕ} {state initial : List ℕ}

theorem stepCell_returns {i : ℕ} (hi : i < state.length) :
    ∃ value, stepCell rule state i = .ok value := by
  have hpos : 0 < state.length := by omega
  simp only [stepCell, remainder_of_pos hpos, index_of_lt (Nat.mod_lt _ hpos), index_of_lt hi,
    bind, Except.bind]
  exact ⟨_, rfl⟩

/-- A step does not index out of range: the neighbours are taken modulo the width. -/
theorem step_returns (rule : ℕ) (state : List ℕ) : ∃ next, step rule state = .ok next := by
  unfold step
  split
  · exact ⟨_, rfl⟩
  · exact mapM_returns fun i hi => stepCell_returns (List.mem_range.1 hi)

theorem framesAfter_returns (rule steps : ℕ) (frame : List ℕ) :
    ∃ frames, framesAfter rule steps frame = .ok frames := by
  induction steps generalizing frame with
  | zero => exact ⟨_, rfl⟩
  | succ steps ih =>
    obtain ⟨next, hnext⟩ := step_returns rule frame
    obtain ⟨frames, hframes⟩ := ih next
    exact ⟨next :: frames, by rw [framesAfter, hnext]; simp only [bind, Except.bind, hframes]; rfl⟩

variable (rule initial) in
/-- The only panic of a trace is the capacity that it reserves. -/
theorem trace_returns_iff :
    (∃ frames, trace rule initial steps = .ok frames) ↔ 24 * (steps + 1) ≤ isizeMax := by
  obtain ⟨frames, hframes⟩ := framesAfter_returns rule steps initial
  rw [trace, ← withCapacity_saturatingAdd_iff (by omega)]
  cases withCapacity 24 (saturatingAdd steps 1) with
  | error panic => simp [bind, Except.bind]
  | ok => simp [bind, Except.bind, hframes, pure, Except.pure]

end BurnDragon.Ruliad.Eca
