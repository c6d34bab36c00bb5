import BurnDragon.Ruliad.Policy
import BurnDragon.Ruliad.Soundness

/-!
# Rollouts of a proof policy

The closed loop of `policy.rs`: a selector chooses from the menus, the state keeps the steps of the
goal it works on, and a state without a menu is undone by one step. `rolloutLoop` also records what
was accepted and undone, as `RolloutEvent`s that the loop itself does not look at;
`survivingSteps` is what they leave of each goal's steps.

`RolloutInvariant` ties the state to the surviving steps: those of the goals before the cursor prove
their claims, those of the goal at the cursor are the local steps, and there are no others. One
accepted or undone action keeps it (`RolloutInvariant.apply`, `RolloutInvariant.backtrack`), so a
rollout that reports `solved` leaves a certificate that the kernel accepts
(`accepts_of_rollout_solved`).
-/

namespace BurnDragon.Ruliad

open Equational Rust List

/-! ## States -/

structure RuliadProofPolicyState where
  goalOrder : List ℕ
  goalCursor : ℕ
  localSteps : List RuliadProofStep
  visited : List String
  deriving DecidableEq

namespace RuliadProofPolicyState

def new (problem : RuliadProofProblem) : RuliadProofPolicyState where
  goalOrder := problem.requiredGoalIndices
  goalCursor := 0
  localSteps := []
  visited := []

def solved (state : RuliadProofPolicyState) : Bool := state.goalCursor ≥ state.goalOrder.length

/-- `solved_goals`. -/
def solvedGoals (state : RuliadProofPolicyState) : ℕ := min state.goalCursor state.goalOrder.length

/-- `backtrack`: whether there was a local step to drop, and the state without it. -/
def backtrack (state : RuliadProofPolicyState) : Option RuliadProofPolicyState :=
  if state.localSteps = [] then none
  else some { state with localSteps := state.localSteps.dropLast }

/-- `action_set`. -/
def actionSet (S : Serde) (problem : RuliadProofProblem) (state : RuliadProofPolicyState)
    (maximumCandidates : ℕ) : Except String RuliadProofActionSet := do
  let goal ← okOr state.goalOrder[state.goalCursor]? "proof policy is already solved"
  let hash ← problem.canonicalHash S
  let seed := actionSeed hash
    (saturatingAdd state.localSteps.length ((state.goalCursor <<< 20) % 2 ^ 64))
  proofActionSetForState S problem goal state.localSteps none (max maximumCandidates 2) seed
    (some state.visited)

/-- `apply`: whether the new term was visited before, and the state with the step taken. -/
def apply (state : RuliadProofPolicyState) (actionSet : RuliadProofActionSet)
    (candidateIndex : ℕ) : Except String (Bool × RuliadProofPolicyState) := do
  let expectedGoal ← okOr state.goalOrder[state.goalCursor]? "proof policy is already solved"
  if actionSet.goal ≠ expectedGoal then
    throw "proof action set belongs to a different goal"
  let candidate ← okOr actionSet.candidates[candidateIndex]?
    ("proof action candidate " ++ decimal candidateIndex ++ " is out of range")
  let outcome ← okOr candidate.outcome "proof action candidate is verifier-invalid"
  let stateKey := proofStateKey expectedGoal outcome
  let repeated := state.visited.contains stateKey
  if outcome = actionSet.target then
    return (repeated, { state with
      goalCursor := saturatingAdd state.goalCursor 1
      localSteps := []
      visited := [] })
  else
    return (repeated, { state with
      localSteps := state.localSteps ++ [candidate.step]
      visited := insertSorted stateKey state.visited })

end RuliadProofPolicyState

/-! ## The loop -/

structure RuliadProofRolloutReport where
  solved : Bool
  steps : ℕ
  validActions : ℕ
  invalidActions : ℕ
  repeatedStates : ℕ
  backtracks : ℕ
  solvedGoals : ℕ
  totalGoals : ℕ
  deriving DecidableEq

/-- What one iteration did to the steps of a goal. -/
inductive RolloutEvent
  | action (goal : ℕ) (step : RuliadProofStep)
  | backtrack (goal : ℕ)
  deriving DecidableEq

/-- The event of taking the candidate with the given index. -/
def RuliadProofActionSet.event (actions : RuliadProofActionSet) (index : ℕ) : List RolloutEvent :=
  match actions.candidates[index]? with
  | some candidate => [.action actions.goal candidate.step]
  | none => []

/-- The event of undoing the last local step. -/
def RuliadProofPolicyState.undone (state : RuliadProofPolicyState) : List RolloutEvent :=
  match state.goalOrder[state.goalCursor]? with
  | some goal => [.backtrack goal]
  | none => []

section Loop

variable {σ : Type} (S : Serde) (problem : RuliadProofProblem) (maximumCandidates : ℕ)
  (select : σ → RuliadProofPolicyState → RuliadProofActionSet → Option ℕ × σ)

/-- The loop of `rollout_proof_policy` with the given number of iterations left. The selector may
have a state of its own; the events are recorded and not read. -/
def rolloutLoop : ℕ → σ → RuliadProofPolicyState → RuliadProofRolloutReport → List RolloutEvent →
    RuliadProofPolicyState × RuliadProofRolloutReport × List RolloutEvent
  | 0, _, state, report, events => (state, report, events)
  | iterations + 1, selector, state, report, events =>
    if state.solved then
      (state, report, events)
    else
      match state.actionSet S problem maximumCandidates with
      | .error _ =>
        match state.backtrack with
        | some previous =>
          rolloutLoop iterations selector previous
            { report with backtracks := saturatingAdd report.backtracks 1 }
            (events ++ state.undone)
        | none =>
          (state, { report with invalidActions := saturatingAdd report.invalidActions 1 }, events)
      | .ok actions =>
        match select selector state actions with
        | (none, _) =>
          (state, { report with invalidActions := saturatingAdd report.invalidActions 1 }, events)
        | (some index, selector) =>
          let report := { report with steps := saturatingAdd report.steps 1 }
          match state.apply actions index with
          | .ok (repeated, next) =>
            rolloutLoop iterations selector next
              { report with
                validActions := saturatingAdd report.validActions 1
                repeatedStates := saturatingAdd report.repeatedStates repeated.toNat }
              (events ++ actions.event index)
          | .error _ =>
            (state, { report with invalidActions := saturatingAdd report.invalidActions 1 }, events)

/-- The whole loop, from the initial state. -/
def rolloutRun (maximumSteps : ℕ) (selector : σ) :
    RuliadProofPolicyState × RuliadProofRolloutReport × List RolloutEvent :=
  let state := RuliadProofPolicyState.new problem
  rolloutLoop S problem maximumCandidates select maximumSteps selector state
    { solved := false, steps := 0, validActions := 0, invalidActions := 0, repeatedStates := 0,
      backtracks := 0, solvedGoals := 0, totalGoals := state.goalOrder.length } []

/-- `rollout_proof_policy`. -/
def rolloutProofPolicy (maximumSteps : ℕ) (selector : σ) : RuliadProofRolloutReport :=
  let (state, report, _) := rolloutRun S problem maximumCandidates select maximumSteps selector
  { report with solved := state.solved, solvedGoals := state.solvedGoals }

/-- What the rollout accepted and undid, in order. -/
def rolloutEvents (maximumSteps : ℕ) (selector : σ) : List RolloutEvent :=
  (rolloutRun S problem maximumCandidates select maximumSteps selector).2.2

end Loop

/-! ## The surviving steps -/

/-- The steps of each goal after one more event. -/
def RolloutEvent.record (steps : ℕ → List RuliadProofStep) :
    RolloutEvent → ℕ → List RuliadProofStep
  | .action goal step => Function.update steps goal (steps goal ++ [step])
  | .backtrack goal => Function.update steps goal (steps goal).dropLast

/-- The steps of each goal that were accepted and not undone. -/
def survivingSteps (events : List RolloutEvent) : ℕ → List RuliadProofStep :=
  events.foldl RolloutEvent.record fun _ => []

/-- The surviving steps of the required goals, as a certificate. -/
def survivingCertificate (problem : RuliadProofProblem) (problemHash : String)
    (events : List RolloutEvent) : RuliadProofCertificate where
  version := ruliadIrVersion
  problemHash
  goals := problem.requiredGoalIndices.map fun goal => ⟨goal, survivingSteps events goal⟩

/-- One event adds at most one step to the goals. -/
theorem sum_length_record_le (event : RolloutEvent) (steps : ℕ → List RuliadProofStep)
    {goals : List ℕ} (hgoals : goals.Nodup) :
    (goals.map fun goal => (event.record steps goal).length).sum ≤
      (goals.map fun goal => (steps goal).length).sum + 1 := by
  have hupdate : ∀ {g : ℕ} {new : List RuliadProofStep}, new.length ≤ (steps g).length + 1 →
      (goals.map fun goal => (Function.update steps g new goal).length).sum ≤
        (goals.map fun goal => (steps goal).length).sum + 1 := by
    intro g new hnew
    induction goals with
    | nil => simp
    | cons goal goals ih =>
      obtain ⟨hgoal, hgoals⟩ := nodup_cons.1 hgoals
      simp only [map_cons, sum_cons]
      by_cases hg : goal = g
      · subst hg
        have hsame : (goals.map fun i => (Function.update steps goal new i).length) =
            goals.map fun i => (steps i).length :=
          map_congr_left fun i hi => by
            rw [Function.update_of_ne (ne_of_mem_of_not_mem hi hgoal)]
        rw [hsame, Function.update_self]
        omega
      · rw [Function.update_of_ne hg]
        have := ih hgoals
        omega
  cases event with
  | action goal step => exact hupdate (by simp)
  | backtrack goal => exact hupdate (by rw [length_dropLast]; omega)

/-- No more steps survive than there were events. -/
theorem sum_length_survivingSteps_le (events : List RolloutEvent) {goals : List ℕ}
    (hgoals : goals.Nodup) :
    (goals.map fun goal => (survivingSteps events goal).length).sum ≤ events.length := by
  have hfold : ∀ (events : List RolloutEvent) (steps : ℕ → List RuliadProofStep),
      (goals.map fun goal => (events.foldl RolloutEvent.record steps goal).length).sum ≤
        (goals.map fun goal => (steps goal).length).sum + events.length := by
    intro events
    induction events with
    | nil => exact fun _ => le_rfl
    | cons event events ih =>
      intro steps
      have := ih (event.record steps)
      have := sum_length_record_le event steps hgoals
      rw [foldl_cons, length_cons]
      omega
  have := hfold events fun _ => []
  simpa [survivingSteps] using this

theorem survivingSteps_append (events events' : List RolloutEvent) :
    survivingSteps (events ++ events') =
      events'.foldl RolloutEvent.record (survivingSteps events) :=
  foldl_append ..

/-! ## The invariant -/

/-- The state agrees with the surviving steps of the goals. -/
structure RolloutInvariant (problem : RuliadProofProblem) (state : RuliadProofPolicyState)
    (steps : ℕ → List RuliadProofStep) : Prop where
  goalOrder : state.goalOrder = problem.requiredGoalIndices
  valid : 0 < state.goalCursor → ValidProblem problem .default
  proved : ∀ i < state.goalCursor, ∀ index, state.goalOrder[i]? = some index →
    ∃ goal, problem.goals[index]? = some goal ∧
      Replays problem goal (steps index) goal.claim.lhs goal.claim.rhs
  current : ∀ index, state.goalOrder[state.goalCursor]? = some index →
    steps index = state.localSteps
  later : ∀ i > state.goalCursor, ∀ index, state.goalOrder[i]? = some index → steps index = []
  paths : ∀ index, ∀ step ∈ steps index,
    step.path.length ≤ RuliadKernelLimits.default.maximumPathDepth

/-- The cursor is moved on without saturation. -/
theorem ValidProblem.saturatingAdd_goalCursor {problem : RuliadProofProblem}
    {state : RuliadProofPolicyState} {g : ℕ} (hvalid : ValidProblem problem .default)
    (horder : state.goalOrder = problem.requiredGoalIndices)
    (hg : state.goalOrder[state.goalCursor]? = some g) :
    saturatingAdd state.goalCursor 1 = state.goalCursor + 1 := by
  have hlt := (List.getElem?_eq_some_iff.1 hg).1
  have hle := hvalid.length_requiredGoalIndices_le
  have hmax := hvalid.goals_length
  rw [horder] at hlt
  refine saturatingAdd_of_le ?_
  simp only [RuliadKernelLimits.default, usizeMax] at hmax ⊢
  omega

namespace RolloutInvariant

variable {S : Serde} {problem : RuliadProofProblem} {maximumCandidates : ℕ}
  {state next : RuliadProofPolicyState} {steps : ℕ → List RuliadProofStep}

theorem new (problem : RuliadProofProblem) :
    RolloutInvariant problem (.new problem) fun _ => [] where
  goalOrder := rfl
  valid h := absurd h (lt_irrefl 0)
  proved i hi := absurd hi (Nat.not_lt_zero i)
  current _ _ := rfl
  later _ _ _ _ := rfl
  paths := by simp

section

variable (h : RolloutInvariant problem state steps)
include h

/-- The goals of the order are distinct. -/
theorem goal_ne {i j a b : ℕ} (ha : state.goalOrder[i]? = some a)
    (hb : state.goalOrder[j]? = some b) (hij : i ≠ j) :
    a ≠ b := by
  rintro rfl
  have hnodup : state.goalOrder.Nodup :=
    h.goalOrder ▸ RuliadProofProblem.pairwise_requiredGoalIndices.imp ne_of_lt
  exact hij ((List.getElem?_inj (List.getElem?_eq_some_iff.1 ha).1 hnodup).1 (ha.trans hb.symm))

/-- Changing the steps of the goal at the cursor keeps the rest of the invariant. -/
theorem update {g : ℕ} (hg : state.goalOrder[state.goalCursor]? = some g)
    (new : List RuliadProofStep) :
    (∀ i < state.goalCursor, ∀ index, state.goalOrder[i]? = some index →
      ∃ goal, problem.goals[index]? = some goal ∧
        Replays problem goal (Function.update steps g new index) goal.claim.lhs goal.claim.rhs) ∧
    ∀ i > state.goalCursor, ∀ index, state.goalOrder[i]? = some index →
      Function.update steps g new index = [] := by
  refine ⟨fun i hi index hindex => ?_, fun i hi index hindex => ?_⟩
  · rw [Function.update_of_ne (h.goal_ne hindex hg (by omega))]
    exact h.proved i hi index hindex
  · rw [Function.update_of_ne (h.goal_ne hindex hg (by omega))]
    exact h.later i hi index hindex

/-- Undoing the last local step keeps the invariant. -/
theorem backtrack (hsolved : state.solved = false) (hback : state.backtrack = some next) :
    RolloutInvariant problem next (state.undone.foldl RolloutEvent.record steps) := by
  have hlt : state.goalCursor < state.goalOrder.length := by
    simpa [RuliadProofPolicyState.solved] using hsolved
  have hg : state.goalOrder[state.goalCursor]? = some state.goalOrder[state.goalCursor] :=
    getElem?_eq_getElem hlt
  have hundone : state.undone = [.backtrack state.goalOrder[state.goalCursor]] := by
    rw [RuliadProofPolicyState.undone, hg]
  obtain ⟨-, hnext⟩ := Option.ite_none_left_eq_some.1 hback
  obtain rfl := Option.some.inj hnext
  obtain ⟨hproved, hlater⟩ := h.update hg (steps state.goalOrder[state.goalCursor]).dropLast
  rw [hundone, foldl_cons, foldl_nil, RolloutEvent.record]
  refine ⟨h.goalOrder, h.valid, hproved, fun index hindex => ?_, hlater, fun index step hstep => ?_⟩
  · obtain rfl := Option.some.inj (hg.symm.trans hindex)
    rw [Function.update_self, h.current _ hg]
  · by_cases hi : index = state.goalOrder[state.goalCursor]
    · subst hi
      rw [Function.update_self] at hstep
      exact h.paths _ step (mem_of_mem_dropLast hstep)
    · rw [Function.update_of_ne hi] at hstep
      exact h.paths index step hstep

/-- Taking a candidate of the state's menu keeps the invariant. -/
theorem apply {actions : RuliadProofActionSet} {index : ℕ} {repeated : Bool}
    (hactions : state.actionSet S problem maximumCandidates = .ok actions)
    (happly : state.apply actions index = .ok (repeated, next)) :
    RolloutInvariant problem next ((actions.event index).foldl RolloutEvent.record steps) := by
  simp only [RuliadProofPolicyState.actionSet, bind_eq_ok, okOr_eq_ok] at hactions
  obtain ⟨g, hg, hash, -, hmenu⟩ := hactions
  obtain ⟨transition, menu⟩ := proofActionSetForState_spec hmenu
  obtain ⟨hvalid, -, goal, hgoal, hkernel⟩ := RuliadGoalTransitionKernel.new_eq_ok_iff.1 menu.new
  simp only [RuliadProofPolicyState.apply, bind_eq_ok, throw_bind, ite_error_eq_ok, okOr_eq_ok]
    at happly
  obtain ⟨_, hg', -, candidate, hcandidate, outcome, houtcome, happly⟩ := happly
  obtain rfl := Option.some.inj (hg.symm.trans hg')
  have hevent : actions.event index = [.action g candidate.step] := by
    rw [RuliadProofActionSet.event, hcandidate, menu.goal_eq]
  obtain ⟨outcome', houtcome', hstep⟩ := menu.outcome candidate (mem_of_getElem? hcandidate)
  obtain rfl := Option.some.inj (houtcome.symm.trans houtcome')
  -- the local steps and the candidate lead from the left side to the outcome
  obtain ⟨hpath, happlies⟩ := (RuliadGoalTransitionKernel.apply_eq_ok_iff menu.new).1 hstep
  have hreplay := menu.replay
  rw [RuliadGoalTransitionKernel.replayPrefix, ite_error_eq_ok,
    RuliadGoalTransitionKernel.replayFrom_eq_ok_iff menu.new] at hreplay
  subst hkernel
  have hreplays : Replays problem goal (state.localSteps ++ [candidate.step]) goal.claim.lhs
      outcome :=
    replays_append.2 ⟨_, hreplay.2.2, outcome, happlies, rfl⟩
  have hpaths : ∀ j, ∀ step ∈ Function.update steps g (steps g ++ [candidate.step]) j,
      step.path.length ≤ RuliadKernelLimits.default.maximumPathDepth := by
    intro j step hmem
    by_cases hj : j = g
    · subst hj
      rw [Function.update_self] at hmem
      rcases mem_append.1 hmem with hmem | hmem
      · exact h.paths j step hmem
      · obtain rfl := mem_singleton.1 hmem
        exact hpath
    · rw [Function.update_of_ne hj] at hmem
      exact h.paths j step hmem
  obtain ⟨hproved, hlater⟩ := h.update hg (steps g ++ [candidate.step])
  rw [hevent, foldl_cons, foldl_nil, RolloutEvent.record]
  split_ifs at happly with htarget
  · obtain ⟨rfl, rfl⟩ : _ ∧ _ = next := by simpa [pure, Except.pure] using happly
    simp only [hvalid.saturatingAdd_goalCursor h.goalOrder hg]
    refine ⟨h.goalOrder, fun _ => hvalid, fun i hi j hj => ?_, fun j hj => ?_, fun i hi j hj => ?_,
      hpaths⟩
    · rcases Nat.lt_succ_iff_lt_or_eq.1 hi with hi | rfl
      · exact hproved i hi j hj
      · obtain rfl := Option.some.inj (hg.symm.trans hj)
        refine ⟨goal, hgoal, ?_⟩
        rw [Function.update_self, h.current _ hg]
        rw [htarget, menu.target_eq] at hreplays
        exact hreplays
    · exact hlater _ (Nat.lt_succ_self _) j hj
    · exact hlater i (Nat.lt_of_succ_lt hi) j hj
  · obtain ⟨rfl, rfl⟩ : _ ∧ _ = next := by simpa [pure, Except.pure] using happly
    refine ⟨h.goalOrder, h.valid, hproved, fun j hj => ?_, hlater, hpaths⟩
    obtain rfl := Option.some.inj (hg.symm.trans hj)
    rw [Function.update_self, h.current _ hg]

end

end RolloutInvariant

/-! ## Solved rollouts -/

theorem length_event_le (actions : RuliadProofActionSet) (index : ℕ) :
    (actions.event index).length ≤ 1 := by
  unfold RuliadProofActionSet.event
  split <;> simp

theorem length_undone_le (state : RuliadProofPolicyState) : state.undone.length ≤ 1 := by
  unfold RuliadProofPolicyState.undone
  split <;> simp

section Run

variable {σ : Type} {S : Serde} {problem : RuliadProofProblem} {maximumCandidates : ℕ}
  {select : σ → RuliadProofPolicyState → RuliadProofActionSet → Option ℕ × σ}

/-- The loop keeps the invariant, and every iteration records at most one event. -/
theorem rolloutLoop_invariant (iterations : ℕ) (selector : σ) {state : RuliadProofPolicyState}
    (report : RuliadProofRolloutReport) {events : List RolloutEvent}
    (h : RolloutInvariant problem state (survivingSteps events)) :
    let result := rolloutLoop S problem maximumCandidates select iterations selector state report
      events
    RolloutInvariant problem result.1 (survivingSteps result.2.2) ∧
      result.2.2.length ≤ events.length + iterations := by
  induction iterations generalizing selector state report events with
  | zero => exact ⟨h, le_rfl⟩
  | succ iterations ih =>
    have hstop : events.length ≤ events.length + (iterations + 1) := Nat.le_add_right ..
    have hgrow : ∀ {more : List RolloutEvent}, more.length ≤ 1 →
        (events ++ more).length + iterations ≤ events.length + (iterations + 1) := by
      intro more hmore
      rw [length_append]
      omega
    simp only [rolloutLoop]
    split
    · exact ⟨h, hstop⟩
    · rename_i hsolved
      split
      · -- no menu: undo a step or give up
        split
        · rename_i previous hback
          obtain ⟨hinv, hlen⟩ := ih selector _ (survivingSteps_append events _ ▸
            h.backtrack (by simpa using hsolved) hback)
          exact ⟨hinv, hlen.trans (hgrow (length_undone_le state))⟩
        · exact ⟨h, hstop⟩
      · rename_i actions hactions
        split
        · exact ⟨h, hstop⟩
        · rename_i index selector' _
          split
          · rename_i repeated next happly
            obtain ⟨hinv, hlen⟩ := ih selector' _
              (survivingSteps_append events _ ▸ h.apply hactions happly)
            exact ⟨hinv, hlen.trans (hgrow (length_event_le actions index))⟩
          · exact ⟨h, hstop⟩

/-- **A solved rollout is a proof**: when the rollout reports `solved`, the surviving steps of the
required goals are a certificate that the kernel accepts. -/
theorem accepts_of_rollout_solved {limits : RuliadKernelLimits} {hash : String}
    (hproblem : validateProblem S problem limits = .ok hash) {maximumSteps : ℕ} {selector : σ}
    (hsteps : maximumSteps ≤ RuliadKernelLimits.default.maximumSteps)
    (hsolved : (rolloutProofPolicy S problem maximumCandidates select maximumSteps
      selector).solved = true) :
    Accepts S problem (survivingCertificate problem hash
      (rolloutEvents S problem maximumCandidates select maximumSteps selector)) .default := by
  have hrun : RolloutInvariant problem
      (rolloutRun S problem maximumCandidates select maximumSteps selector).1
      (survivingSteps (rolloutEvents S problem maximumCandidates select maximumSteps selector)) ∧
      (rolloutEvents S problem maximumCandidates select maximumSteps selector).length ≤
        0 + maximumSteps :=
    rolloutLoop_invariant maximumSteps selector _ (RolloutInvariant.new problem)
  obtain ⟨h, hlen⟩ := hrun
  generalize hstate : (rolloutRun S problem maximumCandidates select maximumSteps selector).1 =
    state at h
  generalize rolloutEvents S problem maximumCandidates select maximumSteps selector = events
    at h hlen ⊢
  have hcursor : problem.requiredGoalIndices.length ≤ state.goalCursor := by
    rw [← h.goalOrder, ← hstate]
    simpa [rolloutProofPolicy, RuliadProofPolicyState.solved] using hsolved
  have hvalid : ValidProblem problem .default := h.valid (lt_of_lt_of_le
    (List.length_pos_of_mem RuliadProofProblem.root_mem_requiredGoalIndices) hcursor)
  have hgoals : (survivingCertificate problem hash events).goals.map (·.goal) =
      problem.requiredGoalIndices := by
    simp [survivingCertificate, Function.comp_def]
  have hsorted := problem.pairwise_requiredGoalIndices
  refine accepts_iff.2 ⟨hvalid, ⟨rfl, (validateProblem_eq_ok_iff.1 hproblem).2, ?_, ?_, ?_⟩,
    ⟨hgoals, fun node hnode => ?_⟩, fun node hnode => ?_⟩
  · have hsum := sum_length_survivingSteps_le events (hsorted.imp ne_of_lt)
    simp only [RuliadProofCertificate.stepCount, survivingCertificate, List.map_map] at hsum ⊢
    exact (hsum.trans (by simpa using hlen)).trans hsteps
  · rw [hgoals]
    exact hsorted
  · rw [hgoals]
    exact fun i hi => hi
  · obtain ⟨index, hindex, rfl⟩ := List.mem_map.1 hnode
    obtain ⟨i, hi⟩ := List.getElem?_of_mem hindex
    rw [← h.goalOrder] at hi
    have hlt := (List.getElem?_eq_some_iff.1 hi).1
    rw [h.goalOrder] at hlt
    exact h.proved i (lt_of_lt_of_le hlt hcursor) index hi
  · obtain ⟨index, -, rfl⟩ := List.mem_map.1 hnode
    exact h.paths index

end Run

/-- The selector that takes the candidate the menu marks. -/
def selectMarked (selector : Unit) (_ : RuliadProofPolicyState) (actions : RuliadProofActionSet) :
    Option ℕ × Unit :=
  (some actions.selectedIndex, selector)

theorem accepts_of_rollout_solved_unitProblem :
    Accepts (.ofDigest unitDigest) unitProblem (survivingCertificate unitProblem unitDigest
      (rolloutEvents (.ofDigest unitDigest) unitProblem 4 selectMarked 8 ())) .default :=
  accepts_of_rollout_solved (show validateProblem _ _ .default = _ from rfl) (by decide)
    (by decide +kernel)

end BurnDragon.Ruliad
