import BurnDragon.Ruliad.KernelAgreement
import BurnDragon.Ruliad.OracleMenu
import BurnDragon.Ruliad.Rollout

/-!
# Policy states from certificate prefixes

`from_certificate_prefix` rebuilds the state of a policy before a step of a certificate; the policy
reaches that state too when it takes the oracle's action at each step. The two advance to the next
goal at different places: the first when a block is exhausted and steps remain, the second when the
term is the goal's right side. They agree at every prefix exactly when every block has a step, every
step changes the term and only the last one of a block meets the right side
(`rebuilds_iff_steppable`).
-/

namespace BurnDragon.Ruliad

open Equational Rust List RuliadGoalTransitionKernel Option RuliadProofCertificate

namespace RuliadProofPolicyState

/-- The loop of `from_certificate_prefix` over the steps of a block: the last term and the state. -/
def replayLocal (transition : RuliadGoalTransitionKernel) (goal : ℕ) :
    List RuliadProofStep → RuliadTerm → RuliadProofPolicyState →
    Except String (RuliadTerm × RuliadProofPolicyState)
  | [], current, state => .ok (current, state)
  | step :: steps, current, state => do
    let current ← (transition.apply current step).mapError
      fun failure => "invalid proof policy prefix: " ++ failure.message
    replayLocal transition goal steps current { state with
      localSteps := state.localSteps ++ [step]
      visited := insertSorted (proofStateKey goal current) state.visited }

/-- The loop of `from_certificate_prefix` over the blocks: the state and the steps that remain. -/
def prefixGoals (S : Serde) (problem : RuliadProofProblem) :
    List RuliadGoalCertificate → ℕ → RuliadProofPolicyState →
    Except String (RuliadProofPolicyState × ℕ)
  | [], remainingSteps, state => .ok (state, remainingSteps)
  | goalCertificate :: goals, remainingSteps, state =>
    if remainingSteps = 0 then
      .ok (state, remainingSteps)
    else do
      let expectedGoal ← okOr state.goalOrder[state.goalCursor]?
        "certificate prefix continues after every goal is solved"
      if goalCertificate.goal ≠ expectedGoal then
        throw ("certificate goal " ++ decimal goalCertificate.goal ++
          " does not match policy goal " ++ decimal expectedGoal)
      let transition ← (RuliadGoalTransitionKernel.new S problem expectedGoal .default).mapError
        fun failure => "invalid proof policy problem: " ++ failure.message
      let prefixLen := min remainingSteps goalCertificate.steps.length
      let (current, state) ← replayLocal transition expectedGoal
        (goalCertificate.steps.take prefixLen) transition.initial state
      if prefixLen < goalCertificate.steps.length then
        return (state, remainingSteps - prefixLen)
      else if current ≠ transition.target then
        throw ("certificate goal " ++ decimal expectedGoal ++ " does not reach its target")
      else
        prefixGoals S problem goals (remainingSteps - prefixLen) { state with
          goalCursor := saturatingAdd state.goalCursor 1
          localSteps := []
          visited := [] }

/-- `from_certificate_prefix`. -/
def fromCertificatePrefix (S : Serde) (problem : RuliadProofProblem)
    (certificate : RuliadProofCertificate) (stepIndex : ℕ) :
    Except String RuliadProofPolicyState := do
  if stepIndex > certificate.stepCount then
    throw ("proof policy prefix step " ++ decimal stepIndex ++ " exceeds certificate length " ++
      decimal certificate.stepCount)
  let (state, remainingSteps) ← prefixGoals S problem certificate.goals stepIndex (new problem)
  if remainingSteps > 0 then
    throw ("certificate prefix is missing " ++ decimal remainingSteps ++ " requested steps")
  return state

/-- The policy takes the action that the oracle selects at a step of the certificate. -/
def oracleStep (S : Serde) (problem : RuliadProofProblem) (certificate : RuliadProofCertificate)
    (maximumCandidates stepIndex : ℕ) (state : RuliadProofPolicyState) :
    Except String RuliadProofPolicyState := do
  let oracle ← oracleProofActionSet S problem certificate stepIndex maximumCandidates
  let (_, state) ← state.apply oracle oracle.selectedIndex
  return state

/-- The policy starts fresh and takes the oracle's action at the first steps. -/
def oracleRun (S : Serde) (problem : RuliadProofProblem) (certificate : RuliadProofCertificate)
    (maximumCandidates : ℕ) : ℕ → Except String RuliadProofPolicyState
  | 0 => .ok (new problem)
  | stepIndex + 1 => do
    let state ← oracleRun S problem certificate maximumCandidates stepIndex
    oracleStep S problem certificate maximumCandidates stepIndex state

end RuliadProofPolicyState

open RuliadProofPolicyState

/-- At every prefix of the certificate the rebuilt state is the one that stepping reaches, and at the
end it is solved. -/
def RebuildsSteppedStates (S : Serde) (problem : RuliadProofProblem)
    (certificate : RuliadProofCertificate) (maximumCandidates : ℕ) : Prop :=
  ∀ k ≤ certificate.stepCount, ∃ state, fromCertificatePrefix S problem certificate k = .ok state ∧
    oracleRun S problem certificate maximumCandidates k = .ok state ∧
    (k = certificate.stepCount → state.solved)

/-- The block has a step, every step changes the term, and no step before the last leads to the right
side of the goal's claim. -/
structure SteppableBlock (S : Serde) (problem : RuliadProofProblem) (node : RuliadGoalCertificate) :
    Prop where
  nonempty : node.steps ≠ []
  changes : ∀ j < node.steps.length, ∀ s t,
    replayGoalPrefix S problem node.goal (node.steps.take j) .default = .ok s →
    replayGoalPrefix S problem node.goal (node.steps.take (j + 1)) .default = .ok t → t ≠ s
  unfinished : ∀ j, 0 < j → j < node.steps.length → ∀ goal t, problem.goals[node.goal]? = some goal →
    replayGoalPrefix S problem node.goal (node.steps.take j) .default = .ok t → t ≠ goal.claim.rhs

/-! ## Runs of blocks -/

/-- The terms of a block from the left to the right side of its goal's claim. -/
structure BlockRun (S : Serde) (problem : RuliadProofProblem) (node : RuliadGoalCertificate)
    (kernel : RuliadGoalTransitionKernel) (terms : ℕ → RuliadTerm) : Prop where
  new : RuliadGoalTransitionKernel.new S problem node.goal .default = .ok kernel
  length_le : node.steps.length ≤ RuliadKernelLimits.default.maximumSteps
  initial : terms 0 = kernel.initial
  step : ∀ (j : ℕ) (step : RuliadProofStep), node.steps[j]? = some step →
    kernel.apply (terms j) step = .ok (terms (j + 1))
  final : terms node.steps.length = kernel.target

/-- The keys of the terms after the first steps of a goal. -/
def visitedKeys (goal : ℕ) (terms : ℕ → RuliadTerm) : ℕ → List String
  | 0 => []
  | j + 1 => insertSorted (proofStateKey goal (terms (j + 1))) (visitedKeys goal terms j)

/-- The state at the beginning of the goal with the given position. -/
def goalStart (problem : RuliadProofProblem) (cursor : ℕ) : RuliadProofPolicyState where
  goalOrder := problem.requiredGoalIndices
  goalCursor := cursor
  localSteps := []
  visited := []

/-- The state after the first steps of a block. -/
def inBlock (problem : RuliadProofProblem) (cursor : ℕ) (node : RuliadGoalCertificate)
    (terms : ℕ → RuliadTerm) (j : ℕ) : RuliadProofPolicyState where
  goalOrder := problem.requiredGoalIndices
  goalCursor := cursor
  localSteps := node.steps.take j
  visited := visitedKeys node.goal terms j

section Blocks

variable {S : Serde} {problem : RuliadProofProblem} {certificate : RuliadProofCertificate}
  {node : RuliadGoalCertificate} {kernel : RuliadGoalTransitionKernel} {terms : ℕ → RuliadTerm}
  {maximumCandidates cursor j k : ℕ}

theorem inBlock_zero (problem : RuliadProofProblem) (cursor : ℕ) (node : RuliadGoalCertificate)
    (terms : ℕ → RuliadTerm) : inBlock problem cursor node terms 0 = goalStart problem cursor := rfl

/-- The terms that a replay goes through. -/
theorem exists_terms_of_replayFrom {stepIndex : ℕ} {s t : RuliadTerm} {steps : List RuliadProofStep}
    (h : kernel.replayFrom stepIndex s steps = .ok t) :
    ∃ terms : ℕ → RuliadTerm, terms 0 = s ∧ (∀ (j : ℕ) (step : RuliadProofStep),
      steps[j]? = some step → kernel.apply (terms j) step = .ok (terms (j + 1))) ∧
      terms steps.length = t := by
  induction steps generalizing s stepIndex with
  | nil => exact ⟨fun _ => s, rfl, by simp, Except.ok.inj h⟩
  | cons step steps ih =>
    rw [replayFrom] at h
    cases happly : kernel.apply s step with
    | error failure => simp [happly] at h
    | ok u =>
      rw [happly] at h
      obtain ⟨terms, hinitial, hstep, hfinal⟩ := ih h
      refine ⟨fun j => j.casesOn s terms, rfl, fun j next hnext => ?_, hfinal⟩
      cases j with
      | zero =>
        obtain rfl : step = next := by simpa using hnext
        exact happly.trans (congrArg Except.ok hinitial.symm)
      | succ j => exact hstep j next (by simpa using hnext)

theorem replayFrom_of_terms {steps : List RuliadProofStep} (hstep : ∀ (j : ℕ)
    (step : RuliadProofStep), steps[j]? = some step →
      kernel.apply (terms j) step = .ok (terms (j + 1))) (stepIndex : ℕ) :
    kernel.replayFrom stepIndex (terms 0) steps = .ok (terms steps.length) := by
  induction steps generalizing terms stepIndex with
  | nil => rfl
  | cons step steps ih =>
    rw [replayFrom, hstep 0 step rfl]
    exact @ih (fun j => terms (j + 1)) (fun j next hnext => hstep (j + 1) next hnext) _

/-- The blocks of an accepted certificate are those of the required goals, and each has a run. -/
theorem exists_blockRun (h : Accepts S problem certificate .default)
    (hnode : node ∈ certificate.goals) : ∃ kernel terms, BlockRun S problem node kernel terms := by
  obtain ⟨hproblem, hcertificate, hproves, hpaths⟩ := accepts_iff.1 h
  obtain ⟨goal, hgoal, hreplays⟩ := hproves.steps node hnode
  obtain ⟨kernel, hkernel⟩ : ∃ kernel : RuliadGoalTransitionKernel,
      kernel = ⟨problem, node.goal, goal, axiomMap problem, .default⟩ := ⟨_, rfl⟩
  have hnew : new S problem node.goal .default = .ok kernel :=
    new_eq_ok_iff.2 ⟨hproblem,
      hproves.goals ▸ mem_map_of_mem hnode, goal, hgoal, hkernel⟩
  have hreplay : kernel.replayFrom 0 goal.claim.lhs node.steps = .ok goal.claim.rhs := by
    subst hkernel
    exact (replayFrom_eq_ok_iff hnew).2 ⟨hpaths node hnode, hreplays⟩
  obtain ⟨terms, hinitial, hstep, hfinal⟩ := exists_terms_of_replayFrom hreplay
  subst hkernel
  exact ⟨_, terms, hnew, length_steps_le hcertificate hnode, hinitial, hstep, hfinal⟩

namespace BlockRun

variable (run : BlockRun S problem node kernel terms)
include run

theorem replayPrefix_take (hj : j ≤ node.steps.length) :
    kernel.replayPrefix (node.steps.take j) = .ok (terms j) := by
  obtain ⟨-, -, goal, -, rfl⟩ := new_eq_ok_iff.1 run.new
  have hlength : (node.steps.take j).length = j := length_take_of_le hj
  rw [replayPrefix, if_neg (by
    have := run.length_le
    rw [hlength]
    simp only
    omega), ← run.initial, replayFrom_of_terms fun i step hi => run.step i step ?_, hlength]
  rw [getElem?_take] at hi
  exact (ite_none_right_eq_some.1 hi).2

theorem replayGoalPrefix_take (hj : j ≤ node.steps.length) :
    replayGoalPrefix S problem node.goal (node.steps.take j) .default = .ok (terms j) := by
  rw [replayGoalPrefix, run.new]
  exact run.replayPrefix_take hj

/-- The target of the run is the right side of the goal's claim. -/
theorem target_eq {goal : RuliadProofGoal} (hgoal : problem.goals[node.goal]? = some goal) :
    kernel.target = goal.claim.rhs := by
  obtain ⟨-, -, goal', hgoal', rfl⟩ := new_eq_ok_iff.1 run.new
  obtain rfl := some.inj (hgoal.symm.trans hgoal')
  rfl

/-- What it takes for stepping to follow the run. -/
theorem steppableBlock_iff : SteppableBlock S problem node ↔ node.steps ≠ [] ∧
    (∀ j < node.steps.length, terms (j + 1) ≠ terms j) ∧
    ∀ j, 0 < j → j < node.steps.length → terms j ≠ kernel.target := by
  obtain ⟨-, -, goal, hgoal, -⟩ := new_eq_ok_iff.1 run.new
  constructor
  · refine fun h => ⟨h.nonempty, fun j hj => ?_, fun j hpos hj => ?_⟩
    · exact h.changes j hj _ _ (run.replayGoalPrefix_take hj.le) (run.replayGoalPrefix_take hj)
    · rw [run.target_eq hgoal]
      exact h.unfinished j hpos hj goal _ hgoal (run.replayGoalPrefix_take hj.le)
  · rintro ⟨hnonempty, hchanges, hunfinished⟩
    refine ⟨hnonempty, fun j hj s t hs ht => ?_, fun j hpos hj goal' t hgoal' ht => ?_⟩
    · obtain rfl := Except.ok.inj ((run.replayGoalPrefix_take hj.le).symm.trans hs)
      obtain rfl := Except.ok.inj ((run.replayGoalPrefix_take hj).symm.trans ht)
      exact hchanges j hj
    · obtain rfl := Except.ok.inj ((run.replayGoalPrefix_take hj.le).symm.trans ht)
      rw [← run.target_eq hgoal']
      exact hunfinished j hpos hj

end BlockRun

/-! ## Rebuilding -/

theorem replayLocal_append (steps steps' : List RuliadProofStep) (goal : ℕ) (current : RuliadTerm)
    (state : RuliadProofPolicyState) :
    replayLocal kernel goal (steps ++ steps') current state =
      replayLocal kernel goal steps current state >>= fun (current, state) =>
        replayLocal kernel goal steps' current state := by
  induction steps generalizing current state with
  | nil => rfl
  | cons step steps ih =>
    simp only [cons_append, replayLocal]
    cases kernel.apply current step with
    | error failure => rfl
    | ok next => exact ih next _

/-- Replaying the first steps of a block rebuilds the state inside it. -/
theorem BlockRun.replayLocal_take (run : BlockRun S problem node kernel terms)
    (hj : j ≤ node.steps.length) :
    replayLocal kernel node.goal (node.steps.take j) kernel.initial (goalStart problem cursor) =
      .ok (terms j, inBlock problem cursor node terms j) := by
  induction j with
  | zero => rw [take_zero, replayLocal, ← run.initial, inBlock_zero]
  | succ j ih =>
    have hget : node.steps[j]? = some node.steps[j] := getElem?_eq_getElem hj
    rw [take_add_one, hget, toList_some, replayLocal_append, ih (by omega)]
    simp only [bind, Except.bind, replayLocal, run.step j _ hget, Except.mapError]
    rw [inBlock, inBlock, take_add_one, hget, toList_some, visitedKeys]

/-- The number of steps of some blocks. -/
def blockSteps (goals : List RuliadGoalCertificate) : ℕ :=
  (goals.map fun goal => goal.steps.length).sum

theorem blockSteps_append (goals goals' : List RuliadGoalCertificate) :
    blockSteps (goals ++ goals') = blockSteps goals + blockSteps goals' := by
  simp [blockSteps]

theorem blockSteps_cons (node : RuliadGoalCertificate) (goals : List RuliadGoalCertificate) :
    blockSteps (node :: goals) = node.steps.length + blockSteps goals := by
  simp [blockSteps]

theorem prefixGoals_zero (goals : List RuliadGoalCertificate) (state : RuliadProofPolicyState) :
    prefixGoals S problem goals 0 state = .ok (state, 0) := by
  cases goals <;> rfl

/-- The loop goes through a block with steps, and stops in it when they do not all remain. -/
theorem BlockRun.prefixGoals_cons (run : BlockRun S problem node kernel terms) (hpos : 0 < k)
    (hgoal : problem.requiredGoalIndices[cursor]? = some node.goal) (hcursor : cursor < usizeMax)
    (goals : List RuliadGoalCertificate) :
    prefixGoals S problem (node :: goals) k (goalStart problem cursor) =
      if k < node.steps.length then .ok (inBlock problem cursor node terms k, 0)
      else prefixGoals S problem goals (k - node.steps.length) (goalStart problem (cursor + 1)) := by
  have horder : (goalStart problem cursor).goalOrder[(goalStart problem cursor).goalCursor]? =
      some node.goal := hgoal
  rw [prefixGoals, if_neg hpos.ne', horder]
  simp only [okOr, bind, Except.bind, ne_eq, not_true_eq_false, if_false, run.new, Except.mapError,
    pure, Except.pure]
  rw [run.replayLocal_take (min_le_right _ _)]
  rcases lt_or_ge k node.steps.length with hk | hk
  · simp only [min_eq_left hk.le, hk, if_true, Nat.sub_self]
  · have hadd : saturatingAdd cursor 1 = cursor + 1 := saturatingAdd_of_le hcursor
    simp only [min_eq_right hk, lt_irrefl, if_false, run.final, not_true_eq_false, not_lt.2 hk,
      inBlock, goalStart, hadd]

variable {done rest : List RuliadGoalCertificate}

/-- Every goal that a certificate has blocks for is at the block's position in the goal order. -/
theorem getElem?_requiredGoalIndices (hproves : Proves problem certificate)
    (hgoals : certificate.goals = done ++ node :: rest) :
    problem.requiredGoalIndices[done.length]? = some node.goal := by
  rw [← hproves.goals, hgoals]
  simp

section

variable (h : Accepts S problem certificate .default)
include h

/-- The goals of the order are fewer than a cursor can count. -/
theorem length_goals_lt :
    certificate.goals.length < usizeMax := by
  obtain ⟨hvalid, -, hproves, -⟩ := accepts_iff.1 h
  have hle := hvalid.length_requiredGoalIndices_le
  have hmax := hvalid.goals_length
  rw [← hproves.goals, length_map] at hle
  simp only [RuliadKernelLimits.default, usizeMax] at hmax ⊢
  omega

/-- The loop goes through blocks with steps. -/
theorem prefixGoals_append {before : List RuliadGoalCertificate}
    (hgoals : certificate.goals = before ++ (done ++ rest)) (hdone : ∀ node ∈ done, node.steps ≠ [])
    (k : ℕ) :
    prefixGoals S problem (done ++ rest) (blockSteps done + k)
        (goalStart problem before.length) =
      prefixGoals S problem rest k (goalStart problem (before.length + done.length)) := by
  induction done generalizing before with
  | nil => simp [blockSteps]
  | cons node done ih =>
    have hmem : node ∈ certificate.goals := by
      rw [hgoals]
      simp
    obtain ⟨kernel, terms, run⟩ := exists_blockRun h hmem
    have hpos : 0 < node.steps.length := length_pos_of_ne_nil (hdone node (by simp))
    have hlength := length_goals_lt h
    rw [hgoals] at hlength
    simp only [length_append, length_cons] at hlength
    rw [blockSteps_cons, cons_append, run.prefixGoals_cons (by omega)
      (getElem?_requiredGoalIndices (accepts_iff.1 h).2.2.1 hgoals) (by omega),
      if_neg (by omega), show node.steps.length + blockSteps done + k - node.steps.length =
        blockSteps done + k by omega]
    have hnext := @ih (before ++ [node]) (by simpa using hgoals) fun node hnode =>
      hdone node (mem_cons_of_mem _ hnode)
    rw [length_append, length_singleton] at hnext
    rw [hnext, length_cons]
    congr 2
    omega

/-- The rebuilt state at the end of a block. -/
theorem fromCertificatePrefix_blocks (hgoals : certificate.goals = done ++ rest)
    (hdone : ∀ node ∈ done, node.steps ≠ []) :
    fromCertificatePrefix S problem certificate (blockSteps done) =
      .ok (goalStart problem done.length) := by
  have hle : blockSteps done ≤ certificate.stepCount := by
    have hcount : certificate.stepCount = blockSteps certificate.goals := rfl
    rw [hcount, hgoals, blockSteps_append]
    omega
  have hloop := @prefixGoals_append S problem certificate done rest h [] hgoals hdone 0
  rw [prefixGoals_zero, length_nil, Nat.zero_add, Nat.add_zero, ← hgoals] at hloop
  rw [fromCertificatePrefix, if_neg (not_lt.2 hle), show new problem = goalStart problem 0 from rfl]
  simp only [bind, Except.bind, pure, Except.pure, hloop, lt_irrefl, if_false]

/-- The rebuilt state inside a block. -/
theorem fromCertificatePrefix_inBlock (hgoals : certificate.goals = done ++ node :: rest)
    (hdone : ∀ node ∈ done, node.steps ≠ []) (run : BlockRun S problem node kernel terms)
    (hj : j < node.steps.length) :
    fromCertificatePrefix S problem certificate (blockSteps done + j) =
      .ok (inBlock problem done.length node terms j) := by
  rcases Nat.eq_zero_or_pos j with rfl | hpos
  · exact fromCertificatePrefix_blocks h hgoals hdone
  · have hle : blockSteps done + j ≤ certificate.stepCount := by
      have hcount : certificate.stepCount = blockSteps certificate.goals := rfl
      rw [hcount, hgoals, blockSteps_append, blockSteps_cons]
      omega
    have hlength := length_goals_lt h
    rw [hgoals, length_append, length_cons] at hlength
    have hloop := @prefixGoals_append S problem certificate done (node :: rest) h [] hgoals hdone j
    rw [length_nil, Nat.zero_add, ← hgoals, run.prefixGoals_cons hpos
      (getElem?_requiredGoalIndices (accepts_iff.1 h).2.2.1 hgoals) (by omega), if_pos hj] at hloop
    rw [fromCertificatePrefix, if_neg (not_lt.2 hle),
      show new problem = goalStart problem 0 from rfl]
    simp only [bind, Except.bind, pure, Except.pure, hloop, lt_irrefl, if_false]

end

/-! ## Stepping -/

theorem stepAt_inBlock (hgoals : certificate.goals = done ++ node :: rest) {step : RuliadProofStep}
    (hstep : node.steps[j]? = some step) :
    certificate.stepAt (blockSteps done + j) = some (node.goal, step) := by
  rw [stepAt, hgoals]
  clear hgoals
  induction done with
  | nil => simp [blockSteps, stepAtGoals, hstep]
  | cons first done ih =>
    rw [blockSteps_cons, cons_append, stepAtGoals,
      getElem?_eq_none (by omega)]
    simpa [Nat.add_assoc] using ih

theorem prefixBefore_inBlock (hgoals : certificate.goals = done ++ node :: rest)
    (hj : j < node.steps.length) :
    certificate.prefixBefore (blockSteps done + j) =
      some { certificate with goals := done ++ [{ node with steps := node.steps.take j }] } := by
  have hloop : prefixBeforeGoals (done ++ node :: rest)
      (blockSteps done + j) = some (done ++ [{ node with steps := node.steps.take j }]) := by
    clear hgoals
    induction done with
    | nil => simp [blockSteps, prefixBeforeGoals, hj]
    | cons first done ih =>
      rw [blockSteps_cons, cons_append, prefixBeforeGoals,
        if_neg (by omega), show first.steps.length + blockSteps done + j - first.steps.length =
          blockSteps done + j by omega, ih]
      rfl
  rw [prefixBefore, hgoals, hloop]
  rfl

section

variable (h : Accepts S problem certificate .default)
  (hgoals : certificate.goals = done ++ node :: rest)
include h hgoals

/-- The oracle's menu for a step of a block starts from the block's steps before it. -/
theorem oracleProofActionSet_inBlock {step : RuliadProofStep} (hstep : node.steps[j]? = some step) :
    oracleProofActionSet S problem certificate (blockSteps done + j) maximumCandidates =
      proofActionSetForState S problem node.goal (node.steps.take j) (some step)
        (max maximumCandidates 2)
        (actionSeed certificate.problemHash (blockSteps done + j)) none := by
  have hj : j < node.steps.length := (List.getElem?_eq_some_iff.1 hstep).1
  have hnodup : (certificate.goals.map (·.goal)).Nodup :=
    (accepts_iff.1 h).2.1.sorted.imp ne_of_lt
  rw [hgoals, map_append, nodup_append] at hnodup
  -- no block before this one is for its goal
  have hfind : (done ++ [{ node with steps := node.steps.take j }]).find?
      (fun candidate => candidate.goal = node.goal) =
      some { node with steps := node.steps.take j } := by
    rw [find?_append, find?_eq_none.2 fun first hfirst => ?_]
    · simp
    · simpa using hnodup.2.2 _ (mem_map_of_mem hfirst) node.goal (by simp)
  rw [oracleProofActionSet, prefixBefore_inBlock hgoals hj, stepAt_inBlock hgoals hstep]
  simp only [okOr, bind, Except.bind, hfind, map_some, getD_some]

/-- Where the state goes from inside a block when a candidate is taken. -/
theorem apply_inBlock {actions : RuliadProofActionSet} (hgoal : actions.goal = node.goal)
    {index : ℕ} {candidate : RuliadProofActionCandidate}
    (hcandidate : actions.candidates[index]? = some candidate) {outcome : RuliadTerm}
    (houtcome : candidate.outcome = some outcome) :
    ∃ repeated, (inBlock problem done.length node terms j).apply actions index =
      .ok (repeated, if outcome = actions.target then goalStart problem (done.length + 1) else
        { inBlock problem done.length node terms j with
          localSteps := node.steps.take j ++ [candidate.step]
          visited := insertSorted (proofStateKey node.goal outcome)
            (visitedKeys node.goal terms j) }) := by
  have hlength := length_goals_lt h
  rw [hgoals, length_append, length_cons] at hlength
  have hadd : saturatingAdd done.length 1 = done.length + 1 := saturatingAdd_of_le (by omega)
  have horder : (inBlock problem done.length node terms j).goalOrder[
      (inBlock problem done.length node terms j).goalCursor]? = some node.goal :=
    getElem?_requiredGoalIndices (accepts_iff.1 h).2.2.1 hgoals
  simp only [RuliadProofPolicyState.apply, horder, okOr, bind, Except.bind, hgoal, ne_eq,
    not_true_eq_false, if_false, hcandidate, houtcome, pure, Except.pure]
  by_cases htarget : outcome = actions.target
  · simp only [if_pos htarget, inBlock, goalStart, hadd]
    exact ⟨_, rfl⟩
  · simp only [if_neg htarget]
    exact ⟨_, rfl⟩

/-- The oracle's step from inside a block succeeds when the term changes. -/
theorem oracleStep_inBlock (run : BlockRun S problem node kernel terms) (hj : j < node.steps.length)
    (hne : terms (j + 1) ≠ terms j) (maximumCandidates : ℕ) :
    oracleStep S problem certificate maximumCandidates (blockSteps done + j)
        (inBlock problem done.length node terms j) =
      .ok (if terms (j + 1) = kernel.target then goalStart problem (done.length + 1)
        else inBlock problem done.length node terms (j + 1)) := by
  have hstep : node.steps[j]? = some node.steps[j] := getElem?_eq_getElem hj
  obtain ⟨actions, hactions, hgoal, htarget, candidate, hcandidate, hchosen, houtcome⟩ :=
    @exists_menu_of_preferred S problem kernel node.goal (max maximumCandidates 2) (terms j)
      (terms (j + 1)) node.steps[j] (actionSeed certificate.problemHash (blockSteps done + j))
      (node.steps.take j) run.new (run.replayPrefix_take hj.le) (run.step j _ hstep) hne
  obtain ⟨repeated, happly⟩ := @apply_inBlock S problem certificate node terms j done rest h hgoals
    actions hgoal actions.selectedIndex candidate hcandidate (terms (j + 1)) houtcome
  rw [oracleStep, oracleProofActionSet_inBlock h hgoals hstep, hactions]
  simp only [bind, Except.bind, happly, pure, Except.pure, htarget, hchosen]
  congr 2
  rw [inBlock, inBlock, take_add_one, hstep, toList_some, visitedKeys]

end

/-- Every step of the certificate is in a block. -/
theorem exists_position (goals : List RuliadGoalCertificate) (hk : k < blockSteps goals) :
    ∃ done node rest j, goals = done ++ node :: rest ∧ j < node.steps.length ∧
      k = blockSteps done + j := by
  induction goals generalizing k with
  | nil => simp [blockSteps] at hk
  | cons first goals ih =>
    rw [blockSteps_cons] at hk
    rcases lt_or_ge k first.steps.length with hlt | hge
    · exact ⟨[], first, goals, k, rfl, hlt, by simp [blockSteps]⟩
    · obtain ⟨done, node, rest, j, rfl, hj, hrest⟩ := @ih (k - first.steps.length) (by omega)
      exact ⟨first :: done, node, rest, j, rfl, hj, by rw [blockSteps_cons]; omega⟩

section

variable (h : Accepts S problem certificate .default)
include h

/-- The rebuilt state after the next step of a block. -/
theorem fromCertificatePrefix_next (hgoals : certificate.goals = done ++ node :: rest)
    (hdone : ∀ node ∈ done, node.steps ≠ []) (run : BlockRun S problem node kernel terms)
    (hj : j < node.steps.length) :
    fromCertificatePrefix S problem certificate (blockSteps done + j + 1) =
      .ok (if j + 1 = node.steps.length then goalStart problem (done.length + 1)
        else inBlock problem done.length node terms (j + 1)) := by
  split_ifs with hlast
  · have hnonempty : ∀ first ∈ done ++ [node], first.steps ≠ [] := by
      intro first hfirst
      rcases mem_append.1 hfirst with hfirst | hfirst
      · exact hdone first hfirst
      · obtain rfl := mem_singleton.1 hfirst
        exact ne_nil_of_length_pos (by omega)
    have hblocks := @fromCertificatePrefix_blocks S problem certificate (done ++ [node]) rest h
      (by simpa using hgoals) hnonempty
    rw [blockSteps_append, blockSteps_cons, length_append, ← hlast] at hblocks
    simpa [blockSteps, Nat.add_assoc] using hblocks
  · have hnext : j + 1 < node.steps.length := by omega
    exact fromCertificatePrefix_inBlock h hgoals hdone run hnext

/-- The rebuilt state at the end is solved. -/
theorem fromCertificatePrefix_stepCount (hnonempty : ∀ node ∈ certificate.goals, node.steps ≠ []) :
    ∃ state, fromCertificatePrefix S problem certificate certificate.stepCount = .ok state ∧
      state.solved := by
  refine ⟨_, fromCertificatePrefix_blocks h (append_nil _).symm hnonempty, ?_⟩
  obtain ⟨-, -, hproves, -⟩ := accepts_iff.1 h
  simp [solved, goalStart, ← hproves.goals]

/-- Stepping follows the rebuilt states when every block is steppable. -/
theorem rebuilds_of_steppable
    (hblocks : ∀ node ∈ certificate.goals, SteppableBlock S problem node) :
    RebuildsSteppedStates S problem certificate maximumCandidates := by
  have hnonempty : ∀ node ∈ certificate.goals, node.steps ≠ [] := fun node hnode =>
    (hblocks node hnode).nonempty
  have hboth : ∀ k ≤ certificate.stepCount, ∃ state,
      fromCertificatePrefix S problem certificate k = .ok state ∧
      oracleRun S problem certificate maximumCandidates k = .ok state := by
    intro k
    induction k with
    | zero =>
      exact fun _ => ⟨_, @fromCertificatePrefix_blocks _ _ _ [] _ h rfl (by simp), rfl⟩
    | succ k ih =>
      intro hk
      obtain ⟨done, node, rest, j, hgoals, hj, rfl⟩ := exists_position certificate.goals hk
      have hmem : ∀ first ∈ done, first ∈ certificate.goals := fun first hfirst =>
        hgoals ▸ mem_append_left _ hfirst
      have hnode : node ∈ certificate.goals := by
        rw [hgoals]
        simp
      obtain ⟨kernel, terms, run⟩ := exists_blockRun h hnode
      obtain ⟨-, hchanges, hunfinished⟩ := run.steppableBlock_iff.1 (hblocks node hnode)
      have hdone : ∀ first ∈ done, first.steps ≠ [] := fun first hfirst =>
        hnonempty first (hmem first hfirst)
      obtain ⟨state, hstate, hrun⟩ := ih (by omega)
      obtain rfl := Except.ok.inj
        (hstate.symm.trans (fromCertificatePrefix_inBlock h hgoals hdone run hj))
      refine ⟨_, fromCertificatePrefix_next h hgoals hdone run hj, ?_⟩
      rw [oracleRun, hrun]
      refine (oracleStep_inBlock h hgoals run hj (hchanges j hj) maximumCandidates).trans ?_
      -- the term meets the target exactly at the last step
      by_cases hlast : j + 1 = node.steps.length
      · rw [if_pos hlast, if_pos (hlast ▸ run.final)]
      · rw [if_neg hlast, if_neg (hunfinished (j + 1) (by omega) (by omega))]
  intro k hk
  obtain ⟨state, hstate, hrun⟩ := hboth k hk
  refine ⟨state, hstate, hrun, ?_⟩
  rintro rfl
  obtain ⟨last, hlast, hsolved⟩ := fromCertificatePrefix_stepCount h hnonempty
  obtain rfl := Except.ok.inj (hstate.symm.trans hlast)
  exact hsolved

end

/-- What a step of the oracle needs. -/
theorem oracleStep_eq_ok {stepIndex : ℕ} {state next : RuliadProofPolicyState}
    (hnext : oracleStep S problem certificate maximumCandidates stepIndex state = .ok next) :
    ∃ actions repeated,
      oracleProofActionSet S problem certificate stepIndex maximumCandidates = .ok actions ∧
      state.apply actions actions.selectedIndex = .ok (repeated, next) := by
  simp only [oracleStep, bind_eq_ok, pure, Except.pure, Except.ok.injEq] at hnext
  obtain ⟨actions, hactions, ⟨repeated, _⟩, happly, rfl⟩ := hnext
  exact ⟨actions, repeated, hactions, happly⟩

section

variable (h : Accepts S problem certificate .default)
include h

/-- Stepping stops at a block without steps. -/
theorem steps_ne_nil_of_rebuilds
    (hrebuilds : RebuildsSteppedStates S problem certificate maximumCandidates) :
    ∀ node ∈ certificate.goals, node.steps ≠ [] := by
  by_contra hempty
  push Not at hempty
  obtain ⟨first, hfirst⟩ : ∃ first, certificate.goals.find? (·.steps.isEmpty) = some first := by
    rw [← isSome_iff_exists, find?_isSome]
    obtain ⟨node, hnode, hsteps⟩ := hempty
    exact ⟨node, hnode, by simp [hsteps]⟩
  obtain ⟨hsteps, done, rest, hgoals, hdone⟩ := find?_eq_some_iff_append.1 hfirst
  have hsteps : first.steps = [] := isEmpty_iff.1 hsteps
  have hdone : ∀ node ∈ done, node.steps ≠ [] := fun node hnode => by simpa using hdone node hnode
  obtain ⟨-, hcertificate, hproves, -⟩ := accepts_iff.1 h
  have hcount : certificate.stepCount = blockSteps certificate.goals := rfl
  have hle : blockSteps done ≤ certificate.stepCount := by
    rw [hcount, hgoals, blockSteps_append]
    omega
  obtain ⟨state, hstate, hrun, hsolved⟩ := hrebuilds _ hle
  obtain rfl := Except.ok.inj (hstate.symm.trans (fromCertificatePrefix_blocks h hgoals hdone))
  rcases hle.eq_or_lt with heq | hlt
  · -- no steps remain, and the goals of this and the later blocks are not solved
    have := hsolved heq
    simp [solved, goalStart, ← hproves.goals, hgoals] at this
  · -- the next step belongs to a later block, and the state expects this block's goal
    obtain ⟨next, -, hnext, -⟩ := hrebuilds (blockSteps done + 1) hlt
    rw [oracleRun, hrun] at hnext
    obtain ⟨actions, repeated, hactions, happly⟩ := oracleStep_eq_ok hnext
    obtain ⟨done', node, rest', j, hgoals', hj, hposition⟩ :=
      exists_position certificate.goals (hcount ▸ hlt)
    rw [hposition, oracleProofActionSet_inBlock h hgoals' (getElem?_eq_getElem hj)] at hactions
    obtain ⟨transition, menu⟩ := proofActionSetForState_spec hactions
    simp only [RuliadProofPolicyState.apply, bind_eq_ok, throw_bind, ite_error_eq_ok, okOr_eq_ok]
      at happly
    obtain ⟨goal, hgoal, hsame, -⟩ := happly
    obtain rfl := some.inj
      ((getElem?_requiredGoalIndices hproves hgoals).symm.trans hgoal)
    have hnodup : (certificate.goals.map (·.goal)).Nodup := hcertificate.sorted.imp ne_of_lt
    have hnode : node = first := by
      refine inj_on_of_nodup_map hnodup ?_ ?_ (menu.goal_eq.symm.trans (not_not.1 hsame))
      · rw [hgoals']
        simp
      · rw [hgoals]
        simp
    rw [hnode, hsteps] at hj
    exact Nat.not_lt_zero j hj

/-- The oracle's step to the rebuilt state changes the term. -/
theorem changes_of_oracleStep (hgoals : certificate.goals = done ++ node :: rest)
    (run : BlockRun S problem node kernel terms) (hj : j < node.steps.length)
    (hnext : oracleStep S problem certificate maximumCandidates (blockSteps done + j) (inBlock
      problem done.length node terms j) = .ok (if j + 1 = node.steps.length then goalStart problem
      (done.length + 1) else inBlock problem done.length node terms (j + 1))) :
    terms (j + 1) ≠ terms j := by
  intro hidle
  have hstep : node.steps[j]? = some node.steps[j] := getElem?_eq_getElem hj
  have hstay : kernel.apply (terms j) node.steps[j] = .ok (terms j) :=
    (run.step j _ hstep).trans (congrArg Except.ok hidle)
  obtain ⟨actions, repeated, hactions, happly⟩ := oracleStep_eq_ok hnext
  rw [oracleProofActionSet_inBlock h hgoals hstep] at hactions
  obtain ⟨transition, menu⟩ := proofActionSetForState_spec hactions
  obtain rfl := Except.ok.inj (run.new.symm.trans menu.new)
  -- a candidate is taken, and no candidate stays at the term or has the preferred step
  obtain ⟨candidate, hcandidate⟩ : ∃ candidate,
      actions.candidates[actions.selectedIndex]? = some candidate := by
    simp only [RuliadProofPolicyState.apply, bind_eq_ok, throw_bind, ite_error_eq_ok, okOr_eq_ok]
      at happly
    obtain ⟨-, -, -, candidate, hcandidate, -⟩ := happly
    exact ⟨candidate, hcandidate⟩
  obtain ⟨hchosen, hstays⟩ := menu_of_idle run.new (run.replayPrefix_take hj.le) hstay hactions
    candidate (mem_of_getElem? hcandidate)
  obtain ⟨outcome, houtcome, -⟩ := menu.outcome candidate (mem_of_getElem? hcandidate)
  obtain ⟨repeated', happly'⟩ := @apply_inBlock S problem certificate node terms j done rest h
    hgoals actions menu.goal_eq actions.selectedIndex candidate hcandidate outcome houtcome
  have hsame := congrArg Prod.snd (Except.ok.inj (happly'.symm.trans happly))
  simp only [menu.target_eq] at hsame
  split_ifs at hsame with htarget hlast hlast
  · rw [houtcome, htarget, ← run.final, ← hlast, hidle] at hstays
    exact hstays rfl
  · exact absurd (congrArg goalCursor hsame) (Nat.succ_ne_self _)
  · exact absurd (congrArg goalCursor hsame) (Nat.succ_ne_self _).symm
  · have hlocal := congrArg localSteps hsame
    simp only [inBlock, take_add_one, hstep, toList_some] at hlocal
    exact hchosen (singleton_injective (append_cancel_left hlocal))

/-- Blocks are steppable when stepping follows the rebuilt states. -/
theorem steppable_of_rebuilds
    (hrebuilds : RebuildsSteppedStates S problem certificate maximumCandidates) :
    ∀ node ∈ certificate.goals, SteppableBlock S problem node := by
  intro node hnode
  have hnonempty := steps_ne_nil_of_rebuilds h hrebuilds
  obtain ⟨done, rest, hgoals⟩ := append_of_mem hnode
  obtain ⟨kernel, terms, run⟩ := exists_blockRun h hnode
  have hdone : ∀ first ∈ done, first.steps ≠ [] := fun first hfirst =>
    hnonempty first (hgoals ▸ mem_append_left _ hfirst)
  -- inside the block the oracle's step leads to the rebuilt state
  have hnext : ∀ j < node.steps.length,
      oracleStep S problem certificate maximumCandidates (blockSteps done + j)
        (inBlock problem done.length node terms j) =
      .ok (if j + 1 = node.steps.length then goalStart problem (done.length + 1)
        else inBlock problem done.length node terms (j + 1)) := by
    intro j hj
    have hlt : blockSteps done + j + 1 ≤ certificate.stepCount := by
      have hcount : certificate.stepCount = blockSteps certificate.goals := rfl
      rw [hcount, hgoals, blockSteps_append, blockSteps_cons]
      omega
    obtain ⟨state, hstate, hrun, -⟩ := hrebuilds (blockSteps done + j) (by omega)
    obtain rfl := Except.ok.inj
      (hstate.symm.trans (fromCertificatePrefix_inBlock h hgoals hdone run hj))
    obtain ⟨next, hnext, hrunNext, -⟩ := hrebuilds _ hlt
    obtain rfl := Except.ok.inj
      (hnext.symm.trans (fromCertificatePrefix_next h hgoals hdone run hj))
    rw [oracleRun, hrun] at hrunNext
    exact hrunNext
  have hchanges : ∀ j < node.steps.length, terms (j + 1) ≠ terms j := fun j hj =>
    changes_of_oracleStep h hgoals run hj (hnext j hj)
  refine run.steppableBlock_iff.2 ⟨hnonempty node hnode, hchanges, fun j hpos hj hmeets => ?_⟩
  obtain ⟨i, rfl⟩ : ∃ i, j = i + 1 := ⟨j - 1, by omega⟩
  have hi : i < node.steps.length := by omega
  have hsame := Except.ok.inj ((oracleStep_inBlock h hgoals run hi (hchanges i hi)
    maximumCandidates).symm.trans (hnext i hi))
  rw [if_pos hmeets, if_neg hj.ne] at hsame
  exact absurd (congrArg goalCursor hsame) (Nat.succ_ne_self _)

end

/-- **Rebuilding agrees with stepping** on an accepted certificate exactly when every block has a
step, every step changes the term and only the last step of a block meets the right side. -/
theorem rebuilds_iff_steppable (h : Accepts S problem certificate .default)
    (maximumCandidates : ℕ) :
    RebuildsSteppedStates S problem certificate maximumCandidates ↔
      ∀ node ∈ certificate.goals, SteppableBlock S problem node :=
  ⟨steppable_of_rebuilds h, rebuilds_of_steppable h⟩

end Blocks

theorem rebuilds_iff_steppable_unitProblem :
    RebuildsSteppedStates (.ofDigest unitDigest) unitProblem unitCertificate 4 ↔
      ∀ node ∈ unitCertificate.goals, SteppableBlock (.ofDigest unitDigest) unitProblem node :=
  rebuilds_iff_steppable accepts_unitCertificate 4

/-- A problem whose goal's sides are the same. -/
def reflexiveProblem : RuliadProofProblem where
  version := ruliadIrVersion
  domain := .category
  theory := "monoid"
  axioms := [⟨"left_identity", .apply "compose" [.atom "id", .var 0], .var 0⟩]
  goals := [⟨"same", [], ⟨.atom "a", .atom "a"⟩⟩]
  root := 0

/-- The kernel accepts a block without steps, and the state rebuilt at its end is not solved. -/
theorem not_rebuilds_reflexiveProblem :
    let certificate : RuliadProofCertificate := ⟨ruliadIrVersion, unitDigest, [⟨0, []⟩]⟩
    Accepts (.ofDigest unitDigest) reflexiveProblem certificate .default ∧
      certificate.stepCount = 0 ∧
      fromCertificatePrefix (.ofDigest unitDigest) reflexiveProblem certificate 0 =
        .ok ⟨[0], 0, [], []⟩ ∧
      ¬ RebuildsSteppedStates (.ofDigest unitDigest) reflexiveProblem certificate 4 := by
  refine ⟨⟨_, rfl, rfl⟩, rfl, rfl, fun hrebuilds => ?_⟩
  obtain ⟨state, hstate, -, hsolved⟩ := hrebuilds 0 le_rfl
  obtain rfl := Except.ok.inj hstate
  exact absurd (hsolved rfl) (by decide)

end BurnDragon.Ruliad
