import BurnDragon.Ruliad.MenuRotation

/-!
# Counterfactual targets

`counterfactual_proof_action_target` makes the outcome of another candidate the goal of a menu. The
laws, the current term, the steps and their outcomes stay, so the candidate proves the new goal by
one step of the kernel (`counterfactual_sound`).

The candidate is read once; the retargeted menu has the same steps.
-/

namespace BurnDragon.Ruliad

open Equational Rust List

/-! ## Distances -/

theorem termNodeCount_pos (t : RuliadTerm) : 0 < termNodeCount t := by
  cases t with
  | var i => exact Nat.one_pos
  | atom symbol => exact Nat.one_pos
  | apply operator arguments =>
    rw [termNodeCount, saturatingAdd, usizeMax]
    omega

theorem saturatingAdd_pos {m n : ℕ} (h : 0 < m) : 0 < saturatingAdd m n := by
  rw [saturatingAdd, usizeMax]
  omega

/-- Only equal terms are at distance 0. -/
theorem ruliadTermDistance_eq_zero {left right : RuliadTerm} :
    ruliadTermDistance left right = 0 ↔ left = right := by
  -- Lists of one length differ somewhere, and there the distance is positive.
  have hsum : ∀ {lefts rights : List RuliadTerm}, (∀ left ∈ lefts, ∀ {right : RuliadTerm},
      ruliadTermDistance left right = 0 ↔ left = right) → lefts.length = rights.length →
      ruliadTermDistanceSum lefts rights = 0 → lefts = rights := by
    intro lefts
    induction lefts with
    | nil => exact fun _ hlength _ => (length_eq_zero_iff.1 hlength.symm).symm
    | cons left lefts ih =>
      rintro (_ | ⟨right, rights⟩) h hlength hzero
      · cases hlength
      · rw [ruliadTermDistanceSum, Nat.add_eq_zero_iff] at hzero
        rw [(h left mem_cons_self).1 hzero.1,
          ih (fun l hl => h l (mem_cons_of_mem _ hl)) (Nat.succ.inj hlength) hzero.2]
  have hfar : ∀ {left right : RuliadTerm},
      saturatingAdd (termNodeCount left) (termNodeCount right) ≠ 0 :=
    fun {left _} => (saturatingAdd_pos (termNodeCount_pos left)).ne'
  induction left using Term.ind generalizing right with
  | var i =>
    rw [ruliadTermDistance.eq_def]
    split_ifs with heq
    · simp [heq]
    · exact iff_of_false hfar heq
  | atom symbol =>
    rw [ruliadTermDistance.eq_def]
    split_ifs with heq
    · simp [heq]
    · exact iff_of_false hfar heq
  | apply operator arguments ih =>
    rw [ruliadTermDistance.eq_def]
    split_ifs with heq
    · simp [heq]
    · refine iff_of_false ?_ heq
      cases right with
      | var i => exact hfar
      | atom symbol => exact hfar
      | apply operator' arguments' =>
        simp only
        split_ifs with hoperator
        · intro hzero
          have hlists : arguments = arguments' :=
            hsum (fun l hl {_} => ih l hl) (by omega) (by omega)
          exact heq (by rw [hoperator, hlists])
        · exact hfar

/-! ## Retargeting -/

/-- The problem with another right side of the goal. -/
def RuliadProofProblem.retarget (problem : RuliadProofProblem) (goalIndex : ℕ)
    (goal : RuliadProofGoal) (target : RuliadTerm) : RuliadProofProblem :=
  { problem with
    goals := problem.goals.set goalIndex { goal with claim := { goal.claim with rhs := target } } }

/-- The menu with the candidate selected and its outcome as the target. -/
def RuliadProofActionSet.retarget (actions : RuliadProofActionSet) (candidateIndex : ℕ)
    (target : RuliadTerm) : RuliadProofActionSet :=
  { actions with
    target
    selectedIndex := candidateIndex
    equivalentIndices := actions.candidates.zipIdx.filterMap fun (candidate, index) =>
      if candidate.outcome = some target then some index else none
    candidates := actions.candidates.map fun candidate => { candidate with
      distanceToGoal := candidate.outcome.map fun outcome => ruliadTermDistance outcome target } }

/-- `counterfactual_proof_action_target`. -/
def counterfactualProofActionTarget (S : Serde) (problem : RuliadProofProblem)
    (actions : RuliadProofActionSet) (candidateIndex : ℕ) :
    Except String (RuliadProofProblem × RuliadProofActionSet) := do
  let goal ← okOr problem.goals[actions.goal]?
    ("proof action goal " ++ decimal actions.goal ++ " is out of range")
  if goal.claim.rhs ≠ actions.target then
    throw ("proof action target does not match goal " ++ decimal actions.goal ++
      " in the formal problem")
  if actions.isEquivalentIndex candidateIndex then
    throw "counterfactual proof target must select a non-equivalent action"
  let candidate ← okOr actions.candidates[candidateIndex]?
    ("proof action candidate " ++ decimal candidateIndex ++ " is out of range")
  let target ← okOr candidate.outcome "counterfactual proof action is not verifier-valid"
  if target = actions.current then
    throw "counterfactual proof action must advance beyond the current state"
  let retargetedProblem := problem.retarget actions.goal goal target
  let retargetedActions := actions.retarget candidateIndex target
  let transition ← (RuliadGoalTransitionKernel.new S retargetedProblem actions.goal .default).mapError
    fun failure => "invalid counterfactual proof target: " ++ failure.message
  let verified ← (transition.apply retargetedActions.current candidate.step).mapError
    fun failure => "counterfactual proof action failed: " ++ failure.message
  if verified ≠ target then
    throw "counterfactual proof action does not reach the requested target"
  return (retargetedProblem, retargetedActions)

section Retarget

variable {S : Serde} {problem : RuliadProofProblem} {goal : RuliadProofGoal}
  {goalIndex candidateIndex : ℕ} {target : RuliadTerm} {actions : RuliadProofActionSet}

theorem RuliadProofProblem.goals_retarget (hgoal : problem.goals[goalIndex]? = some goal) :
    (problem.retarget goalIndex goal target).goals[goalIndex]? =
      some { goal with claim := { goal.claim with rhs := target } } := by
  have hlt := (List.getElem?_eq_some_iff.1 hgoal).1
  exact List.getElem?_set_self hlt

theorem RuliadProofProblem.goals_retarget_of_ne {index : ℕ} (h : index ≠ goalIndex) :
    (problem.retarget goalIndex goal target).goals[index]? = problem.goals[index]? :=
  getElem?_set_ne h.symm

/-- The steps of the goal do what they did: a goal does not use its own claim. -/
theorem applyStep_retarget {limits limits' : RuliadKernelLimits} (s : RuliadTerm)
    (step : RuliadProofStep) (hgoal : problem.goals[goalIndex]? = some goal)
    (hvalid : ValidProblem (problem.retarget goalIndex goal target) limits') :
    applyStep (problem.retarget goalIndex goal target) goalIndex
        { goal with claim := { goal.claim with rhs := target } }
        (axiomMap (problem.retarget goalIndex goal target)) limits s step =
      applyStep problem goalIndex goal (axiomMap problem) limits s step := by
  have hsource : sourceEquality (problem.retarget goalIndex goal target) goalIndex
      { goal with claim := { goal.claim with rhs := target } }
      (axiomMap (problem.retarget goalIndex goal target)) step.source =
      sourceEquality problem goalIndex goal (axiomMap problem) step.source := by
    cases step.source with
    | axiom_ id => rfl
    | lemma_ dependency =>
      rw [sourceEquality, sourceEquality]
      by_cases hdep : dependency ∈ goal.dependencies
      · have hlt : dependency < goalIndex :=
          (hvalid.goals goalIndex _ (RuliadProofProblem.goals_retarget hgoal)).lt dependency hdep
        rw [RuliadProofProblem.goals_retarget_of_ne hlt.ne]
      · rw [if_pos hdep, if_pos hdep]
  rw [applyStep, applyStep, hsource]

/-- The equivalent candidates are those that reach the target. -/
theorem RuliadProofActionSet.mem_equivalentIndices_retarget {i : ℕ} :
    i ∈ (actions.retarget candidateIndex target).equivalentIndices ↔
      ∃ candidate, (actions.retarget candidateIndex target).candidates[i]? = some candidate ∧
        candidate.outcome = some target := by
  refine (mem_filterMap_zipIdx (p := fun candidate : RuliadProofActionCandidate =>
    candidate.outcome = some target)).trans ?_
  simp only [RuliadProofActionSet.retarget, getElem?_map, Option.map_eq_some_iff]
  constructor
  · rintro ⟨candidate, hcandidate, houtcome⟩
    exact ⟨_, ⟨candidate, hcandidate, rfl⟩, houtcome⟩
  · rintro ⟨_, ⟨candidate, hcandidate, rfl⟩, houtcome⟩
    exact ⟨candidate, hcandidate, houtcome⟩

/-- The distances are those of the outcomes to the target. -/
theorem RuliadProofActionSet.distance_retarget {candidate : RuliadProofActionCandidate} {i : ℕ}
    (h : (actions.retarget candidateIndex target).candidates[i]? = some candidate) :
    candidate.distanceToGoal = some 0 ↔ candidate.outcome = some target := by
  obtain ⟨original, -, rfl⟩ := Option.map_eq_some_iff.1 ((getElem?_map ..).symm.trans h)
  cases houtcome : original.outcome with
  | none => simp
  | some outcome => simp [ruliadTermDistance_eq_zero]

end Retarget

/-- What a counterfactual target changes and what it says. -/
structure Retargeted (S : Serde) (problem : RuliadProofProblem) (actions : RuliadProofActionSet)
    (candidateIndex : ℕ) (retargetedProblem : RuliadProofProblem)
    (retargetedActions : RuliadProofActionSet) : Prop where
  /-- Of the problem, the right side of the goal changes, and it was the target. -/
  problem_eq : ∃ goal, problem.goals[actions.goal]? = some goal ∧
    goal.claim.rhs = actions.target ∧
    retargetedProblem = problem.retarget actions.goal goal retargetedActions.target
  goal : retargetedActions.goal = actions.goal
  current : retargetedActions.current = actions.current
  candidates : retargetedActions.candidates.map (fun candidate => (candidate.step, candidate.outcome)) =
    actions.candidates.map fun candidate => (candidate.step, candidate.outcome)
  selected : retargetedActions.selectedIndex = candidateIndex
  equivalent : ∀ i, i ∈ retargetedActions.equivalentIndices ↔
    ∃ candidate, retargetedActions.candidates[i]? = some candidate ∧
      candidate.outcome = some retargetedActions.target
  distance : ∀ i candidate, retargetedActions.candidates[i]? = some candidate →
    (candidate.distanceToGoal = some 0 ↔ i ∈ retargetedActions.equivalentIndices)
  valid : ValidProblem retargetedProblem .default
  /-- The kernel of the new goal is there, its steps do what they did for the old goal, and the
  selected one reaches the new target from the current term. -/
  proves : ∃ transition selected goal,
    RuliadGoalTransitionKernel.new S retargetedProblem actions.goal .default = .ok transition ∧
    problem.goals[actions.goal]? = some goal ∧
    (∀ s step, transition.apply s step =
      applyStep problem actions.goal goal (axiomMap problem) .default s step) ∧
    retargetedActions.candidates[candidateIndex]? = some selected ∧
    transition.target = retargetedActions.target ∧
    retargetedActions.target ≠ retargetedActions.current ∧
    transition.apply retargetedActions.current selected.step = .ok transition.target

/-- **Counterfactual targets are sound.** -/
theorem counterfactual_sound {S : Serde} {problem retargetedProblem : RuliadProofProblem}
    {actions retargetedActions : RuliadProofActionSet} {candidateIndex : ℕ}
    (h : counterfactualProofActionTarget S problem actions candidateIndex =
      .ok (retargetedProblem, retargetedActions)) :
    Retargeted S problem actions candidateIndex retargetedProblem retargetedActions := by
  simp only [counterfactualProofActionTarget, bind_eq_ok, throw_bind, ite_error_eq_ok, okOr_eq_ok,
    mapError_eq_ok, pure, Except.pure, Except.ok.injEq, Prod.mk.injEq, not_not] at h
  obtain ⟨goal, hgoal, htarget, -, candidate, hcandidate, target, houtcome, hmoves, transition, hnew,
    verified, happly, rfl, rfl, rfl⟩ := h
  obtain ⟨hvalid, -, retargetedGoal, hretargeted, rfl⟩ := RuliadGoalTransitionKernel.new_eq_ok_iff.1 hnew
  obtain rfl := Option.some.inj
    (hretargeted.symm.trans (RuliadProofProblem.goals_retarget hgoal))
  have hselected : (actions.retarget candidateIndex verified).candidates[candidateIndex]? =
      some { candidate with distanceToGoal := some (ruliadTermDistance verified verified) } := by
    simp [RuliadProofActionSet.retarget, hcandidate, houtcome]
  refine ⟨⟨goal, hgoal, htarget, rfl⟩, rfl, rfl, ?_, rfl,
    fun i => RuliadProofActionSet.mem_equivalentIndices_retarget, fun i c hc => ?_, hvalid,
    _, _, goal, hnew, hgoal, fun s step => applyStep_retarget s step hgoal hvalid, hselected, rfl,
    hmoves, happly⟩
  · rw [RuliadProofActionSet.retarget, List.map_map]
    rfl
  · rw [RuliadProofActionSet.distance_retarget hc,
      RuliadProofActionSet.mem_equivalentIndices_retarget, hc]
    simp

/-- The menu of two steps with the outcome of the other step as the target. -/
theorem counterfactual_sound_twoStepMenu :
    ∃ retargetedProblem retargetedActions,
      counterfactualProofActionTarget (.ofDigest unitDigest) unitProblem twoStepMenu 1 =
        .ok (retargetedProblem, retargetedActions) ∧
      Retargeted (.ofDigest unitDigest) unitProblem twoStepMenu 1 retargetedProblem
        retargetedActions := by
  have hok : (counterfactualProofActionTarget (.ofDigest unitDigest) unitProblem twoStepMenu 1).isOk =
      true := by decide +kernel
  cases h : counterfactualProofActionTarget (.ofDigest unitDigest) unitProblem twoStepMenu 1 with
  | error message => simp [h, Except.isOk, Except.toBool] at hok
  | ok retargeted => exact ⟨retargeted.1, retargeted.2, rfl, counterfactual_sound h⟩

end BurnDragon.Ruliad
