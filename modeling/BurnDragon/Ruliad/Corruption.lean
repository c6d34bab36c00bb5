import BurnDragon.Ruliad.RequiredGoals

/-!
# Corrupted certificates

`corrupt_formal_certificate` puts an index in front of the path of the root's first step that no
argument has. The other goals keep their proofs, so the kernel verifies all of them and stops at that
step (`replayCertificate_corrupted`).
-/

namespace BurnDragon.Ruliad

open Equational Rust

/-- `corrupt_formal_certificate`. -/
def corruptFormalCertificate (certificate : RuliadProofCertificate) :
    Except String RuliadProofCertificate :=
  match certificate.goals.getLast? with
  | none => .error "formal certificate has no goals"
  | some node =>
    match node.steps with
    | [] => .error "formal root certificate has no steps"
    | step :: steps => .ok { certificate with
        goals := certificate.goals.dropLast ++
          [{ node with steps := { step with path := usizeMax :: step.path } :: steps }] }

/-- The arguments of the left sides of the goals are vectors of the machine. -/
def RuliadProofProblem.LeftSidesFit (problem : RuliadProofProblem) : Prop :=
  ∀ goal ∈ problem.goals, ∀ operator arguments, goal.claim.lhs = .apply operator arguments →
    arguments.length ≤ usizeMax

/-- The node limit keeps the arguments within the machine unless it is the largest number itself. -/
theorem ValidProblem.leftSidesFit {problem : RuliadProofProblem} {limits : RuliadKernelLimits}
    (h : ValidProblem problem limits) (hlimits : limits.maximumTermNodes < usizeMax) :
    problem.LeftSidesFit := by
  intro goal hgoal operator arguments hlhs
  have hnodes : problem.nodes < usizeMax := by
    have hle := h.termNodes_le
    rw [termNodes_eq] at hle
    omega
  have hgoals : goal.claim.lhs.size + goal.claim.rhs.size ≤
      (problem.goals.map fun goal => goal.claim.lhs.size + goal.claim.rhs.size).sum :=
    List.le_sum_of_mem (List.mem_map.2 ⟨goal, hgoal, rfl⟩)
  have hpos : ∀ t : RuliadTerm, 1 ≤ t.size := fun t => by
    cases t using Term.ind <;> simp
  have harguments : arguments.length ≤ (arguments.map Term.size).sum := by
    simpa using (arguments.map Term.size).length_le_sum_of_one_le (by simp [hpos])
  rw [hlhs, Term.size_apply] at hgoals
  rw [RuliadProofProblem.nodes] at hnodes
  omega

/-- Rewriting fails at an index that the term has no argument for. -/
theorem rewriteAtPath_of_length_le {pattern replacement t : RuliadTerm} {i : ℕ} (rest : List ℕ)
    (h : ∀ operator arguments, t = .apply operator arguments → arguments.length ≤ i) :
    ∃ message, rewriteAtPath pattern replacement (i :: rest) t =
      .error ⟨.invalidPath, none, none, message⟩ := by
  cases t with
  | var index => exact ⟨_, rfl⟩
  | atom symbol => exact ⟨_, rfl⟩
  | apply operator arguments =>
    rw [rewriteAtPath, List.getElem?_eq_none (h operator arguments rfl)]
    exact ⟨_, rfl⟩

section Corrupted

variable {S : Serde} {problem : RuliadProofProblem} {certificate corrupted : RuliadProofCertificate}
  {limits : RuliadKernelLimits}

/-- The parts of a corrupted certificate. -/
theorem corruptFormalCertificate_eq_ok (h : corruptFormalCertificate certificate = .ok corrupted) :
    ∃ (nodes : List RuliadGoalCertificate) (goal : ℕ) (step : RuliadProofStep)
      (steps : List RuliadProofStep), certificate.goals = nodes ++ [⟨goal, step :: steps⟩] ∧
      corrupted = { certificate with
        goals := nodes ++ [⟨goal, { step with path := usizeMax :: step.path } :: steps⟩] } := by
  unfold corruptFormalCertificate at h
  cases hlast : certificate.goals.getLast? with
  | none => simp [hlast] at h
  | some node =>
    obtain ⟨nodes, hgoals⟩ := List.getLast?_eq_some_iff.1 hlast
    obtain ⟨goal, steps⟩ := node
    cases steps with
    | nil => simp [hlast] at h
    | cons step steps =>
      rw [hlast] at h
      simp only [hgoals, List.dropLast_concat, Except.ok.injEq] at h
      exact ⟨nodes, goal, step, steps, hgoals, h.symm⟩

/-- **Corrupted certificates are rejected at the root**, after all other goals. -/
theorem replayCertificate_corrupted (h : Accepts S problem certificate limits)
    (hcorrupt : corruptFormalCertificate certificate = .ok corrupted)
    (hpaths : ∀ node ∈ corrupted.goals, ∀ step ∈ node.steps,
      step.path.length ≤ limits.maximumPathDepth)
    (hfit : problem.LeftSidesFit) :
    ∃ report failure, replayCertificate S problem corrupted limits = .ok report ∧
      report.accepted = false ∧ report.failure = some failure ∧ failure.kind = .invalidPath ∧
      failure.goal = some problem.root ∧ failure.step = some 0 ∧
      report.requiredGoals = problem.requiredGoalIndices.length ∧
      report.verifiedGoals = problem.requiredGoalIndices.length - 1 := by
  obtain ⟨hproblem, hcertificate, hproves, -⟩ := accepts_iff.1 h
  obtain ⟨nodes, root, step, steps, hgoals, rfl⟩ := corruptFormalCertificate_eq_ok hcorrupt
  set corrupted : RuliadProofCertificate := { certificate with
    goals := nodes ++ [⟨root, { step with path := usizeMax :: step.path } :: steps⟩] } with hcorrupted
  have hsame : corrupted.goals.map (·.goal) = certificate.goals.map (·.goal) := by
    simp [hcorrupted, hgoals]
  have hvalid : ValidCertificate S problem corrupted limits := by
    refine ⟨hcertificate.version, hcertificate.problemHash, ?_, hsame ▸ hcertificate.sorted,
      hsame ▸ hcertificate.required⟩
    have hcount : corrupted.stepCount = certificate.stepCount := by
      simp [RuliadProofCertificate.stepCount, hcorrupted, hgoals]
    exact hcount.trans_le hcertificate.stepCount_le
  -- The last block is the root's.
  have hrequired : problem.requiredGoalIndices = nodes.map (·.goal) ++ [root] := by
    rw [← hproves.goals, hgoals]
    simp
  obtain rfl : root = problem.root := by
    have hlast := hproblem.getLast?_requiredGoalIndices
    rw [hrequired] at hlast
    simpa using hlast
  -- The other goals keep their blocks.
  have hothers : ∀ i ∈ nodes.map (·.goal), discharges problem limits corrupted.index i = true := by
    intro i hi
    obtain ⟨node, hnode, rfl⟩ := List.mem_map.1 hi
    have hmem : node ∈ corrupted.goals := List.mem_append_left _ hnode
    obtain ⟨goal, hgoal, hreplays⟩ := hproves.steps node (hgoals ▸ List.mem_append_left _ hnode)
    exact (discharges_iff hproblem.axioms_nodup hvalid.sorted).2
      ⟨node, hmem, rfl, goal, hgoal, hpaths node hmem, hreplays⟩
  -- The first step of the root fails.
  obtain ⟨goal, hgoal, hreplays⟩ := hproves.steps ⟨problem.root, step :: steps⟩ (by simp [hgoals])
  obtain ⟨-, ⟨equality, hsource, -⟩, -⟩ := hreplays
  have hnode : corrupted.index problem.root =
      some ⟨problem.root, { step with path := usizeMax :: step.path } :: steps⟩ :=
    (RuliadProofCertificate.index_eq_some_iff hvalid.sorted).2 ⟨by simp [hcorrupted], rfl⟩
  obtain ⟨message, happly⟩ : ∃ message, applyStep problem problem.root goal (axiomMap problem) limits
      goal.claim.lhs { step with path := usizeMax :: step.path } =
      .error ⟨.invalidPath, none, none, message⟩ := by
    have hdepth : ¬ (usizeMax :: step.path).length > limits.maximumPathDepth :=
      not_lt.2 (hpaths ⟨problem.root, { step with path := usizeMax :: step.path } :: steps⟩
        (by simp [hcorrupted]) _ List.mem_cons_self)
    have hequality : sourceEquality problem problem.root goal (axiomMap problem) step.source =
        .ok equality := (sourceEquality_eq_ok_iff hproblem.axioms_nodup).2 hsource
    simp only [applyStep, if_neg hdepth, hequality, bind, Except.bind]
    cases step.direction with
    | forward => exact rewriteAtPath_of_length_le _ (hfit goal (List.mem_of_getElem? hgoal))
    | reverse => exact rewriteAtPath_of_length_le _ (hfit goal (List.mem_of_getElem? hgoal))
  have hreplay : replaySteps problem problem.root goal (axiomMap problem) limits 0 goal.claim.lhs
      ({ step with path := usizeMax :: step.path } :: steps) =
      .error (⟨.invalidPath, some problem.root, some 0, message⟩, 0) := by
    rw [replaySteps, happly]
  have hroot : discharges problem limits corrupted.index problem.root = false := by
    simp only [discharges, hnode, hgoal, hreplay]
  have hfind : problem.requiredGoalIndices.find? (fun i =>
      !discharges problem limits corrupted.index i) = some problem.root := by
    rw [hrequired, List.find?_append, List.find?_eq_none.2 fun i hi => by simp [hothers i hi]]
    simp [hroot]
  obtain ⟨report, hreport, hspec⟩ := replayCertificate_of_valid hproblem hvalid
  obtain ⟨failure, hfailure, hcase⟩ := hspec.failure_some _ hfind
  obtain rfl : failure = ⟨.invalidPath, some problem.root, some 0, message⟩ := by
    cases hcase with
    | missing hnone => rw [hnode] at hnone; cases hnone
    | step hsome hgoal' herror =>
      obtain rfl := Option.some.inj (hnode.symm.trans hsome)
      obtain rfl := Option.some.inj (hgoal.symm.trans hgoal')
      rw [hreplay] at herror
      exact (Prod.mk.inj (Except.error.inj herror)).1.symm
    | mismatch hsome hgoal' hok =>
      obtain rfl := Option.some.inj (hnode.symm.trans hsome)
      obtain rfl := Option.some.inj (hgoal.symm.trans hgoal')
      rw [hreplay] at hok
      cases hok
  refine ⟨report, _, hreport, ?_, hfailure, rfl, rfl, rfl, hspec.requiredGoals, ?_⟩
  · refine Bool.eq_false_iff.2 fun haccepted => ?_
    have := hspec.accepted.1 haccepted problem.root
      RuliadProofProblem.root_mem_requiredGoalIndices
    rw [hroot] at this
    cases this
  · rw [hspec.verifiedGoals, hrequired, List.takeWhile_append_of_pos hothers,
      List.takeWhile_cons_of_neg (by simp [hroot])]
    simp

end Corrupted

/-- The certificate of the unit problem with a corrupted root. -/
theorem replayCertificate_corrupted_unitProblem :
    ∃ corrupted report failure, corruptFormalCertificate unitCertificate = .ok corrupted ∧
      replayCertificate (.ofDigest unitDigest) unitProblem corrupted .default = .ok report ∧
      report.failure = some failure ∧ failure.kind = .invalidPath ∧ failure.goal = some 1 ∧
      failure.step = some 0 ∧ report.verifiedGoals = 1 := by
  have hfit : unitProblem.LeftSidesFit :=
    (accepts_iff.1 accepts_unitCertificate).1.leftSidesFit (by decide)
  obtain ⟨report, failure, hreport, -, hfailure, hkind, hgoal, hstep, -, hverified⟩ :=
    replayCertificate_corrupted accepts_unitCertificate rfl (by decide) hfit
  exact ⟨_, report, failure, rfl, hreport, hfailure, hkind, hgoal, hstep, hverified⟩

end BurnDragon.Ruliad
