import BurnDragon.Ruliad.Soundness

/-!
# The two kernels agree

`replay_certificate` replays all goals of a certificate, a `RuliadGoalTransitionKernel` the steps of
one goal. They apply the same steps: where the batch replay fails at a step, the transition kernel of
that goal fails with the same failure (`replayGoalPrefix_eq`). `replayCertificate_agrees` puts the
agreement together with what the counters of the report say.
-/

namespace BurnDragon.Ruliad

open Equational Rust List RuliadGoalTransitionKernel RuliadProofCertificate RuliadProofProblem

/-- `replay_goal_prefix`. -/
def replayGoalPrefix (S : Serde) (problem : RuliadProofProblem) (goalIndex : ℕ)
    (steps : List RuliadProofStep) (limits : RuliadKernelLimits) : Kernel RuliadTerm := do
  let kernel ← RuliadGoalTransitionKernel.new S problem goalIndex limits
  kernel.replayPrefix steps

/-- A failure of a step is no mismatch of a goal. -/
abbrev NoMismatch (failure : RuliadKernelFailure) : Prop := failure.kind ≠ .goalMismatch

variable {S : Serde} {problem : RuliadProofProblem} {limits : RuliadKernelLimits}

section Steps

variable {goalIndex : ℕ} {goal : RuliadProofGoal} {axioms : Map String RuliadRewriteAxiom}

theorem noMismatch_rewriteAtPath (pattern replacement : RuliadTerm) (path : List ℕ)
    (s : RuliadTerm) : FailsOnly NoMismatch (rewriteAtPath pattern replacement path s) := by
  induction path generalizing s with
  | nil =>
    rw [rewriteAtPath.eq_3]
    cases matchTerm pattern s Map.empty with
    | none => exact .error (by simp)
    | some substitution =>
      simp only
      cases instantiate substitution replacement with
      | none => exact .error (by simp)
      | some result => exact .ok result
  | cons i path ih =>
    cases s using Term.ind with
    | var j => exact .error (by simp)
    | atom a => exact .error (by simp)
    | apply f args _ =>
      rw [rewriteAtPath]
      cases args[i]? with
      | none => exact .error (by simp)
      | some arg => exact (ih arg).bind fun _ => .ok _

theorem noMismatch_applyStep (s : RuliadTerm) (step : RuliadProofStep) :
    FailsOnly NoMismatch (applyStep problem goalIndex goal axioms limits s step) := by
  have hsource : FailsOnly NoMismatch (sourceEquality problem goalIndex goal axioms step.source) := by
    cases step.source with
    | axiom_ id =>
      rw [sourceEquality]
      cases axioms id with
      | none => exact .error (by simp)
      | some rule => exact .ok _
    | lemma_ dependency =>
      rw [sourceEquality]
      refine failsOnly_ite (.error (by simp)) ?_
      cases problem.goals[dependency]? with
      | none => exact .error (by simp)
      | some goal => exact .ok _
  simp only [applyStep, throw_bind]
  refine failsOnly_ite (.error (by simp)) (hsource.bind fun equality => ?_)
  cases step.direction <;> exact noMismatch_rewriteAtPath _ _ _ _

/-- A failing replay names the goal and the step, and the step's index is the number of the steps
applied before. -/
theorem replaySteps_error {stepIndex n : ℕ} {s : RuliadTerm} {steps : List RuliadProofStep}
    {failure : RuliadKernelFailure}
    (h : replaySteps problem goalIndex goal axioms limits stepIndex s steps = .error (failure, n)) :
    failure.goal = some goalIndex ∧ failure.step = some n ∧ NoMismatch failure := by
  induction steps generalizing s stepIndex with
  | nil => simp [replaySteps] at h
  | cons step steps ih =>
    rw [replaySteps] at h
    cases happly : applyStep problem goalIndex goal axioms limits s step with
    | ok next =>
      rw [happly] at h
      exact ih h
    | error cause =>
      rw [happly] at h
      simp only [Except.error.injEq, Prod.mk.injEq] at h
      obtain ⟨rfl, rfl⟩ := h
      exact ⟨rfl, rfl, noMismatch_applyStep s step cause happly⟩

/-- The transition kernel of a goal replays the steps as the batch replay does. -/
theorem replayFrom_eq (axioms : Map String RuliadRewriteAxiom) (stepIndex : ℕ) (s : RuliadTerm)
    (steps : List RuliadProofStep) :
    (mk problem goalIndex goal axioms limits).replayFrom stepIndex s
        steps =
      (replaySteps problem goalIndex goal axioms limits stepIndex s steps).mapError Prod.fst := by
  induction steps generalizing s stepIndex with
  | nil => rfl
  | cons step steps ih =>
    rw [replayFrom, replaySteps, apply]
    cases applyStep problem goalIndex goal axioms limits s step with
    | ok next => exact ih _ next
    | error failure => rfl

/-- **One goal**: in a valid problem, the transition kernel of a required goal replays a block within
the step limit as the batch replay does. -/
theorem replayGoalPrefix_eq (hproblem : ValidProblem problem limits)
    (hrequired : goalIndex ∈ problem.requiredGoalIndices)
    (hgoal : problem.goals[goalIndex]? = some goal) {steps : List RuliadProofStep}
    (hsteps : steps.length ≤ limits.maximumSteps) :
    replayGoalPrefix S problem goalIndex steps limits =
      (replaySteps problem goalIndex goal (axiomMap problem) limits 0 goal.claim.lhs
        steps).mapError Prod.fst := by
  have hnew : new S problem goalIndex limits =
      .ok ⟨problem, goalIndex, goal, axiomMap problem, limits⟩ :=
    new_eq_ok_iff.2 ⟨hproblem, hrequired, goal, hgoal, rfl⟩
  simp only [replayGoalPrefix, hnew, bind, Except.bind, replayPrefix]
  rw [if_neg (not_lt.2 hsteps), replayFrom_eq]
  rfl

end Steps

/-! ## The goals before a failing one -/

section Goals

variable {certificate : RuliadProofCertificate} {certificates : Map ℕ RuliadGoalCertificate}
  {required : List ℕ} {i j : ℕ}

/-- Up to the first goal that is not discharged, all steps of the goals are applied. -/
theorem soundSteps_of_find?
    (h : required.find? (fun i => !discharges problem limits certificates i) = some i) :
    soundSteps problem limits certificates required =
      ((required.takeWhile (discharges problem limits certificates)).map
        (goalStepsApplied problem limits certificates)).sum +
        goalStepsApplied problem limits certificates i := by
  induction required with
  | nil => simp at h
  | cons k required ih =>
    by_cases hk : discharges problem limits certificates k
    · rw [find?_cons_of_neg (by simp [hk])] at h
      rw [soundSteps, if_pos hk, ih h, takeWhile_cons_of_pos hk, map_cons, sum_cons]
      omega
    · rw [find?_cons_of_pos (by simp [hk])] at h
      obtain rfl := Option.some.inj h
      simp [soundSteps, hk]

/-- In an increasing list, the elements before the first that does not satisfy `p` are the smaller
ones. -/
theorem mem_takeWhile_iff_lt {p : ℕ → Bool} (hsorted : required.Pairwise (· < ·))
    (h : required.find? (fun i => !p i) = some i) :
    j ∈ required.takeWhile p ↔ j ∈ required ∧ j < i := by
  induction required with
  | nil => simp at h
  | cons k required ih =>
    obtain ⟨hk, hsorted⟩ := pairwise_cons.1 hsorted
    by_cases hp : p k
    · rw [find?_cons_of_neg (by simp [hp])] at h
      rw [takeWhile_cons_of_pos hp, mem_cons, mem_cons, ih hsorted h]
      have hki : k < i := hk i (mem_of_find?_eq_some h)
      constructor
      · rintro (rfl | ⟨hj, hji⟩)
        · exact ⟨.inl rfl, hki⟩
        · exact ⟨.inr hj, hji⟩
      · rintro ⟨rfl | hj, hji⟩
        · exact .inl rfl
        · exact .inr ⟨hj, hji⟩
    · rw [find?_cons_of_pos (by simp [hp])] at h
      obtain rfl := Option.some.inj h
      rw [takeWhile_cons_of_neg hp, mem_cons]
      simp only [not_mem_nil, false_iff, not_and, not_lt]
      rintro (rfl | hj)
      · exact le_rfl
      · exact (hk j hj).le

theorem exists_block_of_discharges
    (hcertificate : ValidCertificate S problem certificate limits)
    (h : discharges problem limits certificate.index i) :
    ∃ node ∈ certificate.goals, node.goal = i ∧
      goalStepsApplied problem limits certificate.index i = node.steps.length := by
  cases hnode : certificate.index i with
  | none => simp [discharges, hnode] at h
  | some node =>
    obtain ⟨hmem, hgoal⟩ :=
      (index_eq_some_iff hcertificate.sorted).1 hnode
    exact ⟨node, hmem, hgoal, goalStepsApplied_of_discharges hnode h⟩

/-- The steps applied before the first goal that is not discharged are those of the earlier blocks. -/
theorem sum_earlier (hcertificate : ValidCertificate S problem certificate limits)
    (h : problem.requiredGoalIndices.find?
      (fun i => !discharges problem limits certificate.index i) = some i) :
    ((problem.requiredGoalIndices.takeWhile (discharges problem limits certificate.index)).map
        (goalStepsApplied problem limits certificate.index)).sum =
      ((certificate.goals.filter (·.goal < i)).map (·.steps.length)).sum := by
  have hsorted : ((certificate.goals.filter (·.goal < i)).map (·.goal)).Pairwise (· < ·) :=
    hcertificate.sorted.sublist (filter_sublist.map _)
  have hgoals : problem.requiredGoalIndices.takeWhile (discharges problem limits
      certificate.index) = (certificate.goals.filter (·.goal < i)).map (·.goal) := by
    refine (pairwise_requiredGoalIndices.sublist
      (takeWhile_sublist _)).eq_of_mem_iff hsorted fun j => ?_
    rw [mem_takeWhile_iff_lt pairwise_requiredGoalIndices h]
    constructor
    · rintro ⟨hj, hji⟩
      have hmem := (mem_takeWhile_iff_lt pairwise_requiredGoalIndices h).2
        ⟨hj, hji⟩
      obtain ⟨node, hnode, rfl, -⟩ := exists_block_of_discharges hcertificate
        (mem_takeWhile_imp hmem)
      exact mem_map_of_mem (mem_filter.2 ⟨hnode, by simpa using hji⟩)
    · intro hj
      obtain ⟨node, hnode, rfl⟩ := mem_map.1 hj
      obtain ⟨hnode, hlt⟩ := mem_filter.1 hnode
      exact ⟨hcertificate.required _ (mem_map_of_mem hnode), by simpa using hlt⟩
  rw [hgoals, map_map]
  congr 1
  refine map_congr_left fun node hnode => ?_
  have hmem : node.goal ∈ problem.requiredGoalIndices.takeWhile (discharges problem limits
      certificate.index) := hgoals ▸ mem_map_of_mem hnode
  have hindex := (index_eq_some_iff hcertificate.sorted).2
    ⟨(mem_filter.1 hnode).1, rfl⟩
  exact goalStepsApplied_of_discharges hindex (mem_takeWhile_imp hmem)

/-! ## The report -/

/-- The transition kernel takes the block of the goal to the right side of its claim. -/
def IncrementallyProved (S : Serde) (problem : RuliadProofProblem)
    (certificate : RuliadProofCertificate) (limits : RuliadKernelLimits) (goalIndex : ℕ) : Prop :=
  ∃ node ∈ certificate.goals, node.goal = goalIndex ∧
    ∃ goal, problem.goals[goalIndex]? = some goal ∧
      replayGoalPrefix S problem goalIndex node.steps limits = .ok goal.claim.rhs

theorem length_steps_le {node : RuliadGoalCertificate}
    (hcertificate : ValidCertificate S problem certificate limits)
    (hnode : node ∈ certificate.goals) : node.steps.length ≤ limits.maximumSteps :=
  (single_le_sum (fun _ _ => Nat.zero_le _) _ (mem_map_of_mem hnode)).trans
    hcertificate.stepCount_le

theorem discharges_iff_incrementallyProved (hproblem : ValidProblem problem limits)
    (hcertificate : ValidCertificate S problem certificate limits)
    (hi : i ∈ problem.requiredGoalIndices) :
    discharges problem limits certificate.index i ↔
      IncrementallyProved S problem certificate limits i := by
  obtain ⟨goal, hgoal, -⟩ := hproblem.requiredGoals i hi
  have hblock : ∀ {node : RuliadGoalCertificate}, certificate.index i = some node →
      node ∈ certificate.goals → (discharges problem limits certificate.index i = true ↔
        replayGoalPrefix S problem i node.steps limits = .ok goal.claim.rhs) := by
    intro node hnode hmem
    rw [replayGoalPrefix_eq hproblem hi hgoal (length_steps_le hcertificate hmem)]
    simp only [discharges, hnode, hgoal]
    cases replaySteps problem i goal (axiomMap problem) limits 0 goal.claim.lhs node.steps <;>
      simp [Except.mapError]
  constructor
  · intro h
    obtain ⟨node, hmem, hnode, -⟩ := exists_block_of_discharges hcertificate h
    have hindex := (index_eq_some_iff hcertificate.sorted).2 ⟨hmem, hnode⟩
    exact ⟨node, hmem, hnode, goal, hgoal, (hblock hindex hmem).1 h⟩
  · rintro ⟨node, hmem, hnode, goal', hgoal', h⟩
    obtain rfl := Option.some.inj (hgoal.symm.trans hgoal')
    have hindex := (index_eq_some_iff hcertificate.sorted).2 ⟨hmem, hnode⟩
    exact (hblock hindex hmem).2 h

/-- What the transition kernel does where the batch replay fails in the steps of a goal: it fails with
the same failure, or it ends at another term than the goal's. -/
def IncrementalFailure (S : Serde) (problem : RuliadProofProblem)
    (certificate : RuliadProofCertificate) (limits : RuliadKernelLimits)
    (report : RuliadReplayReport) (failure : RuliadKernelFailure) : Prop :=
  ∃ node ∈ certificate.goals, failure.goal = some node.goal ∧ ∃ step, failure.step = some step ∧
    report.verifiedSteps =
      ((certificate.goals.filter (·.goal < node.goal)).map (·.steps.length)).sum + step ∧
    (failure.kind ≠ .goalMismatch →
      replayGoalPrefix S problem node.goal node.steps limits = .error failure) ∧
    (failure.kind = .goalMismatch → step = node.steps.length ∧ ∃ current goal,
      replayGoalPrefix S problem node.goal node.steps limits = .ok current ∧
      problem.goals[node.goal]? = some goal ∧ current ≠ goal.claim.rhs)

theorem incrementalFailure_of_step {report : RuliadReplayReport} {failure : RuliadKernelFailure}
    (hproblem : ValidProblem problem limits)
    (hcertificate : ValidCertificate S problem certificate limits)
    (hreport : CertificateReport problem certificate limits report)
    (hfind : problem.requiredGoalIndices.find?
      (fun i => !discharges problem limits certificate.index i) = some i)
    (hfailure : GoalFailure problem limits certificate.index i failure)
    (hstep : failure.step ≠ none) :
    IncrementalFailure S problem certificate limits report failure := by
  have hi := mem_of_find?_eq_some hfind
  have hsteps : report.verifiedSteps =
      ((certificate.goals.filter (·.goal < i)).map (·.steps.length)).sum +
        goalStepsApplied problem limits certificate.index i := by
    rw [hreport.verifiedSteps, soundSteps_of_find? hfind, sum_earlier hcertificate hfind]
  cases hfailure with
  | missing hnode message => simp at hstep
  | step hnode hgoal h =>
    rename_i node goal n
    obtain ⟨hmem, rfl⟩ := (index_eq_some_iff hcertificate.sorted).1 hnode
    obtain ⟨hgoalIndex, hstepIndex, hkind⟩ := replaySteps_error h
    have happlied : goalStepsApplied problem limits certificate.index node.goal = n := by
      have hn := (stepsApplied_of_replaySteps problem node.goal goal limits 0 goal.claim.lhs
        node.steps).2 failure n h
      simp only [goalStepsApplied, hnode, hgoal]
      omega
    refine ⟨node, hmem, hgoalIndex, n, hstepIndex, by rw [hsteps, happlied], fun _ => ?_,
      fun hmismatch => absurd hmismatch hkind⟩
    rw [replayGoalPrefix_eq hproblem hi hgoal (length_steps_le hcertificate hmem), h]
    rfl
  | mismatch hnode hgoal h hne message =>
    rename_i node goal current
    obtain ⟨hmem, rfl⟩ := (index_eq_some_iff hcertificate.sorted).1 hnode
    have happlied : goalStepsApplied problem limits certificate.index node.goal =
        node.steps.length := by
      have hn := (stepsApplied_of_replaySteps problem node.goal goal limits 0 goal.claim.lhs
        node.steps).1 current h
      simp only [goalStepsApplied, hnode, hgoal, hn]
    refine ⟨node, hmem, rfl, _, rfl, by rw [hsteps, happlied], fun hkind => absurd rfl hkind,
      fun _ => ⟨rfl, current, goal, ?_, hgoal, hne⟩⟩
    rw [replayGoalPrefix_eq hproblem hi hgoal (length_steps_le hcertificate hmem), h]
    rfl

/-- In a report on a valid certificate of a valid problem, acceptance, the absence of a failure and
full counters are the same. -/
theorem CertificateReport.accepted_iff {report : RuliadReplayReport}
    (hreplay : replayCertificate S problem certificate limits = .ok report)
    (h : CertificateReport problem certificate limits report) :
    (report.accepted = true ↔ report.failure = none) ∧
      (report.accepted = true ↔ report.verifiedGoals = report.requiredGoals ∧
        report.verifiedSteps = report.submittedSteps) := by
  have hall : report.accepted = true ↔ problem.requiredGoalIndices.find?
      (fun i => !discharges problem limits certificate.index i) = none := by
    rw [h.accepted, find?_eq_none]
    simp
  constructor
  · rw [hall]
    refine ⟨h.failure_none, fun hnone => ?_⟩
    cases hfind : problem.requiredGoalIndices.find?
        (fun i => !discharges problem limits certificate.index i) with
    | none => rfl
    | some i =>
      obtain ⟨failure, hfailure, -⟩ := h.failure_some i hfind
      simp [hnone] at hfailure
  · constructor
    · intro haccepted
      obtain ⟨report', hreplay', -, hgoals, hsteps⟩ :=
        replayCertificate_of_accepts ⟨report, hreplay, haccepted⟩
      obtain rfl : report = report' := Except.ok.inj (hreplay.symm.trans hreplay')
      exact ⟨hgoals.trans h.requiredGoals.symm, hsteps.trans h.submittedSteps.symm⟩
    · rintro ⟨hgoals, -⟩
      rw [h.verifiedGoals, h.requiredGoals] at hgoals
      have htake := (List.takeWhile_prefix _).eq_of_length hgoals
      rw [h.accepted]
      exact takeWhile_eq_self_iff.1 htake

/-- **The two kernels agree.** On a problem that passes validation, the batch kernel accepts exactly
the certificates that pass its checks on their form and whose required goals the transition kernels
prove. When the failure that it reports names a step, the transition kernel of the goal fails with the
same failure, and the verified steps are those of the earlier goals and those before the failing one;
or the steps end at another term. For every problem and certificate, acceptance, the absence of a
failure and full counters are the same. -/
theorem replayCertificate_agrees (S : Serde) (problem : RuliadProofProblem)
    (certificate : RuliadProofCertificate) (limits : RuliadKernelLimits) :
    ∃ report, replayCertificate S problem certificate limits = .ok report ∧
      (∀ hash, validateProblem S problem limits = .ok hash → (report.accepted = true ↔
        ValidCertificate S problem certificate limits ∧ ∀ i ∈ problem.requiredGoalIndices,
          IncrementallyProved S problem certificate limits i)) ∧
      (∀ failure, report.failure = some failure → failure.step ≠ none →
        IncrementalFailure S problem certificate limits report failure) ∧
      (report.accepted = true ↔ report.failure = none) ∧
      (report.accepted = true ↔ report.verifiedGoals = report.requiredGoals ∧
        report.verifiedSteps = report.submittedSteps) := by
  by_cases hvalid : ValidProblem problem limits ∧ ValidCertificate S problem certificate limits
  · obtain ⟨hproblem, hcertificate⟩ := hvalid
    obtain ⟨report, hreplay, h⟩ := replayCertificate_of_valid hproblem hcertificate
    refine ⟨report, hreplay, fun hash hhash => ?_, fun failure hfailure hstep => ?_,
      h.accepted_iff hreplay⟩
    · rw [h.accepted, and_iff_right hcertificate]
      exact forall₂_congr fun i hi => discharges_iff_incrementallyProved hproblem hcertificate hi
    · cases hfind : problem.requiredGoalIndices.find?
          (fun i => !discharges problem limits certificate.index i) with
      | none => simp [h.failure_none hfind] at hfailure
      | some i =>
        obtain ⟨failure', hfailure', hgoal⟩ := h.failure_some i hfind
        obtain rfl := Option.some.inj (hfailure.symm.trans hfailure')
        exact incrementalFailure_of_step hproblem hcertificate h hfind hgoal hstep
  · obtain ⟨report, hreplay, h⟩ := replayCertificate_of_not_valid hvalid
    obtain ⟨early, hearly, hstep⟩ := h.failure
    refine ⟨report, hreplay, fun hash hhash => ?_, fun failure hfailure hne => ?_, ?_, ?_⟩
    · have hproblem := (validateProblem_eq_ok_iff.1 hhash).1
      simp only [h.accepted, Bool.false_eq_true, false_iff, not_and]
      exact fun hcertificate => absurd ⟨hproblem, hcertificate⟩ hvalid
    · obtain rfl := Option.some.inj (hearly.symm.trans hfailure)
      exact absurd hstep hne
    · simp [h.accepted, hearly]
    · have hpos : 0 < problem.requiredGoalIndices.length :=
        List.length_pos_of_mem RuliadProofProblem.root_mem_requiredGoalIndices
      simp only [h.accepted, h.verifiedGoals, h.requiredGoals, Bool.false_eq_true, false_iff,
        not_and]
      omega

theorem replayCertificate_agrees_unitProblem : ∀ i ∈ unitProblem.requiredGoalIndices,
    IncrementallyProved (.ofDigest unitDigest) unitProblem unitCertificate .default i := by
  obtain ⟨report, hreport, hincremental, -⟩ :=
    replayCertificate_agrees (.ofDigest unitDigest) unitProblem unitCertificate .default
  obtain ⟨report', hreport', haccepted⟩ := accepts_unitCertificate
  obtain rfl : report = report' := Except.ok.inj (hreport.symm.trans hreport')
  exact ((hincremental unitDigest rfl).1 haccepted).2

end Goals

end BurnDragon.Ruliad
