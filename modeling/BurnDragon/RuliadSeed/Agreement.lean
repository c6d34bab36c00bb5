import BurnDragon.Ruliad.Soundness
import BurnDragon.RuliadSeed.Checker

/-!
# The two checkers agree

The kernel and the seed checker on the same problem and certificate. The seed's functions compute
the kernel's: its list of bindings stands for the kernel's map (`bindings`), its rewriting succeeds
with the same terms (`rewriteAtPath_eq_some_iff`), and on a valid problem it finds the same required
goals (`requiredGoals_eq`). So `checkCertificate` decides `Proves` (`checkCertificate_iff`), which is
what acceptance adds to the checks that the seed does not make (`accepts_iff_checkCertificate`).
-/

namespace BurnDragon.RuliadSeed

open Equational Rust Ruliad List

/-! ## The same problem and certificate -/

def Equality.ofKernel (equality : RuliadEquality) : Equality := ⟨equality.lhs, equality.rhs⟩

def RewriteAxiom.ofKernel (rule : RuliadRewriteAxiom) : RewriteAxiom :=
  ⟨rule.id, rule.lhs, rule.rhs⟩

def ProofGoal.ofKernel (goal : RuliadProofGoal) : ProofGoal :=
  ⟨goal.dependencies, .ofKernel goal.claim⟩

def Problem.ofKernel (problem : RuliadProofProblem) : Problem where
  version := problem.version
  axioms := problem.axioms.map .ofKernel
  goals := problem.goals.map .ofKernel
  root := problem.root

def RewriteDirection.ofKernel : RuliadRewriteDirection → RewriteDirection
  | .forward => .forward
  | .reverse => .reverse

def ProofSource.ofKernel : RuliadProofSource → ProofSource
  | .axiom_ id => .namedAxiom id
  | .lemma_ goal => .priorGoal goal

def ProofStep.ofKernel (step : RuliadProofStep) : ProofStep :=
  ⟨.ofKernel step.source, step.path, .ofKernel step.direction⟩

def GoalCertificate.ofKernel (node : RuliadGoalCertificate) : GoalCertificate :=
  ⟨node.goal, node.steps.map .ofKernel⟩

def Certificate.ofKernel (certificate : RuliadProofCertificate) : Certificate :=
  ⟨certificate.version, certificate.goals.map .ofKernel⟩

/-! ## Matching and rewriting -/

/-- The map that a list of bindings stands for. -/
def bindings (substitution : Substitution) : Ruliad.Substitution :=
  fun index => lookupSubstitution index substitution

section Rewriting

variable {pattern replacement term t : Term} {patterns values : List Term}
  {substitution : Substitution}

theorem bindings_cons (index : ℕ) (value : Term) :
    bindings ((index, value) :: substitution) = (bindings substitution).insert index value := by
  funext i
  by_cases hi : index = i
  · subst hi
    simp [bindings, lookupSubstitution]
  · rw [Map.insert_of_ne _ _ (Ne.symm hi)]
    simp [bindings, lookupSubstitution, hi]

/-- The seed matches the pattern as the kernel does. -/
def MatchAgrees (pattern : Term) : Prop :=
  ∀ value substitution, (matchTerm pattern value substitution).map bindings =
    Ruliad.matchTerm pattern value (bindings substitution)

theorem matchTermList_agrees (h : ∀ pattern ∈ patterns, MatchAgrees pattern) :
    (matchTermList patterns values substitution).map bindings =
      if patterns.length = values.length then
        Ruliad.matchTerms patterns values (bindings substitution)
      else
        none := by
  induction patterns generalizing values substitution with
  | nil => cases values <;> simp [matchTermList, matchTerms]
  | cons pattern patterns ih =>
    cases values with
    | nil => simp [matchTermList]
    | cons value values =>
      have hhead := h pattern (by simp) value substitution
      simp only [matchTermList, matchTerms, length_cons, Nat.add_right_cancel_iff, ← hhead]
      cases matchTerm pattern value substitution with
      | none => simp
      | some next => exact ih fun p hp => h p (by simp [hp])

theorem matchTerm_agrees : MatchAgrees pattern := by
  induction pattern using Term.ind with
  | var index =>
    intro value substitution
    simp only [matchTerm, Ruliad.matchTerm]
    rw [show bindings substitution index = lookupSubstitution index substitution from rfl]
    cases lookupSubstitution index substitution with
    | none => simp [bindings_cons]
    | some bound => by_cases h : bound = value <;> simp [h]
  | atom left =>
    intro value substitution
    cases value using Term.ind with
    | var index => rfl
    | atom right => by_cases h : left = right <;> simp [matchTerm, Ruliad.matchTerm, h]
    | apply right arguments => rfl
  | apply left leftArguments ih =>
    intro value substitution
    cases value using Term.ind with
    | var index => rfl
    | atom right => rfl
    | apply right rightArguments =>
      simp only [matchTerm, Ruliad.matchTerm]
      by_cases h : left = right
      · simp [h, matchTermList_agrees ih]
      · simp [h]

theorem instantiate_agrees :
    instantiate replacement substitution = Ruliad.instantiate (bindings substitution) replacement := by
  have hlist : ∀ {ts : List Term}, (∀ t ∈ ts,
      instantiate t substitution = Ruliad.instantiate (bindings substitution) t) →
      instantiateList ts substitution = Ruliad.instantiateList (bindings substitution) ts := by
    intro ts
    induction ts with
    | nil => exact fun _ => rfl
    | cons t ts ih =>
      intro h
      rw [instantiateList, Ruliad.instantiateList, h t (by simp), ih fun t ht => h t (by simp [ht])]
      cases Ruliad.instantiate (bindings substitution) t <;>
        cases Ruliad.instantiateList (bindings substitution) ts <;> rfl
  induction replacement using Term.ind with
  | var index => rfl
  | atom symbol => rfl
  | apply operator arguments ih =>
    rw [instantiate, Ruliad.instantiate, hlist ih]
    cases Ruliad.instantiateList (bindings substitution) arguments <;> rfl

theorem replaceAt_eq {α : Type} (values : List α) (index : ℕ) (replacement : α) :
    replaceAt values index replacement =
      if index < values.length then some (values.set index replacement) else none := by
  induction values generalizing index with
  | nil => rfl
  | cons value rest ih =>
    cases index with
    | zero => rfl
    | succ index =>
      rw [replaceAt, ih]
      by_cases h : index < rest.length <;> simp [h]

/-- The seed rewrites exactly as the kernel does. -/
theorem rewriteAtPath_eq_some_iff {path : List ℕ} :
    rewriteAtPath term path pattern replacement = some t ↔
      At (Instance pattern replacement) path term t := by
  induction path generalizing term t with
  | nil =>
    rw [← rewriteAtPath_eq_ok_iff, rewriteAtPath, Ruliad.rewriteAtPath.eq_3]
    have hmatch : (matchTerm pattern term []).map bindings =
        Ruliad.matchTerm pattern term Map.empty := matchTerm_agrees term []
    rw [← hmatch]
    cases matchTerm pattern term [] with
    | none => simp
    | some substitution =>
      simp only [Option.bind_some, Option.map_some, bind, instantiate_agrees]
      cases Ruliad.instantiate (bindings substitution) replacement <;> simp
  | cons index rest ih =>
    cases term using Term.ind with
    | var i => constructor <;> intro h <;> cases h
    | atom symbol => constructor <;> intro h <;> cases h
    | apply operator arguments _ =>
      simp only [rewriteAtPath, bind, Option.bind_eq_some_iff, ih, replaceAt_eq, Option.some.injEq]
      constructor
      · rintro ⟨argument, hget, rewritten, hat, _, hset, rfl⟩
        obtain ⟨-, hset⟩ := Option.ite_none_right_eq_some.1 hset
        obtain rfl := Option.some.inj hset
        exact .arg hget hat
      · rintro (_ | ⟨hget, hat⟩)
        have hlt := (List.getElem?_eq_some_iff.1 hget).1
        exact ⟨_, hget, _, hat, _, if_pos hlt, rfl⟩

end Rewriting

/-! ## Replay -/

section Replay

variable {problem : RuliadProofProblem} {goal : RuliadProofGoal} {s t : Term}
  {steps : List RuliadProofStep}

theorem sourceEquality_ofKernel (problem : RuliadProofProblem) (goal : RuliadProofGoal)
    (source : RuliadProofSource) :
    sourceEquality (.ofKernel problem) (.ofKernel goal) (.ofKernel source) =
      (sourceClaim problem goal source).map .ofKernel := by
  cases source with
  | axiom_ id =>
    have hfind : findAxiom (Problem.ofKernel problem).axioms id =
        (problem.axioms.find? fun rule => rule.id = id).map .ofKernel := by
      rw [findAxiom, Problem.ofKernel, find?_map]
      rfl
    simp only [ProofSource.ofKernel, sourceEquality, sourceClaim, hfind]
    cases problem.axioms.find? fun rule => rule.id = id <;> rfl
  | lemma_ dependency =>
    simp only [ProofSource.ofKernel, sourceEquality, sourceClaim, ProofGoal.ofKernel,
      Problem.ofKernel, getElem?_map]
    by_cases hdep : dependency ∈ goal.dependencies
    · cases problem.goals[dependency]? <;> simp [hdep, ProofGoal.ofKernel]
    · simp [hdep]

theorem applyStep_eq_some_iff {step : RuliadProofStep} :
    applyStep (.ofKernel problem) (.ofKernel goal) s (.ofKernel step) = some t ↔
      Applies problem goal step s t := by
  have hsource := sourceEquality_ofKernel problem goal step.source
  simp only [applyStep, ProofStep.ofKernel, hsource, Applies, bind, Option.bind_eq_some_iff,
    Option.map_eq_some_iff]
  constructor
  · rintro ⟨_, ⟨equality, hclaim, rfl⟩, h⟩
    refine ⟨equality, hclaim, ?_⟩
    cases hdirection : step.direction <;> rw [hdirection] at h <;>
      exact rewriteAtPath_eq_some_iff.1 h
  · rintro ⟨equality, hclaim, h⟩
    refine ⟨_, ⟨equality, hclaim, rfl⟩, ?_⟩
    cases hdirection : step.direction <;> rw [hdirection] at h <;>
      exact rewriteAtPath_eq_some_iff.2 h

/-- The seed replays exactly the steps that lead to the term. -/
theorem replaySteps_eq_some_iff :
    replaySteps (.ofKernel problem) (.ofKernel goal) (steps.map .ofKernel) s = some t ↔
      Replays problem goal steps s t := by
  induction steps generalizing s with
  | nil => simp [replaySteps, Replays]
  | cons step steps ih =>
    simp only [map_cons, replaySteps, bind, Option.bind_eq_some_iff, applyStep_eq_some_iff, ih,
      Replays]

end Replay

/-! ## Required goals -/

section Required

variable {problem : RuliadProofProblem} {limits : RuliadKernelLimits}

/-- The dependencies of a goal come before it, so a search is no deeper than its start. -/
theorem reachesGoal_iff (hproblem : ValidProblem problem limits) {target current fuel : ℕ}
    (hfuel : current < fuel) :
    reachesGoal (.ofKernel problem) target current fuel = true ↔
      Graph.Reaches (goalDependencies problem.goals) current target := by
  induction fuel generalizing current with
  | zero => omega
  | succ fuel ih =>
    rw [Graph.Reaches, Relation.ReflTransGen.cases_head_iff, reachesGoal]
    by_cases htarget : target = current
    · simp [htarget]
    · have hgoals : (Problem.ofKernel problem).goals[current]? =
          (problem.goals[current]?).map .ofKernel := getElem?_map ..
      simp only [beq_iff_eq, htarget, if_false, hgoals, Graph.Edge, goalDependencies,
        Ne.symm htarget, false_or]
      cases hgoal : problem.goals[current]? with
      | none => simp
      | some goal =>
        simp only [Option.map_some, ProofGoal.ofKernel, any_eq_true]
        refine exists_congr fun dependency => and_congr_right fun hdep => ?_
        exact ih (lt_of_lt_of_le ((hproblem.goals current goal hgoal).lt dependency hdep)
          (by omega))

/-- On a valid problem both checkers require the same goals. -/
theorem requiredGoals_eq (hproblem : ValidProblem problem limits) :
    requiredGoals (.ofKernel problem) = problem.requiredGoalIndices := by
  have hsorted : (requiredGoals (.ofKernel problem)).Pairwise (· < ·) :=
    pairwise_lt_range.filter _
  refine hsorted.eq_of_mem_iff RuliadProofProblem.pairwise_requiredGoalIndices fun i => ?_
  have hlength : (Problem.ofKernel problem).goals.length = problem.goals.length :=
    length_map ..
  have hreach : reachesGoal (.ofKernel problem) i problem.root (problem.goals.length + 1) = true ↔
      problem.Requires i :=
    reachesGoal_iff hproblem (hproblem.root_lt.trans (Nat.lt_succ_self _))
  rw [RuliadProofProblem.mem_requiredGoalIndices, requiredGoals, mem_filter, mem_range, hlength]
  exact ⟨fun h => hreach.1 h.2, fun h => ⟨hproblem.requires_lt h, hreach.2 h⟩⟩

end Required

/-! ## Agreement -/

section Agreement

variable {problem : RuliadProofProblem} {certificate : RuliadProofCertificate}
  {limits : RuliadKernelLimits}

/-- The certificate has a block for the goal whose steps prove its claim. -/
def Discharged (problem : RuliadProofProblem) (certificate : RuliadProofCertificate) (index : ℕ) :
    Prop :=
  ∃ goal node, problem.goals[index]? = some goal ∧
    certificate.goals.find? (fun node => node.goal == index) = some node ∧
    Replays problem goal node.steps goal.claim.lhs goal.claim.rhs

/-- The seed goes through the required goals as the kernel does: the dependencies of each are
verified when it comes to it. -/
theorem verifyGoalSequence_iff {required verified : List ℕ} (hsorted : required.Pairwise (· < ·))
    (hgoals : ∀ i ∈ required, ∃ goal, problem.goals[i]? = some goal ∧
      ∀ d ∈ goal.dependencies, d ∈ verified ∨ d ∈ required ∧ d < i) :
    verifyGoalSequence (.ofKernel problem) (.ofKernel certificate) required verified = true ↔
      ∀ i ∈ required, Discharged problem certificate i := by
  induction required generalizing verified with
  | nil => simp [verifyGoalSequence]
  | cons i required ih =>
    obtain ⟨goal, hgoal, hdeps⟩ := hgoals i (by simp)
    obtain ⟨hi, hsorted⟩ := pairwise_cons.1 hsorted
    have hgoal' : (Problem.ofKernel problem).goals[i]? = some (.ofKernel goal) := by
      rw [Problem.ofKernel, getElem?_map, hgoal, Option.map_some]
    have hfind : findGoalCertificate (Certificate.ofKernel certificate).goals i =
        (certificate.goals.find? fun node => node.goal == i).map .ofKernel := by
      rw [findGoalCertificate, Certificate.ofKernel, find?_map]
      rfl
    have hverified : (ProofGoal.ofKernel goal).dependencies.all (verified.contains ·) = true := by
      refine all_eq_true.2 fun d hd => ?_
      rcases hdeps d hd with hv | ⟨hmem, hlt⟩
      · simpa using hv
      · rcases mem_cons.1 hmem with rfl | hmem
        · omega
        · have := hi d hmem
          omega
    have hrest : verifyGoalSequence (.ofKernel problem) (.ofKernel certificate) required
        (i :: verified) = true ↔ ∀ j ∈ required, Discharged problem certificate j := by
      refine ih hsorted fun j hj => ?_
      obtain ⟨goal, hgoal, hdeps⟩ := hgoals j (by simp [hj])
      refine ⟨goal, hgoal, fun d hd => ?_⟩
      rcases hdeps d hd with hv | ⟨hmem, hlt⟩
      · exact .inl (by simp [hv])
      · rcases mem_cons.1 hmem with rfl | hmem
        · exact .inl (by simp)
        · exact .inr ⟨hmem, hlt⟩
    rw [verifyGoalSequence, hgoal', hfind, forall_mem_cons]
    cases hnode : certificate.goals.find? fun node => node.goal == i with
    | none => simp [Discharged, hnode]
    | some node =>
      simp only [Option.map_some, hverified, Bool.true_and, Bool.and_eq_true, beq_iff_eq, hrest]
      refine and_congr_left fun _ => ?_
      simp only [Discharged, hgoal, hnode, Option.some.injEq, exists_eq_left', ↓existsAndEq,
        true_and]
      exact replaySteps_eq_some_iff

/-- **The seed checker decides `Proves`** on valid problems. -/
theorem checkCertificate_iff (hproblem : ValidProblem problem limits) :
    checkCertificate (.ofKernel problem) (.ofKernel certificate) = true ↔
      certificate.version = Ruliad.ruliadIrVersion ∧ Proves problem certificate := by
  have hgoals : (Certificate.ofKernel certificate).goals.map (fun goal => goal.goal) =
      certificate.goals.map (·.goal) := by
    rw [Certificate.ofKernel, map_map]
    rfl
  have hlength : (Problem.ofKernel problem).goals.length = problem.goals.length :=
    length_map ..
  have hne : problem.requiredGoalIndices.isEmpty = false := by
    rw [isEmpty_eq_false_iff]
    exact ne_nil_of_mem RuliadProofProblem.root_mem_requiredGoalIndices
  have hsequence : verifyGoalSequence (.ofKernel problem) (.ofKernel certificate)
      problem.requiredGoalIndices [] = true ↔
      ∀ i ∈ problem.requiredGoalIndices, Discharged problem certificate i := by
    refine verifyGoalSequence_iff RuliadProofProblem.pairwise_requiredGoalIndices fun i hi => ?_
    obtain ⟨goal, hgoal, hdeps⟩ := hproblem.requiredGoals i hi
    exact ⟨goal, hgoal, fun d hd => .inr (hdeps d hd)⟩
  have hversion : (Problem.ofKernel problem).version = ruliadIrVersion := hproblem.version
  have hroot : (Problem.ofKernel problem).root < problem.goals.length := hproblem.root_lt
  simp only [checkCertificate, requiredGoals_eq hproblem, hne, hgoals, hlength, hversion, hroot,
    Bool.and_eq_true, beq_iff_eq, decide_true, Bool.not_false, and_true, true_and, hsequence,
    and_assoc]
  refine and_congr_right fun _ => ?_
  constructor
  · rintro ⟨hmap, hdischarged⟩
    refine ⟨hmap, fun node hnode => ?_⟩
    obtain ⟨goal, node', hgoal, hfind, hreplays⟩ :=
      hdischarged node.goal (hmap ▸ mem_map_of_mem hnode)
    have hnodup : (certificate.goals.map (·.goal)).Nodup :=
      hmap ▸ RuliadProofProblem.pairwise_requiredGoalIndices.imp ne_of_lt
    obtain rfl : node' = node := inj_on_of_nodup_map hnodup
      (mem_of_find?_eq_some hfind) hnode (by simpa using find?_some hfind)
    exact ⟨goal, hgoal, hreplays⟩
  · rintro ⟨hmap, hsteps⟩
    refine ⟨hmap, fun i hi => ?_⟩
    obtain ⟨node, hnode, rfl⟩ := mem_map.1 (hmap ▸ hi)
    obtain ⟨node', hfind⟩ := Option.isSome_iff_exists.1
      (find?_isSome (p := fun n : RuliadGoalCertificate => n.goal == node.goal).2
        ⟨node, hnode, by simp⟩)
    obtain ⟨goal, hgoal, hreplays⟩ := hsteps node' (mem_of_find?_eq_some hfind)
    have hindex : node'.goal = node.goal := by simpa using find?_some hfind
    exact ⟨goal, node', hindex ▸ hgoal, hfind, hreplays⟩

/-- **The two checkers agree**: on a problem that validates and a certificate that carries its hash
and respects the limits, the kernel accepts exactly when the seed checker returns true. -/
theorem accepts_iff_checkCertificate {S : Serde}
    (hproblem : validateProblem S problem limits = .ok certificate.problemHash)
    (hsteps : certificate.stepCount ≤ limits.maximumSteps)
    (hpaths : ∀ node ∈ certificate.goals, ∀ step ∈ node.steps,
      step.path.length ≤ limits.maximumPathDepth) :
    Accepts S problem certificate limits ↔
      checkCertificate (.ofKernel problem) (.ofKernel certificate) = true := by
  obtain ⟨hvalid, hhash⟩ := validateProblem_eq_ok_iff.1 hproblem
  rw [accepts_iff, checkCertificate_iff hvalid]
  constructor
  · rintro ⟨-, hcertificate, hproves, -⟩
    exact ⟨hcertificate.version, hproves⟩
  · rintro ⟨hversion, hproves⟩
    have hsorted : (certificate.goals.map (·.goal)).Pairwise (· < ·) :=
      hproves.goals ▸ RuliadProofProblem.pairwise_requiredGoalIndices
    exact ⟨hvalid, ⟨hversion, hhash, hsteps, hsorted, fun i hi => hproves.goals ▸ hi⟩, hproves,
      hpaths⟩

/-- Both checkers accept the certificate of the unit problem. -/
theorem accepts_iff_checkCertificate_unitProblem :
    Accepts (.ofDigest unitDigest) unitProblem unitCertificate .default ↔
      checkCertificate (.ofKernel unitProblem) (.ofKernel unitCertificate) = true :=
  accepts_iff_checkCertificate rfl (by decide) (by decide)

end Agreement

end BurnDragon.RuliadSeed
