import BurnDragon.Ruliad.Policy

/-!
# The menu of an oracle transition

The menu in which a step of a certificate is preferred. When the step changes the term, the menu
selects it (`exists_menu_of_preferred`); when it does not, the step is filtered out with the other
candidates that stay at the term (`menu_of_idle`).
-/

namespace BurnDragon.Ruliad

open Equational Rust List RuliadGoalTransitionKernel Option

theorem dedupAfter_prefix {α : Type} [DecidableEq α] (kept items : List α) :
    kept <+: dedupAfter kept items := by
  induction items generalizing kept with
  | nil => exact prefix_rfl
  | cons item items ih =>
    rw [dedupAfter]
    split_ifs
    · exact ih kept
    · exact (prefix_append kept [item]).trans (ih _)

section Menu

variable {S : Serde} {problem : RuliadProofProblem} {transition : RuliadGoalTransitionKernel}
  {goal maximumCandidates : ℕ} {current target next : RuliadTerm} {preferred : RuliadProofStep}
  {seed : UInt64} {localSteps : List RuliadProofStep}

/-- A preferred step is tried first. -/
theorem exists_enumerateSteps (problem : RuliadProofProblem) (goalSpec : RuliadProofGoal)
    (current target : RuliadTerm) (preferred : RuliadProofStep) :
    ∃ steps, enumerateSteps problem goalSpec current target (some preferred) = preferred :: steps := by
  have hprefix : [preferred] <+: enumerateSteps problem goalSpec current target (some preferred) := by
    simp only [enumerateSteps, dedupPreservingOrder, toList_some, singleton_append]
    rw [dedupAfter, if_neg (by simp)]
    exact dedupAfter_prefix _ _
  obtain ⟨steps, hsteps⟩ := hprefix
  exact ⟨steps, hsteps.symm⟩

theorem mem_shuffleSteps (preferred : RuliadProofStep) (steps : List RuliadProofStep)
    (seed : UInt64) : preferred ∈ shuffleSteps (some preferred) seed (preferred :: steps) := by
  rw [shuffleSteps]
  split_ifs
  · simp
  · rw [(deterministicShuffle_perm _ _).mem_iff]
    simp

theorem mem_enumerateActionCandidates {goalSpec : RuliadProofGoal}
    (hgoal : problem.goals[goal]? = some goalSpec) :
    transition.candidate current target preferred ∈ enumerateActionCandidates problem transition goal
      current target (some preferred) seed := by
  obtain ⟨steps, hsteps⟩ := exists_enumerateSteps problem goalSpec current target preferred
  rw [enumerateActionCandidates, hgoal]
  refine mem_map_of_mem ?_
  rw [hsteps]
  exact mem_shuffleSteps preferred steps seed

/-- The selection keeps a candidate with the preferred step. -/
theorem exists_mem_selectHardCandidateSubset (maximumCandidates : ℕ) (seed : UInt64)
    {candidates : List RuliadProofActionCandidate} (h : ∃ c ∈ candidates, c.step = preferred) :
    ∃ c ∈ selectHardCandidateSubset candidates (some preferred) maximumCandidates seed,
      c.step = preferred := by
  obtain ⟨i, hi⟩ : ∃ i, candidates.findIdx? (fun candidate => candidate.step = preferred) = some i := by
    rw [← isSome_iff_exists, findIdx?_isSome]
    simpa using h
  obtain ⟨hlt, hstep, -⟩ := findIdx?_eq_some_iff_getElem.1 hi
  have hstep : candidates[i].step = preferred := by simpa using hstep
  refine ⟨candidates[i], ?_, hstep⟩
  simp only [selectHardCandidateSubset, (deterministicShuffle_perm _ _).mem_iff, bind_some, hi,
    getElem?_eq_getElem hlt]
  exact subset_selectWhileRoom (subset_selectWhileRoom (by simp))

section

variable (hnew : RuliadGoalTransitionKernel.new S problem goal .default = .ok transition)
  (hreplay : transition.replayPrefix localSteps = .ok current)
include hnew hreplay

/-- **A preferred step that changes the term is selected.** -/
theorem exists_menu_of_preferred (happly : transition.apply current preferred = .ok next)
    (hne : next ≠ current) :
    ∃ actions, proofActionSetForState S problem goal localSteps (some preferred) maximumCandidates
        seed none = .ok actions ∧ actions.goal = goal ∧ actions.target = transition.target ∧
      ∃ c, actions.candidates[actions.selectedIndex]? = some c ∧ c.step = preferred ∧
        c.outcome = some next := by
  obtain ⟨-, -, goalSpec, hgoal, -⟩ := new_eq_ok_iff.1 hnew
  simp only [proofActionSetForState, hnew, hreplay, Except.mapError, bind, Except.bind]
  set all := (enumerateActionCandidates problem transition goal current transition.target
    (some preferred) seed).filter fun candidate => candidate.outcome.any fun outcome =>
      decide (outcome ≠ current) && (none : Option (List String)).all fun excluded =>
        !excluded.contains (proofStateKey goal outcome) with hall
  -- a candidate with the preferred step has its outcome
  have houtcome : ∀ c ∈ all, c.step = preferred → c.outcome = some next := by
    rintro c hc rfl
    obtain ⟨step, rfl⟩ := enumerateActionCandidates_subset (mem_filter.1 hc).1
    simp only [candidate] at happly ⊢
    rw [happly]
    rfl
  have hmem : transition.candidate current transition.target preferred ∈ all := by
    refine mem_filter.2 ⟨mem_enumerateActionCandidates hgoal, ?_⟩
    simp [candidate, happly, Except.toOption, hne]
  have hpreferred : ∃ c ∈ all, c.step = preferred := ⟨_, hmem, rfl⟩
  obtain ⟨c, hc, hstep⟩ := exists_mem_selectHardCandidateSubset maximumCandidates seed hpreferred
  set selected := selectHardCandidateSubset all (some preferred) maximumCandidates seed
    with hselected
  obtain ⟨i, hi⟩ : ∃ i, selected.findIdx? (fun candidate => candidate.step = preferred) = some i := by
    rw [← isSome_iff_exists, findIdx?_isSome]
    simpa using ⟨c, hc, hstep⟩
  obtain ⟨hlt, hstep', -⟩ := findIdx?_eq_some_iff_getElem.1 hi
  have hstep' : selected[i].step = preferred := by simpa using hstep'
  have hout : selected[i].outcome = some next :=
    houtcome _ (selectHardCandidateSubset_subset (getElem_mem hlt)) hstep'
  -- the first candidate with the preferred step has an outcome, so the menu is made
  obtain ⟨first, hfirst⟩ : ∃ first, all.find? (fun candidate => candidate.step = preferred) =
      some first := by
    rw [← isSome_iff_exists, find?_isSome]
    simpa using hpreferred
  have hfirstOut : first.outcome = some next :=
    houtcome first (mem_of_find?_eq_some hfirst) (by simpa using find?_some hfirst)
  have hne' : all ≠ [] := ne_nil_of_mem hmem
  simp only [if_neg hne', bind_some, hfirst, hfirstOut, hi, getD_some,
    okOr, pure, Except.pure]
  exact ⟨_, rfl, rfl, rfl, _, getElem?_eq_getElem hlt, hstep', hout⟩

/-- **A preferred step that does not change the term is not in the menu**, and no candidate is that
stays at the term. -/
theorem menu_of_idle {actions : RuliadProofActionSet}
    (happly : transition.apply current preferred = .ok current)
    (h : proofActionSetForState S problem goal localSteps (some preferred) maximumCandidates seed
      none = .ok actions) :
    ∀ c ∈ actions.candidates, c.step ≠ preferred ∧ c.outcome ≠ some current := by
  simp only [proofActionSetForState, bind_eq_ok, throw_bind, ite_error_eq_ok, mapError_eq_ok,
    okOr_eq_ok, pure, Except.pure, Except.ok.injEq] at h
  obtain ⟨transition', hnew', current', hreplay', -, selected, -, rfl⟩ := h
  obtain rfl := Except.ok.inj (hnew.symm.trans hnew')
  obtain rfl := Except.ok.inj (hreplay.symm.trans hreplay')
  intro c hc
  obtain ⟨hmem, houtcome⟩ := mem_filter.1 (selectHardCandidateSubset_subset hc)
  obtain ⟨step, rfl⟩ := enumerateActionCandidates_subset hmem
  simp only [candidate] at houtcome ⊢
  cases hstep : transition.apply current step with
  | error failure => simp [hstep, Except.toOption] at houtcome
  | ok outcome =>
    have hne : outcome ≠ current := by simpa [hstep, Except.toOption] using houtcome
    refine ⟨fun heq => hne ?_, by simpa [Except.toOption] using hne⟩
    subst heq
    exact Except.ok.inj (hstep.symm.trans happly)

end

end Menu

end BurnDragon.Ruliad
