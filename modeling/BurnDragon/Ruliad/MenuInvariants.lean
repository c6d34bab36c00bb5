import BurnDragon.Ruliad.OracleMenu
import BurnDragon.Ruliad.Rollout

/-!
# Invariants of action menus

Enumeration tries a step once, the filter keeps the candidates that move on, and the selection keeps
distinct steps up to the limit. What a menu is then (`MenuInvariants`) holds of the menus of oracle
transitions and of the menus that a policy is offered (`menus_invariant`).
-/

namespace BurnDragon.Ruliad

open Equational Rust List

/-- A menu of a goal's kernel. -/
structure MenuInvariants (transition : RuliadGoalTransitionKernel) (maximumCandidates : ℕ)
    (actions : RuliadProofActionSet) : Prop where
  distinct : (actions.candidates.map (·.step)).Nodup
  bounded : actions.candidates.length ≤ max 2 maximumCandidates
  outcomes : ∀ candidate ∈ actions.candidates, ∃ outcome, candidate.outcome = some outcome ∧
    transition.apply actions.current candidate.step = .ok outcome ∧ outcome ≠ actions.current
  selected : actions.selectedIndex < actions.candidates.length
  equivalent : ∀ i, i ∈ actions.equivalentIndices ↔
    ∃ candidate selected, actions.candidates[i]? = some candidate ∧
      actions.candidates[actions.selectedIndex]? = some selected ∧
      candidate.outcome = selected.outcome

/-! ## Enumeration -/

theorem nodup_dedupAfter {α : Type} [DecidableEq α] {kept : List α} (h : kept.Nodup)
    (items : List α) : (dedupAfter kept items).Nodup := by
  induction items generalizing kept with
  | nil => exact h
  | cons item items ih =>
    rw [dedupAfter]
    split_ifs with hmem
    · exact ih h
    · exact ih (by simpa using h.concat hmem)

theorem nodup_enumerateSteps (problem : RuliadProofProblem) (goalSpec : RuliadProofGoal)
    (current target : RuliadTerm) (preferredStep : Option RuliadProofStep) :
    (enumerateSteps problem goalSpec current target preferredStep).Nodup :=
  nodup_dedupAfter .nil _

theorem nodup_shuffleSteps {steps : List RuliadProofStep} (h : steps.Nodup)
    (preferredStep : Option RuliadProofStep) (seed : UInt64) :
    (shuffleSteps preferredStep seed steps).Nodup := by
  cases steps with
  | nil => exact (deterministicShuffle_perm _ _).nodup_iff.2 h
  | cons first tail =>
    rw [shuffleSteps]
    split_ifs
    · obtain ⟨hfirst, htail⟩ := nodup_cons.1 h
      have hperm := deterministicShuffle_perm tail (seed ^^^ 0xe7037ed1a0b428db)
      refine nodup_cons.2 ⟨fun hmem => hfirst ?_, ?_⟩
      · exact hperm.mem_iff.1 (mem_of_mem_take hmem)
      · exact (hperm.nodup_iff.2 htail).sublist (take_sublist _ _)
    · exact (deterministicShuffle_perm _ _).nodup_iff.2 h

/-- No step is tried twice. -/
theorem nodup_enumerateActionCandidates (problem : RuliadProofProblem)
    (transition : RuliadGoalTransitionKernel) (goal : ℕ) (current target : RuliadTerm)
    (preferredStep : Option RuliadProofStep) (seed : UInt64) :
    ((enumerateActionCandidates problem transition goal current target preferredStep seed).map
      (·.step)).Nodup := by
  rw [enumerateActionCandidates]
  cases problem.goals[goal]? with
  | none => exact .nil
  | some goalSpec =>
    rw [map_map, show (RuliadProofActionCandidate.step ∘ transition.candidate current target) = id
      from rfl, map_id]
    exact nodup_shuffleSteps (nodup_enumerateSteps ..) _ _

/-! ## Selection -/

variable {maximumCandidates : ℕ} {candidates : List RuliadProofActionCandidate}

section Selection

variable {allowed : List RuliadProofActionCandidate → RuliadProofActionCandidate → Bool}
  {selected : List RuliadProofActionCandidate}

/-- The candidates that are added are some of those offered, in their order. -/
theorem exists_selectWhileRoom_eq (maximumCandidates : ℕ)
    (allowed : List RuliadProofActionCandidate → RuliadProofActionCandidate → Bool)
    (selected candidates : List RuliadProofActionCandidate) :
    ∃ added, added.Sublist candidates ∧
      selectWhileRoom maximumCandidates allowed selected candidates = selected ++ added := by
  induction candidates generalizing selected with
  | nil => exact ⟨[], .slnil, (append_nil _).symm⟩
  | cons candidate candidates ih =>
    rw [selectWhileRoom]
    split_ifs
    · exact ⟨[], nil_sublist _, (append_nil _).symm⟩
    · obtain ⟨added, hsublist, heq⟩ := ih (selected ++ [candidate])
      exact ⟨candidate :: added, hsublist.cons_cons candidate, by rw [heq, append_assoc]; rfl⟩
    · obtain ⟨added, hsublist, heq⟩ := ih selected
      exact ⟨added, hsublist.cons candidate, heq⟩

theorem length_selectWhileRoom_le (h : selected.length ≤ maximumCandidates) :
    (selectWhileRoom maximumCandidates allowed selected candidates).length ≤ maximumCandidates := by
  induction candidates generalizing selected with
  | nil => exact h
  | cons candidate candidates ih =>
    rw [selectWhileRoom]
    split_ifs with hfull
    · exact h
    · exact ih (by rw [length_append, length_singleton]; omega)
    · exact ih h

/-- The pass that looks at the steps keeps them distinct. -/
theorem nodup_selectWhileRoom (h : (selected.map (·.step)).Nodup) :
    ((selectWhileRoom maximumCandidates
      (fun selected candidate => !selected.any fun existing => existing.step = candidate.step)
      selected candidates).map (·.step)).Nodup := by
  induction candidates generalizing selected with
  | nil => exact h
  | cons candidate candidates ih =>
    rw [selectWhileRoom]
    split_ifs with hfull hnew
    · exact h
    · refine ih ?_
      rw [map_append, map_singleton, ← concat_eq_append]
      exact h.concat (by simpa using hnew)
    · exact ih h

end Selection

variable {preferredStep : Option RuliadProofStep} {seed : UInt64}

section Subset

/-- The first pass adds some of the other candidates, in the order of a key. -/
theorem nodup_firstPass {κ : Type*} [LinearOrder κ] {key : RuliadProofActionCandidate → κ}
    {keep : RuliadProofActionCandidate → Bool} {front rest : List RuliadProofActionCandidate}
    (hperm : (front ++ rest).Perm candidates) (h : (candidates.map (·.step)).Nodup) :
    ((selectWhileRoom maximumCandidates (fun _ _ => true) front
      ((sortByKey key rest).filter keep)).map (·.step)).Nodup := by
  obtain ⟨added, hsublist, heq⟩ := exists_selectWhileRoom_eq maximumCandidates (fun _ _ => true)
    front ((sortByKey key rest).filter keep)
  have hall : ((front ++ sortByKey key rest).map (·.step)).Nodup :=
    ((((sortByKey_perm key rest).append_left front).trans hperm).map _).nodup_iff.2 h
  rw [heq]
  exact hall.sublist (((hsublist.trans filter_sublist).append_left _).map _)

theorem nodup_selectHardCandidateSubset (h : (candidates.map (·.step)).Nodup) :
    ((selectHardCandidateSubset candidates preferredStep maximumCandidates seed).map
      (·.step)).Nodup := by
  simp only [selectHardCandidateSubset]
  rw [((deterministicShuffle_perm _ _).map _).nodup_iff]
  refine nodup_selectWhileRoom ?_
  cases hindex : preferredStep.bind fun preferred =>
      candidates.findIdx? fun candidate => candidate.step = preferred with
  | none => exact nodup_firstPass (.refl candidates) h
  | some i =>
    obtain ⟨preferred, -, hfind⟩ := Option.bind_eq_some_iff.1 hindex
    have hi : i < candidates.length := (findIdx?_eq_some_iff_getElem.1 hfind).1
    simp only [Option.bind_some, getElem?_eq_getElem hi, Option.toList_some]
    exact nodup_firstPass (getElem_cons_eraseIdx_perm hi) h

theorem length_selectHardCandidateSubset_le (h : 1 ≤ maximumCandidates) :
    (selectHardCandidateSubset candidates preferredStep maximumCandidates seed).length ≤
      maximumCandidates := by
  simp only [selectHardCandidateSubset]
  rw [(deterministicShuffle_perm _ _).length_eq]
  refine length_selectWhileRoom_le (length_selectWhileRoom_le ?_)
  exact (Option.length_toList_le).trans h

/-- A pass over candidates, some of which it may add, selects something. -/
theorem selectWhileRoom_ne_nil {selected : List RuliadProofActionCandidate} (hroom : 1 ≤ maximumCandidates)
    (hne : selected ≠ [] ∨ candidates ≠ []) :
    selectWhileRoom maximumCandidates
      (fun selected candidate => !selected.any fun existing => existing.step = candidate.step)
      selected candidates ≠ [] := by
  rcases selected with _ | ⟨first, selected⟩
  · obtain ⟨candidate, candidates, rfl⟩ := exists_cons_of_ne_nil (hne.resolve_left (by simp))
    rw [selectWhileRoom, if_neg (by rw [length_nil]; omega), if_pos (by simp)]
    exact ne_nil_of_mem (subset_selectWhileRoom (mem_singleton_self candidate))
  · exact ne_nil_of_mem (subset_selectWhileRoom mem_cons_self)

theorem selectHardCandidateSubset_ne_nil (hne : candidates ≠ []) (hroom : 1 ≤ maximumCandidates) :
    selectHardCandidateSubset candidates preferredStep maximumCandidates seed ≠ [] := by
  simp only [selectHardCandidateSubset]
  rw [ne_eq, ← length_eq_zero_iff, (deterministicShuffle_perm _ _).length_eq, length_eq_zero_iff]
  refine selectWhileRoom_ne_nil hroom ?_
  cases hindex : preferredStep.bind fun preferred =>
      candidates.findIdx? fun candidate => candidate.step = preferred with
  | none =>
    refine .inr fun hnil => hne ?_
    rw [← length_eq_zero_iff, (sortByKey_perm _ _).length_eq, length_eq_zero_iff] at hnil
    exact hnil
  | some i =>
    obtain ⟨preferred, -, hfind⟩ := Option.bind_eq_some_iff.1 hindex
    have hi : i < candidates.length := (findIdx?_eq_some_iff_getElem.1 hfind).1
    refine .inl (ne_nil_of_mem (subset_selectWhileRoom (a := candidates[i]) ?_))
    simp [getElem?_eq_getElem hi]

end Subset

/-! ## Menus -/

/-- The nearest candidate is in the list. -/
theorem nearestIndex_lt (hne : candidates ≠ []) :
    nearestIndex candidates < candidates.length := by
  set distance := fun candidate : RuliadProofActionCandidate =>
    candidate.distanceToGoal.getD usizeMax with hdistance
  obtain ⟨nearest, hnearest⟩ : ∃ nearest, candidates.argmin distance = some nearest := by
    rw [← Option.isSome_iff_exists, ← Option.ne_none_iff_isSome, ne_eq, argmin_eq_none]
    exact hne
  refine findIdx_lt_length_of_exists ⟨nearest, argmin_mem hnearest, ?_⟩
  exact all_eq_true.2 fun other hother =>
    decide_eq_true (le_of_mem_argmin hother hnearest)

/-- The places at which a predicate holds, in order. -/
theorem mem_filterMap_zipIdx {α : Type*} {p : α → Prop} [DecidablePred p] {xs : List α} {i : ℕ} :
    (i ∈ xs.zipIdx.filterMap fun x => if p x.1 then some x.2 else none) ↔
      ∃ x, xs[i]? = some x ∧ p x := by
  simp only [mem_filterMap, Prod.exists, mem_zipIdx_iff_getElem?,
    Option.ite_none_right_eq_some, Option.some.injEq]
  constructor
  · rintro ⟨x, _, hx, hp, rfl⟩
    exact ⟨x, hx, hp⟩
  · rintro ⟨x, hx, hp⟩
    exact ⟨x, i, hx, hp, rfl⟩

section Menus

variable {S : Serde} {problem : RuliadProofProblem} {goal : ℕ} {localSteps : List RuliadProofStep}
  {excludedStateKeys : Option (List String)} {actions : RuliadProofActionSet}

/-- **Menus** of a state keep the invariants. -/
theorem proofActionSetForState_invariants
    (h : proofActionSetForState S problem goal localSteps preferredStep (max maximumCandidates 2) seed
      excludedStateKeys = .ok actions) :
    ∃ transition, MenuSpec S problem goal localSteps actions transition ∧
      MenuInvariants transition maximumCandidates actions := by
  obtain ⟨transition, hspec⟩ := proofActionSetForState_spec h
  refine ⟨transition, hspec, ?_⟩
  simp only [proofActionSetForState, bind_eq_ok, throw_bind, ite_error_eq_ok, mapError_eq_ok,
    okOr_eq_ok, pure, Except.pure, Except.ok.injEq] at h
  obtain ⟨transition', hnew', current, hreplay, hne, selectedOutcome, hselected, rfl⟩ := h
  obtain rfl := Except.ok.inj (hspec.new.symm.trans hnew')
  set all := (enumerateActionCandidates problem transition goal current transition.target
    preferredStep seed).filter fun candidate => candidate.outcome.any fun outcome =>
      decide (outcome ≠ current) && excludedStateKeys.all fun excluded =>
        !excluded.contains (proofStateKey goal outcome) with hall
  set candidates := selectHardCandidateSubset all preferredStep (max maximumCandidates 2) seed
    with hcandidates
  have hnodup : (all.map (·.step)).Nodup :=
    (nodup_enumerateActionCandidates ..).sublist (filter_sublist.map _)
  -- The outcome of a candidate is a function of its step.
  have hstep : ∀ c ∈ all, ∃ step, c = transition.candidate current transition.target step :=
    fun c hc => by
      obtain ⟨step, hstep⟩ := enumerateActionCandidates_subset (mem_filter.1 hc).1
      exact ⟨step, hstep.symm⟩
  have hmoves : ∀ c ∈ all, c.outcome ≠ some current := fun c hc hsame => by
    have := (mem_filter.1 hc).2
    simp [hsame] at this
  have hne' : candidates ≠ [] := selectHardCandidateSubset_ne_nil hne (by omega)
  have hlt : (preferredStep.bind fun preferred =>
      candidates.findIdx? fun candidate => candidate.step = preferred).getD
        (nearestIndex candidates) < candidates.length := by
    cases hindex : preferredStep.bind fun preferred =>
        candidates.findIdx? fun candidate => candidate.step = preferred with
    | none => exact nearestIndex_lt hne'
    | some i =>
      obtain ⟨preferred, -, hfind⟩ := Option.bind_eq_some_iff.1 hindex
      exact (findIdx?_eq_some_iff_getElem.1 hfind).1
  have houtcome : ∀ c, candidates[(preferredStep.bind fun preferred =>
      candidates.findIdx? fun candidate => candidate.step = preferred).getD
        (nearestIndex candidates)]? = some c → c.outcome = some selectedOutcome := by
    intro c hc
    rcases Option.or_eq_some_iff.1 hselected with hpreferred | ⟨-, hchosen⟩
    · -- The preferred step is a candidate, so it is selected.
      obtain ⟨preferred, rfl, hfind⟩ := Option.bind_eq_some_iff.1 hpreferred
      obtain ⟨first, hfirst, hsome⟩ := Option.bind_eq_some_iff.1 hfind
      have hmem : first ∈ all := mem_of_find?_eq_some hfirst
      have hfirstStep : first.step = preferred := by simpa using find?_some hfirst
      obtain ⟨kept, hkept, hkeptStep⟩ := exists_mem_selectHardCandidateSubset
        (max maximumCandidates 2) seed ⟨first, hmem, hfirstStep⟩
      obtain ⟨k, hk⟩ : ∃ k, candidates.findIdx? (fun candidate => candidate.step = preferred) =
          some k := by
        rw [← Option.isSome_iff_exists, findIdx?_isSome]
        simpa using ⟨kept, hkept, hkeptStep⟩
      obtain ⟨hk', hkStep, -⟩ := findIdx?_eq_some_iff_getElem.1 hk
      rw [Option.bind_some, hk, Option.getD_some] at hc
      obtain ⟨-, rfl⟩ := List.getElem?_eq_some_iff.1 hc
      obtain ⟨step, heq⟩ := hstep _ (selectHardCandidateSubset_subset (getElem_mem hk'))
      obtain ⟨step', rfl⟩ := hstep first hmem
      have hsteps : step = step' := by
        have hchosenStep : candidates[k].step = preferred := by simpa using hkStep
        rw [heq] at hchosenStep
        exact hchosenStep.trans hfirstStep.symm
      rw [heq, hsteps, hsome]
    · rw [hc, Option.bind_some] at hchosen
      exact hchosen
  refine ⟨nodup_selectHardCandidateSubset hnodup, ?_, ?_, hlt, fun i => ?_⟩
  · rw [max_comm]
    exact length_selectHardCandidateSubset_le (by omega)
  · intro c hc
    obtain ⟨outcome, hsome, happly⟩ := hspec.outcome c hc
    refine ⟨outcome, hsome, happly, ?_⟩
    rintro rfl
    exact hmoves c (selectHardCandidateSubset_subset hc) hsome
  · refine (mem_filterMap_zipIdx (p := fun c : RuliadProofActionCandidate =>
      c.outcome = some selectedOutcome)).trans ⟨?_, ?_⟩
    · rintro ⟨c, hc, hsome⟩
      refine ⟨c, _, hc, getElem?_eq_getElem hlt, ?_⟩
      rw [hsome, houtcome _ (getElem?_eq_getElem hlt)]
    · rintro ⟨c, chosen, hc, hchosen, hsame⟩
      exact ⟨c, hc, hsame.trans (houtcome chosen hchosen)⟩

/-- The menu of an oracle transition. -/
theorem oracleProofActionSet_invariants {certificate : RuliadProofCertificate} {stepIndex : ℕ}
    (h : oracleProofActionSet S problem certificate stepIndex maximumCandidates = .ok actions) :
    ∃ oracleStep transition, certificate.stepAt stepIndex = some (actions.goal, oracleStep) ∧
      RuliadGoalTransitionKernel.new S problem actions.goal .default = .ok transition ∧
      MenuInvariants transition maximumCandidates actions ∧
      ∀ outcome, transition.apply actions.current oracleStep = .ok outcome →
        outcome ≠ actions.current →
        ∃ selected, actions.candidates[actions.selectedIndex]? = some selected ∧
          selected.step = oracleStep := by
  simp only [oracleProofActionSet, bind_eq_ok, okOr_eq_ok] at h
  obtain ⟨before, -, ⟨goal, oracleStep⟩, hstep, hactions⟩ := h
  obtain ⟨transition, hspec, hinvariants⟩ := proofActionSetForState_invariants hactions
  obtain rfl := hspec.goal_eq
  refine ⟨oracleStep, transition, hstep, hspec.new, hinvariants, fun outcome happly hne => ?_⟩
  obtain ⟨actions', hactions', -, -, selected, hselected, hsame, -⟩ :=
    exists_menu_of_preferred hspec.new hspec.replay happly hne
  obtain rfl := Except.ok.inj (hactions.symm.trans hactions')
  exact ⟨selected, hselected, hsame⟩

/-- The menu that a policy is offered. -/
theorem actionSet_invariants {state : RuliadProofPolicyState}
    (h : state.actionSet S problem maximumCandidates = .ok actions) :
    ∃ transition, state.goalOrder[state.goalCursor]? = some actions.goal ∧
      MenuSpec S problem actions.goal state.localSteps actions transition ∧
      MenuInvariants transition maximumCandidates actions := by
  simp only [RuliadProofPolicyState.actionSet, bind_eq_ok, okOr_eq_ok] at h
  obtain ⟨goal, hgoal, hash, -, hactions⟩ := h
  obtain ⟨transition, hspec, hinvariants⟩ := proofActionSetForState_invariants hactions
  obtain rfl := hspec.goal_eq
  exact ⟨transition, hgoal, hspec, hinvariants⟩

end Menus

/-- **Menus keep their invariants**, those of oracle transitions and those offered to a policy, and an
oracle step that changes the term is selected. -/
theorem menus_invariant (S : Serde) (problem : RuliadProofProblem) (maximumCandidates : ℕ) :
    (∀ certificate stepIndex actions,
      oracleProofActionSet S problem certificate stepIndex maximumCandidates = .ok actions →
      ∃ oracleStep transition, certificate.stepAt stepIndex = some (actions.goal, oracleStep) ∧
        RuliadGoalTransitionKernel.new S problem actions.goal .default = .ok transition ∧
        MenuInvariants transition maximumCandidates actions ∧
        ∀ outcome, transition.apply actions.current oracleStep = .ok outcome →
          outcome ≠ actions.current →
          ∃ selected, actions.candidates[actions.selectedIndex]? = some selected ∧
            selected.step = oracleStep) ∧
    ∀ state actions,
      RuliadProofPolicyState.actionSet S problem state maximumCandidates = .ok actions →
      ∃ transition, state.goalOrder[state.goalCursor]? = some actions.goal ∧
        MenuSpec S problem actions.goal state.localSteps actions transition ∧
        MenuInvariants transition maximumCandidates actions :=
  ⟨fun _ _ _ => oracleProofActionSet_invariants, fun _ _ => actionSet_invariants⟩

/-- The menus of the unit problem. -/
theorem menus_invariant_unitProblem :
    (∃ actions oracleStep transition,
      oracleProofActionSet (.ofDigest unitDigest) unitProblem unitCertificate 0 4 = .ok actions ∧
      unitCertificate.stepAt 0 = some (actions.goal, oracleStep) ∧
      MenuInvariants transition 4 actions) ∧
    ∃ actions transition,
      (RuliadProofPolicyState.new unitProblem).actionSet (.ofDigest unitDigest) unitProblem 4 =
        .ok actions ∧
      MenuInvariants transition 4 actions := by
  have hmenus := menus_invariant (.ofDigest unitDigest) unitProblem 4
  have hok : ∀ {x : Except String RuliadProofActionSet}, x.isOk = true → ∃ actions, x = .ok actions :=
    fun {x} h => by cases x <;> simp_all [Except.isOk, Except.toBool]
  have horacle : (oracleProofActionSet (.ofDigest unitDigest) unitProblem unitCertificate 0 4).isOk =
      true := by decide +kernel
  have hoffered : ((RuliadProofPolicyState.new unitProblem).actionSet (.ofDigest unitDigest)
      unitProblem 4).isOk = true := by decide +kernel
  obtain ⟨actions, hactions⟩ := hok horacle
  obtain ⟨actions', hactions'⟩ := hok hoffered
  obtain ⟨oracleStep, transition, hstep, -, hinvariants, -⟩ := hmenus.1 _ _ _ hactions
  obtain ⟨transition', -, -, hinvariants'⟩ := hmenus.2 _ _ hactions'
  exact ⟨⟨actions, oracleStep, transition, hactions, hstep, hinvariants⟩,
    actions', transition', hactions', hinvariants'⟩

end BurnDragon.Ruliad
