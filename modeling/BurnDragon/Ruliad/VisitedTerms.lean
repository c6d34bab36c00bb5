import BurnDragon.Ruliad.StateKey
import BurnDragon.Transition.Run

/-!
# Terms that a policy has entered

A policy rewrites the current term or undoes a step (`PolicyStep`), in any order. Menus leave out the
terms whose keys are in `visited`, which `backtrack` keeps, so a term is entered at most once in the
work on a goal. The left side of the goal is not in `visited`, though: a step that undoes the first
rewrite leads back to it (`searchesOnce_iff`).
-/

namespace BurnDragon.Ruliad

open Equational Rust List

/-- An action that changes the state of a policy. -/
inductive SearchAction
  | rewrite (goal : ℕ) (step : RuliadProofStep) (outcome : RuliadTerm)
  | backtrack (goal : ℕ)
  deriving DecidableEq

/-- The action as an event of a rollout. -/
def SearchAction.event : SearchAction → RolloutEvent
  | .rewrite goal step _ => .action goal step
  | .backtrack goal => .backtrack goal

/-- The policy takes a candidate of a menu of its state, of any size, or undoes a step. -/
inductive PolicyStep (S : Serde) (problem : RuliadProofProblem) :
    RuliadProofPolicyState → Option SearchAction → RuliadProofPolicyState → Prop
  | rewrite {state next : RuliadProofPolicyState} {maximumCandidates index : ℕ} {repeated : Bool}
    {actions : RuliadProofActionSet} {candidate : RuliadProofActionCandidate} {outcome : RuliadTerm}
    (hactions : state.actionSet S problem maximumCandidates = .ok actions)
    (hcandidate : actions.candidates[index]? = some candidate)
    (houtcome : candidate.outcome = some outcome)
    (happly : state.apply actions index = .ok (repeated, next)) :
    PolicyStep S problem state (some (.rewrite actions.goal candidate.step outcome)) next
  | backtrack {state next : RuliadProofPolicyState} {goal : ℕ}
    (hgoal : state.goalOrder[state.goalCursor]? = some goal)
    (hback : state.backtrack = some next) :
    PolicyStep S problem state (some (.backtrack goal)) next

/-- A sequence of actions from the initial state of the problem. -/
abbrev SearchRun (S : Serde) (problem : RuliadProofProblem) (actions : List SearchAction)
    (state : RuliadProofPolicyState) : Prop :=
  Transition.Run (PolicyStep S problem) (.new problem) actions state

/-- The terms entered by the rewrites of a goal, in order. -/
def enteredTerms (goal : ℕ) (actions : List SearchAction) : List RuliadTerm :=
  actions.filterMap fun
    | .rewrite g _ outcome => if g = goal then some outcome else none
    | .backtrack _ => none

/-- No rewrite of a goal enters its left side or a term that another one entered, and there are at
most as many rewrites as reachable terms. -/
def SearchesOnce (problem : RuliadProofProblem) (actions : List SearchAction) : Prop :=
  ∀ index goal, problem.goals[index]? = some goal →
    goal.claim.lhs ∉ enteredTerms index actions ∧ (enteredTerms index actions).Nodup ∧
    (enteredTerms index actions).length ≤
      Set.encard {t | Reached problem .default index goal t}

/-- The action is not a rewrite to the left side of its goal. -/
def SearchAction.LeavesInitial (problem : RuliadProofProblem) : SearchAction → Prop
  | .rewrite index _ outcome => ∀ goal, problem.goals[index]? = some goal → outcome ≠ goal.claim.lhs
  | .backtrack _ => True

variable {actions : List SearchAction}

section Entered

variable {index : ℕ} {step : RuliadProofStep} {t : RuliadTerm}

theorem mem_enteredTerms :
    t ∈ enteredTerms index actions ↔ ∃ step, .rewrite index step t ∈ actions := by
  rw [enteredTerms, mem_filterMap]
  constructor
  · rintro ⟨_ | _, hmem, hsome⟩
    · obtain ⟨rfl, houtcome⟩ := Option.ite_none_right_eq_some.1 hsome
      obtain rfl := Option.some.inj houtcome
      exact ⟨_, hmem⟩
    · cases hsome
  · rintro ⟨step, hmem⟩
    exact ⟨_, hmem, if_pos rfl⟩

theorem enteredTerms_rewrite (goal : ℕ) : enteredTerms goal (actions ++ [.rewrite index step t]) =
    if index = goal then enteredTerms goal actions ++ [t] else enteredTerms goal actions := by
  rw [enteredTerms, filterMap_append]
  split_ifs with h <;> simp [h, enteredTerms]

theorem enteredTerms_backtrack (goal : ℕ) :
    enteredTerms goal (actions ++ [.backtrack index]) = enteredTerms goal actions := by
  simp [enteredTerms, filterMap_append]

end Entered

/-! ## The invariant -/

/-- The visited keys contain those of the terms entered in the work on the goal at the cursor. -/
structure VisitedInvariant (problem : RuliadProofProblem) (actions : List SearchAction)
    (state : RuliadProofPolicyState) : Prop where
  goalOrder : state.goalOrder = problem.requiredGoalIndices
  visited : ∀ index, state.goalOrder[state.goalCursor]? = some index →
    ∀ t ∈ enteredTerms index actions, proofStateKey index t ∈ state.visited
  later : ∀ i > state.goalCursor, ∀ index, state.goalOrder[i]? = some index →
    enteredTerms index actions = []
  nodup : ∀ index, (enteredTerms index actions).Nodup
  reached : ∀ index goal, problem.goals[index]? = some goal → ∀ t ∈ enteredTerms index actions,
    Reached problem .default index goal t

variable {S : Serde} {problem : RuliadProofProblem} {state : RuliadProofPolicyState}

section Invariant

variable {goal maximumCandidates : ℕ} {localSteps : List RuliadProofStep}
  {preferredStep : Option RuliadProofStep} {seed : UInt64} {menu : RuliadProofActionSet}
  {next : RuliadProofPolicyState}

/-- A menu offers no term with an excluded key. -/
theorem not_mem_excluded {excluded : List String} {candidate : RuliadProofActionCandidate}
    {outcome : RuliadTerm}
    (h : proofActionSetForState S problem goal localSteps preferredStep maximumCandidates seed
      (some excluded) = .ok menu)
    (hmem : candidate ∈ menu.candidates) (houtcome : candidate.outcome = some outcome) :
    proofStateKey goal outcome ∉ excluded := by
  simp only [proofActionSetForState, bind_eq_ok, throw_bind, ite_error_eq_ok, mapError_eq_ok,
    okOr_eq_ok, pure, Except.pure, Except.ok.injEq] at h
  obtain ⟨transition, -, current, -, -, selected, -, rfl⟩ := h
  have hallowed := (mem_filter.1 (selectHardCandidateSubset_subset hmem)).2
  simp only [houtcome, Option.any_some, Option.all_some, Bool.and_eq_true, Bool.not_eq_true',
    contains_eq_mem, decide_eq_false_iff_not] at hallowed
  exact hallowed.2

theorem VisitedInvariant.new (problem : RuliadProofProblem) :
    VisitedInvariant problem [] (.new problem) where
  goalOrder := rfl
  visited _ _ _ h := by cases h
  later _ _ _ _ := rfl
  nodup _ := .nil
  reached _ _ _ _ h := by cases h

/-- Undoing a step keeps the visited keys. -/
theorem VisitedInvariant.backtrack (h : VisitedInvariant problem actions state)
    (hback : state.backtrack = some next) :
    VisitedInvariant problem (actions ++ [.backtrack goal]) next := by
  obtain ⟨-, hnext⟩ := Option.ite_none_left_eq_some.1 hback
  obtain rfl := Option.some.inj hnext
  refine ⟨h.goalOrder, ?_, ?_, ?_, ?_⟩ <;> simp only [enteredTerms_backtrack]
  · exact h.visited
  · exact h.later
  · exact h.nodup
  · exact h.reached

/-- A rewrite enters a term that was not entered before. -/
theorem VisitedInvariant.rewrite (h : VisitedInvariant problem actions state) {index : ℕ}
    {repeated : Bool} {candidate : RuliadProofActionCandidate} {outcome : RuliadTerm}
    (hmenu : state.actionSet S problem maximumCandidates = .ok menu)
    (hcandidate : menu.candidates[index]? = some candidate)
    (houtcome : candidate.outcome = some outcome)
    (happly : state.apply menu index = .ok (repeated, next)) :
    VisitedInvariant problem (actions ++ [.rewrite menu.goal candidate.step outcome]) next := by
  simp only [RuliadProofPolicyState.actionSet, bind_eq_ok, okOr_eq_ok] at hmenu
  obtain ⟨g, hg, hash, -, hmenu⟩ := hmenu
  have hmem := mem_of_getElem? hcandidate
  have hfresh := not_mem_excluded hmenu hmem houtcome
  obtain ⟨transition, hspec⟩ := proofActionSetForState_spec hmenu
  obtain ⟨hvalid, -, goal, hgoal, hkernel⟩ := RuliadGoalTransitionKernel.new_eq_ok_iff.1 hspec.new
  obtain rfl := hspec.goal_eq
  simp only [RuliadProofPolicyState.apply, bind_eq_ok, throw_bind, ite_error_eq_ok, okOr_eq_ok]
    at happly
  obtain ⟨_, hg', -, _, hcandidate', _, houtcome', happly⟩ := happly
  obtain rfl := Option.some.inj (hg.symm.trans hg')
  obtain rfl := Option.some.inj (hcandidate.symm.trans hcandidate')
  obtain rfl := Option.some.inj (houtcome.symm.trans houtcome')
  have hnotMem : outcome ∉ enteredTerms menu.goal actions := fun hentered =>
    hfresh (h.visited _ hg outcome hentered)
  have hreached : Reached problem .default menu.goal goal outcome := by
    obtain ⟨outcome', hsome, hstep⟩ := hspec.outcome candidate hmem
    obtain rfl := Option.some.inj (houtcome.symm.trans hsome)
    have hreplay := hspec.replay
    rw [RuliadGoalTransitionKernel.replayPrefix, ite_error_eq_ok] at hreplay
    have hcurrent := reached_of_replayFrom hspec.new .initial hreplay.2
    subst hkernel
    exact .step _ hcurrent hstep
  have hnodup : ∀ i, (enteredTerms i (actions ++ [.rewrite menu.goal candidate.step outcome])).Nodup :=
    fun i => by
      rw [enteredTerms_rewrite]
      split_ifs with hi
      · subst hi
        rw [← concat_eq_append]
        exact (h.nodup _).concat hnotMem
      · exact h.nodup i
  have hall : ∀ i spec, problem.goals[i]? = some spec →
      ∀ t ∈ enteredTerms i (actions ++ [.rewrite menu.goal candidate.step outcome]),
        Reached problem .default i spec t := fun i spec hspec t ht => by
    rw [enteredTerms_rewrite] at ht
    split_ifs at ht with hi
    · subst hi
      obtain rfl := Option.some.inj (hgoal.symm.trans hspec)
      rcases mem_append.1 ht with ht | ht
      · exact h.reached _ _ hspec t ht
      · exact mem_singleton.1 ht ▸ hreached
    · exact h.reached i spec hspec t ht
  have hnodupOrder : state.goalOrder.Nodup :=
    h.goalOrder ▸ RuliadProofProblem.pairwise_requiredGoalIndices.imp ne_of_lt
  have hne : ∀ i > state.goalCursor, ∀ j, state.goalOrder[i]? = some j → menu.goal ≠ j := by
    rintro i hi j hj rfl
    have hlt := (List.getElem?_eq_some_iff.1 hj).1
    exact hi.ne' ((getElem?_inj hlt hnodupOrder).1 (hj.trans hg.symm))
  split_ifs at happly with htarget
  · obtain ⟨-, rfl⟩ : _ ∧ _ = next := by simpa [pure, Except.pure] using happly
    simp only [hvalid.saturatingAdd_goalCursor h.goalOrder hg]
    refine ⟨h.goalOrder, fun j hj t ht => ?_, fun i hi j hj => ?_, hnodup, hall⟩
    · -- the next goal has no entered terms yet
      rw [enteredTerms_rewrite, if_neg (hne _ (Nat.lt_succ_self _) j hj),
        h.later _ (Nat.lt_succ_self _) j hj] at ht
      cases ht
    · rw [enteredTerms_rewrite, if_neg (hne i (Nat.lt_of_succ_lt hi) j hj)]
      exact h.later i (Nat.lt_of_succ_lt hi) j hj
  · obtain ⟨-, rfl⟩ : _ ∧ _ = next := by simpa [pure, Except.pure] using happly
    refine ⟨h.goalOrder, fun j hj t ht => ?_, fun i hi j hj => ?_, hnodup, hall⟩
    · obtain rfl := Option.some.inj (hg.symm.trans hj)
      rw [enteredTerms_rewrite, if_pos rfl] at ht
      rcases mem_append.1 ht with ht | ht
      · exact mem_insertSorted.2 (.inr (h.visited _ hg t ht))
      · exact mem_insertSorted.2 (.inl (by rw [mem_singleton.1 ht]))
    · rw [enteredTerms_rewrite, if_neg (hne i hi j hj)]
      exact h.later i hi j hj

/-- Every run keeps the invariant. -/
theorem SearchRun.visitedInvariant (h : SearchRun S problem actions state) :
    VisitedInvariant problem actions state := by
  refine h.induct (.new problem) fun actions t e next _ ht hstep => ?_
  cases hstep with
  | rewrite hactions hcandidate houtcome happly =>
    exact ht.rewrite hactions hcandidate houtcome happly
  | backtrack hgoal hback => exact ht.backtrack hback

end Invariant

/-! ## Runs -/

section Runs

/-- What a run enters, it enters once, and never more than there is. -/
theorem SearchRun.length_enteredTerms_le (h : SearchRun S problem actions state) {index : ℕ}
    {goal : RuliadProofGoal} (hgoal : problem.goals[index]? = some goal) :
    (enteredTerms index actions).length ≤
      Set.encard {t | Reached problem .default index goal t} := by
  have hinvariant := h.visitedInvariant
  have hcard : Set.encard {t | t ∈ enteredTerms index actions} = (enteredTerms index actions).length := by
    rw [← coe_toFinset, Set.encard_coe_eq_coe_finsetCard,
      toFinset_card_of_nodup (hinvariant.nodup index)]
  rw [← hcard]
  exact Set.encard_le_encard fun t ht => hinvariant.reached index goal hgoal t ht

/-- A run searches once when none of its rewrites leads back to the left side of its goal. -/
theorem SearchRun.searchesOnce_iff_leavesInitial (h : SearchRun S problem actions state) :
    SearchesOnce problem actions ↔ ∀ action ∈ actions, action.LeavesInitial problem := by
  constructor
  · rintro honce (⟨index, step, outcome⟩ | goal) hmem
    · rintro goal hgoal rfl
      exact (honce index goal hgoal).1 (mem_enteredTerms.2 ⟨step, hmem⟩)
    · trivial
  · refine fun hleaves index goal hgoal => ⟨fun hentered => ?_, h.visitedInvariant.nodup index,
      h.length_enteredTerms_le hgoal⟩
    obtain ⟨step, hmem⟩ := mem_enteredTerms.1 hentered
    exact hleaves _ hmem goal hgoal rfl

/-- A policy can take every candidate of its menu that has an outcome. -/
theorem exists_apply {n index : ℕ} {menu : RuliadProofActionSet}
    {candidate : RuliadProofActionCandidate} {outcome : RuliadTerm}
    (hmenu : state.actionSet S problem n = .ok menu)
    (hcandidate : menu.candidates[index]? = some candidate)
    (houtcome : candidate.outcome = some outcome) :
    ∃ repeated next, state.apply menu index = .ok (repeated, next) := by
  simp only [RuliadProofPolicyState.actionSet, bind_eq_ok, okOr_eq_ok] at hmenu
  obtain ⟨g, hg, hash, -, hmenu⟩ := hmenu
  obtain ⟨transition, hspec⟩ := proofActionSetForState_spec hmenu
  obtain rfl := hspec.goal_eq
  simp only [RuliadProofPolicyState.apply, hg, hcandidate, houtcome, okOr, bind, Except.bind, ne_eq,
    not_true_eq_false, if_false]
  split_ifs
  · exact ⟨_, _, rfl⟩
  · exact ⟨_, _, rfl⟩

/-- Taking a candidate, as a function. -/
def takeCandidate (S : Serde) (problem : RuliadProofProblem) (maximumCandidates index : ℕ)
    (state : RuliadProofPolicyState) : Option (SearchAction × RuliadProofPolicyState) := do
  let menu ← (state.actionSet S problem maximumCandidates).toOption
  let candidate ← menu.candidates[index]?
  let outcome ← candidate.outcome
  let (_, next) ← (state.apply menu index).toOption
  return (.rewrite menu.goal candidate.step outcome, next)

theorem policyStep_of_takeCandidate {n index : ℕ} {action : SearchAction}
    {next : RuliadProofPolicyState} (h : takeCandidate S problem n index state = some (action, next)) :
    PolicyStep S problem state (some action) next := by
  have hok : ∀ {α : Type} {x : Except String α} {a : α}, x.toOption = some a → x = .ok a :=
    fun {_ x a} hx => by cases x <;> simp_all [Except.toOption]
  simp only [takeCandidate, Option.bind_eq_bind, Option.bind_eq_some_iff, Option.pure_def,
    Option.some.injEq, Prod.mk.injEq, Prod.exists] at h
  obtain ⟨menu, hmenu, candidate, hcandidate, outcome, houtcome, _, _, happly, rfl, rfl⟩ := h
  replace hmenu := hok hmenu
  replace happly := hok happly
  exact .rewrite hmenu hcandidate houtcome happly

/-- No menu of the state offers the left side of its goal. -/
def OffersNoInitial (S : Serde) (problem : RuliadProofProblem) (state : RuliadProofPolicyState) :
    Prop :=
  ∀ n menu goal, state.actionSet S problem n = .ok menu → problem.goals[menu.goal]? = some goal →
    ∀ candidate ∈ menu.candidates, candidate.outcome ≠ some goal.claim.lhs

/-- All runs search once when the menus of the states they reach do not offer the left side. -/
theorem forall_searchesOnce_iff :
    (∀ actions state, SearchRun S problem actions state → SearchesOnce problem actions) ↔
      ∀ actions state, SearchRun S problem actions state → OffersNoInitial S problem state := by
  constructor
  · intro honce actions state hrun n menu goal hmenu hgoal candidate hcandidate houtcome
    -- Otherwise the policy can take the candidate.
    obtain ⟨index, hindex⟩ := getElem?_of_mem hcandidate
    obtain ⟨repeated, next, happly⟩ := exists_apply hmenu hindex houtcome
    have hnext : SearchRun S problem _ next := hrun.tail (.rewrite hmenu hindex houtcome happly)
    exact hnext.searchesOnce_iff_leavesInitial.1 (honce _ _ hnext) (.rewrite menu.goal candidate.step goal.claim.lhs)
      (by simp) goal hgoal rfl
  · intro hoffers actions state hrun
    refine hrun.searchesOnce_iff_leavesInitial.2 ?_
    refine hrun.induct (P := fun actions _ => ∀ action ∈ actions, action.LeavesInitial problem)
      (by simp) fun actions t e next ht hleaves hstep action hmem => ?_
    rcases mem_append.1 hmem with hmem | hmem
    · exact hleaves action hmem
    · cases hstep with
      | rewrite hactions hcandidate houtcome happly =>
        obtain rfl := mem_singleton.1 hmem
        rintro goal hgoal rfl
        exact hoffers _ _ ht _ _ goal hactions hgoal _ (mem_of_getElem? hcandidate) houtcome
      | backtrack hgoal hback =>
        obtain rfl := mem_singleton.1 hmem
        trivial

/-- The actions of a rollout are a run. -/
theorem rolloutLoop_searchRun {σ : Type} {maximumCandidates : ℕ}
    {select : σ → RuliadProofPolicyState → RuliadProofActionSet → Option ℕ × σ} (iterations : ℕ)
    (selector : σ) (report : RuliadProofRolloutReport) (events : List RolloutEvent)
    (h : SearchRun S problem actions state) :
    let result := rolloutLoop S problem maximumCandidates select iterations selector state report
      events
    ∃ more, SearchRun S problem (actions ++ more) result.1 ∧
      result.2.2 = events ++ more.map SearchAction.event := by
  induction iterations generalizing selector state report events actions with
  | zero => exact ⟨[], by simpa [rolloutLoop] using h, by simp [rolloutLoop]⟩
  | succ iterations ih =>
    have hstop : ∃ more, SearchRun S problem (actions ++ more) state ∧
        events = events ++ more.map SearchAction.event := ⟨[], by simpa using h, by simp⟩
    simp only [rolloutLoop]
    split
    · exact hstop
    · rename_i hsolved
      split
      · split
        · rename_i previous hback
          obtain ⟨goal, hgoal⟩ : ∃ goal, state.goalOrder[state.goalCursor]? = some goal :=
            ⟨_, getElem?_eq_getElem (by simpa [RuliadProofPolicyState.solved] using hsolved)⟩
          have hundone : state.undone = [(SearchAction.backtrack goal).event] := by
            rw [RuliadProofPolicyState.undone, hgoal]
            rfl
          obtain ⟨more, hrun, hevents⟩ := ih selector
            { report with backtracks := saturatingAdd report.backtracks 1 }
            (events ++ state.undone) (h.tail (.backtrack hgoal hback))
          refine ⟨.backtrack goal :: more, by simpa using hrun, hevents.trans ?_⟩
          rw [hundone, append_assoc, map_cons, singleton_append]
        · exact hstop
      · rename_i menu hmenu
        split
        · exact hstop
        · rename_i index selector' _
          split
          · rename_i repeated next happly
            have htaken := happly
            simp only [RuliadProofPolicyState.apply, bind_eq_ok, throw_bind, ite_error_eq_ok,
              okOr_eq_ok] at htaken
            obtain ⟨_, -, -, candidate, hcandidate, outcome, houtcome, -⟩ := htaken
            have hevent : menu.event index =
                [(SearchAction.rewrite menu.goal candidate.step outcome).event] := by
              rw [RuliadProofActionSet.event, hcandidate]
              rfl
            obtain ⟨more, hrun, hevents⟩ := ih selector'
              { report with
                steps := saturatingAdd report.steps 1
                validActions := saturatingAdd report.validActions 1
                repeatedStates := saturatingAdd report.repeatedStates repeated.toNat }
              (events ++ menu.event index) (h.tail (.rewrite hmenu hcandidate houtcome happly))
            refine ⟨.rewrite menu.goal candidate.step outcome :: more, by simpa using hrun,
              hevents.trans ?_⟩
            rw [hevent, append_assoc, map_cons, singleton_append]
          · exact hstop

end Runs

/-- **When a policy searches once**: a run does when no rewrite leads back to the left side of its
goal, all runs do when no menu offers it, and rollouts are runs. -/
theorem searchesOnce_iff (S : Serde) (problem : RuliadProofProblem) :
    (∀ actions state, SearchRun S problem actions state →
      (SearchesOnce problem actions ↔ ∀ action ∈ actions, action.LeavesInitial problem)) ∧
    ((∀ actions state, SearchRun S problem actions state → SearchesOnce problem actions) ↔
      ∀ actions state, SearchRun S problem actions state → OffersNoInitial S problem state) ∧
    ∀ (σ : Type) (select : σ → RuliadProofPolicyState → RuliadProofActionSet → Option ℕ × σ)
      (maximumCandidates maximumSteps : ℕ) (selector : σ), ∃ actions,
      SearchRun S problem actions
        (rolloutRun S problem maximumCandidates select maximumSteps selector).1 ∧
      rolloutEvents S problem maximumCandidates select maximumSteps selector =
        actions.map SearchAction.event := by
  refine ⟨fun _ _ h => h.searchesOnce_iff_leavesInitial, forall_searchesOnce_iff,
    fun σ select maximumCandidates maximumSteps selector => ?_⟩
  obtain ⟨more, hrun, hevents⟩ := rolloutLoop_searchRun maximumSteps selector _ [] .refl
  exact ⟨more, hrun, hevents⟩

/-- A policy for the unit problem applies a law from right to left and then from left to right. -/
theorem not_searchesOnce_unitProblem :
    ¬ ∀ actions state, SearchRun (.ofDigest unitDigest) unitProblem actions state →
      SearchesOnce unitProblem actions := by
  intro honce
  have hreturns : ((takeCandidate (.ofDigest unitDigest) unitProblem 4 0 (.new unitProblem)).bind
      fun first => (takeCandidate (.ofDigest unitDigest) unitProblem 4 0 first.2).map fun second =>
        decide (Term.apply "compose" [.atom "id", .atom "a"] ∈
          enteredTerms 0 [first.1, second.1])) = some true := by decide +kernel
  obtain ⟨first, hfirst, hsecond⟩ := Option.bind_eq_some_iff.1 hreturns
  obtain ⟨second, hsecond, hentered⟩ := Option.map_eq_some_iff.1 hsecond
  have hrun : SearchRun (.ofDigest unitDigest) unitProblem [first.1, second.1] second.2 :=
    (Transition.Run.single (policyStep_of_takeCandidate hfirst)).tail
      (policyStep_of_takeCandidate hsecond)
  exact (honce _ _ hrun 0 _ rfl).1 (of_decide_eq_true hentered)

end BurnDragon.Ruliad
