import BurnDragon.Ruliad.Replay

/-!
# Action menus

The menu of proof actions of `policy.rs`. In a state of a goal the policy enumerates rewrite steps,
tries each on the current term, keeps those that lead to another term not visited before, and selects
a few of them. The same code makes the menu of an oracle transition, where one step is preferred.

`swap` in `deterministicShuffle` stays in range: `upper` is below the length and the other index at
most `upper`. The capacity that `select_hard_candidate_subset` reserves is not modelled.
-/

namespace BurnDragon.Ruliad

open Equational Rust

def defaultProofActionCandidates : ℕ := 4

def maxEnumeratedSources : ℕ := 8

def maxEnumeratedPaths : ℕ := 12

def maxTrialActions : ℕ := 64

structure RuliadProofActionCandidate where
  step : RuliadProofStep
  outcome : Option RuliadTerm
  distanceToGoal : Option ℕ
  deriving DecidableEq

structure RuliadProofActionSet where
  goal : ℕ
  current : RuliadTerm
  target : RuliadTerm
  candidates : List RuliadProofActionCandidate
  selectedIndex : ℕ
  equivalentIndices : List ℕ
  deriving DecidableEq

/-! ## Distances -/

mutual

def termNodeCount : RuliadTerm → ℕ
  | .var _ => 1
  | .atom _ => 1
  | .apply _ arguments => saturatingAdd 1 (termNodeCountSum arguments)

/-- The sum of `term_node_count` over the arguments. -/
def termNodeCountSum : List RuliadTerm → ℕ
  | [] => 0
  | t :: ts => termNodeCount t + termNodeCountSum ts

end

mutual

def ruliadTermDistance (left right : RuliadTerm) : ℕ :=
  if left = right then
    0
  else
    match left, right with
    | .apply leftOperator leftArguments, .apply rightOperator rightArguments =>
      if leftOperator = rightOperator then
        (leftArguments.length - rightArguments.length) +
          (rightArguments.length - leftArguments.length) +
          ruliadTermDistanceSum leftArguments rightArguments
      else
        saturatingAdd (termNodeCount left) (termNodeCount right)
    | _, _ => saturatingAdd (termNodeCount left) (termNodeCount right)

/-- The sum of the distances of the zipped arguments. -/
def ruliadTermDistanceSum : List RuliadTerm → List RuliadTerm → ℕ
  | left :: lefts, right :: rights =>
    ruliadTermDistance left right + ruliadTermDistanceSum lefts rights
  | _, _ => 0

end

/-! ## Action sets -/

namespace RuliadProofActionSet

/-- `is_equivalent_index`. -/
def isEquivalentIndex (actions : RuliadProofActionSet) (index : ℕ) : Bool :=
  actions.equivalentIndices.contains index

/-- `candidate_progress_ppm`. -/
def candidateProgressPpm (actions : RuliadProofActionSet) (index : ℕ) : ℕ :=
  match actions.candidates[index]? with
  | none => 0
  | some candidate =>
    if actions.isEquivalentIndex index || candidate.outcome = some actions.target then
      1000000
    else
      let currentDistance := ruliadTermDistance actions.current actions.target
      match candidate.distanceToGoal with
      | none => 0
      | some nextDistance =>
        if currentDistance = 0 then 0
        else saturatingMul (currentDistance - nextDistance) 1000000 / currentDistance

/-- `rotate_left`: the same actions presented from the given index on. -/
def rotateLeft (actions : RuliadProofActionSet) (rotation : ℕ) :
    Except String RuliadProofActionSet :=
  let candidateCount := actions.candidates.length
  if candidateCount = 0 ∨ actions.selectedIndex ≥ candidateCount then
    .error "cannot rotate an empty or invalid proof action set"
  else if actions.equivalentIndices.any fun index => index ≥ candidateCount then
    .error "cannot rotate a proof action set with an invalid equivalent index"
  else
    let rotation := rotation % candidateCount
    let remap := fun index => (index + candidateCount - rotation) % candidateCount
    .ok { actions with
      candidates := actions.candidates.rotateLeft rotation
      selectedIndex := remap actions.selectedIndex
      equivalentIndices := sortByKey id (actions.equivalentIndices.map remap) }

end RuliadProofActionSet

/-! ## Enumeration -/

mutual

/-- `first_difference_path`. -/
def firstDifferencePath : RuliadTerm → RuliadTerm → List ℕ
  | .apply currentOperator currentArguments, .apply targetOperator targetArguments =>
    if currentOperator ≠ targetOperator ∨ currentArguments.length ≠ targetArguments.length then
      []
    else
      firstDifferenceArguments 0 currentArguments targetArguments
  | _, _ => []

/-- The path to the first difference of the zipped arguments, from the given index on. -/
def firstDifferenceArguments (index : ℕ) : List RuliadTerm → List RuliadTerm → List ℕ
  | current :: currents, target :: targets =>
    if current ≠ target then
      index :: firstDifferencePath current target
    else
      firstDifferenceArguments (index + 1) currents targets
  | _, _ => []

end

mutual

/-- `collect_term_paths`: the output with the paths of the subterms added, up to the limit. -/
def collectTermPaths (path : List ℕ) (output : List (List ℕ)) (limit : ℕ) :
    RuliadTerm → List (List ℕ)
  | .var _ => if output.length ≥ limit then output else output ++ [path]
  | .atom _ => if output.length ≥ limit then output else output ++ [path]
  | .apply _ arguments =>
    if output.length ≥ limit then
      output
    else
      collectArgumentPaths path 0 (output ++ [path]) limit arguments

/-- The loop of `collect_term_paths` over the arguments from the given index on. -/
def collectArgumentPaths (path : List ℕ) (index : ℕ) (output : List (List ℕ)) (limit : ℕ) :
    List RuliadTerm → List (List ℕ)
  | [] => output
  | argument :: arguments =>
    if output.length ≥ limit then
      output
    else
      collectArgumentPaths path (index + 1)
        (collectTermPaths (path ++ [index]) output limit argument) limit arguments

end

/-- The loop of `dedup_preserving_order`, after the items already kept. -/
def dedupAfter {α : Type} [DecidableEq α] (kept : List α) : List α → List α
  | [] => kept
  | item :: items => if item ∈ kept then dedupAfter kept items else dedupAfter (kept ++ [item]) items

/-- `dedup_preserving_order`. -/
def dedupPreservingOrder {α : Type} [DecidableEq α] (items : List α) : List α :=
  dedupAfter [] items

/-- The loop of `deterministic_shuffle`, from the given upper index down to 1. -/
def shuffleFrom {α : Type} : ℕ → UInt64 → List α → List α
  | 0, _, items => items
  | upper + 1, state, items =>
    let state := state + 0x9e3779b97f4a7c15
    let mixed := (state ^^^ (state >>> 30)) * 0xbf58476d1ce4e5b9
    let mixed := (mixed ^^^ (mixed >>> 27)) * 0x94d049bb133111eb
    let mixed := mixed ^^^ (mixed >>> 31)
    shuffleFrom upper state (swap items (upper + 1) (mixed.toNat % (upper + 2)))

/-- `deterministic_shuffle`. -/
def deterministicShuffle {α : Type} (items : List α) (state : UInt64) : List α :=
  shuffleFrom (items.length - 1) state items

/-- `u64::rotate_left`. -/
def rotateLeft64 (value : UInt64) (amount : UInt64) : UInt64 :=
  (value <<< amount) ||| (value >>> (64 - amount))

/-- The bytes of a string, as words. -/
def bytes64 (text : String) : List UInt64 := text.toUTF8.data.toList.map UInt8.toUInt64

/-- `action_seed`. -/
def actionSeed (problemHash : String) (stepIndex : ℕ) : UInt64 :=
  (bytes64 problemHash).foldl (fun state byte => rotateLeft64 state 7 ^^^ byte)
    (UInt64.ofNat stepIndex ^^^ 0x9e3779b97f4a7c15)

/-- `action_sort_key`. -/
def actionSortKey (step : RuliadProofStep) (seed : UInt64) : UInt64 :=
  let source := match step.source with
    | .axiom_ id => (bytes64 id).foldl (fun acc byte => rotateLeft64 acc 5 ^^^ byte) 0
    | .lemma_ goal => UInt64.ofNat goal * 0x517cc1b727220a95
  let path := step.path.foldl (fun acc index => rotateLeft64 acc 9 ^^^ (UInt64.ofNat index + 1)) 0
  source ^^^ path ^^^ seed ^^^
    match step.direction with
    | .forward => 0
    | .reverse => 0xffffffffffffffff

/-- The steps that `enumerate_action_candidates` tries, before they are shuffled. -/
def enumerateSteps (problem : RuliadProofProblem) (goalSpec : RuliadProofGoal)
    (current target : RuliadTerm) (preferredStep : Option RuliadProofStep) :
    List RuliadProofStep :=
  let sources := (preferredStep.map (·.source)).toList ++
    goalSpec.dependencies.map RuliadProofSource.lemma_ ++
    problem.axioms.map fun rule => RuliadProofSource.axiom_ rule.id
  let sources := (dedupPreservingOrder sources).take maxEnumeratedSources
  let paths := (preferredStep.map (·.path)).toList ++ [firstDifferencePath current target]
  let paths := collectTermPaths [] paths maxEnumeratedPaths current
  let paths := (dedupPreservingOrder paths).take maxEnumeratedPaths
  let steps := sources.flatMap fun source =>
    [RuliadRewriteDirection.forward, .reverse].flatMap fun direction =>
      paths.map fun path => ⟨source, path, direction⟩
  dedupPreservingOrder (preferredStep.toList ++ steps)

/-- The order in which `enumerate_action_candidates` tries the steps: a preferred step stays in
front and at most `MAX_TRIAL_ACTIONS` steps are tried. -/
def shuffleSteps (preferredStep : Option RuliadProofStep) (seed : UInt64) :
    List RuliadProofStep → List RuliadProofStep
  | first :: tail =>
    if preferredStep.isSome ∧ tail ≠ [] then
      first :: (deterministicShuffle tail (seed ^^^ 0xe7037ed1a0b428db)).take (maxTrialActions - 1)
    else
      deterministicShuffle (first :: tail) (seed ^^^ 0xe7037ed1a0b428db)
  | [] => deterministicShuffle [] (seed ^^^ 0xe7037ed1a0b428db)

/-- A step with its outcome at the current term. -/
def RuliadGoalTransitionKernel.candidate (transition : RuliadGoalTransitionKernel)
    (current target : RuliadTerm) (step : RuliadProofStep) : RuliadProofActionCandidate :=
  let outcome := (transition.apply current step).toOption
  { step, outcome, distanceToGoal := outcome.map fun outcome => ruliadTermDistance outcome target }

/-- `enumerate_action_candidates`. -/
def enumerateActionCandidates (problem : RuliadProofProblem)
    (transition : RuliadGoalTransitionKernel) (goal : ℕ) (current target : RuliadTerm)
    (preferredStep : Option RuliadProofStep) (seed : UInt64) :
    List RuliadProofActionCandidate :=
  match problem.goals[goal]? with
  | none => []
  | some goalSpec =>
    (shuffleSteps preferredStep seed
      (enumerateSteps problem goalSpec current target preferredStep)).map
      (transition.candidate current target)

/-! ## Selection -/

/-- Add candidates to the selected ones while they pass the filter and there is room. -/
def selectWhileRoom (maximumCandidates : ℕ)
    (allowed : List RuliadProofActionCandidate → RuliadProofActionCandidate → Bool)
    (selected : List RuliadProofActionCandidate) :
    List RuliadProofActionCandidate → List RuliadProofActionCandidate
  | [] => selected
  | candidate :: candidates =>
    if selected.length ≥ maximumCandidates then
      selected
    else if allowed selected candidate then
      selectWhileRoom maximumCandidates allowed (selected ++ [candidate]) candidates
    else
      selectWhileRoom maximumCandidates allowed selected candidates

/-- `select_hard_candidate_subset`. -/
def selectHardCandidateSubset (candidates : List RuliadProofActionCandidate)
    (preferredStep : Option RuliadProofStep) (maximumCandidates : ℕ) (seed : UInt64) :
    List RuliadProofActionCandidate :=
  let preferredIndex := preferredStep.bind fun preferred =>
    candidates.findIdx? fun candidate => candidate.step = preferred
  let preferred := preferredIndex.bind fun index => candidates[index]?
  let rest := match preferredIndex with
    | some index => candidates.eraseIdx index
    | none => candidates
  let sorted := sortByKey (fun candidate => toLex (candidate.outcome.isNone,
    toLex (candidate.distanceToGoal.getD usizeMax, (actionSortKey candidate.step seed).toNat))) rest
  let preferredOutcome := preferred.bind (·.outcome)
  let selected := selectWhileRoom maximumCandidates (fun _ _ => true) preferred.toList
    (sorted.filter fun candidate =>
      candidate.outcome.isSome && candidate.outcome ≠ preferredOutcome)
  let selected := selectWhileRoom maximumCandidates
    (fun selected candidate => !selected.any fun existing => existing.step = candidate.step)
    selected sorted
  deterministicShuffle selected (seed ^^^ 0xa0761d6478bd642f)

/-- `proof_state_key`. -/
def proofStateKey (goal : ℕ) (term : RuliadTerm) : String :=
  decimal goal ++ ":" ++ RuliadTerm.canonicalText term

/-- The index of the first candidate with the smallest distance, and 0 without candidates. -/
def nearestIndex (candidates : List RuliadProofActionCandidate) : ℕ :=
  let distance := fun candidate : RuliadProofActionCandidate =>
    candidate.distanceToGoal.getD usizeMax
  candidates.findIdx fun candidate => candidates.all fun other => distance candidate ≤ distance other

/-- `proof_action_set_for_state`. -/
def proofActionSetForState (S : Serde) (problem : RuliadProofProblem) (goal : ℕ)
    (localSteps : List RuliadProofStep) (preferredStep : Option RuliadProofStep)
    (maximumCandidates : ℕ) (seed : UInt64) (excludedStateKeys : Option (List String)) :
    Except String RuliadProofActionSet := do
  let transition ← (RuliadGoalTransitionKernel.new S problem goal .default).mapError
    fun failure => "invalid proof policy problem: " ++ failure.message
  let current ← (transition.replayPrefix localSteps).mapError
    fun failure => "invalid proof policy state: " ++ failure.message
  let target := transition.target
  let candidates := (enumerateActionCandidates problem transition goal current target preferredStep
    seed).filter fun candidate => candidate.outcome.any fun outcome =>
      outcome ≠ current &&
        excludedStateKeys.all fun excluded => !excluded.contains (proofStateKey goal outcome)
  if candidates = [] then
    throw "proof policy state has no candidate actions"
  let preferredOutcome := preferredStep.bind fun preferred =>
    (candidates.find? fun candidate => candidate.step = preferred).bind (·.outcome)
  let candidates := selectHardCandidateSubset candidates preferredStep maximumCandidates seed
  let selectedIndex := (preferredStep.bind fun preferred =>
    candidates.findIdx? fun candidate => candidate.step = preferred).getD (nearestIndex candidates)
  let selectedOutcome ← okOr (preferredOutcome.or (candidates[selectedIndex]?.bind (·.outcome)))
    "selected proof action is not verifier-valid"
  let equivalentIndices := candidates.zipIdx.filterMap fun (candidate, index) =>
    if candidate.outcome = some selectedOutcome then some index else none
  return { goal, current, target, candidates, selectedIndex, equivalentIndices }

/-- `oracle_proof_action_set`. -/
def oracleProofActionSet (S : Serde) (problem : RuliadProofProblem)
    (certificate : RuliadProofCertificate) (stepIndex maximumCandidates : ℕ) :
    Except String RuliadProofActionSet := do
  let before ← okOr (certificate.prefixBefore stepIndex)
    ("proof action step index " ++ decimal stepIndex ++ " is out of bounds")
  let (goal, oracleStep) ← okOr (certificate.stepAt stepIndex)
    ("proof action step index " ++ decimal stepIndex ++ " is out of bounds")
  let localSteps := ((before.goals.find? fun candidate => candidate.goal = goal).map
    (·.steps)).getD []
  proofActionSetForState S problem goal localSteps (some oracleStep) (max maximumCandidates 2)
    (actionSeed certificate.problemHash stepIndex) none

/-! ## What a menu contains -/

theorem shuffleFrom_perm {α : Type} (upper : ℕ) (state : UInt64) (items : List α) :
    (shuffleFrom upper state items).Perm items := by
  induction upper generalizing state items with
  | zero => rfl
  | succ upper ih => exact (ih _ _).trans (swap_perm ..)

theorem deterministicShuffle_perm {α : Type} (items : List α) (state : UInt64) :
    (deterministicShuffle items state).Perm items :=
  shuffleFrom_perm ..

variable {maximumCandidates : ℕ} {candidates : List RuliadProofActionCandidate}

theorem mem_selectWhileRoom
    {allowed : List RuliadProofActionCandidate → RuliadProofActionCandidate → Bool}
    {selected : List RuliadProofActionCandidate} {c : RuliadProofActionCandidate}
    (h : c ∈ selectWhileRoom maximumCandidates allowed selected candidates) :
    c ∈ selected ∨ c ∈ candidates := by
  induction candidates generalizing selected with
  | nil => exact .inl h
  | cons candidate candidates ih =>
    rw [selectWhileRoom] at h
    split_ifs at h
    · exact .inl h
    · rcases ih h with h | h
      · rcases List.mem_append.1 h with h | h
        · exact .inl h
        · exact .inr (by simp_all)
      · exact .inr (by simp [h])
    · exact (ih h).imp_right (by simp +contextual)

theorem subset_selectWhileRoom
    {allowed : List RuliadProofActionCandidate → RuliadProofActionCandidate → Bool}
    {selected : List RuliadProofActionCandidate} :
    selected ⊆ selectWhileRoom maximumCandidates allowed selected candidates := by
  induction candidates generalizing selected with
  | nil => exact fun _ h => h
  | cons candidate candidates ih =>
    rw [selectWhileRoom]
    split_ifs
    · exact fun _ h => h
    · exact fun c h => ih (by simp [h])
    · exact ih

variable {preferredStep : Option RuliadProofStep} {seed : UInt64}

/-- The selection only keeps candidates of the menu. -/
theorem selectHardCandidateSubset_subset :
    selectHardCandidateSubset candidates preferredStep maximumCandidates seed ⊆ candidates := by
  intro c hc
  simp only [selectHardCandidateSubset, (deterministicShuffle_perm _ _).mem_iff] at hc
  have hrest : ∀ {index : Option ℕ} {d : RuliadProofActionCandidate},
      d ∈ (match index with | some i => candidates.eraseIdx i | none => candidates) →
      d ∈ candidates := by
    intro index d hd
    cases index with
    | none => exact hd
    | some i => exact List.mem_of_mem_eraseIdx hd
  rcases mem_selectWhileRoom hc with hc | hc
  · rcases mem_selectWhileRoom hc with hc | hc
    · obtain ⟨i, -, hi⟩ := Option.bind_eq_some_iff.1 (Option.mem_toList.1 hc)
      exact List.mem_of_getElem? hi
    · exact hrest ((sortByKey_perm _ _).mem_iff.1 (List.mem_filter.1 hc).1)
  · exact hrest ((sortByKey_perm _ _).mem_iff.1 hc)

theorem enumerateActionCandidates_subset {problem : RuliadProofProblem}
    {transition : RuliadGoalTransitionKernel} {goal : ℕ} {current target : RuliadTerm}
    {c : RuliadProofActionCandidate}
    (h : c ∈ enumerateActionCandidates problem transition goal current target preferredStep seed) :
    ∃ step, transition.candidate current target step = c := by
  unfold enumerateActionCandidates at h
  split at h
  · simp at h
  · obtain ⟨step, -, hstep⟩ := List.mem_map.1 h
    exact ⟨step, hstep⟩

/-- What the menu of a state says: it is the menu of a goal's transition kernel after the local
steps, and every candidate takes the current term to its outcome. -/
structure MenuSpec (S : Serde) (problem : RuliadProofProblem) (goal : ℕ)
    (localSteps : List RuliadProofStep) (actions : RuliadProofActionSet)
    (transition : RuliadGoalTransitionKernel) : Prop where
  new : RuliadGoalTransitionKernel.new S problem goal .default = .ok transition
  replay : transition.replayPrefix localSteps = .ok actions.current
  goal_eq : actions.goal = goal
  target_eq : actions.target = transition.target
  outcome : ∀ candidate ∈ actions.candidates, ∃ outcome, candidate.outcome = some outcome ∧
    transition.apply actions.current candidate.step = .ok outcome

theorem proofActionSetForState_spec {S : Serde} {problem : RuliadProofProblem} {goal : ℕ}
    {localSteps : List RuliadProofStep} {excludedStateKeys : Option (List String)}
    {actions : RuliadProofActionSet}
    (h : proofActionSetForState S problem goal localSteps preferredStep maximumCandidates seed
      excludedStateKeys = .ok actions) :
    ∃ transition, MenuSpec S problem goal localSteps actions transition := by
  simp only [proofActionSetForState, bind_eq_ok, throw_bind, ite_error_eq_ok, mapError_eq_ok,
    okOr_eq_ok, pure, Except.pure, Except.ok.injEq] at h
  obtain ⟨transition, hnew, current, hreplay, -, selected, -, rfl⟩ := h
  refine ⟨transition, hnew, hreplay, rfl, rfl, fun candidate hcandidate => ?_⟩
  obtain ⟨hmem, houtcome⟩ := List.mem_filter.1 (selectHardCandidateSubset_subset hcandidate)
  obtain ⟨step, rfl⟩ := enumerateActionCandidates_subset hmem
  simp only [RuliadGoalTransitionKernel.candidate] at houtcome ⊢
  cases happly : transition.apply current step with
  | error failure => simp [happly, Except.toOption] at houtcome
  | ok outcome => exact ⟨outcome, rfl, rfl⟩

end BurnDragon.Ruliad
