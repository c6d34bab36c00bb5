import BurnDragon.Ruliad.Ir

/-!
# The views of a certificate

`step_count`, `step_at`, `prefix_before`, `single_step_at` and `with_step_replaced` count through the
blocks of a certificate, each with its own running offset. They are the length, the lookup, the
prefix, the single element and the update of one list, the steps of all blocks in order with their
goals (`views_agree`). Blocks without steps do not show in that list.
-/

namespace BurnDragon.Ruliad

open List RuliadGoalCertificate Option

/-- The steps of a block, each with the goal. -/
def RuliadGoalCertificate.flatSteps (node : RuliadGoalCertificate) : List (ℕ × RuliadProofStep) :=
  node.steps.map fun step => (node.goal, step)

@[simp] theorem RuliadGoalCertificate.length_flatSteps (node : RuliadGoalCertificate) :
    node.flatSteps.length = node.steps.length := by
  simp [flatSteps]

namespace RuliadProofCertificate

/-- The steps of a list of blocks, in order. -/
def flatGoals (goals : List RuliadGoalCertificate) : List (ℕ × RuliadProofStep) :=
  goals.flatMap RuliadGoalCertificate.flatSteps

@[simp] theorem flatGoals_nil : flatGoals [] = [] := rfl

@[simp] theorem flatGoals_cons (goal : RuliadGoalCertificate) (goals : List RuliadGoalCertificate) :
    flatGoals (goal :: goals) = goal.flatSteps ++ flatGoals goals := rfl

/-- The steps of a certificate with their goals, in order. -/
def flatSteps (certificate : RuliadProofCertificate) : List (ℕ × RuliadProofStep) :=
  flatGoals certificate.goals

theorem stepCount_eq (certificate : RuliadProofCertificate) :
    certificate.stepCount = certificate.flatSteps.length := by
  simp [stepCount, flatSteps, flatGoals, length_flatMap]

/-! ## The loops -/

theorem stepAtGoals_eq (goals : List RuliadGoalCertificate) (i : ℕ) :
    stepAtGoals goals i = (flatGoals goals)[i]? := by
  induction goals generalizing i with
  | nil => rfl
  | cons goal goals ih =>
    rw [stepAtGoals, flatGoals_cons]
    rcases lt_or_ge i goal.steps.length with hi | hi
    · rw [getElem?_append_left (by simpa using hi)]
      simp [RuliadGoalCertificate.flatSteps, hi]
    · rw [getElem?_append_right (by simpa using hi), getElem?_eq_none hi, ih,
        length_flatSteps]

theorem prefixBeforeGoals_eq (goals : List RuliadGoalCertificate) (i : ℕ) :
    (prefixBeforeGoals goals i).map flatGoals =
      if i < (flatGoals goals).length then some ((flatGoals goals).take i) else none := by
  induction goals generalizing i with
  | nil => simp [prefixBeforeGoals]
  | cons goal goals ih =>
    rw [prefixBeforeGoals, flatGoals_cons, length_append, RuliadGoalCertificate.length_flatSteps]
    split_ifs with hblock htotal htotal
    · -- the cut is inside this block
      rw [take_append_of_le_length (by simpa using hblock.le)]
      simp [RuliadGoalCertificate.flatSteps, map_take]
    · omega
    · have hrest : i - goal.steps.length < (flatGoals goals).length := by omega
      have ih := ih (i - goal.steps.length)
      rw [if_pos hrest] at ih
      obtain ⟨before, hbefore, hflat⟩ := map_eq_some_iff.1 ih
      have hwhole : goal.flatSteps.take i = goal.flatSteps :=
        take_of_length_le (by simpa using not_lt.1 hblock)
      rw [hbefore, map_some, map_some, flatGoals_cons, hflat, take_append,
        length_flatSteps, hwhole]
    · have hrest : ¬ i - goal.steps.length < (flatGoals goals).length := by omega
      have ih := ih (i - goal.steps.length)
      rw [if_neg hrest, map_eq_none_iff] at ih
      rw [ih, map_none, map_none]

/-- A prefix has the first blocks' goals. -/
theorem prefixBeforeGoals_prefix {goals before : List RuliadGoalCertificate} {i : ℕ}
    (h : prefixBeforeGoals goals i = some before) :
    before.map (·.goal) <+: goals.map (·.goal) := by
  induction goals generalizing i before with
  | nil => simp [prefixBeforeGoals] at h
  | cons goal goals ih =>
    rw [prefixBeforeGoals] at h
    split_ifs at h
    · obtain rfl := some.inj h
      simp
    · obtain ⟨rest, hrest, rfl⟩ := map_eq_some_iff.1 h
      simpa using ih hrest

theorem modify_append_left {α : Type*} (f : α → α) (xs ys : List α) {i : ℕ} (h : i < xs.length) :
    (xs ++ ys).modify i f = xs.modify i f ++ ys := by
  refine ext_getElem? fun j => ?_
  simp only [getElem?_modify, getElem?_append, length_modify]
  split_ifs <;> grind

theorem modify_append_right {α : Type*} (f : α → α) (xs ys : List α) {i : ℕ}
    (h : xs.length ≤ i) : (xs ++ ys).modify i f = xs ++ ys.modify (i - xs.length) f := by
  refine ext_getElem? fun j => ?_
  simp only [getElem?_modify, getElem?_append]
  split_ifs <;> grind

/-- Replacing a step of a block. -/
theorem set_flatSteps (goal : RuliadGoalCertificate) (i : ℕ) (replacement : RuliadProofStep) :
    RuliadGoalCertificate.flatSteps { goal with steps := goal.steps.set i replacement } =
      goal.flatSteps.modify i fun (goal, _) => (goal, replacement) := by
  refine ext_getElem? fun j => ?_
  simp only [RuliadGoalCertificate.flatSteps, getElem?_map, getElem?_set, getElem?_modify]
  by_cases hij : i = j
  · subst hij
    by_cases hi : i < goal.steps.length <;> simp [hi]
  · simp [hij]

theorem replaceStepGoals_eq (replacement : RuliadProofStep) (goals : List RuliadGoalCertificate)
    (i : ℕ) :
    (replaceStepGoals replacement goals i).map flatGoals =
      if i < (flatGoals goals).length then
        some ((flatGoals goals).modify i fun (goal, _) => (goal, replacement))
      else none := by
  induction goals generalizing i with
  | nil => simp [replaceStepGoals]
  | cons goal goals ih =>
    rw [replaceStepGoals, flatGoals_cons, length_append, length_flatSteps]
    split_ifs with hblock htotal htotal
    · -- the step is in this block
      rw [map_some, flatGoals_cons, set_flatSteps,
        modify_append_left _ _ _ (by simpa using hblock)]
    · omega
    · have hrest : i - goal.steps.length < (flatGoals goals).length := by omega
      have ih := ih (i - goal.steps.length)
      rw [if_pos hrest] at ih
      obtain ⟨after, hafter, hflat⟩ := map_eq_some_iff.1 ih
      rw [hafter, map_some, map_some, flatGoals_cons, hflat,
        modify_append_right _ _ _ (by simpa using not_lt.1 hblock),
        length_flatSteps]
    · have hrest : ¬ i - goal.steps.length < (flatGoals goals).length := by omega
      have ih := ih (i - goal.steps.length)
      rw [if_neg hrest, map_eq_none_iff] at ih
      rw [ih, map_none, map_none]

/-! ## The views -/

/-- **The views agree**: they are the length, the lookup, the prefix, the single element and the
update of the list of the steps with their goals, and those with an index fail exactly when it is out
of range. -/
theorem views_agree (certificate : RuliadProofCertificate) (i : ℕ) :
    certificate.stepCount = certificate.flatSteps.length ∧
    certificate.stepAt i = certificate.flatSteps[i]? ∧
    (certificate.prefixBefore i).map flatSteps =
      (if i < certificate.stepCount then some (certificate.flatSteps.take i) else none) ∧
    (certificate.singleStepAt i).map flatSteps =
      certificate.flatSteps[i]?.map (fun entry => [entry]) ∧
    (∀ replacement, (certificate.withStepReplaced i replacement).map flatSteps =
      if i < certificate.stepCount then
        some (certificate.flatSteps.modify i fun (goal, _) => (goal, replacement))
      else none) ∧
    ((certificate.stepAt i).isSome ↔ i < certificate.stepCount) := by
  rw [stepCount_eq]
  have hat : certificate.stepAt i = certificate.flatSteps[i]? := stepAtGoals_eq certificate.goals i
  refine ⟨rfl, hat, ?_, ?_, fun replacement => ?_, ?_⟩
  · rw [prefixBefore, Option.map_map]
    exact prefixBeforeGoals_eq certificate.goals i
  · rw [singleStepAt, hat, Option.map_map]
    cases certificate.flatSteps[i]? <;> rfl
  · rw [withStepReplaced, Option.map_map]
    exact replaceStepGoals_eq replacement certificate.goals i
  · simp [hat]

/-- The cut of a prefix at a block boundary: the empty blocks before it stay. -/
example (a b : RuliadProofStep) :
    (⟨3, "", [⟨0, [a]⟩, ⟨1, []⟩, ⟨2, [b]⟩]⟩ : RuliadProofCertificate).prefixBefore 1 =
      some ⟨3, "", [⟨0, [a]⟩, ⟨1, []⟩, ⟨2, []⟩]⟩ := rfl

end RuliadProofCertificate

end BurnDragon.Ruliad
