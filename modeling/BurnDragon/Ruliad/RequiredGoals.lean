import BurnDragon.Ruliad.Soundness

/-!
# The required goals

The recursion of `required_goal_indices` runs on problems that are not validated, so dependencies may
form cycles and name goals that do not exist. It ends all the same, with the sorted closure of the
root (`requiredGoalIndices_closure`). In a valid problem the closure is in topological order with the
root at its end.
-/

namespace BurnDragon.Ruliad

open Rust List

namespace RuliadProofProblem

/-- The recursion `visit` of `required_goal_indices`, with a bound on its depth: there is no result
when the bound does not suffice. -/
def visit (problem : RuliadProofProblem) (depth index : ℕ) (required : List ℕ) :
    Option (List ℕ) :=
  Graph.visit (goalDependencies problem.goals) depth index required

/-- One more than the number of goals is deep enough, on every problem. -/
theorem visit_root (problem : RuliadProofProblem) {depth : ℕ} (h : problem.goals.length < depth) :
    problem.visit depth problem.root [] = some problem.requiredGoalIndices :=
  Graph.visit_nil_eq_some (goalDependencies_mem_range problem.goals) (by simpa using h) (by simp) _

end RuliadProofProblem

namespace ValidProblem

variable {problem : RuliadProofProblem} {limits : RuliadKernelLimits}
  (h : ValidProblem problem limits)
include h

/-- Dependencies precede their goals, so the root is the largest required goal. -/
theorem requires_le_root {index : ℕ} (hreq : problem.Requires index) : index ≤ problem.root := by
  induction hreq with
  | refl => exact le_rfl
  | tail hprefix hedge ih =>
    rename_i i j
    obtain ⟨goal, hgoal⟩ := h.requires_getElem? hprefix
    have hj : j ∈ goal.dependencies := by
      rwa [Graph.Edge, goalDependencies, hgoal] at hedge
    exact ((h.goals i goal hgoal).lt j hj).le.trans ih

/-- A dependency of a required goal stands before it. -/
theorem dependency_before {position index dependency : ℕ} {goal : RuliadProofGoal}
    (hindex : problem.requiredGoalIndices[position]? = some index)
    (hgoal : problem.goals[index]? = some goal) (hdep : dependency ∈ goal.dependencies) :
    ∃ earlier < position, problem.requiredGoalIndices[earlier]? = some dependency := by
  have hreq := RuliadProofProblem.mem_requiredGoalIndices.1 (mem_of_getElem? hindex)
  have hmem := RuliadProofProblem.mem_requiredGoalIndices.2
    (RuliadProofProblem.requires_dependency hreq hgoal hdep)
  obtain ⟨earlier, hearlier⟩ := mem_iff_getElem?.1 hmem
  refine ⟨earlier, ?_, hearlier⟩
  -- the list is increasing, and the dependency is smaller than the goal
  have hlt := (h.goals index goal hgoal).lt dependency hdep
  obtain ⟨hp, hpe⟩ := List.getElem?_eq_some_iff.1 hindex
  obtain ⟨he, hee⟩ := List.getElem?_eq_some_iff.1 hearlier
  by_contra hle
  rcases Nat.lt_or_eq_of_le (not_lt.1 hle) with hlt' | rfl
  · have hsorted := pairwise_iff_getElem.1
      (@RuliadProofProblem.pairwise_requiredGoalIndices problem) position earlier hp he hlt'
    omega
  · omega

/-- The root is the last required goal. -/
theorem getLast?_requiredGoalIndices :
    problem.requiredGoalIndices.getLast? = some problem.root := by
  have hroot : problem.root ∈ problem.requiredGoalIndices :=
    RuliadProofProblem.root_mem_requiredGoalIndices
  have hne : problem.requiredGoalIndices ≠ [] := ne_nil_of_mem hroot
  rw [getLast?_eq_some_getLast hne, Option.some.injEq]
  have hlast := RuliadProofProblem.mem_requiredGoalIndices.1 (getLast_mem hne)
  refine le_antisymm (h.requires_le_root hlast) ?_
  have hsplit := dropLast_append_getLast hne
  have hsorted := @RuliadProofProblem.pairwise_requiredGoalIndices problem
  rw [← hsplit, pairwise_append] at hsorted
  rw [← hsplit, mem_append, mem_singleton] at hroot
  rcases hroot with hroot | hroot
  · exact (hsorted.2.2 _ hroot _ (by simp)).le
  · exact hroot.le

end ValidProblem

/-- **The closure of the root**: on every problem the recursion ends, with the increasing list of the
goals that the root requires. In a valid problem they all exist, the dependencies of a goal stand
before it, and the root is the last and largest. -/
theorem requiredGoalIndices_closure (problem : RuliadProofProblem) :
    (∀ depth > problem.goals.length,
      problem.visit depth problem.root [] = some problem.requiredGoalIndices) ∧
    problem.requiredGoalIndices.Pairwise (· < ·) ∧
    (∀ index, index ∈ problem.requiredGoalIndices ↔ problem.Requires index) ∧
    ∀ (S : Serde) (limits : RuliadKernelLimits) (hash : String),
      validateProblem S problem limits = .ok hash →
      (∀ index ∈ problem.requiredGoalIndices, index < problem.goals.length) ∧
      (∀ (position index : ℕ) (goal : RuliadProofGoal),
        problem.requiredGoalIndices[position]? = some index →
        problem.goals[index]? = some goal → ∀ dependency ∈ goal.dependencies,
        ∃ earlier < position, problem.requiredGoalIndices[earlier]? = some dependency) ∧
      problem.requiredGoalIndices.getLast? = some problem.root ∧
      ∀ index ∈ problem.requiredGoalIndices, index ≤ problem.root := by
  refine ⟨fun depth hdepth => problem.visit_root hdepth,
    RuliadProofProblem.pairwise_requiredGoalIndices,
    fun index => RuliadProofProblem.mem_requiredGoalIndices, fun S limits hash hhash => ?_⟩
  have h := (validateProblem_eq_ok_iff.1 hhash).1
  refine ⟨fun index hindex => ?_, fun position index goal hindex hgoal dependency hdep => ?_,
    h.getLast?_requiredGoalIndices, fun index hindex => ?_⟩
  · exact h.requires_lt (RuliadProofProblem.mem_requiredGoalIndices.1 hindex)
  · exact h.dependency_before hindex hgoal hdep
  · exact h.requires_le_root (RuliadProofProblem.mem_requiredGoalIndices.1 hindex)

theorem requiredGoalIndices_closure_unitProblem :
    unitProblem.requiredGoalIndices = [0, 1] ∧
      (∀ index ∈ unitProblem.requiredGoalIndices, index ≤ unitProblem.root) := by
  refine ⟨by decide, ?_⟩
  obtain ⟨-, -, -, hvalid⟩ := requiredGoalIndices_closure unitProblem
  exact (hvalid (.ofDigest unitDigest) .default unitDigest rfl).2.2.2

/-- Two goals that need each other, and a goal that does not exist. -/
def cyclicProblem : RuliadProofProblem :=
  { unitProblem with goals := [
      ⟨"unit", [1, 7], ⟨.atom "a", .atom "a"⟩⟩, ⟨"root", [0], ⟨.atom "a", .atom "a"⟩⟩] }

example : cyclicProblem.visit 3 1 [] = some [0, 1, 7] := by decide

end BurnDragon.Ruliad
