import BurnDragon.Ruliad.Replay

/-!
# Soundness of the kernel

What an accepted certificate proves. The steps of one goal are rewrites with the axioms and with the
claims of the goal's dependencies (`Replays.rewrites`), and the dependencies come before the goal, so
by induction on the goal every required claim holds in every algebra in which the axioms hold
(`accepts_holds`). The carrier of the algebra may be of any universe.
-/

namespace BurnDragon.Ruliad

open Equational Rust

def RuliadRewriteAxiom.equation (rule : RuliadRewriteAxiom) : Equation ℕ String String :=
  ⟨rule.lhs, rule.rhs⟩

def RuliadEquality.equation (equality : RuliadEquality) : Equation ℕ String String :=
  ⟨equality.lhs, equality.rhs⟩

/-- The equations that the steps of a goal may use: the axioms and the claims of its
dependencies. -/
def usableEquations (problem : RuliadProofProblem) (goal : RuliadProofGoal) :
    Set (Equation ℕ String String) :=
  {e | (∃ rule ∈ problem.axioms, e = rule.equation) ∨
    ∃ dependency ∈ goal.dependencies, ∃ lemmaGoal, problem.goals[dependency]? = some lemmaGoal ∧
      e = lemmaGoal.claim.equation}

section Rewriting

variable {problem : RuliadProofProblem} {goal : RuliadProofGoal} {step : RuliadProofStep}
  {steps : List RuliadProofStep} {s t : RuliadTerm}

theorem sourceClaim_mem_usableEquations {source : RuliadProofSource} {equality : RuliadEquality}
    (h : sourceClaim problem goal source = some equality) :
    equality.equation ∈ usableEquations problem goal := by
  cases source with
  | axiom_ id =>
    obtain ⟨rule, hrule, rfl⟩ := Option.map_eq_some_iff.1 h
    exact .inl ⟨rule, List.mem_of_find?_eq_some hrule, rfl⟩
  | lemma_ dependency =>
    obtain ⟨hdep, h⟩ := Option.ite_none_right_eq_some.1 h
    obtain ⟨lemmaGoal, hgoal, rfl⟩ := Option.map_eq_some_iff.1 h
    exact .inr ⟨dependency, hdep, lemmaGoal, hgoal, rfl⟩

/-- A step is a rewrite with one of the usable equations. -/
theorem Applies.rewrite (h : Applies problem goal step s t) :
    Rewrite (usableEquations problem goal) s t := by
  obtain ⟨equality, hsource, hat⟩ := h
  have hmem := sourceClaim_mem_usableEquations hsource
  cases hdirection : step.direction with
  | forward =>
    rw [hdirection] at hat
    exact hat.rewrite_of_instance (.inl hmem)
  | reverse =>
    rw [hdirection] at hat
    exact hat.rewrite_of_instance (.inr hmem)

/-- The steps of a goal are a chain of rewrites. -/
theorem Replays.rewrites (h : Replays problem goal steps s t) :
    Relation.ReflTransGen (Rewrite (usableEquations problem goal)) s t := by
  induction steps generalizing s with
  | nil => exact h ▸ .refl
  | cons step steps ih =>
    obtain ⟨u, hstep, hrest⟩ := h
    exact .head hstep.rewrite (ih hrest)

end Rewriting

/-- The claim of a goal holds in the algebra. -/
def GoalHolds {D : Type*} (problem : RuliadProofProblem) (M : Algebra String String D)
    (index : ℕ) : Prop :=
  ∃ goal, problem.goals[index]? = some goal ∧ goal.claim.equation.Holds M

/-- Goals that are proved from axioms and from goals before them hold wherever the axioms hold. -/
theorem goalHolds_of_replays {problem : RuliadProofProblem} {indices : List ℕ}
    (h : ∀ index ∈ indices, ∃ goal, problem.goals[index]? = some goal ∧
      (∃ steps, Replays problem goal steps goal.claim.lhs goal.claim.rhs) ∧
      ∀ dependency ∈ goal.dependencies, dependency ∈ indices ∧ dependency < index)
    {D : Type*} {M : Algebra String String D}
    (haxioms : ∀ rule ∈ problem.axioms, rule.equation.Holds M) :
    ∀ index ∈ indices, GoalHolds problem M index := by
  -- the dependencies of a goal have smaller indices
  intro index
  induction index using Nat.strong_induction_on with
  | _ index ih =>
    intro hindex
    obtain ⟨goal, hgoal, ⟨steps, hreplays⟩, hdeps⟩ := h index hindex
    refine ⟨goal, hgoal, Rewrite.holds_of_reflTransGen ?_ hreplays.rewrites⟩
    rintro e (⟨rule, hrule, rfl⟩ | ⟨dependency, hdep, lemmaGoal, hlemma, rfl⟩)
    · exact haxioms rule hrule
    · obtain ⟨hmem, hlt⟩ := hdeps dependency hdep
      obtain ⟨lemmaGoal', hlemma', hholds⟩ := ih dependency hlt hmem
      obtain rfl := Option.some.inj (hlemma.symm.trans hlemma')
      exact hholds

/-- The required goals of a problem with a proof hold wherever the axioms hold. -/
theorem Proves.goalHolds {problem : RuliadProofProblem} {certificate : RuliadProofCertificate}
    {limits : RuliadKernelLimits} (hproblem : ValidProblem problem limits)
    (hproves : Proves problem certificate) {D : Type*} {M : Algebra String String D}
    (haxioms : ∀ rule ∈ problem.axioms, rule.equation.Holds M) :
    ∀ index ∈ problem.requiredGoalIndices, GoalHolds problem M index := by
  refine goalHolds_of_replays (fun index hindex => ?_) haxioms
  obtain ⟨goal, hgoal, hdeps⟩ := hproblem.requiredGoals index hindex
  obtain ⟨node, hnode, rfl⟩ := List.mem_map.1 (hproves.goals ▸ hindex)
  obtain ⟨goal', hgoal', hreplays⟩ := hproves.steps node hnode
  obtain rfl := Option.some.inj (hgoal.symm.trans hgoal')
  exact ⟨goal, hgoal, ⟨_, hreplays⟩, hdeps⟩

/-- **Soundness of the kernel**: when the kernel accepts a certificate, the claims of the required
goals, the root among them, hold in every algebra in which the axioms hold. -/
theorem accepts_holds {S : Serde} {problem : RuliadProofProblem}
    {certificate : RuliadProofCertificate} {limits : RuliadKernelLimits}
    (h : Accepts S problem certificate limits) {D : Type*} (M : Algebra String String D)
    (haxioms : ∀ rule ∈ problem.axioms, rule.equation.Holds M) :
    (∀ index ∈ problem.requiredGoalIndices, GoalHolds problem M index) ∧
      GoalHolds problem M problem.root := by
  obtain ⟨hproblem, -, hproves, -⟩ := accepts_iff.1 h
  have hall := hproves.goalHolds hproblem haxioms
  exact ⟨hall, hall _ RuliadProofProblem.root_mem_requiredGoalIndices⟩

/-! ## A problem with a lemma -/

/-- A left unit law; the root uses the first goal as a lemma, from right to left. -/
def unitProblem : RuliadProofProblem where
  version := ruliadIrVersion
  domain := .category
  theory := "monoid"
  axioms := [⟨"left_identity", .apply "compose" [.atom "id", .var 0], .var 0⟩]
  goals := [
    ⟨"unit", [], ⟨.apply "compose" [.atom "id", .atom "a"], .atom "a"⟩⟩,
    ⟨"root", [0], ⟨.apply "pair" [.atom "a", .atom "a"],
      .apply "pair" [.apply "compose" [.atom "id", .atom "a"], .atom "a"]⟩⟩]
  root := 1

def unitDigest : String := "e48b1b8d3a9e8ffa8cd6748e53d654d573cfe8671241bb4de5d6f7109276d6d4"

def unitCertificate : RuliadProofCertificate where
  version := ruliadIrVersion
  problemHash := unitDigest
  goals := [
    ⟨0, [⟨.axiom_ "left_identity", [], .forward⟩]⟩,
    ⟨1, [⟨.lemma_ 0, [0], .reverse⟩]⟩]

theorem accepts_unitCertificate :
    Accepts (.ofDigest unitDigest) unitProblem unitCertificate .default :=
  ⟨_, rfl, rfl⟩

/-- Lists of numbers under concatenation, with the empty list for every atom but `a`. -/
def listAlgebra : Algebra String String (List ℕ) where
  atom symbol := if symbol = "a" then [7] else []
  op _ arguments := arguments.flatten

theorem accepts_holds_unitProblem :
    (∀ index ∈ unitProblem.requiredGoalIndices, GoalHolds unitProblem listAlgebra index) ∧
      GoalHolds unitProblem listAlgebra unitProblem.root := by
  refine accepts_holds accepts_unitCertificate listAlgebra fun rule hrule ρ => ?_
  obtain rfl : rule = ⟨"left_identity", _, _⟩ := List.mem_singleton.1 hrule
  simp [RuliadRewriteAxiom.equation, listAlgebra]

end BurnDragon.Ruliad
