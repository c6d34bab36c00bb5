import BurnDragon.Equational.Algebra
import BurnDragon.Graph.DepthFirst
import BurnDragon.Rust.Text

/-!
# The proof objects of the Ruliad corpus

Problems and certificates of `ir/mod.rs`. Terms are first-order terms over numbered variables whose
atoms and operators are strings. A problem is a list of rewrite axioms and a list of goals with
dependencies between them; a certificate lists rewrite steps for the goals.

Machine integers are natural numbers. `Serde` stands for the two external packages the code hashes
with: the JSON serializer and SHA-256.
-/

namespace BurnDragon.Ruliad

open Equational Rust

def ruliadIrVersion : ℕ := 3

inductive RuliadFormalDomain
  | equational
  | category
  | logic
  | automata
  | process
  | metagraph
  deriving DecidableEq

def RuliadFormalDomain.all : List RuliadFormalDomain :=
  [.equational, .category, .logic, .automata, .process, .metagraph]

/-! ## Terms -/

/-- `RuliadTerm`: the variables are `u32` indices, the atoms and the operators strings. -/
abbrev RuliadTerm := Term ℕ String String

namespace RuliadTerm

mutual

/-- `node_count`, which saturates. -/
def nodeCount : RuliadTerm → ℕ
  | .var _ => 1
  | .atom _ => 1
  | .apply _ arguments => saturatingAdd 1 (nodeCountFold 0 arguments)

/-- The fold of `node_count` over the arguments. -/
def nodeCountFold (acc : ℕ) : List RuliadTerm → ℕ
  | [] => acc
  | t :: ts => nodeCountFold (saturatingAdd acc (nodeCount t)) ts

end

mutual

def depth : RuliadTerm → ℕ
  | .var _ => 1
  | .atom _ => 1
  | .apply _ arguments => 1 + depthMax arguments

/-- The maximum of `depth` over the arguments, and 0 without arguments. -/
def depthMax : List RuliadTerm → ℕ
  | [] => 0
  | t :: ts => max (depth t) (depthMax ts)

end

/-- `at_path`: the subterm that a path of argument indices leads to. -/
def atPath : RuliadTerm → List ℕ → Option RuliadTerm
  | t, [] => some t
  | .apply _ arguments, index :: rest =>
    match arguments[index]? with
    | some argument => atPath argument rest
    | none => none
  | _, _ :: _ => none

mutual

def collectVariables (found : List ℕ) : RuliadTerm → List ℕ
  | .var index => insertSorted index found
  | .atom _ => found
  | .apply _ arguments => collectVariablesFold found arguments

/-- `collect_variables` for the arguments in order. -/
def collectVariablesFold (found : List ℕ) : List RuliadTerm → List ℕ
  | [] => found
  | t :: ts => collectVariablesFold (collectVariables found t) ts

end

/-- `variables`. -/
def variableSet (t : RuliadTerm) : List ℕ := collectVariables [] t

mutual

def canonicalText : RuliadTerm → String
  | .var index => "?" ++ decimal index
  | .atom symbol => symbol
  | .apply operator arguments =>
    operator ++ "(" ++ String.intercalate "," (canonicalTexts arguments) ++ ")"

/-- `canonical_text` of every argument. -/
def canonicalTexts : List RuliadTerm → List String
  | [] => []
  | t :: ts => canonicalText t :: canonicalTexts ts

end

theorem mem_collectVariables {i : ℕ} (t : RuliadTerm) :
    ∀ {found : List ℕ}, i ∈ collectVariables found t ↔ i ∈ found ∨ i ∈ t.vars := by
  have hfold : ∀ {ts : List RuliadTerm}, (∀ t ∈ ts, ∀ {found : List ℕ},
      i ∈ collectVariables found t ↔ i ∈ found ∨ i ∈ t.vars) → ∀ {found : List ℕ},
      i ∈ collectVariablesFold found ts ↔ i ∈ found ∨ ∃ t ∈ ts, i ∈ t.vars := by
    intro ts
    induction ts with
    | nil => simp [collectVariablesFold]
    | cons t ts ih =>
      intro h found
      rw [collectVariablesFold, ih fun t ht => h t (by simp [ht]), h t (by simp)]
      simp [or_assoc]
  induction t using Term.ind with
  | var j => simp [collectVariables, or_comm]
  | atom a => simp [collectVariables]
  | apply f args ih =>
    intro found
    rw [collectVariables, hfold ih, Term.mem_vars_apply]

@[simp] theorem mem_variableSet {i : ℕ} {t : RuliadTerm} : i ∈ variableSet t ↔ i ∈ t.vars := by
  simp [variableSet, mem_collectVariables]

end RuliadTerm

/-! ## Problems -/

structure RuliadRewriteAxiom where
  id : String
  lhs : RuliadTerm
  rhs : RuliadTerm
  deriving DecidableEq

structure RuliadEquality where
  lhs : RuliadTerm
  rhs : RuliadTerm
  deriving DecidableEq

structure RuliadProofGoal where
  id : String
  dependencies : List ℕ
  claim : RuliadEquality
  deriving DecidableEq

structure RuliadProofProblem where
  version : ℕ
  domain : RuliadFormalDomain
  theory : String
  axioms : List RuliadRewriteAxiom
  goals : List RuliadProofGoal
  root : ℕ
  deriving DecidableEq

/-- The JSON serializer and SHA-256. Serializing a problem, a plain value of integers, strings and
vectors, does not fail. -/
structure Serde where
  toVec : RuliadProofProblem → Except String (List UInt8)
  sha256Hex : List UInt8 → String
  toVec_ok : ∀ problem, ∃ bytes, toVec problem = .ok bytes

/-! ### JSON

The text that the serializer writes for a problem whose identifiers need no escapes. -/

def jsonString (text : String) : String := "\"" ++ text ++ "\""

def jsonArray (items : List String) : String := "[" ++ String.intercalate "," items ++ "]"

def jsonObject (fields : List (String × String)) : String :=
  "\x7b" ++ String.intercalate "," (fields.map fun (key, value) => jsonString key ++ ":" ++ value) ++
    "\x7d"

def RuliadFormalDomain.label : RuliadFormalDomain → String
  | equational => "equational"
  | category => "category"
  | logic => "logic"
  | automata => "automata"
  | process => "process"
  | metagraph => "metagraph"

mutual

def RuliadTerm.toJson : RuliadTerm → String
  | .var index => jsonObject [("kind", jsonString "variable"), ("index", decimal index)]
  | .atom symbol => jsonObject [("kind", jsonString "atom"), ("symbol", jsonString symbol)]
  | .apply operator arguments => jsonObject [("kind", jsonString "apply"),
      ("operator", jsonString operator), ("arguments", jsonArray (RuliadTerm.toJsons arguments))]

/-- The texts of a list of terms. -/
def RuliadTerm.toJsons : List RuliadTerm → List String
  | [] => []
  | t :: ts => RuliadTerm.toJson t :: RuliadTerm.toJsons ts

end

def RuliadRewriteAxiom.toJson (rule : RuliadRewriteAxiom) : String :=
  jsonObject [("id", jsonString rule.id), ("lhs", RuliadTerm.toJson rule.lhs),
    ("rhs", RuliadTerm.toJson rule.rhs)]

/-- An empty list of dependencies is left out. -/
def RuliadProofGoal.toJson (goal : RuliadProofGoal) : String :=
  jsonObject ([("id", jsonString goal.id)] ++
    (if goal.dependencies = [] then []
      else [("dependencies", jsonArray (goal.dependencies.map decimal))]) ++
    [("claim", jsonObject [("lhs", RuliadTerm.toJson goal.claim.lhs),
      ("rhs", RuliadTerm.toJson goal.claim.rhs)])])

def RuliadProofProblem.toJson (problem : RuliadProofProblem) : String :=
  jsonObject [("version", decimal problem.version), ("domain", jsonString problem.domain.label),
    ("theory", jsonString problem.theory),
    ("axioms", jsonArray (problem.axioms.map RuliadRewriteAxiom.toJson)),
    ("goals", jsonArray (problem.goals.map RuliadProofGoal.toJson)),
    ("root", decimal problem.root)]

/-- The JSON serializer with a fixed digest: hashing as it is done at one problem. -/
def Serde.ofDigest (digest : String) : Serde where
  toVec problem := .ok problem.toJson.toUTF8.toList
  sha256Hex _ := digest
  toVec_ok _ := ⟨_, rfl⟩

/-- The dependencies that `visit` follows from a goal index: none when the goal is missing. -/
def goalDependencies (goals : List RuliadProofGoal) (index : ℕ) : List ℕ :=
  match goals[index]? with
  | some goal => goal.dependencies
  | none => []

theorem goalDependencies_mem_range (goals : List RuliadProofGoal) (index : ℕ)
    (h : goalDependencies goals index ≠ []) : index ∈ Finset.range goals.length := by
  rw [Finset.mem_range]
  by_contra hlen
  rw [goalDependencies, List.getElem?_eq_none (by omega)] at h
  exact h rfl

namespace RuliadProofProblem

/-- `canonical_hash`. -/
def canonicalHash (S : Serde) (problem : RuliadProofProblem) : Except String String := do
  let bytes ← S.toVec problem
  return S.sha256Hex bytes

/-- `required_goal_indices`: a depth-first search along the dependencies from the root. Every
recursive call but the last enters another goal, so the recursion is at most one deeper than the
number of goals. -/
def requiredGoalIndices (problem : RuliadProofProblem) : List ℕ :=
  Graph.depthFirst (goalDependencies problem.goals) (problem.goals.length + 1) problem.root []

/-- The root depends on the goal, directly or through other goals, or is the goal. -/
def Requires (problem : RuliadProofProblem) (index : ℕ) : Prop :=
  Graph.Reaches (goalDependencies problem.goals) problem.root index

variable {S : Serde} {problem : RuliadProofProblem}

theorem canonicalHash_ok (S : Serde) (problem : RuliadProofProblem) :
    ∃ hash, problem.canonicalHash S = .ok hash := by
  obtain ⟨bytes, h⟩ := S.toVec_ok problem
  exact ⟨S.sha256Hex bytes, by rw [canonicalHash, h]; rfl⟩

theorem mem_requiredGoalIndices {index : ℕ} :
    index ∈ problem.requiredGoalIndices ↔ problem.Requires index :=
  Graph.mem_depthFirst_nil (goalDependencies_mem_range problem.goals) (by simp)

theorem pairwise_requiredGoalIndices : problem.requiredGoalIndices.Pairwise (· < ·) :=
  Graph.pairwise_depthFirst _ _ .nil

theorem root_mem_requiredGoalIndices : problem.root ∈ problem.requiredGoalIndices :=
  mem_requiredGoalIndices.2 .refl

theorem requires_dependency {index dependency : ℕ} {goal : RuliadProofGoal}
    (h : problem.Requires index) (hgoal : problem.goals[index]? = some goal)
    (hdep : dependency ∈ goal.dependencies) : problem.Requires dependency :=
  h.tail (by rwa [Graph.Edge, goalDependencies, hgoal])

end RuliadProofProblem

/-! ## Certificates -/

inductive RuliadRewriteDirection
  | forward
  | reverse
  deriving DecidableEq

inductive RuliadProofSource
  | axiom_ (id : String)
  | lemma_ (goal : ℕ)
  deriving DecidableEq

structure RuliadProofStep where
  source : RuliadProofSource
  path : List ℕ
  direction : RuliadRewriteDirection
  deriving DecidableEq

structure RuliadGoalCertificate where
  goal : ℕ
  steps : List RuliadProofStep
  deriving DecidableEq

structure RuliadProofCertificate where
  version : ℕ
  problemHash : String
  goals : List RuliadGoalCertificate
  deriving DecidableEq

namespace RuliadProofCertificate

/-- `step_count`. -/
def stepCount (certificate : RuliadProofCertificate) : ℕ :=
  (certificate.goals.map fun goal => goal.steps.length).sum

/-- The loop of `step_at`. -/
def stepAtGoals : List RuliadGoalCertificate → ℕ → Option (ℕ × RuliadProofStep)
  | [], _ => none
  | goal :: goals, index =>
    match goal.steps[index]? with
    | some step => some (goal.goal, step)
    | none => stepAtGoals goals (index - goal.steps.length)

/-- `step_at`: the step with the given index when the goals' steps are counted through. -/
def stepAt (certificate : RuliadProofCertificate) (index : ℕ) : Option (ℕ × RuliadProofStep) :=
  stepAtGoals certificate.goals index

/-- The loop of `prefix_before`. -/
def prefixBeforeGoals : List RuliadGoalCertificate → ℕ → Option (List RuliadGoalCertificate)
  | [], _ => none
  | goal :: goals, index =>
    if index < goal.steps.length then
      some [{ goal with steps := goal.steps.take index }]
    else
      (prefixBeforeGoals goals (index - goal.steps.length)).map (goal :: ·)

/-- `prefix_before`: the certificate up to the step with the given index. -/
def prefixBefore (certificate : RuliadProofCertificate) (index : ℕ) :
    Option RuliadProofCertificate :=
  (prefixBeforeGoals certificate.goals index).map fun goals => { certificate with goals }

/-- `single_step_at`. -/
def singleStepAt (certificate : RuliadProofCertificate) (index : ℕ) :
    Option RuliadProofCertificate :=
  (certificate.stepAt index).map fun (goal, step) =>
    { certificate with goals := [{ goal, steps := [step] }] }

/-- The loop of `with_step_replaced`. -/
def replaceStepGoals (replacement : RuliadProofStep) :
    List RuliadGoalCertificate → ℕ → Option (List RuliadGoalCertificate)
  | [], _ => none
  | goal :: goals, index =>
    if index < goal.steps.length then
      some ({ goal with steps := goal.steps.set index replacement } :: goals)
    else
      (replaceStepGoals replacement goals (index - goal.steps.length)).map (goal :: ·)

/-- `with_step_replaced`. -/
def withStepReplaced (certificate : RuliadProofCertificate) (index : ℕ)
    (replacement : RuliadProofStep) : Option RuliadProofCertificate :=
  (replaceStepGoals replacement certificate.goals index).map fun goals =>
    { certificate with goals }

end RuliadProofCertificate

structure RuliadProofBundle where
  problem : RuliadProofProblem
  certificate : RuliadProofCertificate
  deriving DecidableEq

/-- `RuliadComplexityVector`. -/
structure RuliadComplexityVector where
  syntaxNodes : ℕ
  axiomCount : ℕ
  proofGoalCount : ℕ
  proofStepCount : ℕ
  dependencyDepth : ℕ
  dependencyWidth : ℕ
  variableCount : ℕ
  maximumTermDepth : ℕ
  distractorAxiomCount : ℕ
  branchEntropyMillibits : ℕ
  binderDepth : ℕ
  abstractionDepth : ℕ
  memoryHorizon : ℕ
  representationShift : ℕ
  solutionMultiplicity : ℕ
  searchBranching : ℕ
  verifierWork : ℕ
  deriving DecidableEq

end BurnDragon.Ruliad
