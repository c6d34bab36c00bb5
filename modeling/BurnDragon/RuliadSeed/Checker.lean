import BurnDragon.Equational.Term

/-!
# The seed checker

`RuliadSeed/Checker.lean`, the second checker for the same problems and certificates, written in Lean
with partial functions; here they recurse over the terms, the paths and the lists. It knows neither
limits nor hashes nor identifiers of goals, and it keeps a substitution as a list of bindings.
-/

namespace BurnDragon.RuliadSeed

def ruliadIrVersion : ℕ := 3

abbrev Term := Equational.Term ℕ String String

structure Equality where
  lhs : Term
  rhs : Term
  deriving DecidableEq

structure RewriteAxiom where
  id : String
  lhs : Term
  rhs : Term
  deriving DecidableEq

structure ProofGoal where
  dependencies : List ℕ
  claim : Equality
  deriving DecidableEq

structure Problem where
  version : ℕ
  axioms : List RewriteAxiom
  goals : List ProofGoal
  root : ℕ
  deriving DecidableEq

inductive RewriteDirection
  | forward
  | reverse
  deriving DecidableEq

inductive ProofSource
  | namedAxiom (id : String)
  | priorGoal (goal : ℕ)
  deriving DecidableEq

structure ProofStep where
  source : ProofSource
  path : List ℕ
  direction : RewriteDirection
  deriving DecidableEq

structure GoalCertificate where
  goal : ℕ
  steps : List ProofStep
  deriving DecidableEq

structure Certificate where
  version : ℕ
  goals : List GoalCertificate
  deriving DecidableEq

/-! ## Rewriting -/

abbrev Substitution := List (ℕ × Term)

def lookupSubstitution (index : ℕ) : Substitution → Option Term
  | [] => none
  | (key, value) :: rest => if key == index then some value else lookupSubstitution index rest

mutual

def matchTerm : Term → Term → Substitution → Option Substitution
  | .var index, value, substitution =>
    match lookupSubstitution index substitution with
    | some bound => if bound == value then some substitution else none
    | none => some ((index, value) :: substitution)
  | .atom left, .atom right, substitution => if left == right then some substitution else none
  | .apply leftOperator leftArguments, .apply rightOperator rightArguments, substitution =>
    if leftOperator == rightOperator then
      matchTermList leftArguments rightArguments substitution
    else
      none
  | .atom _, .var _, _ => none
  | .atom _, .apply _ _, _ => none
  | .apply _ _, .var _, _ => none
  | .apply _ _, .atom _, _ => none

def matchTermList : List Term → List Term → Substitution → Option Substitution
  | [], [], substitution => some substitution
  | pattern :: patternRest, value :: valueRest, substitution => do
    let next ← matchTerm pattern value substitution
    matchTermList patternRest valueRest next
  | [], _ :: _, _ => none
  | _ :: _, [], _ => none

end

mutual

def instantiate : Term → Substitution → Option Term
  | .var index, substitution => lookupSubstitution index substitution
  | .atom symbol, _ => some (.atom symbol)
  | .apply operator arguments, substitution => do
    let instantiated ← instantiateList arguments substitution
    some (.apply operator instantiated)

/-- The `mapM` of `instantiate` over the arguments. -/
def instantiateList : List Term → Substitution → Option (List Term)
  | [], _ => some []
  | argument :: rest, substitution => do
    let instantiated ← instantiate argument substitution
    let instantiatedRest ← instantiateList rest substitution
    some (instantiated :: instantiatedRest)

end

def replaceAt {α : Type} : List α → ℕ → α → Option (List α)
  | [], _, _ => none
  | _ :: rest, 0, replacement => some (replacement :: rest)
  | value :: rest, index + 1, replacement => do
    let replaced ← replaceAt rest index replacement
    some (value :: replaced)

def rewriteAtPath (term : Term) (path : List ℕ) (pattern replacement : Term) : Option Term :=
  match path with
  | [] => do
    let substitution ← matchTerm pattern term []
    instantiate replacement substitution
  | index :: rest =>
    match term with
    | .apply operator arguments => do
      let argument ← arguments[index]?
      let rewritten ← rewriteAtPath argument rest pattern replacement
      let nextArguments ← replaceAt arguments index rewritten
      some (.apply operator nextArguments)
    | _ => none

/-! ## Replay -/

def findAxiom (axioms : List RewriteAxiom) (id : String) : Option RewriteAxiom :=
  axioms.find? fun rule => rule.id == id

def sourceEquality (problem : Problem) (goal : ProofGoal) (source : ProofSource) :
    Option Equality :=
  match source with
  | .namedAxiom id => do
    let rule ← findAxiom problem.axioms id
    some { lhs := rule.lhs, rhs := rule.rhs }
  | .priorGoal dependency =>
    if goal.dependencies.contains dependency then
      (problem.goals[dependency]?).map fun dependencyGoal => dependencyGoal.claim
    else
      none

def applyStep (problem : Problem) (goal : ProofGoal) (current : Term) (step : ProofStep) :
    Option Term := do
  let equality ← sourceEquality problem goal step.source
  let (pattern, replacement) :=
    match step.direction with
    | .forward => (equality.lhs, equality.rhs)
    | .reverse => (equality.rhs, equality.lhs)
  rewriteAtPath current step.path pattern replacement

def replaySteps (problem : Problem) (goal : ProofGoal) : List ProofStep → Term → Option Term
  | [], current => some current
  | step :: rest, current => do
    let next ← applyStep problem goal current step
    replaySteps problem goal rest next

/-- Whether the dependencies lead from the goal `current` to the goal `target`. -/
def reachesGoal (problem : Problem) (target current : ℕ) : ℕ → Bool
  | 0 => false
  | fuel + 1 =>
    if target == current then
      true
    else
      match problem.goals[current]? with
      | none => false
      | some goal =>
        goal.dependencies.any fun dependency => reachesGoal problem target dependency fuel

def requiredGoals (problem : Problem) : List ℕ :=
  (List.range problem.goals.length).filter fun target =>
    reachesGoal problem target problem.root (problem.goals.length + 1)

def findGoalCertificate (certificates : List GoalCertificate) (goal : ℕ) :
    Option GoalCertificate :=
  certificates.find? fun certificate => certificate.goal == goal

def verifyGoalSequence (problem : Problem) (certificate : Certificate) :
    List ℕ → List ℕ → Bool
  | [], _ => true
  | goalIndex :: rest, verified =>
    match problem.goals[goalIndex]?, findGoalCertificate certificate.goals goalIndex with
    | some goal, some goalCertificate =>
      goal.dependencies.all (fun dependency => verified.contains dependency) &&
        (replaySteps problem goal goalCertificate.steps goal.claim.lhs == some goal.claim.rhs) &&
        verifyGoalSequence problem certificate rest (goalIndex :: verified)
    | _, _ => false

def checkCertificate (problem : Problem) (certificate : Certificate) : Bool :=
  let required := requiredGoals problem
  problem.version == ruliadIrVersion &&
    certificate.version == ruliadIrVersion &&
    !required.isEmpty &&
    decide (problem.root < problem.goals.length) &&
    (certificate.goals.map (fun goal => goal.goal) == required) &&
    verifyGoalSequence problem certificate required []

end BurnDragon.RuliadSeed
