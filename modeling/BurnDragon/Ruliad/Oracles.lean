import BurnDragon.Ruliad.Category
import BurnDragon.Ruliad.Eca
import BurnDragon.Ruliad.Policy

/-!
# The verifiers of the families

`verify_spec` of `oracles.rs`: one verifier for each family of specs. A verifier recomputes what the
spec stores and compares. The arithmetic of the proof trees is the machine's, so it depends on the
build whether an overflow panics; `overflowChecks` says whether it does.

A capacity is checked where it comes from an integer of the spec. Where as much is reserved as a text
or vector of the spec has items, it is not modelled.
-/

namespace BurnDragon.Ruliad

open Rust

/-! ## Cellular automata -/

def parseTrace (trace : List String) : List (List ℕ) := trace.map Eca.parseState

def verifyEca (spec : EcaSpec) : Run Bool := do
  let parsedInitial := Eca.parseState spec.initial
  let parsedTrace := parseTrace spec.trace
  let expected ← Eca.trace spec.rule parsedInitial spec.steps
  return spec.width = parsedInitial.length && parsedTrace.length = saturatingAdd spec.steps 1 &&
    parsedTrace = expected

def verifySimulation (spec : SimulationSpec) : Run Bool := do
  let sourceInitial := Eca.parseState spec.sourceInitial
  let targetInitial := Eca.parseState spec.targetInitial
  let sourceTrace := parseTrace spec.sourceTrace
  let targetTrace := parseTrace spec.targetTrace
  let mappedSourceTrace := parseTrace spec.mappedSourceTrace
  let expectedSource ← Eca.trace spec.sourceRule sourceInitial spec.steps
  let expectedTarget ← Eca.trace spec.targetRule targetInitial spec.steps
  let expectedMapped := expectedSource.map Eca.complementState
  return spec.width = sourceInitial.length &&
    targetInitial = Eca.complementState sourceInitial &&
    spec.targetRule = Eca.complementRule spec.sourceRule && sourceTrace = expectedSource &&
    targetTrace = expectedTarget && mappedSourceTrace = expectedMapped &&
    mappedSourceTrace = targetTrace

/-! ## Finite automata -/

def validTransitionTable (stateCount : ℕ) (transitions : List (List ℕ)) (alphabetSize : ℕ) :
    Bool :=
  stateCount > 0 && transitions.length = stateCount && transitions.all fun row =>
    row.length = alphabetSize && row.all fun nextState => nextState < stateCount

/-- The loop of `automaton_trace`. -/
def automatonFrom (transitions : List (List ℕ)) (state : ℕ) : List Char → Run (Option (List ℕ))
  | [] => .ok (some [])
  | symbol :: rest =>
    match (if symbol = '0' then some 0 else if symbol = '1' then some 1 else none) with
    | none => .ok none
    | some inputIndex => do
      let row ← index transitions state
      let next ← index row inputIndex
      let trace ← automatonFrom transitions next rest
      return trace.map fun trace => next :: trace

def automatonTrace (stateCount : ℕ) (transitions : List (List ℕ)) (startState : ℕ)
    (input : String) : Run (Option (List ℕ)) :=
  if !validTransitionTable stateCount transitions 2 || startState ≥ stateCount then
    .ok none
  else do
    let trace ← automatonFrom transitions startState input.toList
    return trace.map fun trace => startState :: trace

def verifyAutomaton (spec : AutomatonSpec) : Run Bool := do
  let recomputed ← automatonTrace spec.stateCount spec.transitions spec.startState spec.input
  return validTransitionTable spec.stateCount spec.transitions 2 &&
    spec.startState < spec.stateCount &&
    (spec.acceptStates.all fun state => state < spec.stateCount) &&
    recomputed = some spec.trace &&
    spec.trace.getLast?.any fun state => spec.acceptStates.contains state = spec.accepted

/-! ## Rewriting -/

def validAlphabet (alphabet : String) : Bool :=
  alphabet ≠ "" && (alphabet.toList.all fun symbol => symbol.toNat < 128) &&
    (alphabet.toList.all fun symbol => !isWhitespace symbol) && alphabet.toList.Nodup

def alphabetContains (alphabet value : String) : Bool :=
  value.toList.all fun symbol => alphabet.toList.contains symbol

/-- The better of the best match so far and the first match of a rule: the leftmost, and of those the
one of the first rule. -/
def betterMatch (value : String) (best : Option (ℕ × ℕ)) (entry : RuliadRewriteRule × ℕ) :
    Option (ℕ × ℕ) :=
  if entry.1.from_ = "" then
    best
  else
    match findText entry.1.from_.toList value.toList with
    | none => best
    | some position =>
      if best.all fun (bestPosition, bestRuleIndex) =>
          position < bestPosition || (position = bestPosition && entry.2 < bestRuleIndex) then
        some (position, entry.2)
      else
        best

def bestMatch (value : String) (rules : List RuliadRewriteRule) : Option (ℕ × ℕ) :=
  rules.zipIdx.foldl (betterMatch value) none

def applyRewriteOnce (value : String) (rules : List RuliadRewriteRule) : Run (Option String) :=
  match bestMatch value rules with
  | none => .ok none
  | some (position, ruleIndex) => do
    let rule ← index rules ruleIndex
    return some (String.ofList (value.toList.take position ++ rule.to_.toList ++
      value.toList.drop (position + rule.from_.toList.length)))

/-- The loop of `rewrite_trace`: at most the given number of states after a state. -/
def rewriteFrom (rules : List RuliadRewriteRule) : ℕ → String → Run (List String)
  | 0, _ => .ok []
  | steps + 1, current => do
    match ← applyRewriteOnce current rules with
    | none => return []
    | some next => return next :: (← rewriteFrom rules steps next)

/-- `rewrite_trace`. A state is a text of 24 bytes besides its characters. -/
def rewriteTrace (initial : String) (rules : List RuliadRewriteRule) (steps : ℕ) :
    Run (List String) := do
  withCapacity 24 (saturatingAdd steps 1)
  let trace ← rewriteFrom rules steps initial
  return initial :: trace

/-- The check of a rule: it makes the text shorter and stays in the alphabet. -/
def validRewriteRule (alphabet : String) (rule : RuliadRewriteRule) : Bool :=
  rule.from_ ≠ "" && byteLen rule.from_.toList > byteLen rule.to_.toList && rule.to_ ≠ "" &&
    alphabetContains alphabet rule.from_ && alphabetContains alphabet rule.to_

def verifyRewrite (spec : RewriteSpec) : Run Bool := do
  let expected ← rewriteTrace spec.initial spec.rules spec.steps
  return validAlphabet spec.alphabet && alphabetContains spec.alphabet spec.initial &&
    (spec.trace.all fun state => alphabetContains spec.alphabet state) &&
    alphabetContains spec.alphabet spec.normalForm && spec.rules ≠ [] &&
    (spec.rules.all fun rule => validRewriteRule spec.alphabet rule) && expected = spec.trace &&
    spec.trace.getLast? = some spec.normalForm

/-! ## Algebra -/

def validOperationTable (carrierSize : ℕ) (operationTable : List (List ℕ)) : Bool :=
  carrierSize > 0 && operationTable.length = carrierSize && operationTable.all fun row =>
    row.length = carrierSize && row.all fun value => value < carrierSize

/-- The closure `op`. -/
def operation (operationTable : List (List ℕ)) (left right : ℕ) : Run ℕ := do
  let row ← index operationTable left
  index row right

/-- The two sides of a law at three or two operands. -/
def lawSides (operationTable : List (List ℕ)) (law : RuliadAlgebraLaw) (operands : List ℕ) :
    Run (Option (ℕ × ℕ)) :=
  match law, operands with
  | .associativity, [a, b, c] => do
    let lhs ← operation operationTable (← operation operationTable a b) c
    let rhs ← operation operationTable a (← operation operationTable b c)
    return some (lhs, rhs)
  | .commutativity, [a, b] => do
    let lhs ← operation operationTable a b
    let rhs ← operation operationTable b a
    return some (lhs, rhs)
  | _, _ => .ok none

def algebraLawResult (carrierSize : ℕ) (operationTable : List (List ℕ)) (law : RuliadAlgebraLaw)
    (operands : List ℕ) : Run (Option (ℕ × ℕ)) :=
  if !validOperationTable carrierSize operationTable ||
      operands.any (fun operand => operand ≥ carrierSize) then
    .ok none
  else
    lawSides operationTable law operands

def verifyAlgebra (spec : AlgebraSpec) : Run Bool := do
  let recomputed ← algebraLawResult spec.carrierSize spec.operationTable spec.law spec.operands
  return validOperationTable spec.carrierSize spec.operationTable &&
    recomputed.any fun (expectedLhs, expectedRhs) =>
      expectedLhs = spec.lhs && expectedRhs = spec.rhs &&
        (decide (expectedLhs = expectedRhs)) = spec.holds

/-! ## Categories -/

/-- The `task_ok` of a category. -/
def categoryTaskOk (spec : CategorySpec) : Run Bool :=
  let functorOk := Category.validFunctor spec.objectCount spec.morphisms spec.identities
    spec.composition
  let equalOk : Run Bool := .ok ((decide (spec.lhs = spec.rhs)) = spec.holds)
  match spec.task, spec.functor, spec.naturality with
  | .composeCategoryPath, _, _ | .verifyCategoryLaw, _, _ =>
    andThen (.ok (Category.composePath spec.morphisms spec.composition spec.path =
      some spec.composed)) equalOk
  | .verifyFunctorPreservation, some functor, _ => andThen (functorOk functor) equalOk
  | .verifyNaturalitySquare, some functor, some naturality =>
    andThen (functorOk functor) (andThen
      (Category.naturalityCommutes spec.morphisms spec.composition functor naturality) equalOk)
  | _, _, _ => .ok false

/-- The verifier of a category. It looks at the task before it looks at the category. -/
def verifyCategory (spec : CategorySpec) : Run Bool := do
  let taskOk ← categoryTaskOk spec
  andThen
    (Category.validFiniteCategory spec.objectCount spec.morphisms spec.identities
      spec.composition)
    (.ok (taskOk && spec.holds && spec.lhs < spec.morphisms.length &&
      spec.rhs < spec.morphisms.length && spec.composed < spec.morphisms.length))

/-! ## Proof trees -/

section ProofTree

variable (overflowChecks : Bool)

/-- `(a + b) % modulus`. -/
def modAdd (a b modulus : ℕ) : Run ℕ := do
  let total ← usizeResult overflowChecks (a + b)
  remainder total modulus

def modDot (left right : ℕ × ℕ) (modulus : ℕ) : Run ℕ :=
  if modulus = 0 then
    .ok 0
  else do
    let first ← usizeResult overflowChecks (left.1 * right.1)
    let second ← usizeResult overflowChecks (left.2 * right.2)
    modAdd overflowChecks first second modulus

def modNorm (value : ℕ × ℕ) (modulus : ℕ) : Run ℕ := modDot overflowChecks value value modulus

def verifyProofTree (spec : ProofTreeSpec) : Run Bool := do
  let sumFirst ← modAdd overflowChecks spec.u.1 spec.v.1 spec.modulus
  let sumSecond ← modAdd overflowChecks spec.u.2 spec.v.2 spec.modulus
  let dot ← modDot overflowChecks spec.u spec.v spec.modulus
  let normU ← modNorm overflowChecks spec.u spec.modulus
  let normV ← modNorm overflowChecks spec.v spec.modulus
  let normSum ← modNorm overflowChecks spec.sum spec.modulus
  let rhs ← modAdd overflowChecks normU normV spec.modulus
  let theoremHolds := dot = 0 && normSum = rhs
  return spec.modulus ≥ 2 && spec.sum = (sumFirst, sumSecond) && spec.dot = dot &&
    spec.normU = normU && spec.normV = normV && spec.normSum = normSum && spec.lhs = normSum &&
    spec.rhs = rhs && spec.holds = theoremHolds && spec.holds && spec.lemmas.length ≥ 4 &&
    spec.proofSteps.length ≥ 4

end ProofTree

/-! ## Formal proofs -/

/-- The `task_shape_ok` of a formal proof. -/
def taskShapeOk (S : Serde) (spec : FormalProofSpec) : Bool :=
  match spec.task with
  | .constructProof => spec.candidate.isNone && spec.proofStepIndex.isNone &&
      spec.actionPresentationRotation.isNone
  | .advanceProof => spec.candidate.isNone && spec.actionPresentationRotation.isNone &&
      spec.proofStepIndex.any fun i => (spec.certificate.stepAt i).isSome
  | .selectProofAction => spec.candidate.isNone && spec.proofStepIndex.any fun i =>
      match oracleProofActionSet S spec.problem spec.certificate i
        defaultProofActionCandidates with
      | .ok actions =>
        spec.actionPresentationRotation.all fun rotation => rotation < actions.candidates.length
      | .error _ => false
  | .checkProof => spec.candidate.isSome && spec.proofStepIndex.isNone &&
      spec.actionPresentationRotation.isNone
  | _ => false

def verifyFormalProof (S : Serde) (spec : FormalProofSpec) : Run Bool := do
  let oracle ← replayCertificate S spec.problem spec.certificate .default
  return oracle.accepted && taskShapeOk S spec

/-! ## Hashes -/

structure LeanProofTask where
  id : String
  statement : String
  proof : String
  payloadHash : Option String

def LeanProofTask.computedPayloadHash (S : Serde) (task : LeanProofTask) : String :=
  S.sha256Hex (task.id.toUTF8.toList ++ [0] ++ task.statement.toUTF8.toList ++ [0] ++
    task.proof.toUTF8.toList)

def LeanProofTask.validateHash (S : Serde) (task : LeanProofTask) : Bool :=
  task.payloadHash.all fun expected => expected = task.computedPayloadHash S

def verifyLeanTask (S : Serde) (spec : LeanTaskSpec) : Bool :=
  LeanProofTask.validateHash S ⟨spec.taskId, spec.statement, spec.proof, some spec.payloadHash⟩

def verifyHashNoise (P : Packages) (spec : HashNoiseSpec) : Bool :=
  let decoded := (P.hexDecode spec.bytesHex).getD []
  decoded ≠ [] && P.sha256Hex decoded = spec.payloadHash

/-! ## Specs -/

structure RuliadOracleReport where
  ok : Bool
  family : RuliadFamilyKind
  taskKind : RuliadTaskKind
  oracleHash : String
  deriving DecidableEq

section VerifySpec

variable (overflowChecks : Bool) (P : Packages)

/-- The verdict of a spec's family. -/
def verifyFamily : RuliadSampleSpec → Run Bool
  | .eca spec => verifyEca spec
  | .simulation spec => verifySimulation spec
  | .automaton spec => verifyAutomaton spec
  | .rewrite spec => verifyRewrite spec
  | .algebra spec => verifyAlgebra spec
  | .category spec => verifyCategory spec
  | .proofTree spec => verifyProofTree overflowChecks spec
  | .formalProof spec => verifyFormalProof P.toSerde spec
  | .leanTask spec => .ok (verifyLeanTask P.toSerde spec)
  | .hashNoise spec => .ok (verifyHashNoise P spec)

/-- `verify_spec`. -/
def verifySpec (spec : RuliadSampleSpec) : Run (Except String RuliadOracleReport) := do
  let ok ← verifyFamily overflowChecks P spec
  return (do
    let oracleHash ← spec.stableJsonHash P
    return ⟨ok, spec.family, spec.taskKind, oracleHash⟩)

/-- The verifier accepts the spec. -/
def VerifiesOk (spec : RuliadSampleSpec) : Prop :=
  ∃ report, verifySpec overflowChecks P spec = .ok (.ok report) ∧ report.ok = true

variable {overflowChecks P}

theorem verifiesOk_iff {spec : RuliadSampleSpec} :
    VerifiesOk overflowChecks P spec ↔ verifyFamily overflowChecks P spec = .ok true := by
  obtain ⟨hash, hhash⟩ := spec.stableJsonHash_ok P
  unfold VerifiesOk verifySpec
  cases verifyFamily overflowChecks P spec <;>
    simp [hhash, bind, Except.bind, pure, Except.pure]

end VerifySpec

end BurnDragon.Ruliad
