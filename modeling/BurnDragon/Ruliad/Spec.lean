import BurnDragon.Ruliad.Ir

/-!
# Task specs

The specs of the Ruliad tasks, `RuliadSampleSpec` of `oracles.rs`, one structure for each family.
`Packages` adds to `Serde` the external code that the verifier calls on a spec.
-/

namespace BurnDragon.Ruliad

inductive RuliadFamilyKind
  | eca
  | simulation
  | automaton
  | rewrite
  | algebra
  | category
  | proofTree
  | formalProof
  | leanTask
  | hashNoise
  deriving DecidableEq

inductive RuliadTaskKind
  | nextState
  | multiStepState
  | verifySimulation
  | evaluateAutomaton
  | rewriteNormalForm
  | checkAlgebraLaw
  | composeCategoryPath
  | verifyCategoryLaw
  | verifyFunctorPreservation
  | verifyNaturalitySquare
  | proveTheorem
  | constructProof
  | advanceProof
  | selectProofAction
  | checkProof
  | completeProof
  | hashCanary
  deriving DecidableEq

inductive RuliadProofActionAnswerContract
  | presentationIndex
  | semanticStep
  deriving DecidableEq

/-! ## Families -/

structure EcaSpec where
  rule : ℕ
  width : ℕ
  steps : ℕ
  initial : String
  trace : List String
  task : RuliadTaskKind
  deriving DecidableEq

structure SimulationSpec where
  sourceRule : ℕ
  targetRule : ℕ
  width : ℕ
  steps : ℕ
  sourceInitial : String
  targetInitial : String
  sourceTrace : List String
  targetTrace : List String
  mappedSourceTrace : List String
  task : RuliadTaskKind
  deriving DecidableEq

structure AutomatonSpec where
  stateCount : ℕ
  transitions : List (List ℕ)
  startState : ℕ
  acceptStates : List ℕ
  input : String
  trace : List ℕ
  accepted : Bool
  task : RuliadTaskKind
  deriving DecidableEq

structure RuliadRewriteRule where
  from_ : String
  to_ : String
  deriving DecidableEq

structure RewriteSpec where
  alphabet : String
  rules : List RuliadRewriteRule
  initial : String
  steps : ℕ
  trace : List String
  normalForm : String
  task : RuliadTaskKind
  deriving DecidableEq

inductive RuliadAlgebraLaw
  | associativity
  | commutativity
  deriving DecidableEq

structure AlgebraSpec where
  carrierSize : ℕ
  operationTable : List (List ℕ)
  law : RuliadAlgebraLaw
  operands : List ℕ
  lhs : ℕ
  rhs : ℕ
  holds : Bool
  task : RuliadTaskKind
  deriving DecidableEq

structure RuliadCategoryMorphism where
  name : String
  source : ℕ
  target : ℕ
  identity : Bool
  deriving DecidableEq

structure RuliadCategoryFunctor where
  name : String
  objectMap : List ℕ
  morphismMap : List ℕ
  deriving DecidableEq

structure RuliadNaturalityCheck where
  sourceMorphism : ℕ
  leftPath : List ℕ
  rightPath : List ℕ
  deriving DecidableEq

structure CategorySpec where
  objectCount : ℕ
  morphisms : List RuliadCategoryMorphism
  identities : List ℕ
  composition : List (List (Option ℕ))
  path : List ℕ
  composed : ℕ
  lhs : ℕ
  rhs : ℕ
  holds : Bool
  proofSteps : List String
  functor : Option RuliadCategoryFunctor
  naturality : Option RuliadNaturalityCheck
  task : RuliadTaskKind
  deriving DecidableEq

structure ProofTreeSpec where
  modulus : ℕ
  u : ℕ × ℕ
  v : ℕ × ℕ
  sum : ℕ × ℕ
  dot : ℕ
  normU : ℕ
  normV : ℕ
  normSum : ℕ
  lhs : ℕ
  rhs : ℕ
  holds : Bool
  lemmas : List String
  proofSteps : List String
  task : RuliadTaskKind
  deriving DecidableEq

structure FormalProofSpec where
  problem : RuliadProofProblem
  certificate : RuliadProofCertificate
  candidate : Option RuliadProofCertificate
  proofStepIndex : Option ℕ
  actionPresentationRotation : Option ℕ
  actionAnswerContract : RuliadProofActionAnswerContract
  task : RuliadTaskKind
  deriving DecidableEq

structure LeanTaskSpec where
  taskId : String
  statement : String
  proof : String
  payloadHash : String
  task : RuliadTaskKind
  deriving DecidableEq

structure HashNoiseSpec where
  bytesHex : String
  payloadHash : String
  task : RuliadTaskKind
  deriving DecidableEq

inductive RuliadSampleSpec
  | eca (spec : EcaSpec)
  | simulation (spec : SimulationSpec)
  | automaton (spec : AutomatonSpec)
  | rewrite (spec : RewriteSpec)
  | algebra (spec : AlgebraSpec)
  | category (spec : CategorySpec)
  | proofTree (spec : ProofTreeSpec)
  | formalProof (spec : FormalProofSpec)
  | leanTask (spec : LeanTaskSpec)
  | hashNoise (spec : HashNoiseSpec)
  deriving DecidableEq

namespace RuliadSampleSpec

/-- `family_of_spec`. -/
def family : RuliadSampleSpec → RuliadFamilyKind
  | eca _ => .eca
  | simulation _ => .simulation
  | automaton _ => .automaton
  | rewrite _ => .rewrite
  | algebra _ => .algebra
  | category _ => .category
  | proofTree _ => .proofTree
  | formalProof _ => .formalProof
  | leanTask _ => .leanTask
  | hashNoise _ => .hashNoise

/-- `task_kind_of_spec`. -/
def taskKind : RuliadSampleSpec → RuliadTaskKind
  | eca spec => spec.task
  | simulation spec => spec.task
  | automaton spec => spec.task
  | rewrite spec => spec.task
  | algebra spec => spec.task
  | category spec => spec.task
  | proofTree spec => spec.task
  | formalProof spec => spec.task
  | leanTask spec => spec.task
  | hashNoise spec => spec.task

end RuliadSampleSpec

/-! ## External code -/

/-- The packages that the verifier uses: the serializer of the specs and the decoder of hexadecimal
text, besides those of `Serde`. -/
structure Packages extends Serde where
  specToVec : RuliadSampleSpec → Except String (List UInt8)
  hexDecode : String → Option (List UInt8)
  specToVec_ok : ∀ spec, ∃ bytes, specToVec spec = .ok bytes

/-- Packages whose hash is a fixed digest: hashing as it is done at one problem. -/
def Packages.ofDigest (digest : String) : Packages where
  toSerde := .ofDigest digest
  specToVec _ := .ok []
  hexDecode _ := none
  specToVec_ok _ := ⟨_, rfl⟩

/-- `stable_json_hash` of a spec. -/
def RuliadSampleSpec.stableJsonHash (P : Packages) (spec : RuliadSampleSpec) :
    Except String String := do
  let bytes ← P.specToVec spec
  return P.sha256Hex bytes

theorem RuliadSampleSpec.stableJsonHash_ok (P : Packages) (spec : RuliadSampleSpec) :
    ∃ hash, spec.stableJsonHash P = .ok hash := by
  obtain ⟨bytes, h⟩ := P.specToVec_ok spec
  exact ⟨P.sha256Hex bytes, by rw [stableJsonHash, h]; rfl⟩

end BurnDragon.Ruliad
