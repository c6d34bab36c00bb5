import BurnDragon.Ruliad.ModelCertificate
import BurnDragon.Ruliad.Oracles

/-!
# Compact answers

The reference answers of the specs, `compact_answer` of `oracles.rs`, and the answers of the action
menus of `policy.rs`. Most answers are read off the spec; the answer of a formal proof is made from the
certificate, from the kernel's report on a candidate or from an action menu.
-/

namespace BurnDragon.Ruliad

open Rust

/-! ## Parts of answers -/

def bit (value : Bool) : ℕ := if value then 1 else 0

/-- `symbolic_word_certificate`: the length, the alphabet, the number of occurrences of each symbol
and the first and last symbol of a word. -/
def symbolicWordCertificate (prefix_ value alphabet : String) : String :=
  let alphabet := if alphabet = "" then "_" else alphabet
  let counts := String.intercalate ","
    (alphabet.toList.map fun symbol => decimal (value.toList.count symbol))
  let edge := match value.toList.head?, value.toList.getLast? with
    | some first, some last => String.ofList [first, last]
    | _, _ => "_"
  prefix_ ++ "len=" ++ decimal value.toList.length ++ ";" ++ prefix_ ++ "alpha=" ++ alphabet ++ ";" ++
    prefix_ ++ "counts=" ++ counts ++ ";" ++ prefix_ ++ "edge=" ++ edge

/-- An index of a failure, or `none`. -/
def failureIndex (index : Option ℕ) : String := (index.map decimal).getD "none"

/-- `formal_check_answer`. -/
def formalCheckAnswer (report : RuliadReplayReport) : String :=
  let kind := (report.failure.map fun failure => failure.kind.label).getD "none"
  let failedGoal := failureIndex (report.failure.bind fun failure => failure.goal)
  let failedStep := failureIndex (report.failure.bind fun failure => failure.step)
  "ok=" ++ decimal (bit report.accepted) ++ ";vg=" ++ decimal report.verifiedGoals ++ ";vs=" ++
    decimal report.verifiedSteps ++ ";g=" ++ failedGoal ++ ";s=" ++ failedStep ++ ";k=" ++ kind

/-! ## Menus -/

/-- `parse_proof_action_index`. -/
def parseProofActionIndex (answer : String) : Option ℕ :=
  match (trim answer.toList).splitOn ';' with
  | [field] => (stripPrefix "c=".toList field).bind parseUsize
  | _ => none

/-- `proof_action_answer`. -/
def proofActionAnswer (actions : RuliadProofActionSet) (candidateIndex : ℕ)
    (contract : RuliadProofActionAnswerContract) : Except String String := do
  let candidate ← okOr actions.candidates[candidateIndex]?
    ("proof action candidate " ++ decimal candidateIndex ++ " is out of range")
  return match contract with
    | .presentationIndex => "c=" ++ decimal candidateIndex
    | .semanticStep => encodeModelProofStep actions.goal candidate.step

/-- `resolve_proof_action_answer`. -/
def resolveProofActionAnswer (actions : RuliadProofActionSet) (answer : String) :
    RuliadProofActionAnswerContract → Option ℕ
  | .presentationIndex =>
    (parseProofActionIndex answer).filter fun index => index < actions.candidates.length
  | .semanticStep =>
    match decodeModelProofStep answer with
    | none => none
    | some (goal, step) =>
      if goal = actions.goal then
        actions.candidates.findIdx? fun candidate => candidate.step = step
      else
        none

/-- The menu of an oracle transition in the order in which it is presented. -/
def presentedActionSet (S : Serde) (problem : RuliadProofProblem)
    (certificate : RuliadProofCertificate) (stepIndex : ℕ) (rotation : Option ℕ) :
    Except String RuliadProofActionSet := do
  let actions ← oracleProofActionSet S problem certificate stepIndex defaultProofActionCandidates
  actions.rotateLeft (rotation.getD 0 % max actions.candidates.length 1)

/-! ## Answers -/

/-- The answer of a formal proof. -/
def formalAnswer (S : Serde) (spec : FormalProofSpec) : Run String :=
  match spec.task with
  | .constructProof => .ok <|
    match encodeModelCertificate spec.certificate with
    | .ok answer => answer
    | .error error => "invalid_certificate=" ++ error
  | .advanceProof => .ok <|
    match (spec.proofStepIndex.bind fun i => spec.certificate.singleStepAt i).bind fun next =>
        (encodeModelCertificate next).toOption with
    | some answer => answer
    | none => "invalid_transition"
  | .selectProofAction => .ok <|
    match spec.proofStepIndex.bind fun i =>
        (presentedActionSet S spec.problem spec.certificate i
          spec.actionPresentationRotation).toOption.bind fun actions =>
        (proofActionAnswer actions actions.selectedIndex spec.actionAnswerContract).toOption with
    | some answer => answer
    | none => "invalid_action_set"
  | .checkProof =>
    match spec.candidate with
    | some candidate => do
      let report ← replayCertificate S spec.problem candidate .default
      return formalCheckAnswer report
    | none => .ok "invalid_candidate"
  | _ => .ok "invalid_formal_task"

/-- The answer that compares two sides. -/
def sidesAnswer (holds : Bool) (lhs rhs : ℕ) : String :=
  "ok=" ++ decimal (bit holds) ++ ";l=" ++ decimal lhs ++ ";r=" ++ decimal rhs

/-- `compact_answer`, which `ruliad_expected_answer` returns. -/
def compactAnswer (S : Serde) : RuliadSampleSpec → Run String
  | .eca spec => .ok (symbolicWordCertificate "x" (spec.trace.getLast?.getD "") "01")
  | .simulation _ => .ok "ok=1"
  | .automaton spec => .ok ("acc=" ++ decimal (bit spec.accepted))
  | .rewrite spec => .ok (symbolicWordCertificate "nf" spec.normalForm spec.alphabet)
  | .algebra spec => .ok ("ok=" ++ decimal (bit spec.holds))
  | .category spec => .ok (sidesAnswer spec.holds spec.lhs spec.rhs)
  | .proofTree spec => .ok (sidesAnswer spec.holds spec.lhs spec.rhs)
  | .formalProof spec => formalAnswer S spec
  | .leanTask spec => .ok ("sha=" ++ spec.payloadHash)
  | .hashNoise spec => .ok ("sha=" ++ spec.payloadHash)

end BurnDragon.Ruliad
