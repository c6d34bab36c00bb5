import BurnDragon.Rust.BTreeMap

/-!
# Experiment bundles

A bundle is a list of stages that run one after the other. The state of a stage is a file in the
directory of the stage. `execute_bundle` skips the completed stages if it is told to resume, runs the
others with the artifacts collected so far, and records every change in the files.

A stage, its validation and its run are parameters of a call, and so is the clock. The JSON text of a
state is a payload that reads back as the state (`StateFormat`).
-/

namespace BurnDragon.Bundle

open Rust

/-! ## States -/

inductive StageStatus
  | pending
  | running
  | completed
  | failed
  deriving DecidableEq, Repr

structure StageState (Artifact : Type*) where
  stageName : String
  status : StageStatus
  startedAtUnixSecs : Option ℕ
  completedAtUnixSecs : Option ℕ
  lastError : Option String
  artifact : Artifact
  deriving DecidableEq

/-- The components of a path. -/
abbrev Path := List String

structure BundleState (Artifact : Type*) where
  bundleName : String
  bundleRoot : Path
  latestCompletedStage : Option String
  stages : List (StageState Artifact)
  deriving DecidableEq

variable {Payload Stage Artifact : Type*}

/-- The texts of the states. -/
structure StateFormat (Payload Artifact : Type*) where
  encodeStage : StageState Artifact → Payload
  encodeBundle : BundleState Artifact → Payload
  decodeStage : Payload → Except String (StageState Artifact)
  decode_encode : ∀ state, decodeStage (encodeStage state) = .ok state

def stageStatePath (stageDir : Path) : Path := stageDir ++ ["stage_state.json"]

def bundleStatePath (bundleRoot : Path) : Path := bundleRoot ++ ["bundle_state.json"]

/-- The files below a bundle root. -/
abbrev Files (Payload : Type*) := Path → Option Payload

def Files.write (files : Files Payload) (path : Path) (payload : Payload) : Files Payload :=
  Function.update files path (some payload)

def loadStageState (format : StateFormat Payload Artifact) (files : Files Payload) (stageDir : Path) :
    Except String (Option (StageState Artifact)) :=
  match files (stageStatePath stageDir) with
  | none => .ok none
  | some payload => (format.decodeStage payload).map some

def writeStageState (format : StateFormat Payload Artifact) (files : Files Payload) (stageDir : Path)
    (state : StageState Artifact) : Files Payload :=
  files.write (stageStatePath stageDir) (format.encodeStage state)

def buildBundleState (bundleName : String) (bundleRoot : Path)
    (stageStates : List (StageState Artifact)) : BundleState Artifact :=
  { bundleName
    bundleRoot
    latestCompletedStage :=
      (stageStates.reverse.find? fun stage => stage.status = .completed).map StageState.stageName
    stages := stageStates }

def writeBundleState (format : StateFormat Payload Artifact) (files : Files Payload)
    (bundleRoot : Path) (state : BundleState Artifact) : Files Payload :=
  files.write (bundleStatePath bundleRoot) (format.encodeBundle state)

/-! ## Calls -/

structure BundleExecutionOptions where
  resumeFromLastCompletedStage : Bool
  stopAfterStage : Option String
  deriving DecidableEq, Repr

/-- The arguments that every call on one bundle root repeats. -/
structure Bundle (Stage : Type*) where
  bundleName : String
  bundleRoot : Path
  stages : List Stage
  stageName : Stage → String
  stageDirFor : Path → ℕ → Stage → Path

/-- The directory of the stage at an index. -/
def Bundle.stageDir (bundle : Bundle Stage) (index : ℕ) (stage : Stage) : Path :=
  bundle.stageDirFor bundle.bundleRoot index stage

/-- The arguments of one call, with the times at which the stage of an index starts and ends. -/
structure Call (Stage Artifact : Type*) where
  options : BundleExecutionOptions
  validateStage : Stage → BTreeMap String Artifact → Except String Unit
  runStage : ℕ → Stage → Path → BTreeMap String Artifact → Except String Artifact
  startedAt : ℕ → ℕ
  completedAt : ℕ → ℕ

/-- One stage of `resolve_completed_stage_artifacts`. -/
def insertCompleted (bundle : Bundle Stage) (format : StateFormat Payload Artifact)
    (files : Files Payload) (artifacts : BTreeMap String Artifact) (stage : Stage × ℕ) :
    Except String (BTreeMap String Artifact) :=
  match loadStageState format files (bundle.stageDir stage.2 stage.1) with
  | .error e => .error e
  | .ok none => .ok artifacts
  | .ok (some state) =>
    if state.status = .completed then
      .ok (artifacts.insert (bundle.stageName stage.1) state.artifact)
    else .ok artifacts

def resolveCompletedStageArtifacts (bundle : Bundle Stage) (format : StateFormat Payload Artifact)
    (files : Files Payload) : Except String (BTreeMap String Artifact) :=
  bundle.stages.zipIdx.foldlM (insertCompleted bundle format files) .empty

/-- The variables of the stage loop of `execute_bundle`. -/
structure Execution (Payload Artifact : Type*) where
  files : Files Payload
  dependencyArtifacts : BTreeMap String Artifact
  stageStates : List (StageState Artifact)

/-- How a pass of the stage loop ends. -/
inductive StagePass (Payload Artifact : Type*)
  | next (s : Execution Payload Artifact)
  | stop (s : Execution Payload Artifact)
  | fail (files : Files Payload) (e : String)

/-- The end of a pass: the loop stops after the stage that the options name. -/
def StagePass.after (options : BundleExecutionOptions) (stageName : String)
    (s : Execution Payload Artifact) : StagePass Payload Artifact :=
  if options.stopAfterStage = some stageName then .stop s else .next s

variable [Inhabited Artifact]

/-- The part of a pass that runs a stage. -/
def runPass (bundle : Bundle Stage) (format : StateFormat Payload Artifact)
    (call : Call Stage Artifact) (index : ℕ) (stage : Stage) (s : Execution Payload Artifact) :
    StagePass Payload Artifact :=
  let stageDir := bundle.stageDir index stage
  let stageName := bundle.stageName stage
  let startedAt := call.startedAt index
  let running := writeStageState format s.files stageDir
    ⟨stageName, .running, some startedAt, none, none, default⟩
  match call.runStage index stage stageDir s.dependencyArtifacts with
  | .error e =>
    let state := ⟨stageName, .failed, some startedAt, some (call.completedAt index), some e, default⟩
    let failed := writeStageState format running stageDir state
    .fail (writeBundleState format failed bundle.bundleRoot
      (buildBundleState bundle.bundleName bundle.bundleRoot (s.stageStates ++ [state]))) e
  | .ok artifact =>
    let state := ⟨stageName, .completed, some startedAt, some (call.completedAt index), none, artifact⟩
    let completed := writeStageState format running stageDir state
    let stageStates := s.stageStates ++ [state]
    .after call.options stageName
      { files := writeBundleState format completed bundle.bundleRoot
          (buildBundleState bundle.bundleName bundle.bundleRoot stageStates)
        dependencyArtifacts := s.dependencyArtifacts.insert stageName artifact
        stageStates }

/-- One pass of the stage loop. -/
def stagePass (bundle : Bundle Stage) (format : StateFormat Payload Artifact)
    (call : Call Stage Artifact) (index : ℕ) (stage : Stage) (s : Execution Payload Artifact) :
    StagePass Payload Artifact :=
  match loadStageState format s.files (bundle.stageDir index stage) with
  | .error e => .fail s.files e
  | .ok priorState =>
    match priorState.filter fun state =>
      call.options.resumeFromLastCompletedStage && state.status = .completed with
    | some state =>
      .after call.options (bundle.stageName stage)
        { s with
          dependencyArtifacts := s.dependencyArtifacts.insert (bundle.stageName stage) state.artifact
          stageStates := s.stageStates ++ [state] }
    | none =>
      match call.validateStage stage s.dependencyArtifacts with
      | .error e => .fail s.files e
      | .ok () => runPass bundle format call index stage s

/-- The stage loop, from the stage at `index` on. -/
def stageLoop (bundle : Bundle Stage) (format : StateFormat Payload Artifact)
    (call : Call Stage Artifact) :
    ℕ → List Stage → Execution Payload Artifact →
      Files Payload × Except String (List (StageState Artifact))
  | _, [], s => (s.files, .ok s.stageStates)
  | index, stage :: rest, s =>
    match stagePass bundle format call index stage s with
    | .next s => stageLoop bundle format call (index + 1) rest s
    | .stop s => (s.files, .ok s.stageStates)
    | .fail files e => (files, .error e)

/-- `execute_bundle`, with the files it leaves. -/
def executeBundle (bundle : Bundle Stage) (format : StateFormat Payload Artifact)
    (call : Call Stage Artifact) (files : Files Payload) :
    Files Payload × Except String (BundleState Artifact) :=
  match resolveCompletedStageArtifacts bundle format files with
  | .error e => (files, .error e)
  | .ok dependencyArtifacts =>
    match stageLoop bundle format call 0 bundle.stages ⟨files, dependencyArtifacts, []⟩ with
    | (files, .error e) => (files, .error e)
    | (files, .ok stageStates) =>
      let state := buildBundleState bundle.bundleName bundle.bundleRoot stageStates
      (writeBundleState format files bundle.bundleRoot state, .ok state)

end BurnDragon.Bundle
