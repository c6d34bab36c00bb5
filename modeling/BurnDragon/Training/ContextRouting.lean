import BurnDragon.Rust.Method
import BurnDragon.Training.ContextMasks

/-!
# Restoring the context routing

`context_routing.rs`: the routing keeps, for every predictive context, a pair of masks, a stream
state and an optimizer. `restore_checkpoint` reads the metadata of an epoch, takes over its bank,
novelty gate and current identity, makes the missing slots, and only then checks generations and
identity and reads the optimizers and the stream states, one file after the other.

* `restoreCheckpoint_ends`: after `Ok(true)` the routing is the checkpoint's; a refusal before the
  first assignment leaves it as it was; a later one leaves it as `PartlyRestored` says.

The bank of the `burn_pc` crate is an abstract value; an optimizer, a model state and their records
are too. The files of the checkpoint are functions that may fail.
-/

namespace BurnDragon.Training

open Rust Scheduling List

/-! ## The data -/

structure PredictiveContextIdentity where
  contextIndex : ℕ
  generation : ℕ
  deriving DecidableEq

structure PredictiveContextLifecycle where
  generation : ℕ

/-- What the routing asks of a predictive context bank. -/
structure BankInterface (Bank BankConfig : Type) where
  config : Bank → BankConfig
  knownContexts : Bank → ℕ
  lifecycles : Bank → List PredictiveContextLifecycle
  identity : Bank → ℕ → Option PredictiveContextIdentity

structure PredictiveContextRoutingCheckpoint (Bank Gate : Type) where
  schemaVersion : ℕ
  bank : Bank
  noveltyGate : Gate
  current : Option PredictiveContextIdentity
  optimizerGenerations : List ℕ

structure PredictiveContextRoutingConfig (BankConfig : Type) where
  bank : BankConfig
  activeFraction : Option ℚ

structure DragonContextMasks where
  neuron : List ℚ
  activity : List ℚ

def neuronSeed (seed : UInt64) : UInt64 := seed ^^^ 0xA11CE5E17A110001

def activitySeed (seed : UInt64) : UInt64 := seed ^^^ 0xAC7101715EED0002

/-- The routing between calls. The mask values are the context masks of its seed, and every slot has
an optimizer. -/
structure PredictiveContextRoutingRuntime (Bank BankConfig Gate Optimizer State : Type) where
  config : PredictiveContextRoutingConfig BankConfig
  seed : UInt64
  nHead : ℕ
  latentPerHead : ℕ
  nEmbd : ℕ
  bank : Bank
  noveltyGate : Gate
  current : Option PredictiveContextIdentity
  masks : List DragonContextMasks
  neuronMaskValues : List (List ℚ)
  activityMaskValues : List (List ℚ)
  streamStates : List (Option State)
  optimizers : List Optimizer
  freshOptimizer : Optimizer
  neuron_eq : contextMasks (neuronSeed seed) (saturatingMul nHead latentPerHead)
    config.activeFraction masks.length = .ok neuronMaskValues
  activity_eq : contextMasks (activitySeed seed) nEmbd config.activeFraction masks.length =
    .ok activityMaskValues
  optimizers_length : optimizers.length = masks.length

/-- The parts of the routing that are not under its control: the bank, and how records are read back
into an optimizer and a model state. -/
structure RoutingLibrary (Bank BankConfig Gate Optimizer OptimizerRecord State StateRecord : Type)
    extends BankInterface Bank BankConfig where
  parse : List UInt8 → Except String (PredictiveContextRoutingCheckpoint Bank Gate)
  loadRecord : Optimizer → OptimizerRecord → Optimizer
  toModelState : StateRecord → State

/-- The files of a run, as a checkpointer sees them: a directory, a name and an epoch. -/
structure CheckpointFiles (OptimizerRecord StateRecord : Type) where
  isFile : String → Bool
  read : String → Except String (List UInt8)
  restoreOptimizer : String → String → ℕ → Except String OptimizerRecord
  restoreStreamStates : String → String → ℕ → Except String (List (Option StateRecord))

/-- An error under the context it occurred in. -/
def withContext (context : String) (result : Except String α) : Except String α :=
  result.mapError fun e => s!"{context}: {e}"

theorem withContext_eq_ok {context : String} {result : Except String α} {a : α} :
    withContext context result = .ok a ↔ result = .ok a := by
  cases result <;> simp [withContext, Except.mapError]

variable {Bank BankConfig Gate Optimizer OptimizerRecord State StateRecord : Type}

namespace PredictiveContextRoutingRuntime

variable (runtime : PredictiveContextRoutingRuntime Bank BankConfig Gate Optimizer State)

theorem neuronMaskValues_length : runtime.neuronMaskValues.length = runtime.masks.length :=
  length_contextMasks runtime.neuron_eq

theorem activityMaskValues_length : runtime.activityMaskValues.length = runtime.masks.length :=
  length_contextMasks runtime.activity_eq

/-- `PredictiveContextRoutingRuntime::new`, on a bank and a gate made from the configuration. -/
def new (config : PredictiveContextRoutingConfig BankConfig) (nHead latentTotal nEmbd : ℕ)
    (seed : UInt64) (bank : Bank) (noveltyGate : Gate) (optimizer : Optimizer) :
    PredictiveContextRoutingRuntime Bank BankConfig Gate Optimizer State where
  config := config
  seed := seed
  nHead := nHead
  latentPerHead := latentTotal / max nHead 1
  nEmbd := nEmbd
  bank := bank
  noveltyGate := noveltyGate
  current := none
  masks := []
  neuronMaskValues := []
  activityMaskValues := []
  streamStates := []
  optimizers := []
  freshOptimizer := optimizer
  neuron_eq := rfl
  activity_eq := rfl
  optimizers_length := rfl

/-! ## Slots -/

/-- One turn of the loop of `ensure_slot`. -/
def addSlot :
    Except String (PredictiveContextRoutingRuntime Bank BankConfig Gate Optimizer State) :=
  match hneuron : balancedContextMask (neuronSeed runtime.seed) runtime.masks.length
      (saturatingMul runtime.nHead runtime.latentPerHead) runtime.config.activeFraction
      runtime.neuronMaskValues with
  | .error e => .error e
  | .ok neuron =>
    match hactivity : balancedContextMask (activitySeed runtime.seed) runtime.masks.length
        runtime.nEmbd runtime.config.activeFraction runtime.activityMaskValues with
    | .error e => .error e
    | .ok activity =>
      .ok { runtime with
        neuronMaskValues := runtime.neuronMaskValues ++ [neuron]
        activityMaskValues := runtime.activityMaskValues ++ [activity]
        masks := runtime.masks ++ [⟨neuron, activity⟩]
        streamStates := runtime.streamStates ++ [none]
        optimizers := runtime.optimizers ++ [runtime.freshOptimizer]
        neuron_eq := by
          rw [List.length_append, List.length_singleton, contextMasks, runtime.neuron_eq]
          exact congrArg (· >>= fun mask => Except.ok (runtime.neuronMaskValues ++ [mask]))
            (runtime.neuronMaskValues_length ▸ hneuron)
        activity_eq := by
          rw [List.length_append, List.length_singleton, contextMasks, runtime.activity_eq]
          exact congrArg (· >>= fun mask => Except.ok (runtime.activityMaskValues ++ [mask]))
            (runtime.activityMaskValues_length ▸ hactivity)
        optimizers_length := by
          rw [List.length_append, List.length_append, runtime.optimizers_length]
          rfl }

/-- `ensure_slot`. Every turn of its loop adds one slot, so the number of turns is known before. -/
def ensureSlot (contextIndex : ℕ) :
    Method (PredictiveContextRoutingRuntime Bank BankConfig Gate Optimizer State) Unit := do
  let runtime ← Method.self
  (List.range (contextIndex + 1 - runtime.masks.length)).forM fun _ => Method.update addSlot

/-- The routing after some slots have been added. -/
structure SlotsAdded
    (before after : PredictiveContextRoutingRuntime Bank BankConfig Gate Optimizer State)
    (count : ℕ) : Prop where
  bank : after.bank = before.bank
  noveltyGate : after.noveltyGate = before.noveltyGate
  current : after.current = before.current
  freshOptimizer : after.freshOptimizer = before.freshOptimizer
  masks : ∃ added, added.length = count ∧ after.masks = before.masks ++ added
  streamStates : after.streamStates = before.streamStates ++ List.replicate count none
  optimizers : after.optimizers = before.optimizers ++ List.replicate count before.freshOptimizer

namespace SlotsAdded

variable {r s t : PredictiveContextRoutingRuntime Bank BankConfig Gate Optimizer State} {m n : ℕ}

theorem refl : SlotsAdded r r 0 where
  bank := rfl
  noveltyGate := rfl
  current := rfl
  freshOptimizer := rfl
  masks := ⟨[], rfl, (append_nil _).symm⟩
  streamStates := (append_nil _).symm
  optimizers := (append_nil _).symm

theorem trans (h : SlotsAdded r s m) (h' : SlotsAdded s t n) : SlotsAdded r t (m + n) where
  bank := h'.bank.trans h.bank
  noveltyGate := h'.noveltyGate.trans h.noveltyGate
  current := h'.current.trans h.current
  freshOptimizer := h'.freshOptimizer.trans h.freshOptimizer
  masks := by
    obtain ⟨added, hadded, hmasks⟩ := h.masks
    obtain ⟨added', hadded', hmasks'⟩ := h'.masks
    refine ⟨added ++ added', by rw [length_append, hadded, hadded'], ?_⟩
    rw [hmasks', hmasks, append_assoc]
  streamStates := by
    rw [h'.streamStates, h.streamStates, append_assoc, replicate_add]
  optimizers := by
    rw [h'.optimizers, h.optimizers, h.freshOptimizer, append_assoc, replicate_add]

theorem masks_length (h : SlotsAdded r s m) : s.masks.length = r.masks.length + m := by
  obtain ⟨added, hadded, hmasks⟩ := h.masks
  rw [hmasks, length_append, hadded]

end SlotsAdded

theorem slotsAdded_addSlot
    {runtime after : PredictiveContextRoutingRuntime Bank BankConfig Gate Optimizer State}
    (h : runtime.addSlot = .ok after) : SlotsAdded runtime after 1 := by
  unfold addSlot at h
  split at h
  · cases h
  · split at h
    · cases h
    · obtain rfl := Except.ok.inj h
      exact ⟨rfl, rfl, rfl, rfl, ⟨_, rfl, rfl⟩, rfl, rfl⟩

/-- `ensure_slot` adds the slots that are missing, or fails after some of them. -/
theorem ensureSlot_ends (contextIndex : ℕ) :
    (ensureSlot contextIndex).Ends runtime
      (fun _ after => SlotsAdded runtime after (contextIndex + 1 - runtime.masks.length))
      (fun _ after => ∃ count ≤ contextIndex + 1 - runtime.masks.length,
        SlotsAdded runtime after count) := by
  refine .bind (.self ?_)
  refine .forM (fun done after => SlotsAdded runtime after done.length) .refl ?_ ?_
  · intro done item rest after hrange hafter
    have hlength := congrArg List.length hrange
    rw [length_range, length_append, length_cons] at hlength
    refine .update (fun next hnext => ?_) fun e _ => ⟨done.length, by omega, hafter⟩
    rw [length_append]
    exact hafter.trans (slotsAdded_addSlot hnext)
  · intro after hafter
    rwa [length_range] at hafter

/-- The item of a range comes after as many items as it says. -/
theorem eq_length_of_range_eq {n item : ℕ} {done rest : List ℕ}
    (h : List.range n = done ++ item :: rest) : item = done.length ∧ item < n := by
  have hitem : (List.range n)[done.length]? = some item := by
    rw [h, getElem?_append_right le_rfl, Nat.sub_self]
    rfl
  have hlength := congrArg List.length h
  rw [length_range, length_append, length_cons] at hlength
  rw [getElem?_range (by omega)] at hitem
  have := Option.some.inj hitem
  omega

/-- The loop of `restore_checkpoint` over the known contexts adds the slots that are missing. -/
theorem ensureSlots_ends (known : ℕ) :
    ((List.range known).forM ensureSlot).Ends runtime
      (fun _ after => SlotsAdded runtime after (known - runtime.masks.length))
      (fun _ after => ∃ count ≤ known - runtime.masks.length, SlotsAdded runtime after count) := by
  refine .forM (fun done after => SlotsAdded runtime after (done.length - runtime.masks.length))
    (by simpa using SlotsAdded.refl) ?_ ?_
  · intro done item rest after hrange hafter
    obtain ⟨rfl, hitem⟩ := eq_length_of_range_eq hrange
    have hlength := hafter.masks_length
    refine (ensureSlot_ends after done.length).imp (fun _ next hnext => ?_) fun _ next hnext => ?_
    · have hcount : (done ++ [done.length]).length - runtime.masks.length =
          done.length - runtime.masks.length + (done.length + 1 - after.masks.length) := by
        rw [length_append, length_singleton]
        omega
      rw [hcount]
      exact hafter.trans hnext
    · obtain ⟨count, hcount, hnext⟩ := hnext
      exact ⟨_, by omega, hafter.trans hnext⟩
  · intro after hafter
    rwa [length_range] at hafter

end PredictiveContextRoutingRuntime

/-! ## Reading a checkpoint back -/

section Restore

open PredictiveContextRoutingRuntime

variable
  (library : RoutingLibrary Bank BankConfig Gate Optimizer OptimizerRecord State StateRecord)
  (files : CheckpointFiles OptimizerRecord StateRecord) (runDir : String) (epoch : ℕ)

/-- `{current:?}`. -/
def debugIdentity (identity : PredictiveContextIdentity) : String :=
  s!"PredictiveContextIdentity \x7b context_index: {identity.contextIndex}, " ++
    s!"generation: {identity.generation} \x7d"

/-- The part of `restore_checkpoint` before the first assignment; `none` is its `Ok(false)`. -/
def readCheckpoint [DecidableEq BankConfig] (config : PredictiveContextRoutingConfig BankConfig)
    (requireExact : Bool) :
    Except String (Option (PredictiveContextRoutingCheckpoint Bank Gate)) :=
  let metadataPath := s!"{runDir}/checkpoint/context-routing-{epoch}.json"
  if files.isFile metadataPath = false then
    if requireExact then
      .error s!"exact resume requires predictive context checkpoint {metadataPath}"
    else
      .ok none
  else do
    let bytes ← withContext s!"read {metadataPath}" (files.read metadataPath)
    let checkpoint ← withContext s!"parse {metadataPath}" (library.parse bytes)
    if checkpoint.schemaVersion ≠ 1 then
      .error s!"unsupported predictive context checkpoint schema {checkpoint.schemaVersion}"
    else if library.config checkpoint.bank ≠ config.bank then
      .error ("predictive context checkpoint bank configuration does not match the training " ++
        "contract")
    else
      .ok (some checkpoint)

/-- The checks between the slots and the optimizers. -/
def checkIdentities (checkpoint : PredictiveContextRoutingCheckpoint Bank Gate) :
    Except String Unit :=
  if (library.lifecycles checkpoint.bank).map (·.generation) ≠ checkpoint.optimizerGenerations then
    .error "predictive context optimizer generations do not match context identities"
  else
    match checkpoint.current with
    | none => .ok ()
    | some current =>
      if library.identity checkpoint.bank current.contextIndex ≠ some current then
        .error s!"predictive context checkpoint has stale current identity {debugIdentity current}"
      else
        .ok ()

def readOptimizer (contextIndex : ℕ) : Except String OptimizerRecord :=
  files.restoreOptimizer s!"{runDir}/checkpoint" s!"context-optimizer-{contextIndex}" epoch

/-- One turn of the loop over the optimizers. -/
def loadOptimizer (contextIndex : ℕ) :
    Method (PredictiveContextRoutingRuntime Bank BankConfig Gate Optimizer State) Unit := do
  let record ← Method.ofResult (withContext
    s!"restore predictive context optimizer {contextIndex} for epoch {epoch}"
    (readOptimizer files runDir epoch contextIndex))
  Method.assign fun runtime =>
    { runtime with
      optimizers := runtime.optimizers.modify contextIndex (library.loadRecord · record)
      optimizers_length := by rw [List.length_modify, runtime.optimizers_length] }

def readStreamStates : Except String (List (Option StateRecord)) :=
  files.restoreStreamStates s!"{runDir}/checkpoint" "context-stream-states" epoch

def checkStateCount (states : List (Option StateRecord)) (known : ℕ) : Except String Unit :=
  if states.length ≠ known then
    .error (s!"predictive context state count {states.length} does not match context count " ++
      s!"{known}")
  else
    .ok ()

/-- The part of `restore_checkpoint` from the first assignment on. -/
def installCheckpoint (checkpoint : PredictiveContextRoutingCheckpoint Bank Gate) :
    Method (PredictiveContextRoutingRuntime Bank BankConfig Gate Optimizer State) Unit := do
  Method.assign fun runtime =>
    { runtime with
      bank := checkpoint.bank
      noveltyGate := checkpoint.noveltyGate
      current := checkpoint.current }
  let known := library.knownContexts checkpoint.bank
  (List.range known).forM ensureSlot
  Method.ofResult (checkIdentities library checkpoint)
  (List.range known).forM (loadOptimizer library files runDir epoch)
  let states ← Method.ofResult (withContext
    s!"restore predictive context stream states for epoch {epoch}"
    (readStreamStates files runDir epoch))
  Method.ofResult (checkStateCount states known)
  Method.assign fun runtime =>
    { runtime with streamStates := states.map fun state => state.map library.toModelState }

/-- `restore_checkpoint`. -/
def restoreCheckpoint [DecidableEq BankConfig] (requireExact : Bool) :
    Method (PredictiveContextRoutingRuntime Bank BankConfig Gate Optimizer State) Bool := do
  let runtime ← Method.self
  match ← Method.ofResult
    (readCheckpoint library files runDir epoch runtime.config requireExact) with
  | none => return false
  | some checkpoint =>
    installCheckpoint library files runDir epoch checkpoint
    return true

/-- The metadata of the epoch is there, can be read and fits the configuration. -/
structure Accepted (config : PredictiveContextRoutingConfig BankConfig)
    (checkpoint : PredictiveContextRoutingCheckpoint Bank Gate) : Prop where
  isFile : files.isFile s!"{runDir}/checkpoint/context-routing-{epoch}.json" = true
  parse : ∃ bytes, files.read s!"{runDir}/checkpoint/context-routing-{epoch}.json" = .ok bytes ∧
    library.parse bytes = .ok checkpoint
  schemaVersion : checkpoint.schemaVersion = 1
  config : library.config checkpoint.bank = config.bank

/-- The optimizers of the first contexts have taken over their records. -/
structure OptimizersLoaded (before after : List Optimizer) (loaded : ℕ) : Prop where
  length : after.length = before.length
  load : ∀ i < loaded, ∃ record, readOptimizer files runDir epoch i = .ok record ∧
    after[i]? = before[i]?.map (library.loadRecord · record)
  keep : ∀ i, loaded ≤ i → after[i]? = before[i]?

/-- The routing after a restoration that failed on the way: bank, gate and current identity are the
checkpoint's, some slots have been added, some optimizers loaded, and no stream state. -/
structure PartlyRestored (checkpoint : PredictiveContextRoutingCheckpoint Bank Gate)
    (before after : PredictiveContextRoutingRuntime Bank BankConfig Gate Optimizer State)
    (slots loaded : ℕ) : Prop where
  bank : after.bank = checkpoint.bank
  noveltyGate : after.noveltyGate = checkpoint.noveltyGate
  current : after.current = checkpoint.current
  slots_le : slots ≤ library.knownContexts checkpoint.bank - before.masks.length
  masks : ∃ added, added.length = slots ∧ after.masks = before.masks ++ added
  streamStates : after.streamStates = before.streamStates ++ List.replicate slots none
  optimizers : OptimizersLoaded library files runDir epoch
    (before.optimizers ++ List.replicate slots before.freshOptimizer) after.optimizers loaded

/-- The routing after a restoration: bank, gate, current identity, stream states and the optimizers
of the known contexts are the checkpoint's, and every known context has its slot. -/
structure Restored (checkpoint : PredictiveContextRoutingCheckpoint Bank Gate)
    (before after : PredictiveContextRoutingRuntime Bank BankConfig Gate Optimizer State) :
    Prop where
  bank : after.bank = checkpoint.bank
  noveltyGate : after.noveltyGate = checkpoint.noveltyGate
  current : after.current = checkpoint.current
  streamStates : ∃ states, readStreamStates files runDir epoch = .ok states ∧
    after.streamStates = states.map fun state => state.map library.toModelState
  optimizers : ∀ i < library.knownContexts checkpoint.bank, ∃ record,
    readOptimizer files runDir epoch i = .ok record ∧
      after.optimizers[i]? = some (library.loadRecord
        ((before.optimizers[i]?).getD before.freshOptimizer) record)
  masks : library.knownContexts checkpoint.bank ≤ after.masks.length
  states : library.knownContexts checkpoint.bank = after.streamStates.length

variable {library files runDir epoch}

namespace OptimizersLoaded

variable {before after : List Optimizer} {loaded : ℕ}

theorem refl : OptimizersLoaded library files runDir epoch before before 0 :=
  ⟨rfl, fun _ hi => absurd hi (Nat.not_lt_zero _), fun _ _ => rfl⟩

/-- One more optimizer takes over its record. -/
theorem step (h : OptimizersLoaded library files runDir epoch before after loaded)
    {record : OptimizerRecord} (hrecord : readOptimizer files runDir epoch loaded = .ok record) :
    OptimizersLoaded library files runDir epoch before
      (after.modify loaded (library.loadRecord · record)) (loaded + 1) where
  length := by rw [length_modify, h.length]
  load i hi := by
    rcases Nat.lt_succ_iff_lt_or_eq.1 hi with hi | rfl
    · obtain ⟨record', hrecord', hafter⟩ := h.load i hi
      refine ⟨record', hrecord', ?_⟩
      rw [getElem?_modify_ne _ _ hi.ne', hafter]
    · refine ⟨record, hrecord, ?_⟩
      rw [getElem?_modify_eq, h.keep i le_rfl]
      rfl
  keep i hi := by
    rw [getElem?_modify_ne _ _ (by omega), h.keep i (by omega)]

end OptimizersLoaded

/-- Two states of the routing that differ in their optimizers at most. -/
structure SameSlots
    (before after : PredictiveContextRoutingRuntime Bank BankConfig Gate Optimizer State) :
    Prop where
  bank : after.bank = before.bank
  noveltyGate : after.noveltyGate = before.noveltyGate
  current : after.current = before.current
  masks : after.masks = before.masks
  streamStates : after.streamStates = before.streamStates

/-- The loop over the optimizers loads those of the known contexts, or fails after some of them. -/
theorem loadOptimizers_ends (known : ℕ)
    (runtime : PredictiveContextRoutingRuntime Bank BankConfig Gate Optimizer State) :
    ((List.range known).forM (loadOptimizer library files runDir epoch)).Ends runtime
      (fun _ after => SameSlots runtime after ∧
        OptimizersLoaded library files runDir epoch runtime.optimizers after.optimizers known)
      (fun _ after => SameSlots runtime after ∧ ∃ loaded, OptimizersLoaded library files runDir
        epoch runtime.optimizers after.optimizers loaded) := by
  refine .forM (fun done after => SameSlots runtime after ∧
    OptimizersLoaded library files runDir epoch runtime.optimizers after.optimizers done.length)
    ⟨⟨rfl, rfl, rfl, rfl, rfl⟩, .refl⟩ ?_ ?_
  · rintro done item rest after hrange ⟨hsame, hloaded⟩
    obtain ⟨rfl, -⟩ := eq_length_of_range_eq hrange
    refine .bind (.ofResult (fun record hrecord => ?_) fun _ _ => ⟨hsame, done.length, hloaded⟩)
    rw [withContext_eq_ok] at hrecord
    refine .assign ⟨⟨hsame.1, hsame.2, hsame.3, hsame.4, hsame.5⟩, ?_⟩
    rw [length_append]
    exact hloaded.step hrecord
  · rintro after ⟨hsame, hloaded⟩
    rw [length_range] at hloaded
    exact ⟨hsame, hloaded⟩

/-- A list filled up with copies of a default reads the default where the list ends. -/
theorem getElem?_append_replicate {l : List Optimizer} {count i : ℕ} {a : Optimizer}
    (h : i < l.length + count) : (l ++ List.replicate count a)[i]? = some (l[i]?.getD a) := by
  by_cases hi : i < l.length
  · rw [getElem?_append_left hi, getElem?_eq_getElem hi, Option.getD_some]
  · rw [getElem?_append_right (by omega), getElem?_replicate, if_pos (by omega),
      getElem?_eq_none (by omega), Option.getD_none]

/-- From the first assignment on, the restoration succeeds or leaves its traces. -/
theorem installCheckpoint_ends
    (library : RoutingLibrary Bank BankConfig Gate Optimizer OptimizerRecord State StateRecord)
    (files : CheckpointFiles OptimizerRecord StateRecord) (runDir : String) (epoch : ℕ)
    (checkpoint : PredictiveContextRoutingCheckpoint Bank Gate)
    (runtime : PredictiveContextRoutingRuntime Bank BankConfig Gate Optimizer State) :
    (installCheckpoint library files runDir epoch checkpoint).Ends runtime
      (fun _ after => Restored library files runDir epoch checkpoint runtime after)
      (fun _ after => ∃ slots loaded,
        PartlyRestored library files runDir epoch checkpoint runtime after slots loaded) := by
  set known := library.knownContexts checkpoint.bank with hknown
  refine .bind (.assign ?_)
  -- the slots: on success as many as are missing
  refine .bind ((ensureSlots_ends _ known).imp (fun _ r hr => ?_) fun _ r hr => ?_)
  case refine_2 =>
    obtain ⟨count, hcount, hr⟩ := hr
    exact ⟨count, 0, hr.bank, hr.noveltyGate, hr.current, hcount, hr.masks, hr.streamStates,
      hr.optimizers ▸ .refl⟩
  have hpartly : ∀ {after loaded}, SameSlots r after →
      OptimizersLoaded library files runDir epoch r.optimizers after.optimizers loaded →
      PartlyRestored library files runDir epoch checkpoint runtime after
        (known - runtime.masks.length) loaded := fun hsame hloaded =>
    ⟨hsame.bank.trans hr.bank, hsame.noveltyGate.trans hr.noveltyGate,
      hsame.current.trans hr.current, le_rfl, hsame.masks ▸ hr.masks,
      hsame.streamStates.trans hr.streamStates, hr.optimizers ▸ hloaded⟩
  refine .bind (.ofResult (fun _ _ => ?_) fun _ _ =>
    ⟨_, 0, hpartly ⟨rfl, rfl, rfl, rfl, rfl⟩ .refl⟩)
  refine .bind ((loadOptimizers_ends known r).imp (fun _ after hafter => ?_)
    fun _ after hafter => ?_)
  case refine_2 =>
    obtain ⟨hsame, loaded, hloaded⟩ := hafter
    exact ⟨_, loaded, hpartly hsame hloaded⟩
  obtain ⟨hsame, hloaded⟩ := hafter
  have hfailed := hpartly hsame hloaded
  refine .bind (.ofResult (fun states hstates => ?_) fun _ _ => ⟨_, known, hfailed⟩)
  refine .bind (.ofResult (fun _ hcount => ?_) fun _ _ => ⟨_, known, hfailed⟩)
  rw [withContext_eq_ok] at hstates
  have hlength : states.length = known := by
    by_contra hne
    rw [checkStateCount, if_pos hne] at hcount
    cases hcount
  have hslots : r.masks.length = runtime.masks.length + (known - runtime.masks.length) :=
    hr.masks_length
  have hmasks : known ≤ after.masks.length := by
    rw [hsame.masks]
    omega
  refine .assign ⟨hfailed.bank, hfailed.noveltyGate, hfailed.current, ⟨states, hstates, rfl⟩,
    fun i hi => ?_, hmasks, by simp [hlength, hknown]⟩
  obtain ⟨record, hrecord, hload⟩ := hloaded.load i hi
  refine ⟨record, hrecord, ?_⟩
  have hi' : i < runtime.optimizers.length + (known - runtime.masks.length) := by
    rw [runtime.optimizers_length]
    omega
  rw [hload, hr.optimizers, getElem?_append_replicate hi']
  rfl

/-! ## The restoration -/

section Outcome

variable [DecidableEq BankConfig]

/-- The reading accepts the metadata, and says `Ok(false)` only where there is none. -/
theorem readCheckpoint_eq_ok {config : PredictiveContextRoutingConfig BankConfig}
    {requireExact : Bool} {checkpoint : Option (PredictiveContextRoutingCheckpoint Bank Gate)}
    (h : readCheckpoint library files runDir epoch config requireExact = .ok checkpoint) :
    match checkpoint with
    | none => files.isFile s!"{runDir}/checkpoint/context-routing-{epoch}.json" = false
    | some checkpoint => Accepted library files runDir epoch config checkpoint := by
  unfold readCheckpoint at h
  simp only at h
  split_ifs at h with hfile hexact
  · cases h
    exact hfile
  · cases hread : files.read s!"{runDir}/checkpoint/context-routing-{epoch}.json" with
    | error e =>
      rw [hread] at h
      cases h
    | ok bytes =>
      rw [hread] at h
      change (withContext _ (library.parse bytes) >>= _) = _ at h
      cases hparse : library.parse bytes with
      | error e =>
        rw [hparse] at h
        cases h
      | ok parsed =>
        rw [hparse] at h
        change (if parsed.schemaVersion ≠ 1 then _ else if library.config parsed.bank ≠ config.bank
          then _ else _) = _ at h
        split_ifs at h with hschema hconfig
        cases h
        exact ⟨by simpa using hfile, ⟨bytes, hread, hparse⟩, not_not.1 hschema,
          not_not.1 hconfig⟩

/-- A routing that the reading has refused has nothing to take over. -/
theorem not_accepted_of_readCheckpoint_eq_error
    {config : PredictiveContextRoutingConfig BankConfig} {requireExact : Bool} {e : String}
    (h : readCheckpoint library files runDir epoch config requireExact = .error e)
    (checkpoint : PredictiveContextRoutingCheckpoint Bank Gate) :
    ¬Accepted library files runDir epoch config checkpoint := by
  rintro ⟨hfile, ⟨bytes, hread, hparse⟩, hschema, hconfig⟩
  unfold readCheckpoint at h
  simp only [hfile, hread, Bool.true_eq_false, if_false] at h
  change (withContext _ (library.parse bytes) >>= _) = _ at h
  rw [hparse] at h
  change (if checkpoint.schemaVersion ≠ 1 then _ else
    if library.config checkpoint.bank ≠ config.bank then _ else _) = _ at h
  rw [if_neg (not_not.2 hschema), if_neg (not_not.2 hconfig)] at h
  cases h

/-- **What a restoration leaves.** -/
theorem restoreCheckpoint_ends
    (library : RoutingLibrary Bank BankConfig Gate Optimizer OptimizerRecord State StateRecord)
    (files : CheckpointFiles OptimizerRecord StateRecord) (runDir : String) (epoch : ℕ)
    (requireExact : Bool)
    (runtime : PredictiveContextRoutingRuntime Bank BankConfig Gate Optimizer State) :
    (restoreCheckpoint library files runDir epoch requireExact).Ends runtime
      (fun restored after =>
        if restored then
          ∃ checkpoint, Accepted library files runDir epoch runtime.config checkpoint ∧
            Restored library files runDir epoch checkpoint runtime after
        else
          after = runtime)
      (fun _ after =>
        (after = runtime ∧
          ∀ checkpoint, ¬Accepted library files runDir epoch runtime.config checkpoint) ∨
        ∃ checkpoint slots loaded, Accepted library files runDir epoch runtime.config checkpoint ∧
          PartlyRestored library files runDir epoch checkpoint runtime after slots loaded) := by
  refine .bind (.self (.bind (.ofResult (fun read hread => ?_) fun e hread => ?_)))
  · have haccepted := readCheckpoint_eq_ok hread
    cases read with
    | none => exact .pure rfl
    | some checkpoint =>
      refine .bind ((installCheckpoint_ends library files runDir epoch checkpoint
        runtime).imp (fun _ after hafter => ?_)
        fun _ after hafter => ?_)
      · exact .pure ⟨checkpoint, haccepted, hafter⟩
      · obtain ⟨slots, loaded, hafter⟩ := hafter
        exact .inr ⟨checkpoint, slots, loaded, haccepted, hafter⟩
  · exact .inl ⟨rfl, not_accepted_of_readCheckpoint_eq_error hread⟩

end Outcome

/-! ## A missing file -/

/-- A bank that lists the generations of its contexts; its checkpoint has one. -/
def oneContextLibrary : RoutingLibrary (List ℕ) Unit Unit Unit Unit Unit Unit where
  config _ := ()
  knownContexts bank := bank.length
  lifecycles bank := bank.map PredictiveContextLifecycle.mk
  identity bank index := bank[index]?.map fun generation => ⟨index, generation⟩
  parse _ := .ok ⟨1, [0], (), some ⟨0, 0⟩, [0]⟩
  loadRecord optimizer _ := optimizer
  toModelState state := state

/-- A run directory that has the metadata but lacks the optimizer of its context. -/
def optimizerMissing : CheckpointFiles Unit Unit where
  isFile _ := true
  read _ := .ok []
  restoreOptimizer _ _ _ := .error "No such file or directory (os error 2)"
  restoreStreamStates _ _ _ := .ok [none]

/-- **A missing optimizer file leaves the checkpoint's bank behind.** -/
theorem restoreCheckpoint_optimizerMissing :
    ∃ e after, restoreCheckpoint oneContextLibrary optimizerMissing "run" 3 true
        (.new ⟨(), some (1 / 4)⟩ 1 16 16 7 [] () ()) = (.error e, after) ∧
      after.bank = [0] ∧ after.current = some ⟨0, 0⟩ := by
  set runtime : PredictiveContextRoutingRuntime (List ℕ) Unit Unit Unit Unit :=
    .new ⟨(), some (1 / 4)⟩ 1 16 16 7 [] () () with hruntime
  set checkpoint : PredictiveContextRoutingCheckpoint (List ℕ) Unit :=
    ⟨1, [0], (), some ⟨0, 0⟩, [0]⟩ with hcheckpoint
  have hrun : restoreCheckpoint oneContextLibrary optimizerMissing "run" 3 true runtime =
      (installCheckpoint oneContextLibrary optimizerMissing "run" 3 checkpoint >>=
        fun _ => pure true : Method _ Bool) runtime := rfl
  have hends :=
    installCheckpoint_ends oneContextLibrary optimizerMissing "run" 3 checkpoint runtime
  rw [hrun]
  rcases hinstall : installCheckpoint oneContextLibrary optimizerMissing "run" 3 checkpoint runtime
    with ⟨e | _, after⟩
  · obtain ⟨slots, loaded, hpartly⟩ := hends.of_error hinstall
    exact ⟨e, after, Method.bind_of_error hinstall _, hpartly.bank, hpartly.current⟩
  · obtain ⟨record, hrecord, -⟩ := (hends.of_ok hinstall).optimizers 0 Nat.one_pos
    cases hrecord

end Restore

end BurnDragon.Training
