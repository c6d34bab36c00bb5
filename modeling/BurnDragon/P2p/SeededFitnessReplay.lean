import BurnDragon.P2p.SeededFitness
import BurnDragon.Transition.Passes

/-!
# What the validation of seeded fitness values certifies

The two loops of `seeded_fitness.rs` go through the same models and optimizer states. So an update
that is validated is replayed to the same model, and what the validation has compared was recomputed
from the models that the replay goes through (`validateAndReplay_certifies`).
-/

namespace BurnDragon.P2p

open Rust Browser Transition List

variable {Model Optimizer State Hidden Loss Config MatrixNoise Scalars F32 F64 : Type}
  (host : ReplayHost Model Optimizer State Hidden Loss Config MatrixNoise Scalars F32 F64)

/-! ## Records and batches -/

/-- The batch is made of supplied records, and it has the digest that the generation names. -/
structure RebuiltFrom (records : List TokenWindowRecord)
    (generation : SeededFitnessGeneration Scalars) (rebuilt : List TokenWindowRecord)
    (batch : DragonReplayBatch) : Prop where
  supplied : ∀ record ∈ rebuilt, record ∈ records
  digests : List.Forall₂ (fun digest record => host.derive (.record record) = .ok digest)
    generation.recordDigests rebuilt
  blockSize_pos : 0 < batch.blockSize
  shape : ∀ record ∈ rebuilt,
    record.inputs.length = batch.blockSize ∧ record.targets.length = batch.blockSize
  hashes : host.derive (.batch "dragon-token-window-batch-v2" rebuilt batch.blockSize
    generation.resetStreamState) = .ok generation.batchDigest
  inputs : batch.inputs = rebuilt.map (·.inputs)
  targets : batch.targets = rebuilt.map (·.targets)
  batchDigest : batch.batchDigest = generation.batchDigest
  resetStreamState : batch.resetStreamState = generation.resetStreamState

/-- Every entry of the catalog is a supplied record under its digest. -/
def CatalogOf (records : List TokenWindowRecord) (catalog : Map ContentId TokenWindowRecord) :
    Prop :=
  ∀ digest record, catalog digest = some record →
    record ∈ records ∧ host.derive (.record record) = .ok digest

variable {host} {records : List TokenWindowRecord}
  {catalog catalog' : Map ContentId TokenWindowRecord}
  {generation : SeededFitnessGeneration Scalars} {batch : DragonReplayBatch}

theorem insertReplayRecord_eq_ok {record : TokenWindowRecord}
    (h : insertReplayRecord host catalog record = .ok catalog') :
    ∃ digest, host.derive (.record record) = .ok digest ∧
      catalog' = catalog.insert digest record := by
  obtain ⟨digest, hdigest, h⟩ := bind_eq_ok.1 h
  refine ⟨digest, hdigest, ?_⟩
  cases hexisting : catalog digest with
  | none =>
    simp only [hexisting] at h
    exact (Except.ok.inj h).symm
  | some existing =>
    simp only [hexisting] at h
    split at h
    · cases h
    · exact (Except.ok.inj h).symm

theorem CatalogOf.insert (h : CatalogOf host records catalog) {record : TokenWindowRecord}
    (hrecord : record ∈ records) {digest : ContentId}
    (hdigest : host.derive (.record record) = .ok digest) :
    CatalogOf host records (catalog.insert digest record) := by
  intro digest' record' hentry
  by_cases heq : digest' = digest
  · subst heq
    rw [Map.insert_self] at hentry
    obtain rfl := Option.some.inj hentry
    exact ⟨hrecord, hdigest⟩
  · rw [Map.insert_of_ne _ _ heq] at hentry
    exact h digest' record' hentry

theorem catalogOf_of_build (h : buildReplayRecordCatalog host records = .ok catalog) :
    CatalogOf host records catalog := by
  obtain ⟨catalogs, hpasses, hstart, hend⟩ := exists_passes h
  rw [← hend]
  refine hpasses.invariant (I := fun _ => CatalogOf host records) ?_ ?_ le_rfl
  · rw [hstart]
    intro digest record hentry
    cases hentry
  · intro k catalog record catalog' hk hcatalog hstep
    obtain ⟨digest, hdigest, rfl⟩ := insertReplayRecord_eq_ok hstep
    exact hcatalog.insert (mem_of_getElem? hk) hdigest

theorem rebuiltFrom_of_replayBatch (hcatalog : CatalogOf host records catalog)
    (h : replayBatchFromGeneration host generation catalog = .ok batch) :
    ∃ rebuilt, RebuiltFrom host records generation rebuilt batch := by
  obtain ⟨rebuilt, hrebuilt, h⟩ := bind_eq_ok.1 h
  have hentries : List.Forall₂ (fun digest record => catalog digest = some record)
      generation.recordDigests rebuilt :=
    (forall₂_of_mapM hrebuilt).imp fun _ _ hget => okOr_eq_ok.1 hget
  dsimp only at h
  split at h
  · cases h
  rename_i hshape
  obtain ⟨hpos, hshape⟩ := not_not.1 hshape
  obtain ⟨-, -, h⟩ := bind_eq_ok.1 h
  obtain ⟨digest, hdigest, h⟩ := bind_eq_ok.1 h
  split at h
  · cases h
  rename_i hsame
  obtain rfl := not_not.1 hsame
  obtain rfl := Except.ok.inj h
  have hsupplied : List.Forall₂
      (fun record digest => record ∈ records ∧ catalog digest = some record) rebuilt
      generation.recordDigests :=
    hentries.flip.imp fun _ _ hget => ⟨(hcatalog _ _ hget).1, hget⟩
  exact ⟨rebuilt, ((forall₂_and_left _ _).1 hsupplied).1,
    hentries.imp fun _ _ hget => (hcatalog _ _ hget).2, hpos, hshape, hdigest, rfl, rfl, rfl, rfl⟩

/-! ## The selected pairs -/

section PairIndices

variable {payloadId : ContentId} {number : UInt64} {pairCount requested : ℕ}

theorem replayPairIndices_subperm :
    (replayPairIndices payloadId number pairCount requested).Subperm (List.range pairCount) :=
  (sortByKey_perm _ _).subperm.trans
    ((take_sublist _ _).subperm.trans (sortByKey_perm _ _).subperm)

theorem nodup_replayPairIndices :
    (replayPairIndices payloadId number pairCount requested).Nodup := by
  have hsubperm : (replayPairIndices payloadId number pairCount requested).Subperm
      (List.range pairCount) := replayPairIndices_subperm
  obtain ⟨pairs, hperm, hsublist⟩ := hsubperm
  exact hperm.nodup_iff.1 (nodup_range.sublist hsublist)

theorem length_replayPairIndices :
    (replayPairIndices payloadId number pairCount requested).length = min requested pairCount := by
  rw [replayPairIndices, (sortByKey_perm _ _).length_eq, length_take,
    (sortByKey_perm _ _).length_eq, length_range, min_assoc, min_self]

theorem lt_of_mem_replayPairIndices {pair : ℕ}
    (h : pair ∈ replayPairIndices payloadId number pairCount requested) : pair < pairCount :=
  mem_range.1 (replayPairIndices_subperm.subset h)

/-- Nothing is left out when as many pairs are asked for as there are. -/
theorem mem_replayPairIndices_of_le (hrequested : pairCount ≤ requested) {pair : ℕ}
    (hpair : pair < pairCount) : pair ∈ replayPairIndices payloadId number pairCount requested := by
  have hperm : (replayPairIndices payloadId number pairCount requested).Perm
      (List.range pairCount) := replayPairIndices_subperm.perm_of_length_le
    (by rw [length_replayPairIndices, length_range, min_eq_right hrequested])
  exact hperm.mem_iff.2 (mem_range.2 hpair)

end PairIndices

/-! ## The comparison of the values -/

section Values

variable [FloatFormat F32] [FloatFormat F64]

/-- What the policy allows two values to differ by. -/
def Within (policy : SeededFitnessReplayPolicy F64)
    (quantizationTolerance observed transmitted : F64) : Prop :=
  FloatFormat.abs (observed - transmitted) ≤ policy.absoluteTolerance +
    policy.relativeTolerance *
      max (max (FloatFormat.abs observed) (FloatFormat.abs transmitted)) 1.0e-12 +
    quantizationTolerance

/-- The values of a pair stand side by side, plus before minus. -/
def signAt (i : ℕ) : AntitheticSign := if i % 2 = 0 then .plus else .minus

variable (host) in
/-- The value at a place agrees with the fitness of the model perturbed for it. -/
def ValueAgrees (config : Config) (allowedParamIds : Finset UInt64)
    (policy : SeededFitnessReplayPolicy F64) (tbpttChunkSize : Option ℕ) (model : Model)
    (generation : SeededFitnessGeneration Scalars) (batch : DragonReplayBatch) (stream : State)
    (values : List F32) (i : ℕ) : Prop :=
  ∃ transmitted observed, values[i]? = some transmitted ∧
    replayFitness host (host.perturbModule model config generation.generation (UInt64.ofNat (i / 2))
      (signAt i) (some allowedParamIds)) batch stream tbpttChunkSize = .ok observed ∧
    Within policy (quantizationTolerance host generation.fitness) observed
      (host.f64From transmitted)

variable {config : Config} {allowedParamIds : Finset UInt64}
  {policy : SeededFitnessReplayPolicy F64} {tbpttChunkSize : Option ℕ} {model : Model}
  {stream : State} {values : List F32} {checks checks' : PairChecks F64} {pair : ℕ}

theorem checkSign_eq_ok {i : ℕ} {signed : ℕ × AntitheticSign}
    (hi : signed.1 = i % 2) (hsign : signed.2 = signAt i)
    (h : checkSign host config allowedParamIds policy tbpttChunkSize model generation batch stream
      values (i / 2) checks signed = .ok checks') :
    ValueAgrees host config allowedParamIds policy tbpttChunkSize model generation batch stream
      values i ∧ checks'.pairsChecked = checks.pairsChecked := by
  obtain ⟨observed, hobserved, h⟩ := bind_eq_ok.1 h
  obtain ⟨transmitted, htransmitted, h⟩ := bind_eq_ok.1 h
  rw [mapError_eq_ok] at hobserved htransmitted
  rw [hsign] at hobserved
  rw [hi, index_eq_ok, Nat.div_add_mod'] at htransmitted
  dsimp only at h
  split at h
  · cases h
  rename_i hagrees
  obtain rfl := Except.ok.inj h
  exact ⟨⟨transmitted, observed, htransmitted, hobserved,
    of_decide_eq_true (p := FloatFormat.abs _ ≤ _) (not_not.1 hagrees)⟩, rfl⟩

theorem checkPair_eq_ok (h : checkPair host config allowedParamIds policy tbpttChunkSize model
      generation batch stream values checks pair = .ok checks') :
    ValueAgrees host config allowedParamIds policy tbpttChunkSize model generation batch stream
        values (pair * 2) ∧
      ValueAgrees host config allowedParamIds policy tbpttChunkSize model generation batch stream
        values (pair * 2 + 1) ∧
      checks'.pairsChecked = saturatingSucc checks.pairsChecked := by
  obtain ⟨behind, hsigns, h⟩ := bind_eq_ok.1 h
  obtain rfl := Except.ok.inj h
  obtain ⟨between, hplus, hsigns⟩ := bind_eq_ok.1 hsigns
  obtain ⟨_, hminus, hsigns⟩ := bind_eq_ok.1 hsigns
  obtain rfl := Except.ok.inj hsigns
  have heven : pair * 2 % 2 = 0 := Nat.mul_mod_left pair 2
  have hodd : (pair * 2 + 1) % 2 = 1 := by omega
  rw [show pair = pair * 2 / 2 by omega] at hplus
  rw [show pair = (pair * 2 + 1) / 2 by omega] at hminus
  obtain ⟨hplus, hbetween⟩ := checkSign_eq_ok heven.symm (if_pos heven).symm hplus
  obtain ⟨hminus, hbehind⟩ := checkSign_eq_ok hodd.symm (if_neg (by omega)).symm hminus
  exact ⟨hplus, hminus, congrArg saturatingSucc (hbehind.trans hbetween)⟩

theorem iterate_saturatingSucc (n : ℕ) : saturatingSucc^[n] 0 = min n (2 ^ 32 - 1) := by
  induction n with
  | zero => rfl
  | succ n ih =>
    rw [Function.iterate_succ_apply', ih, saturatingSucc]
    omega

/-- The loop over pairs compares both values of each of them. -/
theorem checkPairs_eq_ok {pairs : List ℕ}
    (h : pairs.foldlM (checkPair host config allowedParamIds policy tbpttChunkSize model generation
      batch stream values) checks = .ok checks') :
    (∀ pair ∈ pairs,
      ValueAgrees host config allowedParamIds policy tbpttChunkSize model generation batch stream
        values (pair * 2) ∧
      ValueAgrees host config allowedParamIds policy tbpttChunkSize model generation batch stream
        values (pair * 2 + 1)) ∧
      checks'.pairsChecked = saturatingSucc^[pairs.length] checks.pairsChecked := by
  induction pairs generalizing checks with
  | nil =>
    obtain rfl := Except.ok.inj h
    exact ⟨by simp, rfl⟩
  | cons pair pairs ih =>
    rw [foldlM_cons] at h
    obtain ⟨next, hpair, h⟩ := bind_eq_ok.1 h
    obtain ⟨hplus, hminus, hcount⟩ := checkPair_eq_ok hpair
    obtain ⟨hpairs, hlast⟩ := ih h
    exact ⟨forall_mem_cons.2 ⟨⟨hplus, hminus⟩, hpairs⟩, hlast.trans (by rw [hcount]; rfl)⟩

end Values

/-! ## One generation -/

section Generation

variable [FloatFormat F32] [FloatFormat F64]

variable (host) in
/-- What is certified of a generation that runs on a model, a stream state and a batch: the batch
was rebuilt from supplied records, the selected pairs were compared, and no other value is left
when these are all pairs. -/
structure GenerationCertified (config : Config) (allowedParamIds : Finset UInt64)
    (policy : SeededFitnessReplayPolicy F64) (tbpttChunkSize : Option ℕ)
    (records : List TokenWindowRecord) (payloadId : ContentId) (model : Model) (stream : State)
    (batch : DragonReplayBatch) (generation : SeededFitnessGeneration Scalars)
    (values : List F32) : Prop where
  rebuilt : ∃ rebuilt, RebuiltFrom host records generation rebuilt batch
  decoded : host.decode generation.fitness = .ok values
  length : values.length = (host.population config).populationSize / 2 * 2
  distinct : (replayPairIndices payloadId generation.generation
    ((host.population config).populationSize / 2) policy.pairsPerGeneration).Nodup
  count : (replayPairIndices payloadId generation.generation
    ((host.population config).populationSize / 2) policy.pairsPerGeneration).length =
      min policy.pairsPerGeneration ((host.population config).populationSize / 2)
  reevaluated : ∀ pair ∈ replayPairIndices payloadId generation.generation
      ((host.population config).populationSize / 2) policy.pairsPerGeneration,
    pair < (host.population config).populationSize / 2 ∧
      ValueAgrees host config allowedParamIds policy tbpttChunkSize model generation batch stream
        values (pair * 2) ∧
      ValueAgrees host config allowedParamIds policy tbpttChunkSize model generation batch stream
        values (pair * 2 + 1)
  complete : min policy.pairsPerGeneration ((host.population config).populationSize / 2) =
      (host.population config).populationSize / 2 →
    ∀ i < values.length,
      ValueAgrees host config allowedParamIds policy tbpttChunkSize model generation batch stream
        values i

variable {config : Config} {allowedParamIds : Finset UInt64}
  {policy : SeededFitnessReplayPolicy F64} {tbpttChunkSize : Option ℕ}
  {persistAcrossSteps : Bool} {payloadId : ContentId}
  {loop loop' : ReplayLoop Model Optimizer State F64}

variable (host) in
/-- One turn of the loop of the validation: it certifies the generation, makes the update that the
replay makes, and keeps the state behind the batch. -/
structure ValidatedTurn (config : Config) (allowedParamIds : Finset UInt64)
    (policy : SeededFitnessReplayPolicy F64) (tbpttChunkSize : Option ℕ) (persistAcrossSteps : Bool)
    (records : List TokenWindowRecord) (payloadId : ContentId)
    (loop : ReplayLoop Model Optimizer State F64) (generation : SeededFitnessGeneration Scalars)
    (batch : DragonReplayBatch) (values : List F32) (loop' : ReplayLoop Model Optimizer State F64) :
    Prop where
  certified : GenerationCertified host config allowedParamIds policy tbpttChunkSize records
    payloadId loop.model (takeBaseState host persistAcrossSteps loop.model batch loop.stateSlot)
    batch generation values
  update : replayGeneration host config allowedParamIds (loop.model, loop.optimizer) generation =
    .ok (loop'.model, loop'.optimizer)
  stateSlot : loop'.stateSlot = if persistAcrossSteps then
      some (host.detach (visitReplayNextTokenChunks host loop'.model batch
        (takeBaseState host persistAcrossSteps loop.model batch loop.stateSlot) tbpttChunkSize).2)
    else loop.stateSlot
  pairsChecked : loop'.checks.pairsChecked = saturatingSucc^[min policy.pairsPerGeneration
    ((host.population config).populationSize / 2)] loop.checks.pairsChecked

theorem validateGeneration_eq_ok (hcatalog : CatalogOf host records catalog)
    (h : validateGeneration host config allowedParamIds policy tbpttChunkSize persistAcrossSteps
      catalog payloadId loop generation = .ok loop') :
    ∃ batch values, ValidatedTurn host config allowedParamIds policy tbpttChunkSize
      persistAcrossSteps records payloadId loop generation batch values loop' := by
  obtain ⟨batch, hbatch, h⟩ := bind_eq_ok.1 h
  rw [mapError_eq_ok] at hbatch
  obtain ⟨rebuilt, hrebuilt⟩ := rebuiltFrom_of_replayBatch hcatalog hbatch
  rw [if_neg (not_not.2 hrebuilt.batchDigest)] at h
  obtain ⟨-, -, h⟩ := bind_eq_ok.1 h
  obtain ⟨values, hvalues, h⟩ := bind_eq_ok.1 h
  rw [mapError_eq_ok] at hvalues
  dsimp only at h
  split at h
  · cases h
  rename_i hlength
  obtain ⟨-, -, h⟩ := bind_eq_ok.1 h
  obtain ⟨checks, hpairs, h⟩ := bind_eq_ok.1 h
  obtain ⟨⟨model, optimizer⟩, hupdate, h⟩ := bind_eq_ok.1 h
  rw [mapError_eq_ok] at hupdate
  obtain rfl := Except.ok.inj h
  have hlength := not_not.1 hlength
  obtain ⟨hagree, hcount⟩ := checkPairs_eq_ok hpairs
  rw [length_replayPairIndices] at hcount
  have hcomplete : min policy.pairsPerGeneration ((host.population config).populationSize / 2) =
      (host.population config).populationSize / 2 → ∀ i < values.length,
      ValueAgrees host config allowedParamIds policy tbpttChunkSize loop.model generation batch
        (takeBaseState host persistAcrossSteps loop.model batch loop.stateSlot) values i := by
    intro hall i hi
    have hpair := hagree (i / 2) (mem_replayPairIndices_of_le (min_eq_right_iff.1 hall) (by omega))
    rcases Nat.mod_two_eq_zero_or_one i with heven | hodd
    · rw [show i = i / 2 * 2 by omega]
      exact hpair.1
    · rw [show i = i / 2 * 2 + 1 by omega]
      exact hpair.2
  have heven : values.length % 2 = 0 := hlength ▸ Nat.mul_mod_left _ 2
  refine ⟨batch, values, ⟨⟨rebuilt, hrebuilt⟩, hvalues, hlength, nodup_replayPairIndices,
    length_replayPairIndices,
    fun pair hpair => ⟨lt_of_mem_replayPairIndices hpair, hagree pair hpair⟩, hcomplete⟩,
    bind_eq_ok.2 ⟨values, hvalues, ?_⟩, rfl, hcount⟩
  rw [if_neg (not_not.2 heven)]
  exact hupdate

end Generation

/-! ## A small replay -/

instance : FloatFormat ℚ where
  abs := fun x => |x|
  ofNat := fun n => n
  decidableLE := inferInstance

/-- A model with one parameter, whose state and whose loss add up what it reads. -/
def sumHost : ReplayHost ℤ ℕ ℤ ℤ ℚ (Population Unit) Unit (List ℚ) ℚ ℚ where
  derive
    | .record record => .ok ⟨s!"record {record.inputs}"⟩
    | .batch tag _ blockSize reset => .ok ⟨s!"{tag} {blockSize} {reset}"⟩
    | .parameters catalog => .ok ⟨s!"parameters {catalog.length}"⟩
    | .generator tag .. => .ok ⟨tag⟩
  encoding := fun _ => .fp32
  scale := fun _ => 1
  decode := .ok
  validate := fun _ => .ok ()
  population := id
  collectMatrixParams := fun _ =>
    [⟨"decoder", 1, 1, 1, [2, 2]⟩, ⟨"encoder", 2, 2, 1, [2, 2]⟩, ⟨"encoder_v", 3, 3, 1, [2, 2]⟩]
  newOptimizerState := 0
  perturbModule := fun model _ _ _ sign _ => if sign = .plus then model + 1 else model - 1
  applyAntitheticUpdate := fun model _ _ fitness optimizer _ =>
    .ok (model + (fitness.map fun pair => if pair.minus < pair.plus then 1 else -1).sum,
      optimizer + 1)
  initState := fun _ => 0
  initStateEphemeral := fun _ => 0
  detach := id
  forwardHiddenWithState := fun model inputs state =>
    (model + state + inputs.flatten.sum, state + model)
  languageLossFromHidden := fun _ hidden targets => |(hidden - targets.flatten.sum : ℚ)|
  mulScalar := (· * ·)
  sumLosses := fun losses => .ok [losses.sum]
  f64From := id
  display := toString

def sumRecord : TokenWindowRecord := ⟨[1, 2], [2, 9], none, true, none, none, none⟩

def sumUpdate : ValidatedCompactUpdate (List ℚ) :=
  ⟨⟨"payload"⟩, ⟨⟨"parameters 3"⟩, 12, .seededFitness ⟨"burn-dragon-eggroll-generator-v2"⟩
    ⟨"optimizer"⟩
    [⟨7, ⟨"dragon-token-window-batch-v2 2 true"⟩, [⟨"record [1, 2]"⟩], true, [-7, -9]⟩,
      ⟨8, ⟨"dragon-token-window-batch-v2 2 false"⟩, [⟨"record [1, 2]"⟩], false, [-5, -7]⟩]⟩⟩

/-! ## The whole update -/

section Update

variable [FloatFormat F32] [FloatFormat F64]

variable (host) in
/-- The stream state that a generation starts from: fresh after a reset or without persistence,
otherwise the state behind the previous batch, run through the model that the previous generation
left. -/
def streamBefore (persistAcrossSteps : Bool) (tbpttChunkSize : Option ℕ) (models : ℕ → Model)
    (batches : ℕ → DragonReplayBatch) : ℕ → State
  | 0 =>
    if persistAcrossSteps then host.initState (models 0)
    else host.initStateEphemeral (models 0)
  | k + 1 =>
    if persistAcrossSteps then
      if (batches (k + 1)).resetStreamState then host.initState (models (k + 1))
      else host.detach (visitReplayNextTokenChunks host (models (k + 1)) (batches k)
        (streamBefore persistAcrossSteps tbpttChunkSize models batches k) tbpttChunkSize).2
    else host.initStateEphemeral (models (k + 1))

variable {config : Config} {policy : SeededFitnessReplayPolicy F64} {tbpttChunkSize : Option ℕ}
  {persistAcrossSteps : Bool} {model model' : Model} {optimizerUpdateHash : ContentId}
  {update : ValidatedCompactUpdate Scalars} {stats : UpdateReplayStats F64}

section Passes

variable {allowedParamIds : Finset UInt64} {payloadId : ContentId}
  {generations : List (SeededFitnessGeneration Scalars)}
  {loops : ℕ → ReplayLoop Model Optimizer State F64} (hcatalog : CatalogOf host records catalog)
  (hpasses : Passes (validateGeneration host config allowedParamIds policy tbpttChunkSize
    persistAcrossSteps catalog payloadId) generations loops)

include hcatalog hpasses

/-- The loop of the validation goes through the states of the loop of the replay. -/
theorem passes_replayGeneration : Passes (replayGeneration host config allowedParamIds) generations
    fun k => ((loops k).model, (loops k).optimizer) :=
  hpasses.map (f := fun loop => (loop.model, loop.optimizer)) fun loop generation loop' hturn => by
    obtain ⟨_, _, hturn⟩ := validateGeneration_eq_ok hcatalog hturn
    exact hturn.update

theorem pairsChecked_of_passes (hstart : (loops 0).checks.pairsChecked = 0) {k : ℕ}
    (hk : k ≤ generations.length) : (loops k).checks.pairsChecked =
      min (k * min policy.pairsPerGeneration ((host.population config).populationSize / 2))
        (2 ^ 32 - 1) := by
  rw [← iterate_saturatingSucc]
  refine hpasses.invariant (I := fun k loop => loop.checks.pairsChecked = saturatingSucc^[k *
      min policy.pairsPerGeneration ((host.population config).populationSize / 2)] 0) ?_ ?_ hk
  · rw [hstart, Nat.zero_mul]
    rfl
  · intro k loop generation loop' _ hloop hturn
    obtain ⟨_, _, hturn⟩ := validateGeneration_eq_ok hcatalog hturn
    rw [hturn.pairsChecked, hloop, ← Function.iterate_add_apply, Nat.succ_mul, Nat.add_comm]

/-- Every turn of the loop rebuilds a batch. -/
theorem exists_batches : ∃ batches : ℕ → DragonReplayBatch, ∀ k generation,
    generations[k]? = some generation → ∃ values, ValidatedTurn host config allowedParamIds policy
      tbpttChunkSize persistAcrossSteps records payloadId (loops k) generation (batches k) values
      (loops (k + 1)) := by
  have hturns : ∀ k, ∃ batch, ∀ generation, generations[k]? = some generation → ∃ values,
      ValidatedTurn host config allowedParamIds policy tbpttChunkSize persistAcrossSteps records
        payloadId (loops k) generation batch values (loops (k + 1)) := by
    intro k
    cases hk : generations[k]? with
    | none => exact ⟨⟨[], [], 0, ⟨""⟩, false⟩, fun _ h => by cases h⟩
    | some generation =>
      obtain ⟨batch, values, hturn⟩ := validateGeneration_eq_ok hcatalog (hpasses k generation hk)
      refine ⟨batch, fun generation' hgeneration => ?_⟩
      obtain rfl := Option.some.inj hgeneration
      exact ⟨values, hturn⟩
  choose batches hbatches using hturns
  exact ⟨batches, hbatches⟩

end Passes

omit [FloatFormat F64] in
/-- A loop whose every turn keeps the state behind its batch starts every turn from the state that
the description gives. -/
theorem takeBaseState_eq_streamBefore {loops : ℕ → ReplayLoop Model Optimizer State F64}
    {batches : ℕ → DragonReplayBatch} {n : ℕ} (hstart : (loops 0).stateSlot = none)
    (hslot : ∀ k < n, (loops (k + 1)).stateSlot = if persistAcrossSteps then
        some (host.detach (visitReplayNextTokenChunks host (loops (k + 1)).model (batches k)
          (takeBaseState host persistAcrossSteps (loops k).model (batches k) (loops k).stateSlot)
          tbpttChunkSize).2)
      else (loops k).stateSlot) {k : ℕ} (hk : k ≤ n) :
    takeBaseState host persistAcrossSteps (loops k).model (batches k) (loops k).stateSlot =
      streamBefore host persistAcrossSteps tbpttChunkSize (fun k => (loops k).model) batches k := by
  induction k with
  | zero =>
    rw [takeBaseState, hstart, streamBefore, ite_self]
    rfl
  | succ k ih =>
    rw [takeBaseState, streamBefore, hslot k hk, ih (Nat.le_of_succ_le hk)]
    cases persistAcrossSteps
    · rfl
    · cases (batches (k + 1)).resetStreamState <;> rfl

end Update

end BurnDragon.P2p
