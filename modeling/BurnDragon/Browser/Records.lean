import BurnDragon.Nca.Runtime

/-!
# Records of generated documents

A request for records selects documents of a split, in the order of their indices or, when it comes
with a selection key or a lease, in the order of hashed ranks. Every document is cut into windows of a
block of inputs and their targets, until enough records are made (`generatedRecordsWithWindowizer`).
-/

namespace BurnDragon.Browser

open Rust Layout Nca

/-- What the code takes from other crates, apart from the corpora. -/
structure Externals where
  corpusJson : NcaCorpusConfig → Fallible String String
  multihash : List UInt8 → List UInt8
  loadRustBpe : NcaTokenizationConfig → Fallible String CorpusTokenizer

structure WorkloadTrainingLease where
  leaseId : String
  windowId : ℕ
  datasetViewId : String
  assignmentHash : String
  microshards : List String
  deriving DecidableEq

structure GeneratedRecordSelection where
  maxDocuments : Option ℕ
  recordLimit : Option ℕ
  selectionKey : Option String
  trainingLease : Option WorkloadTrainingLease
  deriving DecidableEq

structure TokenWindowRecord where
  inputs : List ℤ
  targets : List ℤ
  lossMask : Option (List ℤ)
  resetStreamState : Bool
  streamGroupId : Option ℕ
  streamRow : Option ℕ
  chunkIndex : Option ℕ
  deriving DecidableEq

/-! ## Selection -/

def leaseMaterial (lease : WorkloadTrainingLease) : String :=
  s!"|lease={lease.leaseId}|window={lease.windowId}|view={lease.datasetViewId}" ++
    s!"|assign={lease.assignmentHash}|micro=" ++ String.join (lease.microshards.map (· ++ ","))

def sampleSelectionMaterial (selectionKey : Option String)
    (trainingLease : Option WorkloadTrainingLease) : Option String :=
  let hasSelectionKey := selectionKey.any fun key => !(trim key.toList).isEmpty
  if !hasSelectionKey && trainingLease.isNone then none
  else some (String.ofList (trim (selectionKey.getD "browser-training").toList) ++
    (trainingLease.map leaseMaterial).getD "")

/-- The bytes 2 to 10 of a digest, as a number. -/
def sampleSelectionRank (ext : Externals) (material : String) (sampleIndex : ℕ) : ℕ :=
  let digest := ext.multihash (material ++ "\x00" ++ decimal sampleIndex).toUTF8.data.toList
  let bytes := if 10 ≤ digest.length then slice 2 8 digest else digest.take (min digest.length 8)
  (bytes ++ List.replicate (8 - bytes.length) 0).foldl
    (fun rank (byte : UInt8) => rank * 256 + byte.toNat) 0

def deterministicSampleIndices (ext : Externals) (sampleCount : ℕ)
    (selection : GeneratedRecordSelection) : List ℕ :=
  let limit := min (selection.maxDocuments.getD sampleCount) sampleCount
  let indices := List.range sampleCount
  match sampleSelectionMaterial selection.selectionKey selection.trainingLease with
  | none => indices.take limit
  | some material =>
    (sortByKey (fun i => toLex (sampleSelectionRank ext material i, i)) indices).take limit

/-! ## Windows -/

/-- The window at a position. -/
def windowRecord (tokens : List ℕ) (blockSize start : ℕ) : TokenWindowRecord :=
  let window := slice start (blockSize + 1) tokens
  { inputs := (window.take blockSize).map Int.ofNat
    targets := (window.drop 1).map Int.ofNat
    lossMask := none
    resetStreamState := start = 0
    streamGroupId := none
    streamRow := none
    chunkIndex := none }

/-- The loop over the positions of the windows. With blocks of length 0 it does not end. -/
def windowLoop (tokens : List ℕ) (blockSize maxStart : ℕ) : ℕ → ℕ → Option (List TokenWindowRecord)
  | 0, _ => none
  | fuel + 1, start =>
    if maxStart ≤ start then some [windowRecord tokens blockSize start]
    else do
      let rest ← windowLoop tokens blockSize maxStart fuel
        (min (saturatingAdd start blockSize) maxStart)
      return windowRecord tokens blockSize start :: rest

def tokenWindowsFromTokens (fuel : ℕ) (tokens : List ℕ) (blockSize : ℕ) :
    Option (List TokenWindowRecord) :=
  if tokens.length ≤ blockSize then some []
  else windowLoop tokens blockSize (tokens.length - (blockSize + 1)) fuel 0

theorem windowLoop_returns {tokens : List ℕ} {blockSize maxStart fuel start : ℕ}
    (hblock : 0 < blockSize) (hmax : maxStart ≤ usizeMax) (hfuel : maxStart - start < fuel) :
    ∃ records, windowLoop tokens blockSize maxStart fuel start = some records := by
  induction fuel generalizing start with
  | zero => omega
  | succ fuel ih =>
    rw [windowLoop]
    split_ifs with hdone
    · exact ⟨_, rfl⟩
    · obtain ⟨rest, hrest⟩ := @ih (min (saturatingAdd start blockSize) maxStart) (by
        unfold saturatingAdd
        omega)
      exact ⟨_, by rw [hrest]; rfl⟩

/-- A document is cut into windows in at most as many passes as it has tokens. -/
theorem tokenWindowsFromTokens_returns {tokens : List ℕ} {blockSize fuel : ℕ} (hblock : 0 < blockSize)
    (hlength : tokens.length ≤ usizeMax) (hfuel : tokens.length ≤ fuel) :
    ∃ records, tokenWindowsFromTokens fuel tokens blockSize = some records := by
  unfold tokenWindowsFromTokens
  split_ifs with hshort
  · exact ⟨[], rfl⟩
  · exact windowLoop_returns hblock (by omega) (by omega)

/-! ## Records -/

section Loop

variable {σ : Type} (generate : ℕ → σ → Option (Fallible String (List ℕ) × σ))
  (windowize : List ℕ → Option (List TokenWindowRecord)) (recordLimit : ℕ)

/-- The loop over the selected documents. The generator of the documents may change its state, also when
it fails. -/
def recordsLoop : List ℕ → List TokenWindowRecord → σ →
    Option (Fallible String (List TokenWindowRecord) × σ)
  | [], records, state => some (.ok records, state)
  | sampleIndex :: sampleIndices, records, state => do
    match ← generate sampleIndex state with
    | (.error e, state) => return (.error e, state)
    | (.ok tokens, state) =>
      let windows ← windowize tokens
      let records := records ++ windows
      if recordLimit ≤ records.length then return (.ok (records.take recordLimit), state)
      else recordsLoop sampleIndices records state

variable {generate windowize recordLimit}

/-- What every document leaves unchanged, the loop leaves unchanged. -/
theorem recordsLoop_preserves {P : σ → Prop}
    (hgenerate : ∀ i state result state', P state → generate i state = some (result, state') →
      P state')
    {sampleIndices : List ℕ} {records : List TokenWindowRecord} {state state' : σ}
    {result : Fallible String (List TokenWindowRecord)} (h : P state)
    (hrun : recordsLoop generate windowize recordLimit sampleIndices records state =
      some (result, state')) : P state' := by
  induction sampleIndices generalizing records state with
  | nil =>
    cases hrun
    exact h
  | cons i rest ih =>
    rw [recordsLoop] at hrun
    obtain ⟨⟨document, next⟩, hdocument, hrun⟩ := Option.bind_eq_some_iff.1 hrun
    have hnext := hgenerate i state document next h hdocument
    cases document with
    | error e =>
      cases hrun
      exact hnext
    | ok tokens =>
      obtain ⟨windows, -, hrun⟩ := Option.bind_eq_some_iff.1 hrun
      dsimp only at hrun
      split_ifs at hrun
      · cases hrun
        exact hnext
      · exact ih hnext hrun

/-- Generators that make the same documents make the same records. -/
theorem recordsLoop_eq {τ : Type} {generate' : ℕ → τ → Option (Fallible String (List ℕ) × τ)}
    {R : σ → τ → Prop}
    (hdocument : ∀ i state other, R state other →
      (generate i state).map Prod.fst = (generate' i other).map Prod.fst)
    (hnext : ∀ i state other result result' state' other', R state other →
      generate i state = some (result, state') → generate' i other = some (result', other') →
      R state' other')
    (sampleIndices : List ℕ) (records : List TokenWindowRecord) {state : σ} {other : τ}
    (h : R state other) :
    (recordsLoop generate windowize recordLimit sampleIndices records state).map Prod.fst =
      (recordsLoop generate' windowize recordLimit sampleIndices records other).map Prod.fst := by
  induction sampleIndices generalizing records state other with
  | nil => rfl
  | cons i rest ih =>
    have heq := hdocument i state other h
    rw [recordsLoop, recordsLoop]
    rcases hrun : generate i state with _ | ⟨document, next⟩ <;>
      rcases hrun' : generate' i other with _ | ⟨document', next'⟩ <;>
      rw [hrun, hrun'] at heq
    · rfl
    · cases heq
    · cases heq
    · obtain rfl : document = document' := by simpa using heq
      cases document with
      | error e => rfl
      | ok tokens =>
        change (Option.bind (windowize tokens) _).map Prod.fst =
          (Option.bind (windowize tokens) _).map Prod.fst
        cases windowize tokens with
        | none => rfl
        | some windows =>
          simp only [Option.bind_some]
          split_ifs
          · rfl
          · exact ih (records ++ windows) (hnext i state other _ _ _ _ h hrun hrun')

end Loop

/-- `generated_records_with_windowizer`. -/
def generatedRecordsWithWindowizer {σ : Type} (ext : Externals) (sampleCount : ℕ)
    (selection : GeneratedRecordSelection)
    (generate : ℕ → σ → Option (Fallible String (List ℕ) × σ))
    (windowize : List ℕ → Option (List TokenWindowRecord)) (state : σ) :
    Option (Fallible String (List TokenWindowRecord) × σ) :=
  recordsLoop generate windowize (selection.recordLimit.getD usizeMax)
    (deterministicSampleIndices ext sampleCount selection) [] state

end BurnDragon.Browser
