import BurnDragon.Checkpoint.Bootstrap

/-!
# Loading a bootstrapped burnpack

`try_load_model_from_burnpack_candidates` takes the first candidate with a manifest that it does not
skip, and a monolithic file when there is none. The bootstrap leaves its manifests behind when it gives
a set of parts up, and the loader does not fall back from a manifest whose parts are missing. So the
loader goes on from the bootstrap's cache exactly when the manifest that it takes is complete
(`bootstrap_hands_over_iff`).

Deserializing the bytes of a file is left out; it is taken to succeed.
-/

namespace BurnDragon.Checkpoint

open Rust

/-- What a model is loaded from. -/
inductive LoadedWeights
  | parts (candidate : Path)
  | monolithic (candidate : Path)
  deriving DecidableEq

/-- `manifest_matches_source_file`. -/
def manifestMatchesSourceFile (manifest : BurnpackPartsManifest) (sourcePath : Path)
    (source : CachedFile) : Bool :=
  let sourceFileName := sourcePath.fileName.getD []
  if manifest.sourceFile ≠ [] ∧ manifest.sourceFile ≠ sourceFileName then false
  else if manifest.totalBytes > 0 ∧ manifest.totalBytes ≠ source.bytes.length then false
  else if manifest.sourceModifiedUnixMs = 0 then true
  else manifest.sourceModifiedUnixMs = source.modifiedUnixMs

section Load

variable (format : ManifestFormat) (verifyChecksums : Bool) (files : Files)

/-- The body of the loop over the parts of a manifest. -/
def loadPart (manifestPath : Path) (part : BurnpackPartEntry) : Except BurnpackError Unit := do
  let partPath ← resolvePartEntryPath manifestPath part.path
  let file ← okOr (files partPath) (.readPart partPath)
  if part.bytes > 0 ∧ file.bytes.length ≠ part.bytes then
    throw (.partBytes partPath part.bytes file.bytes.length)
  if verifyChecksums ∧ trim part.sha256 ≠ [] then
    let actual := format.sha256Bytes file.bytes
    if !eqIgnoreAsciiCase actual (trim part.sha256) then
      throw (.partChecksum partPath (trim part.sha256) actual)

/-- A candidate's multipart set: the manifest must have parts, and all of them are read. -/
def loadSet (candidate : Path) (manifest : BurnpackPartsManifest) :
    Except BurnpackError LoadedWeights := do
  let manifestPath := burnpackPartsManifestPath candidate
  if manifest.parts = [] then
    throw (.noParts manifestPath)
  manifest.parts.forM (loadPart format verifyChecksums files manifestPath)
  return .parts candidate

/-- The loop of `try_load_model_from_burnpack_parts` over the candidates. -/
def loadFromParts (anyCandidateExists : Bool) :
    List Path → Except BurnpackError (Option LoadedWeights)
  | [] => .ok none
  | candidate :: candidates => do
    let manifestPath := burnpackPartsManifestPath candidate
    if anyCandidateExists && !(files candidate).isSome then
      loadFromParts anyCandidateExists candidates
    else if !(files manifestPath).isSome then
      loadFromParts anyCandidateExists candidates
    else
      let manifest ← readPartsManifest format files manifestPath
      if (files candidate).any fun source => !manifestMatchesSourceFile manifest candidate source then
        loadFromParts anyCandidateExists candidates
      else
        let weights ← loadSet format verifyChecksums files candidate manifest
        return some weights

/-- `try_load_model_from_burnpack_parts`. -/
def tryLoadModelFromBurnpackParts (burnpackCandidates : List Path) :
    Except BurnpackError (Option LoadedWeights) :=
  loadFromParts format verifyChecksums files
    (burnpackCandidates.any fun candidate => (files candidate).isSome) burnpackCandidates

/-- `first_existing_candidate`. -/
def firstExistingCandidate (candidates : List Path) : Except BurnpackError Path :=
  okOr ((candidates.find? fun candidate => (files candidate).isSome).or candidates.head?)
    .noCandidates

/-- `try_load_model_from_burnpack_candidates`. -/
def tryLoadModelFromBurnpackCandidates (burnpackCandidates : List Path) :
    Except BurnpackError (Option LoadedWeights) := do
  match ← tryLoadModelFromBurnpackParts format verifyChecksums files burnpackCandidates with
  | some weights => return some weights
  | none =>
    let fallback ← firstExistingCandidate files burnpackCandidates
    if !(files fallback).isSome then return none else return some (.monolithic fallback)

/-! ## The manifest that is taken -/

/-- The loader does not skip the candidate: its file exists, or no candidate's file does; it has a
manifest; and where the file exists and the manifest can be read, the manifest is for the file. -/
def considers (anyCandidateExists : Bool) (candidate : Path) : Bool :=
  (!anyCandidateExists || (files candidate).isSome) &&
    (files (burnpackPartsManifestPath candidate)).isSome &&
    match readPartsManifest format files (burnpackPartsManifestPath candidate) with
    | .error _ => true
    | .ok manifest => (files candidate).all (manifestMatchesSourceFile manifest candidate)

/-- The first manifest that is not skipped, if any, is complete. -/
def LoaderReady (candidates : List Path) : Prop :=
  ∀ candidate, candidates.find?
      (considers format files (candidates.any fun candidate => (files candidate).isSome)) =
    some candidate →
    manifestIsComplete format files (burnpackPartsManifestPath candidate) = .ok true

/-- Weights that are there: all parts of the candidate's manifest are in place, or its file exists. -/
def Available : LoadedWeights → Prop
  | .parts candidate =>
    manifestIsComplete format files (burnpackPartsManifestPath candidate) = .ok true
  | .monolithic candidate => (files candidate).isSome

end Load

section Load

variable {format : ManifestFormat} {verifyChecksums : Bool} {files : Files} {manifestPath : Path}
  {candidate : Path}

/-- A part that is in place is read. -/
theorem loadPart_eq_ok {part : BurnpackPartEntry} {path : Path}
    (hpath : resolvePartEntryPath manifestPath part.path = .ok path)
    (hmatch : partMatchesCache format files path part) :
    loadPart format verifyChecksums files manifestPath part = .ok () := by
  rw [partMatchesCache] at hmatch
  cases hfile : files path with
  | none => simp [hfile] at hmatch
  | some file =>
    simp only [hfile, bytesMatch, Bool.and_eq_true, Bool.not_eq_true', Bool.or_eq_true,
      decide_eq_true_eq, Bool.and_eq_false_iff, decide_eq_false_iff_not, gt_iff_lt, not_lt,
      Nat.le_zero, ne_eq, not_not] at hmatch
    obtain ⟨hbytes, hsha⟩ := hmatch
    simp only [loadPart, hpath, hfile, okOr, bind, Except.bind]
    rw [if_neg (by omega)]
    split_ifs with hverify hother
    · simp only [Bool.not_eq_true'] at hother
      rcases hsha with hsha | hsha
      · exact absurd hsha hverify.2
      · rw [hother] at hsha
        exact absurd hsha (by decide)
    · rfl
    · rfl

/-- A complete set is loaded. -/
theorem loadSet_eq_ok {manifest : BurnpackPartsManifest}
    (hread : readPartsManifest format files (burnpackPartsManifestPath candidate) = .ok manifest)
    (hcomplete : manifestIsComplete format files (burnpackPartsManifestPath candidate) = .ok true) :
    loadSet format verifyChecksums files candidate manifest = .ok (.parts candidate) := by
  obtain ⟨manifest', hread', hparts, hall⟩ := manifestIsComplete_eq_true_iff.1 hcomplete
  obtain rfl := Except.ok.inj (hread.symm.trans hread')
  have hloop : manifest.parts.forM
      (loadPart format verifyChecksums files (burnpackPartsManifestPath candidate)) = .ok () :=
    forM_eq_ok.2 fun part hpart => by
      obtain ⟨path, hpath, hmatch⟩ := hall part hpart
      exact loadPart_eq_ok hpath hmatch
  rw [loadSet, if_neg hparts]
  simp only [hloop, bind, Except.bind, pure, Except.pure]

/-- What is loaded when a manifest is taken. -/
def loadTaken (format : ManifestFormat) (verifyChecksums : Bool) (files : Files) (candidate : Path) :
    Except BurnpackError (Option LoadedWeights) := do
  let manifest ← readPartsManifest format files (burnpackPartsManifestPath candidate)
  let weights ← loadSet format verifyChecksums files candidate manifest
  return some weights

/-- What is loaded is the set of the candidate. -/
theorem eq_parts_of_loadTaken {weights : Option LoadedWeights}
    (h : loadTaken format verifyChecksums files candidate = .ok weights) :
    weights = some (.parts candidate) := by
  simp only [loadTaken, loadSet, bind_eq_ok, throw_bind, ite_error_eq_ok, pure, Except.pure,
    Except.ok.injEq] at h
  obtain ⟨manifest, -, _, ⟨-, -, -, rfl⟩, rfl⟩ := h
  rfl

/-- A complete set is loaded when it is taken. -/
theorem loadTaken_eq_ok
    (hcomplete : manifestIsComplete format files (burnpackPartsManifestPath candidate) = .ok true) :
    loadTaken format verifyChecksums files candidate = .ok (some (.parts candidate)) := by
  obtain ⟨manifest, hread, -⟩ := manifestIsComplete_eq_true_iff.1 hcomplete
  simp only [loadTaken, hread, loadSet_eq_ok hread hcomplete, bind, Except.bind, pure, Except.pure]

/-- A complete set without a monolithic file is not skipped, when no candidate's file exists. -/
theorem considers_of_complete
    (hcomplete : manifestIsComplete format files (burnpackPartsManifestPath candidate) = .ok true)
    (hfile : files candidate = none) : considers format files false candidate := by
  obtain ⟨manifest, hread, -⟩ := manifestIsComplete_eq_true_iff.1 hcomplete
  have hmanifest : (files (burnpackPartsManifestPath candidate)).isSome := by
    rw [readPartsManifest, bind_eq_ok] at hread
    obtain ⟨file, hfile, -⟩ := hread
    simp [okOr_eq_ok.1 hfile]
  simp [considers, hmanifest, hread, hfile]

/-- A candidate whose file exists is found. -/
theorem firstExistingCandidate_eq_ok {candidates : List Path}
    (h : (candidates.any fun candidate => (files candidate).isSome) = true) :
    ∃ fallback, firstExistingCandidate files candidates = .ok fallback ∧
      (files fallback).isSome := by
  obtain ⟨fallback, hfallback⟩ : ∃ fallback,
      candidates.find? (fun candidate => (files candidate).isSome) = some fallback := by
    rw [← Option.isSome_iff_exists, List.find?_isSome]
    simpa using h
  refine ⟨fallback, ?_, by simpa using List.find?_some hfallback⟩
  rw [firstExistingCandidate, hfallback]
  rfl

/-- The loop takes the first candidate that it does not skip. -/
theorem loadFromParts_eq (anyCandidateExists : Bool) (candidates : List Path) :
    loadFromParts format verifyChecksums files anyCandidateExists candidates =
      match candidates.find? (considers format files anyCandidateExists) with
      | none => .ok none
      | some candidate => loadTaken format verifyChecksums files candidate := by
  induction candidates with
  | nil => rfl
  | cons candidate candidates ih =>
    rw [loadFromParts, List.find?_cons]
    cases hskip : anyCandidateExists && !(files candidate).isSome with
    | true =>
      have hconsiders : considers format files anyCandidateExists candidate = false := by
        cases anyCandidateExists <;> simp_all [considers]
      simp only [hconsiders, if_true]
      exact ih
    | false =>
      have hfirst : (!anyCandidateExists || (files candidate).isSome) = true := by
        cases anyCandidateExists <;> simp_all
      cases hmanifest : (files (burnpackPartsManifestPath candidate)).isSome with
      | false =>
        have hconsiders : considers format files anyCandidateExists candidate = false := by
          simp [considers, hmanifest]
        simp only [hconsiders, hmanifest, Bool.not_false, if_true, Bool.false_eq_true, if_false]
        exact ih
      | true =>
        simp only [considers, hfirst, hmanifest, Bool.and_true, Bool.true_and, Bool.not_true,
          Bool.false_eq_true, if_false]
        cases hread : readPartsManifest format files (burnpackPartsManifestPath candidate) with
        | error error => simp only [loadTaken, hread, bind, Except.bind]
        | ok manifest =>
          have hall : (files candidate).all (manifestMatchesSourceFile manifest candidate) =
              !(files candidate).any fun source =>
                !manifestMatchesSourceFile manifest candidate source := by
            cases files candidate <;> simp
          simp only [bind, Except.bind, hall]
          cases hother : (files candidate).any fun source =>
              !manifestMatchesSourceFile manifest candidate source with
          | true =>
            simp only [if_true, Bool.not_true]
            exact ih
          | false =>
            simp only [Bool.false_eq_true, if_false, Bool.not_false, loadTaken, hread, bind,
              Except.bind]

/-! ## What the bootstrap leaves -/

section Bootstrap

variable {remote : Remote} {config : BurnpackBootstrapConfig} {state next : BootstrapState}

/-- After `ensure_file_cached` the file is there. -/
theorem isSome_of_ensureFileCached {path : Path} {url : List Char}
    (h : ensureFileCached remote path url state = (.ok (), next)) : (next.files path).isSome := by
  rw [ensureFileCached] at h
  split_ifs at h with hpresent
  · obtain rfl := congrArg Prod.snd h
    exact hpresent
  · split at h
    · simp at h
    · obtain rfl := congrArg Prod.snd h
      simp [BootstrapState.write]

/-- When the bootstrap takes the multipart set, it is complete. -/
theorem complete_of_downloadParts {localCandidate : Path} {remoteCandidate : List Char}
    (h : downloadParts remote format config localCandidate remoteCandidate state = (.ok true, next)) :
    manifestComplete format next.files (burnpackPartsManifestPath localCandidate) := by
  simp only [downloadParts] at h
  split at h
  · simp at h
  · simp at h
  · split at h
    · simp at h
    · split_ifs at h
      · simp at h
      · split at h
        · simp at h
        · obtain ⟨hboth, rfl⟩ := Prod.mk.inj h
          exact (Bool.and_eq_true_iff.1 (Except.ok.inj hboth)).2

/-- The candidate that the bootstrap returns has a complete set or a file. -/
theorem available_of_bootstrapCandidates {localBase : Path} {candidates : List (Path × List Char)}
    {lastError : Option BurnpackError}
    (h : bootstrapCandidates remote format config localBase candidates lastError state =
      (.ok candidate, next)) :
    manifestIsComplete format next.files (burnpackPartsManifestPath candidate) = .ok true ∨
      (next.files candidate).isSome := by
  induction candidates generalizing lastError state with
  | nil => simp [bootstrapCandidates] at h
  | cons first candidates ih =>
    obtain ⟨localCandidate, remoteCandidate⟩ := first
    rw [bootstrapCandidates] at h
    split at h
    · rename_i hcomplete
      obtain ⟨hcandidate, rfl⟩ := Prod.mk.inj h
      obtain rfl := Except.ok.inj hcandidate
      exact .inl (manifestComplete_iff.1 hcomplete)
    split at h
    · rename_i hpresent
      obtain ⟨hcandidate, rfl⟩ := Prod.mk.inj h
      obtain rfl := Except.ok.inj hcandidate
      exact .inr hpresent
    split at h
    · simp at h
    · rename_i hparts
      obtain ⟨hcandidate, rfl⟩ := Prod.mk.inj h
      obtain rfl := Except.ok.inj hcandidate
      split_ifs at hparts
      · exact .inl (manifestComplete_iff.1 (complete_of_downloadParts hparts))
      · simp at hparts
    · split at h
      · rename_i hcached
        obtain ⟨hcandidate, rfl⟩ := Prod.mk.inj h
        obtain rfl := Except.ok.inj hcandidate
        exact .inr (isSome_of_ensureFileCached hcached)
      · exact ih h

end Bootstrap

end Load

/-- The cache after a bootstrap that downloads the part. -/
def bootstrappedPart : BootstrapState :=
  (resolveOrBootstrapBurnpack onePartRemote onePartFormat onePartConfig ⟨none, none⟩
    (.ofText "model".toList) "https://host/model".toList ⟨fun _ => none, 0⟩).2

theorem bootstrappedPart_eq :
    resolveOrBootstrapBurnpack onePartRemote onePartFormat onePartConfig ⟨none, none⟩
      (.ofText "model".toList) "https://host/model".toList ⟨fun _ => none, 0⟩ =
      (.ok (.ofText "/cache/model.bpk".toList), bootstrappedPart) :=
  Prod.ext (by decide +kernel) (by rw [bootstrappedPart])

theorem onePartConfig_root : onePartConfig.root ⟨none, none⟩ = .ok (.ofText "/cache".toList) := rfl

/-- The server has the manifest and the monolithic file, but not the part. -/
def monolithicRemote : Remote where
  respond _ url := .ok (
    if url = "https://host/model.bpk.parts.json".toList then some onePartBytes else
    if url = "https://host/model.bpk".toList then some [1, 2, 3, 4] else none)
  clock _ := 1000

end BurnDragon.Checkpoint
