import BurnDragon.Checkpoint.Cache

/-!
# Bootstrapping a burnpack

`bootstrap.rs`: for every candidate of a burnpack, in the order of the precision preference, a
multipart set or a monolithic file is taken from the cache or downloaded into it. The server is
arbitrary: it answers every request as it likes (`Remote`).

A damaged cache is repaired exactly when no part file of the served manifest is in the way
(`bootstrap_repairs_iff`): a part file that does not match its entry is not downloaded again, because
`ensure_file_cached` keeps every file that exists.
-/

namespace BurnDragon.Checkpoint

open Rust List Path Option Files

/-! ## Candidates -/

/-- `BurnpackPrecisionPreference`. -/
inductive BurnpackPrecisionPreference
  | preferF16
  | preferF32
  deriving DecidableEq

/-- `BurnpackLoadPolicy`. -/
structure BurnpackLoadPolicy where
  precision : BurnpackPrecisionPreference
  f16Suffix : List Char

/-- `with_file_stem_suffix`. -/
def withFileStemSuffix (path : Path) (suffix : List Char) : Path :=
  match path.fileStem with
  | none => path
  | some stem =>
    if endsWith stem suffix then path
    else
      let ext := path.extension.getD []
      path.withFileName (stem ++ suffix ++ if ext = [] then [] else '.' :: ext)

/-- `burnpack_path`. -/
def burnpackPath (path : Path) (useF16 : Bool) (f16Suffix : List Char) : Path :=
  let path :=
    if path.extension.any fun ext => eqIgnoreAsciiCase ext "bpk".toList then path
    else path.withExtension "bpk".toList
  if useF16 then withFileStemSuffix path f16Suffix else path

/-- The default and the half-precision candidate in the order of the policy, or one if they are the
same, as `candidate_burnpack_paths` and `candidate_burnpack_urls` both list them. -/
def orderCandidates {α : Type} [DecidableEq α] (policy : BurnpackLoadPolicy) (default f16 : α) :
    List α :=
  if f16 = default then [default]
  else if policy.precision = .preferF16 then [f16, default]
  else [default, f16]

/-- `candidate_burnpack_paths`. -/
def candidateBurnpackPaths (path : Path) (policy : BurnpackLoadPolicy) : List Path :=
  orderCandidates policy (burnpackPath path false policy.f16Suffix)
    (burnpackPath path true policy.f16Suffix)

/-- `with_file_like_suffix`. -/
def withFileLikeSuffix (path suffix : List Char) : List Char :=
  match rsplitOnce '.' path with
  | some (stem, ext) => if endsWith stem suffix then path else stem ++ suffix ++ '.' :: ext
  | none => if endsWith path suffix then path else path ++ suffix

/-- `with_url_stem_suffix`. -/
def withUrlStemSuffix (url suffix : List Char) : List Char :=
  match rsplitOnce '/' url with
  | none => withFileLikeSuffix url suffix
  | some (before, tail) => before ++ '/' :: withFileLikeSuffix tail suffix

/-- `burnpack_url`. -/
def burnpackUrl (baseUrl : List Char) (useF16 : Bool) (f16Suffix : List Char) : List Char :=
  let base := if endsWith baseUrl ".bpk".toList then baseUrl else baseUrl ++ ".bpk".toList
  if useF16 then withUrlStemSuffix base f16Suffix else base

/-- `candidate_burnpack_urls`. -/
def candidateBurnpackUrls (baseUrl : List Char) (policy : BurnpackLoadPolicy) : List (List Char) :=
  orderCandidates policy (burnpackUrl baseUrl false policy.f16Suffix)
    (burnpackUrl baseUrl true policy.f16Suffix)

/-- `resolve_manifest_entry_url`. -/
def resolveManifestEntryUrl (manifestUrl entryPath : List Char) : List Char :=
  if "http://".toList.isPrefixOf entryPath || "https://".toList.isPrefixOf entryPath then entryPath
  else
    let base := ((rsplitOnce '/' manifestUrl).map (·.1)).getD []
    let entry := entryPath.dropWhile (· = '/')
    if base = [] then entry else (base.reverse.dropWhile (· = '/')).reverse ++ '/' :: entry

/-! ## Downloads -/

/-- What a server answers to each request for a URL: an error, no such resource, or its bytes. The
clock gives the time of a file that is written after as many requests. -/
structure Remote where
  respond : ℕ → List Char → Except String (Option (List UInt8))
  clock : ℕ → ℕ

/-- The cache with the number of requests made so far. -/
structure BootstrapState where
  files : Files
  requests : ℕ

/-- `BurnpackBootstrapConfig`. -/
structure BurnpackBootstrapConfig where
  cacheRoot : Option Path
  preferParts : Bool
  verifyChecksums : Bool
  loadPolicy : BurnpackLoadPolicy

/-- The variables of the process environment that `default_cache_root` reads. -/
structure CacheEnvironment where
  burnDragonCacheDir : Option Path
  home : Option Path

/-- `default_cache_root`. -/
def defaultCacheRoot (env : CacheEnvironment) : Except BurnpackError Path :=
  match env.burnDragonCacheDir with
  | some explicit => .ok explicit
  | none => okOr (env.home.map (·.join (.ofText ".cache/burn_dragon/models".toList))) .noHome

/-- The root of the cache: the configured one, or the default. -/
def BurnpackBootstrapConfig.root (config : BurnpackBootstrapConfig) (env : CacheEnvironment) :
    Except BurnpackError Path :=
  match config.cacheRoot with
  | some root => .ok root
  | none => defaultCacheRoot env

/-- `resolve_local_base`. -/
def resolveLocalBase (localBase cacheRoot : Path) : Path :=
  if localBase.absolute then localBase else cacheRoot.join localBase

def downloadAttempts : ℕ := 4

section Remote

variable (remote : Remote)

/-- `download_optional_bytes`. -/
def downloadOptionalBytes (url : List Char) (state : BootstrapState) :
    Except String (Option (List UInt8)) × BootstrapState :=
  (remote.respond state.requests url, { state with requests := state.requests + 1 })

/-- The loop of `download_required_bytes` with the number of attempts left after this one. -/
def downloadLoop (url : List Char) (attemptsLeft : ℕ) (state : BootstrapState) :
    Except BurnpackError (List UInt8) × BootstrapState :=
  match downloadOptionalBytes remote url state with
  | (.ok (some bytes), state) => (.ok bytes, state)
  | (.ok none, state) => (.error (.notFound url), state)
  | (.error message, state) =>
    match attemptsLeft with
    | 0 => (.error (.download url downloadAttempts message), state)
    | attemptsLeft + 1 => downloadLoop url attemptsLeft state

/-- `download_required_bytes`. -/
def downloadRequiredBytes (url : List Char) (state : BootstrapState) :
    Except BurnpackError (List UInt8) × BootstrapState :=
  downloadLoop remote url (downloadAttempts - 1) state

/-- `write_bytes_atomically`. -/
def BootstrapState.write (state : BootstrapState) (path : Path) (bytes : List UInt8) :
    BootstrapState :=
  { state with files := state.files.write path bytes (remote.clock state.requests) }

/-- `ensure_file_cached`. -/
def ensureFileCached (path : Path) (url : List Char) (state : BootstrapState) :
    Except BurnpackError Unit × BootstrapState :=
  if (state.files path).isSome then
    (.ok (), state)
  else
    match downloadRequiredBytes remote url state with
    | (.error error, state) => (.error error, state)
    | (.ok bytes, state) => (.ok (), state.write remote path bytes)

/-! ## Candidates in turn -/

variable (format : ManifestFormat) (config : BurnpackBootstrapConfig)

/-- The loop over the parts of a manifest: whether all are in place. -/
def fetchParts (manifestPath : Path) (manifestUrl : List Char) :
    List BurnpackPartEntry → BootstrapState → Except BurnpackError Bool × BootstrapState
  | [], state => (.ok true, state)
  | part :: parts, state =>
    match resolvePartEntryPath manifestPath part.path with
    | .error error => (.error error, state)
    | .ok localPartPath =>
      if partMatchesCache format state.files localPartPath part then
        fetchParts manifestPath manifestUrl parts state
      else
        match ensureFileCached remote localPartPath
            (resolveManifestEntryUrl manifestUrl part.path) state with
        | (.error _, state) => (.ok false, state)
        | (.ok (), state) =>
          if config.verifyChecksums && !partMatchesCache format state.files localPartPath part then
            (.ok false, state)
          else
            fetchParts manifestPath manifestUrl parts state

/-- The branch of `prefer_parts`: whether the multipart set of a candidate is complete after it. -/
def downloadParts (localCandidate : Path) (remoteCandidate : List Char) (state : BootstrapState) :
    Except BurnpackError Bool × BootstrapState :=
  let manifestPath := burnpackPartsManifestPath localCandidate
  let manifestUrl := remoteCandidate ++ ".parts.json".toList
  match downloadOptionalBytes remote manifestUrl state with
  | (.error _, state) => (.ok false, state)
  | (.ok none, state) => (.ok false, state)
  | (.ok (some manifestBytes), state) =>
    let state := state.write remote manifestPath manifestBytes
    match readPartsManifest format state.files manifestPath with
    | .error error => (.error error, state)
    | .ok manifest =>
      if manifest.parts = [] then
        (.ok false, state)
      else
        match fetchParts remote format config manifestPath manifestUrl manifest.parts state with
        | (.error error, state) => (.error error, state)
        | (.ok manifestOk, state) =>
          (.ok (manifestOk && manifestComplete format state.files manifestPath), state)

/-- The loop of `resolve_or_bootstrap_burnpack_with_progress` over the candidates. -/
def bootstrapCandidates (localBase : Path) : List (Path × List Char) → Option BurnpackError →
    BootstrapState → Except BurnpackError Path × BootstrapState
  | [], lastError, state => (.error (lastError.getD (.unresolved localBase)), state)
  | (localCandidate, remoteCandidate) :: candidates, _, state =>
    if manifestComplete format state.files (burnpackPartsManifestPath localCandidate) then
      (.ok localCandidate, state)
    else if (state.files localCandidate).isSome then
      (.ok localCandidate, state)
    else
      match (if config.preferParts then
          downloadParts remote format config localCandidate remoteCandidate state
        else (.ok false, state)) with
      | (.error error, state) => (.error error, state)
      | (.ok true, state) => (.ok localCandidate, state)
      | (.ok false, state) =>
        match ensureFileCached remote localCandidate remoteCandidate state with
        | (.ok (), state) => (.ok localCandidate, state)
        | (.error error, state) => bootstrapCandidates localBase candidates (some error) state

/-- `resolve_or_bootstrap_burnpack`: the candidate that can be loaded, and the cache. -/
def resolveOrBootstrapBurnpack (env : CacheEnvironment) (localBase : Path) (remoteBaseUrl : List Char)
    (state : BootstrapState) : Except BurnpackError Path × BootstrapState :=
  match config.root env with
  | .error error => (.error error, state)
  | .ok cacheRoot =>
    let localBase := resolveLocalBase localBase cacheRoot
    bootstrapCandidates remote format config localBase
      ((candidateBurnpackPaths localBase config.loadPolicy).zip
        (candidateBurnpackUrls remoteBaseUrl config.loadPolicy)) none state

end Remote

/-! ## Paths of parts -/

/-- The manifest's file name. -/
theorem exists_fileName_manifestPath (burnpackPath : Path) : ∃ name,
    (burnpackPartsManifestPath burnpackPath).fileName = some (name ++ ".parts.json".toList) := by
  obtain ⟨name, hname⟩ := @Path.fileName_ofText_append
    (burnpackPath.fileName.getD "model.bpk".toList) ".parts.json".toList (by decide) (by decide)
  exact ⟨name, fileName_withFileName burnpackPath hname⟩

/-- The manifest has the extension `json`, so it is no temporary file. -/
theorem partialPath_ne_manifestPath (path burnpackPath : Path) :
    path.partialPath ≠ burnpackPartsManifestPath burnpackPath := by
  intro heq
  obtain ⟨name, hname⟩ := exists_fileName_manifestPath burnpackPath
  by_cases hfile : path.fileName.isSome
  · have hext := extension_partialPath hfile
    have hshape : name ++ ".parts.json".toList = (name ++ ".parts".toList) ++ '.' :: "json".toList := by
      simp
    rw [heq, extension, hname, bind_some, hshape, splitAtDot,
      rsplitOnce_append _ (by decide)] at hext
    simp at hext
  · have hnone : path.fileName = none := not_isSome_iff_eq_none.1 hfile
    rw [← partialPath_eq_self hnone, heq, hname] at hnone
    simp at hnone

/-- Where a part with a relative path belongs. -/
def partPath (manifestPath : Path) (part : BurnpackPartEntry) : Path :=
  (manifestPath.parent.getD manifestPath).join (.ofText part.path)

theorem resolvePartEntryPath_eq {burnpackPath : Path} {part : BurnpackPartEntry}
    (h : (ofText part.path).absolute = false) :
    resolvePartEntryPath (burnpackPartsManifestPath burnpackPath) part.path =
      .ok (partPath (burnpackPartsManifestPath burnpackPath) part) := by
  obtain ⟨name, hname⟩ := exists_fileName_manifestPath burnpackPath
  have hne : (burnpackPartsManifestPath burnpackPath).components ≠ [] := by
    intro hnil
    simp [fileName, hnil] at hname
  simp [resolvePartEntryPath, partPath, h, parent, hne, okOr]

/-! ## Downloads -/

section Downloads

variable {remote : Remote} {url : List Char} {bytes : List UInt8} {state : BootstrapState}

/-- A resource that is served is downloaded. -/
theorem downloadRequiredBytes_of_served (h : ∀ n, remote.respond n url = .ok (some bytes)) :
    downloadRequiredBytes remote url state =
      (.ok bytes, { state with requests := state.requests + 1 }) := by
  rw [downloadRequiredBytes, downloadLoop, downloadOptionalBytes, h]

/-- A download does not touch the files, and it fails when the resource is never served. -/
theorem downloadRequiredBytes_of_not_served
    (h : ∀ n bytes, remote.respond n url ≠ .ok (some bytes)) :
    ∃ error requests, downloadRequiredBytes remote url state = (.error error, ⟨state.files, requests⟩) := by
  have hloop : ∀ (attemptsLeft : ℕ) (state : BootstrapState), ∃ error requests,
      downloadLoop remote url attemptsLeft state = (.error error, ⟨state.files, requests⟩) := by
    intro attemptsLeft
    induction attemptsLeft with
    | zero =>
      intro state
      rw [downloadLoop, downloadOptionalBytes]
      rcases hrespond : remote.respond state.requests url with message | _ | bytes
      · exact ⟨_, _, rfl⟩
      · exact ⟨_, _, rfl⟩
      · exact absurd hrespond (h _ _)
    | succ attemptsLeft ih =>
      intro state
      rw [downloadLoop, downloadOptionalBytes]
      rcases hrespond : remote.respond state.requests url with message | _ | bytes
      · exact ih _
      · exact ⟨_, _, rfl⟩
      · exact absurd hrespond (h _ _)
  exact hloop _ state

end Downloads

/-! ## Repair -/

/-- The server has a manifest with parts, each part as the manifest describes it, and no monolithic
file. -/
structure ServesParts (remote : Remote) (format : ManifestFormat) (remoteCandidate : List Char)
    (manifestBytes : List UInt8) (manifest : BurnpackPartsManifest) : Prop where
  served : ∀ n, remote.respond n (remoteCandidate ++ ".parts.json".toList) =
    .ok (some manifestBytes)
  parse : format.parse manifestBytes = .ok manifest
  nonempty : manifest.parts ≠ []
  relative : ∀ part ∈ manifest.parts, (Path.ofText part.path).absolute = false
  distinct : (manifest.parts.map fun part => Path.ofText part.path).Nodup
  parts : ∀ part ∈ manifest.parts, ∃ bytes, bytesMatch format bytes part ∧ ∀ n,
    remote.respond n
      (resolveManifestEntryUrl (remoteCandidate ++ ".parts.json".toList) part.path) =
      .ok (some bytes)
  monolithic : ∀ n bytes, remote.respond n remoteCandidate ≠ .ok (some bytes)

/-- The path with the given index is free when the parts before it are in place: it was not in the
cache, or it was the temporary file of an absent part before it. -/
inductive AbsentAtTurn (files : Files) (paths : List Path) : ℕ → Prop
  | absent {i : ℕ} {path : Path} : paths[i]? = some path → files path = none → AbsentAtTurn files paths i
  | temporary {i j : ℕ} {path : Path} : i < j → AbsentAtTurn files paths i → paths[i]? = some path →
      paths[j]? = some path.partialPath → AbsentAtTurn files paths j

/-- The file of the part is absent by its turn or matches its entry. -/
def FreeAt (format : ManifestFormat) (files : Files) (manifestPath : Path)
    (parts : List BurnpackPartEntry) (i : ℕ) (part : BurnpackPartEntry) : Prop :=
  AbsentAtTurn files (parts.map (partPath manifestPath)) i ∨
    partMatchesCache format files (partPath manifestPath part) part

/-- No part file is in the way: each is absent by its turn or matches its entry, and none is the
temporary file of an absent part after it. -/
structure PartsFree (format : ManifestFormat) (files : Files) (manifestPath : Path)
    (parts : List BurnpackPartEntry) : Prop where
  free : ∀ (i : ℕ) (part : BurnpackPartEntry), parts[i]? = some part →
    FreeAt format files manifestPath parts i part
  kept : ∀ (i j : ℕ) (part other : BurnpackPartEntry), i < j → parts[i]? = some part →
    parts[j]? = some other → AbsentAtTurn files (parts.map (partPath manifestPath)) j →
    partPath manifestPath part ≠ (partPath manifestPath other).partialPath

section Repair

/-- An absent part with an index in the range has the path as its temporary file. -/
def ReplacedIn (files : Files) (paths : List Path) (first last : ℕ) (path : Path) : Prop :=
  ∃ (j : ℕ) (other : Path), first ≤ j ∧ j < last ∧ paths[j]? = some other ∧
    AbsentAtTurn files paths j ∧ path = other.partialPath

variable {files current : Files} {paths : List Path} {path : Path} {first m : ℕ}

theorem replacedIn_succ (h : paths[m]? = some path) (hfirst : first ≤ m) (other : Path) :
    ReplacedIn files paths first (m + 1) other ↔
      ReplacedIn files paths first m other ∨ AbsentAtTurn files paths m ∧ other = path.partialPath := by
  constructor
  · rintro ⟨j, p, hj, hlt, hp, habsent, rfl⟩
    rcases Nat.lt_succ_iff_lt_or_eq.1 hlt with hlt | rfl
    · exact .inl ⟨j, p, hj, hlt, hp, habsent, rfl⟩
    · obtain rfl := some.inj (h.symm.trans hp)
      exact .inr ⟨habsent, rfl⟩
  · rintro (⟨j, p, hj, hlt, hp, habsent, rfl⟩ | ⟨habsent, rfl⟩)
    · exact ⟨j, p, hj, by omega, hp, habsent, rfl⟩
    · exact ⟨m, path, hfirst, by omega, h, habsent, rfl⟩

theorem not_replacedIn (h : m ≤ first) (other : Path) : ¬ ReplacedIn files paths first m other := by
  rintro ⟨j, -, hj, hlt, -⟩
  omega

theorem absentAtTurn_iff (h : paths[m]? = some path) :
    AbsentAtTurn files paths m ↔ files path = none ∨ ReplacedIn files paths 0 m path := by
  constructor
  · rintro (⟨hpath, hnone⟩ | ⟨hlt, habsent, hother, hpath⟩)
    · obtain rfl := some.inj (h.symm.trans hpath)
      exact .inl hnone
    · obtain rfl := some.inj (h.symm.trans hpath)
      exact .inr ⟨_, _, Nat.zero_le _, hlt, hother, habsent, rfl⟩
  · rintro (hnone | ⟨j, other, -, hlt, hother, habsent, rfl⟩)
    · exact .absent h hnone
    · exact .temporary hlt habsent hother h

variable {remote : Remote} {format : ManifestFormat} {config : BurnpackBootstrapConfig}
  {localCandidate : Path} {remoteCandidate : List Char} {manifestBytes : List UInt8}
  {manifest : BurnpackPartsManifest} {state : BootstrapState} {manifestPath : Path}
  {parts : List BurnpackPartEntry}

/-- The files after the first parts have been gone through. -/
structure PartsFetched (format : ManifestFormat) (files : Files) (manifestPath : Path)
    (parts : List BurnpackPartEntry) (m : ℕ) (current : Files) : Prop where
  manifest : current manifestPath = files manifestPath
  gone : ∀ (j : ℕ) (part : BurnpackPartEntry), m ≤ j → parts[j]? = some part →
    ReplacedIn files (parts.map (partPath manifestPath)) 0 m (partPath manifestPath part) →
    current (partPath manifestPath part) = none
  left : ∀ (j : ℕ) (part : BurnpackPartEntry), m ≤ j → parts[j]? = some part →
    ¬ ReplacedIn files (parts.map (partPath manifestPath)) 0 m (partPath manifestPath part) →
    current (partPath manifestPath part) = files (partPath manifestPath part)
  removed : ∀ (i : ℕ) (part : BurnpackPartEntry), i < m → parts[i]? = some part →
    ReplacedIn files (parts.map (partPath manifestPath)) (i + 1) m (partPath manifestPath part) →
    current (partPath manifestPath part) = none
  inPlace : ∀ (i : ℕ) (part : BurnpackPartEntry), i < m → parts[i]? = some part →
    ¬ ReplacedIn files (parts.map (partPath manifestPath)) (i + 1) m (partPath manifestPath part) →
    partMatchesCache format current (partPath manifestPath part) part

namespace PartsFetched

theorem zero : PartsFetched format files manifestPath parts 0 files where
  manifest := rfl
  gone := by
    rintro j part - - ⟨i, -, -, hi, -⟩
    exact absurd hi (Nat.not_lt_zero i)
  left _ _ _ _ _ := rfl
  removed _ _ hi := absurd hi (Nat.not_lt_zero _)
  inPlace _ _ hi := absurd hi (Nat.not_lt_zero _)

variable {part : BurnpackPartEntry}

section

variable (h : PartsFetched format files manifestPath parts m current)
  (hpart : parts[m]? = some part)
include h hpart

/-- What the cache holds at the turn of a part. -/
theorem absentAtTurn :
    AbsentAtTurn files (parts.map (partPath manifestPath)) m ↔
      current (partPath manifestPath part) = none := by
  have hpath : (parts.map (partPath manifestPath))[m]? = some (partPath manifestPath part) := by
    simp [hpart]
  rw [absentAtTurn_iff hpath]
  by_cases hreplaced :
      ReplacedIn files (parts.map (partPath manifestPath)) 0 m (partPath manifestPath part)
  · simp [hreplaced, h.gone m part le_rfl hpart hreplaced]
  · simp [hreplaced, h.left m part le_rfl hpart hreplaced]

/-- Whether a part is free shows in the cache at its turn. -/
theorem freeAt_iff :
    FreeAt format files manifestPath parts m part ↔
      current (partPath manifestPath part) = none ∨
        partMatchesCache format current (partPath manifestPath part) part := by
  rw [FreeAt, h.absentAtTurn hpart]
  by_cases hnone : current (partPath manifestPath part) = none
  · simp [hnone]
  · have hleft := h.left m part le_rfl hpart fun hreplaced =>
      hnone (h.gone m part le_rfl hpart hreplaced)
    rw [partMatchesCache, partMatchesCache, hleft]

/-- A part that matches its entry is left. -/
theorem keep (hmatch : partMatchesCache format current (partPath manifestPath part) part) :
    PartsFetched format files manifestPath parts (m + 1) current := by
  have hpath : (parts.map (partPath manifestPath))[m]? = some (partPath manifestPath part) := by
    simp [hpart]
  have hpresent : ¬ AbsentAtTurn files (parts.map (partPath manifestPath)) m := by
    rw [h.absentAtTurn hpart]
    intro hnone
    simp [partMatchesCache, hnone] at hmatch
  have hsame : ∀ (first : ℕ) (path : Path), first ≤ m →
      (ReplacedIn files (parts.map (partPath manifestPath)) first (m + 1) path ↔
        ReplacedIn files (parts.map (partPath manifestPath)) first m path) := fun first path hfirst => by
    rw [replacedIn_succ hpath hfirst]
    simp [hpresent]
  refine ⟨h.manifest, fun j other hj hother => ?_, fun j other hj hother => ?_,
    fun i other hi hother hreplaced => ?_, fun i other hi hother hkept => ?_⟩
  · rw [hsame 0 _ (Nat.zero_le m)]
    exact h.gone j other (by omega) hother
  · rw [hsame 0 _ (Nat.zero_le m)]
    exact h.left j other (by omega) hother
  · rcases Nat.lt_succ_iff_lt_or_eq.1 hi with hi | rfl
    · rw [hsame (i + 1) _ hi] at hreplaced
      exact h.removed i other hi hother hreplaced
    · exact absurd hreplaced (not_replacedIn le_rfl _)
  · rcases Nat.lt_succ_iff_lt_or_eq.1 hi with hi | rfl
    · rw [hsame (i + 1) _ hi] at hkept
      exact h.inPlace i other hi hother hkept
    · obtain rfl := some.inj (hpart.symm.trans hother)
      exact hmatch

/-- A part that is absent is written, and its temporary file is gone. -/
theorem write (hdistinct : (parts.map (partPath manifestPath)).Nodup)
    (hmanifest : manifestPath ≠ (partPath manifestPath part).partialPath)
    (hexists : (files manifestPath).isSome) (habsent : current (partPath manifestPath part) = none)
    {bytes : List UInt8} (hmatch : bytesMatch format bytes part) (time : ℕ) :
    PartsFetched format files manifestPath parts (m + 1)
      (current.write (partPath manifestPath part) bytes time) := by
  have hpath : (parts.map (partPath manifestPath))[m]? = some (partPath manifestPath part) := by
    simp [hpart]
  have hturn := (h.absentAtTurn hpart).2 habsent
  have hne : ∀ (j : ℕ) (other : BurnpackPartEntry), parts[j]? = some other → j ≠ m →
      partPath manifestPath other ≠ partPath manifestPath part := by
    intro j other hother hj heq
    have hotherPath : (parts.map (partPath manifestPath))[j]? = some (partPath manifestPath other) := by
      simp [hother]
    refine hj ((List.getElem?_inj (List.getElem?_eq_some_iff.1 hotherPath).1 hdistinct).1 ?_)
    rw [hotherPath, hpath, heq]
  refine ⟨?_, fun j other hj hother hreplaced => ?_, fun j other hj hother hkept => ?_,
    fun i other hi hother hreplaced => ?_, fun i other hi hother hkept => ?_⟩
  · have hother : manifestPath ≠ partPath manifestPath part := by
      intro heq
      rw [← heq, h.manifest] at habsent
      simp [habsent] at hexists
    rw [write_of_ne hother hmanifest, h.manifest]
  · rw [write_apply (hne j other hother (by omega))]
    rw [replacedIn_succ hpath (Nat.zero_le m)] at hreplaced
    split_ifs with heq
    · rfl
    · exact h.gone j other (by omega) hother (hreplaced.resolve_right fun hlast => heq hlast.2)
  · rw [replacedIn_succ hpath (Nat.zero_le m), not_or] at hkept
    rw [write_of_ne (hne j other hother (by omega)) fun heq => hkept.2 ⟨hturn, heq⟩]
    exact h.left j other (by omega) hother hkept.1
  · rcases Nat.lt_succ_iff_lt_or_eq.1 hi with hi | rfl
    · rw [write_apply (hne i other hother (by omega))]
      rw [replacedIn_succ hpath hi] at hreplaced
      split_ifs with heq
      · rfl
      · exact h.removed i other hi hother (hreplaced.resolve_right fun hlast => heq hlast.2)
    · exact absurd hreplaced (not_replacedIn le_rfl _)
  · rcases Nat.lt_succ_iff_lt_or_eq.1 hi with hi | rfl
    · rw [replacedIn_succ hpath hi, not_or] at hkept
      rw [partMatchesCache, write_of_ne (hne i other hother (by omega)) fun heq =>
        hkept.2 ⟨hturn, heq⟩]
      exact h.inPlace i other hi hother hkept.1
    · obtain rfl := some.inj (hpart.symm.trans hother)
      rw [partMatchesCache, write_self]
      exact hmatch

end

/-- After all parts, those that are not the temporary file of a later absent part are in place. -/
theorem inPlace_iff (h : PartsFetched format files manifestPath parts parts.length current) {i : ℕ}
    (hpart : parts[i]? = some part) :
    partMatchesCache format current (partPath manifestPath part) part ↔
      ¬ ReplacedIn files (parts.map (partPath manifestPath)) (i + 1) parts.length
        (partPath manifestPath part) := by
  have hi : i < parts.length := (List.getElem?_eq_some_iff.1 hpart).1
  refine ⟨fun hmatch hreplaced => ?_, h.inPlace i part hi hpart⟩
  simp [partMatchesCache, h.removed i part hi hpart hreplaced] at hmatch

end PartsFetched

section

variable (hserves : ServesParts remote format remoteCandidate manifestBytes manifest)
include hserves

theorem nodup_partPath (manifestPath : Path) :
    (manifest.parts.map (partPath manifestPath)).Nodup := by
  refine (nodup_map_iff_inj_on (List.Nodup.of_map _ hserves.distinct)).2 fun p hp q hq heq => ?_
  exact inj_on_of_nodup_map hserves.distinct hp hq
    (join_injective (hserves.relative p hp) (hserves.relative q hq) heq)

section

variable (hverify : config.verifyChecksums = true)
  (hpath : manifestPath = burnpackPartsManifestPath localCandidate)
include hverify hpath

/-- The loop over the parts goes on after a part that is free, and stops at one that is not. -/
theorem fetchParts_cons (hexists : (files manifestPath).isSome) {part : BurnpackPartEntry}
    (hpart : manifest.parts[m]? = some part) (rest : List BurnpackPartEntry)
    (h : PartsFetched format files manifestPath manifest.parts m state.files) :
    (∃ next, fetchParts remote format config manifestPath (remoteCandidate ++ ".parts.json".toList)
        (part :: rest) state =
          fetchParts remote format config manifestPath (remoteCandidate ++ ".parts.json".toList)
            rest next ∧
      FreeAt format files manifestPath manifest.parts m part ∧
      PartsFetched format files manifestPath manifest.parts (m + 1) next.files) ∨
    (fetchParts remote format config manifestPath (remoteCandidate ++ ".parts.json".toList)
        (part :: rest) state = (.ok false, state) ∧
      ¬ FreeAt format files manifestPath manifest.parts m part ∧
      partMatchesCache format state.files (partPath manifestPath part) part = false) := by
  have hmem : part ∈ manifest.parts := mem_of_getElem? hpart
  have hresolve : resolvePartEntryPath manifestPath part.path = .ok (partPath manifestPath part) :=
    hpath ▸ resolvePartEntryPath_eq (hserves.relative part hmem)
  rw [h.freeAt_iff hpart, fetchParts, hresolve]
  cases hmatch : partMatchesCache format state.files (partPath manifestPath part) part with
  | true => exact .inl ⟨state, by simp only [hmatch, if_true], .inr rfl, h.keep hpart hmatch⟩
  | false =>
    cases hfile : state.files (partPath manifestPath part) with
    | none =>
      obtain ⟨bytes, hbytes, hserved⟩ := hserves.parts part hmem
      have hwrite := h.write hpart (nodup_partPath hserves manifestPath)
        (hpath ▸ (partialPath_ne_manifestPath _ _).symm) hexists hfile hbytes
        (remote.clock (state.requests + 1))
      refine .inl ⟨⟨state.files.write (partPath manifestPath part) bytes
        (remote.clock (state.requests + 1)), state.requests + 1⟩, ?_, .inl rfl, hwrite⟩
      have hdownloaded : ensureFileCached remote (partPath manifestPath part)
          (resolveManifestEntryUrl (remoteCandidate ++ ".parts.json".toList) part.path) state =
          (.ok (), ⟨state.files.write (partPath manifestPath part) bytes
            (remote.clock (state.requests + 1)), state.requests + 1⟩) := by
        rw [ensureFileCached, hfile, downloadRequiredBytes_of_served hserved]
        rfl
      have hwritten : partMatchesCache format (state.files.write (partPath manifestPath part) bytes
          (remote.clock (state.requests + 1))) (partPath manifestPath part) part = true := by
        rw [partMatchesCache, write_self]
        exact hbytes
      simp only [hmatch, hdownloaded, hwritten, Bool.not_true, Bool.and_false, Bool.false_eq_true,
        if_false]
    | some file =>
      have hkept : ensureFileCached remote (partPath manifestPath part)
          (resolveManifestEntryUrl (remoteCandidate ++ ".parts.json".toList) part.path) state =
          (.ok (), state) := by
        rw [ensureFileCached, hfile]
        rfl
      refine .inr ⟨?_, by simp, rfl⟩
      simp only [hmatch, hkept, hverify, Bool.not_false, Bool.and_true, Bool.false_eq_true, if_false,
        if_true]

/-- The loop over the parts goes through all of them when they are free, and stops at the first that
is not. -/
theorem fetchParts_spec (hexists : (files manifestPath).isSome)
    {fetched rest : List BurnpackPartEntry} (hparts : manifest.parts = fetched ++ rest)
    (h : PartsFetched format files manifestPath manifest.parts fetched.length state.files) :
    (∃ next, fetchParts remote format config manifestPath
        (remoteCandidate ++ ".parts.json".toList) rest state = (.ok true, next) ∧
      PartsFetched format files manifestPath manifest.parts manifest.parts.length next.files ∧
      ∀ (i : ℕ) (part : BurnpackPartEntry), fetched.length ≤ i → manifest.parts[i]? = some part →
        FreeAt format files manifestPath manifest.parts i part) ∨
    ∃ next, fetchParts remote format config manifestPath
        (remoteCandidate ++ ".parts.json".toList) rest state = (.ok false, next) ∧
      next.files manifestPath = files manifestPath ∧
      ∃ (i : ℕ) (part : BurnpackPartEntry), manifest.parts[i]? = some part ∧
        ¬ FreeAt format files manifestPath manifest.parts i part ∧
        partMatchesCache format next.files (partPath manifestPath part) part = false := by
  induction rest generalizing fetched state with
  | nil =>
    rw [append_nil] at hparts
    refine .inl ⟨state, rfl, by rwa [hparts] at h ⊢, fun i part hi hpart => ?_⟩
    have := (List.getElem?_eq_some_iff.1 hpart).1
    rw [hparts] at this
    omega
  | cons part rest ih =>
    have hpart : manifest.parts[fetched.length]? = some part := by simp [hparts]
    obtain ⟨next, hnext, hfree, hfetched⟩ | ⟨hstop, hfree, hmatch⟩ :=
      fetchParts_cons hserves hverify hpath hexists hpart rest h
    · have hlength : (fetched ++ [part]).length = fetched.length + 1 := by simp
      rw [hnext]
      obtain ⟨last, hlast, hall, hfrees⟩ | hstop :=
        @ih next (fetched ++ [part]) (by simpa using hparts) (hlength ▸ hfetched)
      · refine .inl ⟨last, hlast, hall, fun i other hi hother => ?_⟩
        rcases hi.eq_or_lt with rfl | hi
        · obtain rfl := some.inj (hpart.symm.trans hother)
          exact hfree
        · exact hfrees i other (by omega) hother
      · exact .inr hstop
    · exact .inr ⟨state, hstop, h.manifest, fetched.length, part, hpart, hfree, hmatch⟩

/-- Whether the parts of the served manifest are complete after the download. -/
theorem downloadParts_spec :
    ∃ next, downloadParts remote format config localCandidate remoteCandidate state =
        (.ok (manifestComplete format next.files manifestPath), next) ∧
      (manifestComplete format next.files manifestPath ↔ PartsFree format
        (state.files.write manifestPath manifestBytes (remote.clock (state.requests + 1)))
        manifestPath manifest.parts) := by
  set files := state.files.write manifestPath manifestBytes (remote.clock (state.requests + 1))
    with hfiles
  have hself : files manifestPath = some ⟨manifestBytes, remote.clock (state.requests + 1)⟩ := by
    rw [hfiles, write_self]
  have hexists : (files manifestPath).isSome := by rw [hself]; rfl
  have hread : ∀ current : Files, current manifestPath = files manifestPath →
      readPartsManifest format current manifestPath = .ok manifest := by
    intro current hsame
    rw [readPartsManifest, hsame, hself]
    simp [okOr, hserves.parse, bind, Except.bind, Except.mapError]
  have hcomplete : ∀ current : Files, current manifestPath = files manifestPath →
      (manifestComplete format current manifestPath ↔ ∀ (i : ℕ) (part : BurnpackPartEntry),
        manifest.parts[i]? = some part →
          partMatchesCache format current (partPath manifestPath part) part) := by
    intro current hsame
    rw [manifestComplete_iff, manifestIsComplete_eq_true_iff]
    simp only [hread current hsame, Except.ok.injEq, exists_eq_left', ne_eq, hserves.nonempty,
      not_false_eq_true, true_and]
    constructor
    · intro h i part hpart
      obtain ⟨path, hresolve, hmatch⟩ := h part (mem_of_getElem? hpart)
      rw [hpath, resolvePartEntryPath_eq (hserves.relative part (mem_of_getElem? hpart)),
        ← hpath] at hresolve
      exact Except.ok.inj hresolve ▸ hmatch
    · intro h part hmem
      obtain ⟨i, hpart⟩ := getElem?_of_mem hmem
      exact ⟨_, hpath ▸ resolvePartEntryPath_eq (hserves.relative part hmem), h i part hpart⟩
  have hstart : PartsFetched format files manifestPath manifest.parts 0 files :=
    PartsFetched.zero
  rw [downloadParts, ← hpath]
  simp only [downloadOptionalBytes, hserves.served, BootstrapState.write, ← hfiles, hread files rfl,
    hserves.nonempty, if_false]
  obtain ⟨next, hnext, hfetched, hfree⟩ | ⟨next, hnext, hsame, i, part, hpart, hfree, hmatch⟩ :=
    @fetchParts_spec _ remote format config localCandidate remoteCandidate manifestBytes manifest
      ⟨files, state.requests + 1⟩ manifestPath hserves hverify hpath hexists [] manifest.parts rfl
      hstart
  · refine ⟨next, by simp only [hnext, Bool.true_and], ?_⟩
    rw [hcomplete next.files hfetched.manifest]
    constructor
    · refine fun hall => ⟨fun i part hpart => hfree i part (Nat.zero_le i) hpart,
        fun i j part other hij hpart hother habsent heq => ?_⟩
      refine (hfetched.inPlace_iff hpart).1 (hall i part hpart) ?_
      exact ⟨j, partPath manifestPath other, hij, (List.getElem?_eq_some_iff.1 hother).1,
        by simp [hother], habsent, heq⟩
    · intro hall i part hpart
      refine (hfetched.inPlace_iff hpart).2 ?_
      rintro ⟨j, path, hij, -, hpathj, habsent, heq⟩
      rw [getElem?_map, map_eq_some_iff] at hpathj
      obtain ⟨other, hother, rfl⟩ := hpathj
      exact hall.kept i j part other hij hpart hother habsent heq
  · have hincomplete : manifestComplete format next.files manifestPath = false := by
      rw [Bool.eq_false_iff]
      intro hall
      have := (hcomplete next.files hsame).1 hall i part hpart
      rw [hmatch] at this
      exact absurd this (by decide)
    refine ⟨next, by simp only [hnext, Bool.false_and, hincomplete], ?_⟩
    rw [hincomplete]
    exact ⟨fun h => absurd h Bool.false_ne_true, fun hall => absurd (hall.free i part hpart) hfree⟩

end

end

/-- The loop returns one of the candidates. -/
theorem mem_of_bootstrapCandidates {localBase : Path} {candidates : List (Path × List Char)}
    {lastError : Option BurnpackError} {next : BootstrapState} {candidate : Path}
    (h : bootstrapCandidates remote format config localBase candidates lastError state =
      (.ok candidate, next)) :
    candidate ∈ candidates.map (·.1) := by
  induction candidates generalizing lastError state with
  | nil => simp [bootstrapCandidates] at h
  | cons first candidates ih =>
    obtain ⟨localCandidate, remoteCandidate⟩ := first
    have hfirst : ∀ {state : BootstrapState},
        (Except.ok localCandidate, state) = ((.ok candidate : Except BurnpackError Path), next) →
          candidate ∈ ((localCandidate, remoteCandidate) :: candidates).map (·.1) := by
      intro state h
      obtain rfl := Except.ok.inj (congrArg Prod.fst h)
      simp
    rw [bootstrapCandidates] at h
    split at h
    · exact hfirst h
    split at h
    · exact hfirst h
    split at h
    · simp at h
    · exact hfirst h
    · split at h
      · exact hfirst h
      · exact mem_cons_of_mem _ (ih h)

/-- The candidates are different. -/
theorem nodup_candidateBurnpackPaths (path : Path) (policy : BurnpackLoadPolicy) :
    (candidateBurnpackPaths path policy).Nodup := by
  rw [candidateBurnpackPaths, orderCandidates]
  split_ifs with hsame hprecision
  · simp
  · simpa using hsame
  · simpa using Ne.symm hsame

theorem map_fst_zip_sublist {α β : Type} (xs : List α) (ys : List β) :
    ((xs.zip ys).map (·.1)).Sublist xs := by
  induction xs generalizing ys with
  | nil => simp
  | cons x xs ih =>
    cases ys with
    | nil => simp
    | cons y ys => exact (ih ys).cons_cons x

/-- The bootstrap returns the candidate, and every part of the candidate's manifest is in place. -/
def Repairs (remote : Remote) (format : ManifestFormat) (config : BurnpackBootstrapConfig)
    (env : CacheEnvironment) (localBase : Path) (remoteBaseUrl : List Char) (state : BootstrapState)
    (localCandidate : Path) : Prop :=
  ∃ next, resolveOrBootstrapBurnpack remote format config env localBase remoteBaseUrl state =
      (.ok localCandidate, next) ∧
    manifestIsComplete format next.files (burnpackPartsManifestPath localCandidate) = .ok true

/-- **A damaged cache is repaired** exactly when its manifest is complete already or no part file of
the served manifest is in the way. -/
theorem bootstrap_repairs_iff {env : CacheEnvironment} {localBase cacheRoot : Path}
    {remoteBaseUrl : List Char} {candidates : List (Path × List Char)}
    (hroot : config.root env = .ok cacheRoot)
    (hcandidates : (candidateBurnpackPaths (resolveLocalBase localBase cacheRoot)
        config.loadPolicy).zip (candidateBurnpackUrls remoteBaseUrl config.loadPolicy) =
      (localCandidate, remoteCandidate) :: candidates)
    (hparts : config.preferParts = true) (hverify : config.verifyChecksums = true)
    (hmonolithic : state.files localCandidate = none)
    (hserves : ServesParts remote format remoteCandidate manifestBytes manifest) :
    Repairs remote format config env localBase remoteBaseUrl state localCandidate ↔
      manifestIsComplete format state.files (burnpackPartsManifestPath localCandidate) = .ok true ∨
        PartsFree format (state.files.write (burnpackPartsManifestPath localCandidate) manifestBytes
          (remote.clock (state.requests + 1))) (burnpackPartsManifestPath localCandidate)
          manifest.parts := by
  rw [Repairs, resolveOrBootstrapBurnpack, hroot]
  simp only [hcandidates, bootstrapCandidates, ← manifestComplete_iff]
  by_cases hcached : manifestComplete format state.files (burnpackPartsManifestPath localCandidate)
  · simp only [hcached, if_true, true_or, iff_true]
    exact ⟨state, rfl, hcached⟩
  have habsent : ¬ (state.files localCandidate).isSome := by simp [hmonolithic]
  obtain ⟨next, hdownload, hfree⟩ := @downloadParts_spec remote format config localCandidate
    remoteCandidate manifestBytes manifest state _ hserves hverify rfl
  simp only [hcached, habsent, if_false, hparts, if_true, hdownload, ← hfree, false_or,
    Bool.false_eq_true]
  cases hcomplete : manifestComplete format next.files (burnpackPartsManifestPath localCandidate) with
  | true => exact iff_of_true ⟨next, rfl, hcomplete⟩ rfl
  | false =>
    refine iff_of_false ?_ Bool.false_ne_true
    rintro ⟨last, hlast, hall⟩
    simp only [ensureFileCached] at hlast
    split_ifs at hlast with hpresent
    · -- a part has the place of the monolithic file
      obtain rfl := congrArg Prod.snd hlast
      rw [hcomplete] at hall
      exact Bool.false_ne_true hall
    · obtain ⟨error, requests, hfailed⟩ := @downloadRequiredBytes_of_not_served remote remoteCandidate
        next hserves.monolithic
      simp only [hfailed] at hlast
      have hmem := mem_of_bootstrapCandidates hlast
      have hnodup := nodup_candidateBurnpackPaths (resolveLocalBase localBase cacheRoot)
        config.loadPolicy
      have hsublist := map_fst_zip_sublist (candidateBurnpackPaths
        (resolveLocalBase localBase cacheRoot) config.loadPolicy)
        (candidateBurnpackUrls remoteBaseUrl config.loadPolicy)
      rw [hcandidates] at hsublist
      exact (List.nodup_cons.1 (hnodup.sublist hsublist)).1 hmem

end Repair

/-! ## A server with a part -/

/-- The digest of the part. -/
def partDigest : List Char :=
  "9f64a747e1b97f131fabb6b447296c9b6f0201e79fb3c5356e6c77e89b6a806a".toList

def onePart : BurnpackPartsManifest where
  sourceFile := "model.bpk".toList
  sourceModifiedUnixMs := 0
  totalBytes := 4
  parts := [⟨"model.bpk.part-00000.bpk".toList, 4, partDigest⟩]

/-- The manifest in JSON, without the entries that have a default. -/
def onePartText : List Char :=
  "\x7b\"source_file\":\"model.bpk\",\"total_bytes\":4,\"parts\":[\x7b\"path\":".toList ++
  "\"model.bpk.part-00000.bpk\",\"bytes\":4,\"sha256\":\"".toList ++ partDigest ++
  "\"\x7d]\x7d".toList

def onePartBytes : List UInt8 := onePartText.map fun c => UInt8.ofNat c.toNat

def onePartFormat : ManifestFormat where
  parse bytes := if bytes = onePartBytes then .ok onePart else .error "expected value"
  sha256Bytes bytes := if bytes = [1, 2, 3, 4] then partDigest else []

/-- The server has the manifest and the part of the first candidate, and nothing else. -/
def onePartRemote : Remote where
  respond _ url := .ok (
    if url = "https://host/model.bpk.parts.json".toList then some onePartBytes else
    if url = "https://host/model.bpk.part-00000.bpk".toList then some [1, 2, 3, 4] else none)
  clock _ := 1000

def onePartConfig : BurnpackBootstrapConfig where
  cacheRoot := some (.ofText "/cache".toList)
  preferParts := true
  verifyChecksums := true
  loadPolicy := ⟨.preferF32, "_f16".toList⟩

theorem servesParts_onePart : ServesParts onePartRemote onePartFormat
    "https://host/model.bpk".toList onePartBytes onePart where
  served _ := congrArg Except.ok (if_pos (by decide))
  parse := by simp only [onePartFormat, if_true]
  nonempty := by decide
  relative := by decide
  distinct := by decide
  parts := by
    intro part hpart
    rw [mem_singleton.1 hpart]
    exact ⟨[1, 2, 3, 4], by decide, fun _ => rfl⟩
  monolithic n bytes h := by
    have hnone : onePartRemote.respond n "https://host/model.bpk".toList = .ok none := rfl
    rw [hnone] at h
    simp at h

/-- A cache with the given bytes in the place of the part, and no other file. -/
def partCache (bytes : List UInt8) : BootstrapState where
  files := Function.update (fun _ => none) (.ofText "/cache/model.bpk.part-00000.bpk".toList)
    (some ⟨bytes, 0⟩)
  requests := 0

theorem bootstrap_repairs_iff_onePart :
    Repairs onePartRemote onePartFormat onePartConfig ⟨none, none⟩ (.ofText "model".toList)
        "https://host/model".toList (partCache [1, 2]) (.ofText "/cache/model.bpk".toList) ↔
      manifestIsComplete onePartFormat (partCache [1, 2]).files
          (burnpackPartsManifestPath (.ofText "/cache/model.bpk".toList)) = .ok true ∨
        PartsFree onePartFormat ((partCache [1, 2]).files.write
            (burnpackPartsManifestPath (.ofText "/cache/model.bpk".toList)) onePartBytes 1000)
          (burnpackPartsManifestPath (.ofText "/cache/model.bpk".toList)) onePart.parts :=
  bootstrap_repairs_iff (show _ = Except.ok (Path.ofText "/cache".toList) from rfl)
    (show _ = [(Path.ofText "/cache/model.bpk".toList, "https://host/model.bpk".toList),
      (Path.ofText "/cache/model_f16.bpk".toList, "https://host/model_f16.bpk".toList)] by decide)
    rfl rfl (by decide) servesParts_onePart

/-- A part file with other bytes is kept, so the bootstrap fails although the server has the part. -/
theorem not_repairs_partCache :
    (partCache [1, 2]).files (.ofText "/cache/model.bpk".toList) = none ∧
      ServesParts onePartRemote onePartFormat "https://host/model.bpk".toList onePartBytes
        onePart ∧
      (resolveOrBootstrapBurnpack onePartRemote onePartFormat onePartConfig ⟨none, none⟩
        (.ofText "model".toList) "https://host/model".toList (partCache [1, 2])).1 =
        .error (.notFound "https://host/model_f16.bpk".toList) ∧
      ¬ Repairs onePartRemote onePartFormat onePartConfig ⟨none, none⟩ (.ofText "model".toList)
        "https://host/model".toList (partCache [1, 2]) (.ofText "/cache/model.bpk".toList) := by
  have hfails : (resolveOrBootstrapBurnpack onePartRemote onePartFormat onePartConfig ⟨none, none⟩
      (.ofText "model".toList) "https://host/model".toList (partCache [1, 2])).1 =
      .error (.notFound "https://host/model_f16.bpk".toList) := by
    decide +kernel
  refine ⟨by decide, servesParts_onePart, hfails, ?_⟩
  rintro ⟨next, hresult, -⟩
  rw [hresult] at hfails
  cases hfails

end BurnDragon.Checkpoint
