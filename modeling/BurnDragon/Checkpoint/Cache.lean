import BurnDragon.Rust.Path

/-!
# The burnpack cache

The files of a burnpack cache and the manifests of its multipart burnpacks. A cache is a function from
paths to files with their modification times; directories exist where a file needs them, and reading
and writing files does not fail. A file is written to its temporary file first, which then takes its
place: afterwards the temporary file is gone (`Files.write_partialPath`), and the other files are as
they were.

The JSON parser and the digest of `sha2` are parameters (`ManifestFormat`).
-/

namespace BurnDragon.Checkpoint

open Rust Function

/-! ## Files -/

structure CachedFile where
  bytes : List UInt8
  modifiedUnixMs : ℕ
  deriving DecidableEq

abbrev Files := Path → Option CachedFile

namespace Files

/-- `fs::rename`. -/
def rename (files : Files) (source destination : Path) : Files :=
  if source = destination then files
  else Function.update (Function.update files destination (files source)) source none

/-- `write_bytes_atomically` at the given time. -/
def write (files : Files) (path : Path) (bytes : List UInt8) (time : ℕ) : Files :=
  rename (Function.update files path.partialPath (some ⟨bytes, time⟩)) path.partialPath path

variable {files : Files} {path other : Path} {bytes : List UInt8} {time : ℕ}

@[simp] theorem write_self : write files path bytes time path = some ⟨bytes, time⟩ := by
  rw [write, rename]
  split_ifs with h
  · rw [h, update_self]
  · rw [update_of_ne (Ne.symm h), update_self, update_self]

theorem write_partialPath (h : path.partialPath ≠ path) :
    write files path bytes time path.partialPath = none := by
  rw [write, rename, if_neg h, update_self]

theorem write_of_ne (hpath : other ≠ path) (htemporary : other ≠ path.partialPath) :
    write files path bytes time other = files other := by
  rw [write, rename]
  split_ifs with h
  · rw [update_of_ne htemporary]
  · rw [update_of_ne htemporary, update_of_ne hpath, update_of_ne htemporary]

/-- A write leaves another file, or removes it if it is in the place of the temporary file. -/
theorem write_apply (hpath : other ≠ path) : write files path bytes time other =
    if other = path.partialPath then none else files other := by
  split_ifs with h
  · rw [h, write_partialPath (h ▸ hpath)]
  · exact write_of_ne hpath h

end Files

/-! ## Manifests -/

/-- `BurnpackPartEntry`. -/
structure BurnpackPartEntry where
  path : List Char
  bytes : ℕ
  sha256 : List Char
  deriving DecidableEq

/-- `BurnpackPartsManifest`. -/
structure BurnpackPartsManifest where
  sourceFile : List Char
  sourceModifiedUnixMs : ℕ
  totalBytes : ℕ
  parts : List BurnpackPartEntry
  deriving DecidableEq

/-- The JSON parser of manifests and the digest in hexadecimal. -/
structure ManifestFormat where
  parse : List UInt8 → Except String BurnpackPartsManifest
  sha256Bytes : List UInt8 → List Char

/-- The errors of the cache, one for each message. -/
inductive BurnpackError
  | noHome
  | readManifest (path : Path)
  | parseManifest (path : Path) (message : String)
  | invalidManifestPath (path : Path)
  | notFound (url : List Char)
  | download (url : List Char) (attempts : ℕ) (message : String)
  | unresolved (base : Path)
  | noParts (path : Path)
  | readPart (path : Path)
  | partBytes (path : Path) (expected found : ℕ)
  | partChecksum (path : Path) (expected actual : List Char)
  | noCandidates
  deriving DecidableEq

/-- `burnpack_parts_manifest_path`. -/
def burnpackPartsManifestPath (burnpackPath : Path) : Path :=
  burnpackPath.withFileName ((burnpackPath.fileName.getD "model.bpk".toList) ++ ".parts.json".toList)

/-- `resolve_part_entry_path`. -/
def resolvePartEntryPath (manifestPath : Path) (entryPath : List Char) : Except BurnpackError Path :=
  if (Path.ofText entryPath).absolute then .ok (.ofText entryPath)
  else okOr (manifestPath.parent.map (·.join (.ofText entryPath))) (.invalidManifestPath manifestPath)

section Format

variable (format : ManifestFormat) (files : Files)

/-- `read_parts_manifest`. -/
def readPartsManifest (path : Path) : Except BurnpackError BurnpackPartsManifest := do
  let file ← okOr (files path) (.readManifest path)
  (format.parse file.bytes).mapError (.parseManifest path)

/-- The tests of `part_matches_cache` on the bytes of a file. -/
def bytesMatch (bytes : List UInt8) (part : BurnpackPartEntry) : Bool :=
  !(decide (part.bytes > 0) && decide (bytes.length ≠ part.bytes)) &&
    (decide (trim part.sha256 = []) ||
      eqIgnoreAsciiCase (format.sha256Bytes bytes) (trim part.sha256))

/-- `part_matches_cache`. -/
def partMatchesCache (path : Path) (part : BurnpackPartEntry) : Bool :=
  match files path with
  | none => false
  | some file => bytesMatch format file.bytes part

/-- The loop of `manifest_is_complete`. -/
def partsComplete (manifestPath : Path) : List BurnpackPartEntry → Except BurnpackError Bool
  | [] => .ok true
  | part :: parts => do
    let path ← resolvePartEntryPath manifestPath part.path
    if partMatchesCache format files path part then partsComplete manifestPath parts else return false

/-- `manifest_is_complete`. -/
def manifestIsComplete (manifestPath : Path) : Except BurnpackError Bool :=
  match readPartsManifest format files manifestPath with
  | .error _ => .ok false
  | .ok manifest =>
    if manifest.parts = [] then .ok false else partsComplete format files manifestPath manifest.parts

end Format

/-! ## Complete sets of parts -/

section Complete

variable {format : ManifestFormat} {files : Files} {manifestPath : Path}

theorem partsComplete_eq_true_iff {parts : List BurnpackPartEntry} :
    partsComplete format files manifestPath parts = .ok true ↔ ∀ part ∈ parts, ∃ path,
      resolvePartEntryPath manifestPath part.path = .ok path ∧
        partMatchesCache format files path part := by
  induction parts with
  | nil => simp [partsComplete]
  | cons part parts ih =>
    rw [partsComplete, bind_eq_ok, List.forall_mem_cons, ← ih]
    constructor
    · rintro ⟨path, hpath, h⟩
      split_ifs at h with hmatch
      · exact ⟨⟨path, hpath, hmatch⟩, h⟩
      · simp [pure, Except.pure] at h
    · rintro ⟨⟨path, hpath, hmatch⟩, h⟩
      exact ⟨path, hpath, by rw [if_pos hmatch, h]⟩

/-- The manifest can be read, it has parts, and every part is in place. -/
theorem manifestIsComplete_eq_true_iff :
    manifestIsComplete format files manifestPath = .ok true ↔ ∃ manifest,
      readPartsManifest format files manifestPath = .ok manifest ∧ manifest.parts ≠ [] ∧
        ∀ part ∈ manifest.parts, ∃ path, resolvePartEntryPath manifestPath part.path = .ok path ∧
          partMatchesCache format files path part := by
  rw [manifestIsComplete]
  cases readPartsManifest format files manifestPath with
  | error e => simp
  | ok manifest =>
    simp only [Except.ok.injEq, exists_eq_left', ← partsComplete_eq_true_iff]
    split_ifs with hparts <;> simp [hparts]

/-- Whether a manifest is complete, with an error for `false` (`unwrap_or`). -/
def manifestComplete (format : ManifestFormat) (files : Files) (manifestPath : Path) : Bool :=
  match manifestIsComplete format files manifestPath with
  | .error _ => false
  | .ok complete => complete

theorem manifestComplete_iff : manifestComplete format files manifestPath ↔
    manifestIsComplete format files manifestPath = .ok true := by
  rw [manifestComplete]
  cases manifestIsComplete format files manifestPath <;> simp

end Complete

end BurnDragon.Checkpoint
