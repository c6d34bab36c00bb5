import BurnDragon.Config.Merge
import BurnDragon.Graph.Cycles
import BurnDragon.Rust.Machine

/-!
# Configuration files that extend others

`load_value` of `config/merge.rs`. A file is loaded by loading the files it extends, merging them
from left to right, and merging its own table last. The stack holds the canonical paths of the
files that are being loaded; a file that is on it is a cycle.

The file system and the parser are parameters. `fuel` bounds the depth of the recursion, which does
not run out when there is more of it than files outside the stack, and the stack is restored on
every exit (`loadValueRecursive_returns`): a file is rejected exactly when it is blocked by the
stack, and the loaded value does not depend on the stack (`loadValueRecursive_unique`).
-/

namespace BurnDragon.Config

open Rust BurnDragon.Graph Relation Option

/-- The part of the file system that is read. Files are their canonical paths. -/
structure FileSystem (Path File : Type) where
  /-- `fs::canonicalize`. -/
  canonicalize : Path → Option File
  /-- `fs::read_to_string`. -/
  readToString : File → Option String
  /-- An entry of `extends`, joined to the directory of the file. -/
  join : File → String → Path
  displayPath : Path → String
  displayFile : File → String

/-- `type_str`. -/
def TomlValue.typeStr : TomlValue → String
  | .string _ => "string"
  | .integer _ => "integer"
  | .float _ => "float"
  | .boolean _ => "boolean"
  | .datetime _ => "datetime"
  | .array _ => "array"
  | .table _ => "table"

/-- An entry of the array of `extends`. -/
def extendsEntry : TomlValue → Except String String
  | .string path => .ok path
  | other => .error ("extends entries must be strings, got " ++ other.typeStr)

def extendsNames : TomlValue → Except String (List String)
  | .string path => .ok [path]
  | .array values => values.mapM extendsEntry
  | other => .error ("extends must be a string or array of strings, got " ++ other.typeStr)

/-- The entries of `extends`, if there is one, and the table without it. -/
def takeExtends (entries : Entries) : Except String (Option (List String) × Entries) :=
  match lookup entries "extends" with
  | none => .ok (none, entries)
  | some parents => do
    let names ← extendsNames parents
    .ok (some names, entries.filter fun e => e.1 ≠ "extends")

section Load

variable {Path File : Type} (fs : FileSystem Path File)
  (parse : String → Option TomlTable)

/-- What loading a path does: the result and the stack after it, or nothing when the fuel runs out.
-/
abbrev Loader (Path File : Type) :=
  Path → List File → Option (Except String TomlValue × List File)

/-- The loop over the files that a file extends. -/
def loadExtends (load : Loader Path File) (merged : TomlValue) :
    List Path → List File → Option (Except String TomlValue × List File)
  | [], stack => some (.ok merged, stack)
  | path :: paths, stack =>
    match load path stack with
    | none => none
    | some (.error e, stack) => some (.error e, stack)
    | some (.ok base, stack) => loadExtends load (mergeValues merged base) paths stack

/-- The load of a file that is on top of the stack. -/
def loadFile (load : Loader Path File) (canonical : File) (stack : List File) :
    Option (Except String TomlValue × List File) :=
  match fs.readToString canonical with
  | none => some (.error ("failed to read configuration file " ++ fs.displayFile canonical), stack)
  | some content =>
    match parse content with
    | none =>
      some (.error ("failed to parse " ++ fs.displayFile canonical ++ " as TOML"), stack)
    | some table =>
      match takeExtends table.entries with
      | .error e => some
          (.error ("failed to parse extends in " ++ fs.displayFile canonical ++ ": " ++ e), stack)
      | .ok (none, own) => some (.ok (.table own), stack)
      | .ok (some names, own) =>
        match loadExtends load (.table []) (names.map (fs.join canonical)) stack with
        | none => none
        | some (.error e, stack) => some (.error e, stack)
        | some (.ok merged, stack) => some (.ok (mergeValues merged (.table own)), stack)

/-! ## The graph of the files -/

/-- The file parses, to what it extends and its own table. -/
def Reads (file : File) (names : Option (List String)) (own : Entries) : Prop :=
  ∃ content table, fs.readToString file = some content ∧ parse content = some table ∧
    takeExtends table.entries = .ok (names, own)

/-- The file extends another. -/
def ExtendsFile (file parent : File) : Prop :=
  ∃ names own, Reads fs parse file (some names) own ∧
    ∃ name ∈ names, fs.canonicalize (fs.join file name) = some parent

/-- The file parses, and the files it extends exist. -/
structure Readable (file : File) : Prop where
  reads : ∃ names own, Reads fs parse file names own
  exist : ∀ names own, Reads fs parse file (some names) own → ∀ name ∈ names,
    ∃ parent, fs.canonicalize (fs.join file name) = some parent

variable {fs parse} {file : File}

variable {names : Option (List String)} {own : Entries}

theorem Reads.unique {names' : Option (List String)} {own' : Entries}
    (h : Reads fs parse file names own) (h' : Reads fs parse file names' own') :
    names = names' ∧ own = own' := by
  obtain ⟨content, table, hread, hparse, htake⟩ := h
  obtain ⟨content', table', hread', hparse', htake'⟩ := h'
  obtain rfl := some.inj (hread.symm.trans hread')
  obtain rfl := some.inj (hparse.symm.trans hparse')
  exact Prod.mk.inj (Except.ok.inj (htake.symm.trans htake'))

/-- The files that a readable file extends are the ones its names resolve to. -/
theorem extendsFile_iff (hreads : Reads fs parse file names own) {parent : File} :
    ExtendsFile fs parse file parent ↔
      ∃ path ∈ (names.getD []).map (fs.join file), fs.canonicalize path = some parent := by
  constructor
  · rintro ⟨names', own', hreads', name, hname, hparent⟩
    obtain ⟨rfl, rfl⟩ := hreads.unique hreads'
    exact ⟨_, List.mem_map_of_mem hname, hparent⟩
  · rintro ⟨path, hpath, hparent⟩
    cases names with
    | none => nomatch hpath
    | some names =>
      obtain ⟨name, hname, rfl⟩ := List.mem_map.1 hpath
      exact ⟨names, own, hreads, name, hname, hparent⟩

/-! ## The loop over the parents -/

/-- Loads of the paths, each with some stack, return the values. -/
def LoadsAll (load : Loader Path File) (paths : List Path) (values : List TomlValue) : Prop :=
  List.Forall₂ (fun path v => ∃ stack stack', load path stack = some (.ok v, stack')) paths values

variable {load : Loader Path File} {paths : List Path} {v : TomlValue} {stack stack' : List File}

theorem loadExtends_eq_ok {merged : TomlValue}
    (h : loadExtends load merged paths stack = some (.ok v, stack')) :
    ∃ values, LoadsAll load paths values ∧ v = values.foldl mergeValues merged := by
  induction paths generalizing merged stack with
  | nil =>
    obtain ⟨hv, -⟩ := Prod.mk.inj (some.inj h)
    exact ⟨[], .nil, (Except.ok.inj hv).symm⟩
  | cons path paths ih =>
    rw [loadExtends] at h
    cases hload : load path stack with
    | none =>
      rw [hload] at h
      nomatch h
    | some result =>
      rw [hload] at h
      obtain ⟨_ | base, stack₁⟩ := result
      · nomatch h
      · obtain ⟨values, hvalues, hv⟩ := ih h
        exact ⟨base :: values, .cons ⟨stack, stack₁, hload⟩ hvalues, hv⟩

variable {values : List TomlValue}

/-- Loads that agree on every path agree on a list of paths. -/
theorem LoadsAll.unique {load' : Loader Path File} {values' : List TomlValue}
    (h : LoadsAll load paths values) (h' : LoadsAll load' paths values')
    (heq : ∀ path v v' stack stack₁ stack' stack₁', load path stack = some (.ok v, stack₁) → load'
      path stack' = some (.ok v', stack₁') → v = v') : values = values' := by
  induction h generalizing values' with
  | nil =>
    cases h'
    rfl
  | cons hload _ ih =>
    cases h' with
    | cons hload' hrest' =>
      obtain ⟨_, _, hload⟩ := hload
      obtain ⟨_, _, hload'⟩ := hload'
      rw [heq _ _ _ _ _ _ _ hload hload', ih hrest']

theorem LoadsAll.exists_of_mem (h : LoadsAll load paths values) (hv : v ∈ values) :
    ∃ path ∈ paths, ∃ stack stack', load path stack = some (.ok v, stack') := by
  induction h with
  | nil => nomatch hv
  | cons hload _ ih =>
    rcases List.mem_cons.1 hv with rfl | hv
    · exact ⟨_, by simp, hload⟩
    · obtain ⟨path, hpath, hload⟩ := ih hv
      exact ⟨path, List.mem_cons_of_mem _ hpath, hload⟩

/-- A loop over paths of which each leaves the stack as it is: it fails when one of them does. -/
theorem loadExtends_returns (fails : Path → Prop)
    (h : ∀ path ∈ paths, ∃ result, load path stack = some (result, stack) ∧ ((∃ e, result = .error
      e) ↔ fails path)) (merged : TomlValue) :
    ∃ result, loadExtends load merged paths stack = some (result, stack) ∧
      ((∃ e, result = .error e) ↔ ∃ path ∈ paths, fails path) := by
  induction paths generalizing merged with
  | nil => exact ⟨.ok merged, rfl, by simp⟩
  | cons path paths ih =>
    obtain ⟨result, hload, hresult⟩ := h path (by simp)
    cases result with
    | error e =>
      refine ⟨.error e, by rw [loadExtends, hload], ?_⟩
      exact iff_of_true ⟨e, rfl⟩ ⟨path, by simp, hresult.1 ⟨e, rfl⟩⟩
    | ok base =>
      obtain ⟨result, hloads, hresults⟩ := ih (fun p hp => h p (List.mem_cons_of_mem _ hp))
        (mergeValues merged base)
      refine ⟨result, by rw [loadExtends, hload]; exact hloads, hresults.trans ?_⟩
      have hok : ¬ fails path := fun hfails => by
        obtain ⟨e, he⟩ := hresult.2 hfails
        nomatch he
      simp [hok]

theorem loadExtends_mono {load' : Loader Path File}
    (h : ∀ path stack result, load path stack = some result → load' path stack = some result)
    {merged : TomlValue} {result : Except String TomlValue × List File}
    (hload : loadExtends load merged paths stack = some result) :
    loadExtends load' merged paths stack = some result := by
  induction paths generalizing merged stack with
  | nil => exact hload
  | cons path paths ih =>
    rw [loadExtends] at hload ⊢
    cases hpath : load path stack with
    | none =>
      rw [hpath] at hload
      nomatch hload
    | some first =>
      rw [h path stack first hpath]
      rw [hpath] at hload
      obtain ⟨_ | base, stack'⟩ := first
      · exact hload
      · exact ih hload

/-- A well-formed table without an `extends` key. -/
def Loaded (v : TomlValue) : Prop :=
  v.WellFormed ∧ ∃ entries, v = .table entries ∧ lookup entries "extends" = none

/-- What is left of the table of a file has no `extends`. -/
theorem Reads.loaded (h : Reads fs parse file names own) : Loaded (.table own) := by
  obtain ⟨content, table, -, -, htake⟩ := h
  unfold takeExtends at htake
  cases hlookup : lookup table.entries "extends" with
  | none =>
    rw [hlookup] at htake
    obtain ⟨-, rfl⟩ := Prod.mk.inj (Except.ok.inj htake)
    exact ⟨table.wellFormed, _, rfl, hlookup⟩
  | some parents =>
    rw [hlookup] at htake
    obtain ⟨names', -, hown⟩ := bind_eq_ok.1 htake
    obtain ⟨-, rfl⟩ := Prod.mk.inj (Except.ok.inj hown)
    have hsorted := table.wellFormed.sorted
    have hremove : ∀ key, lookup (table.entries.filter fun e => e.1 ≠ "extends") key =
        if key = "extends" then none else lookup table.entries key :=
      fun key => BTreeMap.get?_remove ⟨table.entries, hsorted⟩ "extends" key
    refine ⟨.table (BTreeMap.remove ⟨table.entries, hsorted⟩ "extends").sorted fun key v hv => ?_,
      _, rfl, by rw [hremove, if_pos rfl]⟩
    rw [hremove] at hv
    split_ifs at hv
    exact table.wellFormed.of_lookup hv

theorem Loaded.empty : Loaded (.table []) :=
  ⟨.table .nil fun _ _ h => (nomatch h), [], rfl, rfl⟩

theorem Loaded.mergeValues {w : TomlValue} (hv : Loaded v) (hw : Loaded w) :
    Loaded (mergeValues v w) := by
  obtain ⟨hvwf, a, rfl, ha⟩ := hv
  obtain ⟨hwwf, b, rfl, hb⟩ := hw
  refine ⟨WellFormed.mergeValues hvwf hwwf, mergeTables a b, mergeValues_table_table, ?_⟩
  rw [mergeTables, lookup_mergeEntries (sorted_keptEntries hvwf.sorted) hwwf.sorted, hb,
    mergeLookup_none_right]
  cases hkept : lookup (keptEntries a b) "extends" with
  | none => rfl
  | some x => exact absurd (ha.symm.trans (lookup_of_lookup_keptEntries hkept)) (by simp)

theorem Loaded.foldl (hv : Loaded v) (h : ∀ w ∈ values, Loaded w) :
    Loaded (values.foldl Config.mergeValues v) := by
  induction values generalizing v with
  | nil => exact hv
  | cons w values ih =>
    exact ih (hv.mergeValues (h w (by simp))) fun u hu => h u (List.mem_cons_of_mem _ hu)

/-- The value of a file: what it extends, merged from left to right, and its own table last. -/
def fileValue (values : List TomlValue) (own : Entries) : TomlValue :=
  mergeValues (values.foldl mergeValues (.table [])) (.table own)

/-! ## The steps of a load -/

theorem loadFile_of_reads (h : Reads fs parse file names own) (stack : List File) :
    loadFile fs parse load file stack =
      (loadExtends load (.table []) ((names.getD []).map (fs.join file)) stack).map fun result =>
        (result.1.map (mergeValues · (.table own)), result.2) := by
  obtain ⟨content, table, hread, hparse, htake⟩ := id h
  simp only [loadFile, hread, hparse, htake]
  cases names with
  | none =>
    have hown : mergeValues (.table []) (.table own) = .table own := by
      rw [mergeValues_table_table, mergeTables_nil_left h.loaded.1.sorted]
    exact congrArg (fun v => some (Except.ok v, stack)) hown.symm
  | some names =>
    simp only [getD_some]
    cases loadExtends load (.table []) (names.map (fs.join file)) stack with
    | none => rfl
    | some result => obtain ⟨_ | _, _⟩ := result <;> rfl

theorem loadFile_of_not_reads (h : ¬ ∃ names own, Reads fs parse file names own) :
    ∃ e, ∀ (load : Loader Path File) (stack : List File),
      loadFile fs parse load file stack = some (.error e, stack) := by
  unfold loadFile
  cases hread : fs.readToString file with
  | none => exact ⟨_, fun _ _ => rfl⟩
  | some content =>
    cases hparse : parse content with
    | none =>
      simp only [hparse]
      exact ⟨_, fun _ _ => rfl⟩
    | some table =>
      cases htake : takeExtends table.entries with
      | error e =>
        simp only [hparse, htake]
        exact ⟨_, fun _ _ => rfl⟩
      | ok taken => exact absurd ⟨taken.1, taken.2, content, table, hread, hparse, htake⟩ h

/-! ## The recursion -/

variable [DecidableEq File]

section Definitions

variable (fs parse)

def loadValueRecursive : ℕ → Loader Path File
  | 0, _, _ => none
  | fuel + 1, path, stack =>
    match fs.canonicalize path with
    | none => some
        (.error ("failed to canonicalize configuration file " ++ fs.displayPath path), stack)
    | some canonical =>
      if canonical ∈ stack then
        let cycle := (stack.drop (stack.idxOf canonical)).map fs.displayFile
        some (.error ("config extends cycle detected: " ++
          " -> ".intercalate (cycle ++ [fs.displayFile canonical])), stack)
      else
        match loadFile fs parse (loadValueRecursive fuel) canonical (stack ++ [canonical]) with
        | none => none
        | some (result, stack) => some (result, stack.dropLast)

def loadValue (fuel : ℕ) (path : Path) : Option (Except String TomlValue) :=
  (loadValueRecursive fs parse fuel path []).map Prod.fst

end Definitions

variable {path : Path}

variable (fs parse) in
theorem loadValueRecursive_of_mem (fuel : ℕ) (hfile : fs.canonicalize path = some file)
    (hmem : file ∈ stack) :
    ∃ e, loadValueRecursive fs parse (fuel + 1) path stack = some (.error e, stack) := by
  simp only [loadValueRecursive, hfile, if_pos hmem]
  exact ⟨_, rfl⟩

variable {fuel : ℕ}

theorem loadValueRecursive_of_notMem (hfile : fs.canonicalize path = some file)
    (hmem : file ∉ stack) :
    loadValueRecursive fs parse (fuel + 1) path stack =
      (loadFile fs parse (loadValueRecursive fs parse fuel) file (stack ++ [file])).map
        fun result => (result.1, result.2.dropLast) := by
  rw [loadValueRecursive, hfile]
  refine (if_neg hmem).trans ?_
  cases loadFile fs parse (loadValueRecursive fs parse fuel) file (stack ++ [file]) <;> rfl

/-- What a load of a path that returns has done. -/
theorem loadValueRecursive_eq_ok
    (h : loadValueRecursive fs parse (fuel + 1) path stack = some (.ok v, stack')) :
    ∃ file names own values, fs.canonicalize path = some file ∧ Reads fs parse file names own ∧
      LoadsAll (loadValueRecursive fs parse fuel) ((names.getD []).map (fs.join file)) values ∧
      v = fileValue values own := by
  cases hfile : fs.canonicalize path with
  | none =>
    rw [loadValueRecursive, hfile] at h
    nomatch h
  | some file =>
    by_cases hmem : file ∈ stack
    · obtain ⟨e, he⟩ := loadValueRecursive_of_mem fs parse fuel hfile hmem
      rw [he] at h
      nomatch h
    rw [loadValueRecursive_of_notMem hfile hmem] at h
    by_cases hreads : ∃ names own, Reads fs parse file names own
    · obtain ⟨names, own, hreads⟩ := hreads
      rw [loadFile_of_reads hreads, Option.map_map] at h
      obtain ⟨⟨_ | merged, stack₁⟩, hload, hresult⟩ := map_eq_some_iff.1 h
      · nomatch hresult
      · obtain ⟨values, hvalues, rfl⟩ := loadExtends_eq_ok hload
        exact ⟨file, names, own, values, rfl, hreads, hvalues,
          (Except.ok.inj (Prod.mk.inj hresult).1).symm⟩
    · obtain ⟨e, he⟩ := loadFile_of_not_reads hreads
      rw [he] at h
      nomatch h

/-- The value of a file does not depend on the fuel and on the stack. -/
theorem loadValueRecursive_unique {fuel' : ℕ} {path' : Path} {v' : TomlValue}
    {stack₁ stack₁' : List File}
    (h : loadValueRecursive fs parse fuel path stack = some (.ok v, stack₁))
    (h' : loadValueRecursive fs parse fuel' path' stack' = some (.ok v', stack₁'))
    (hpath : fs.canonicalize path = fs.canonicalize path') : v = v' := by
  induction fuel generalizing fuel' path path' v v' stack stack' stack₁ stack₁' with
  | zero => nomatch h
  | succ fuel ih =>
    cases fuel' with
    | zero => nomatch h'
    | succ fuel' =>
      obtain ⟨file, names, own, values, hfile, hreads, hvalues, rfl⟩ := loadValueRecursive_eq_ok h
      obtain ⟨file', names', own', values', hfile', hreads', hvalues', rfl⟩ :=
        loadValueRecursive_eq_ok h'
      obtain rfl : file = file' := some.inj (hfile.symm.trans (hpath.trans hfile'))
      obtain ⟨rfl, rfl⟩ := hreads.unique hreads'
      rw [hvalues.unique hvalues' fun _ _ _ _ _ _ _ hload hload' => ih hload hload' rfl]

/-- What a load returns has no `extends`. -/
theorem loaded_of_loadValueRecursive
    (h : loadValueRecursive fs parse fuel path stack = some (.ok v, stack')) : Loaded v := by
  induction fuel generalizing path v stack stack' with
  | zero => nomatch h
  | succ fuel ih =>
    obtain ⟨file, names, own, values, -, hreads, hvalues, rfl⟩ := loadValueRecursive_eq_ok h
    refine (Loaded.empty.foldl fun w hw => ?_).mergeValues hreads.loaded
    obtain ⟨_, -, _, _, hload⟩ := hvalues.exists_of_mem hw
    exact ih hload

/-! ## Which files are loaded -/

/-- **A load ends, restores the stack, and fails exactly at the blocked files.** -/
theorem loadValueRecursive_returns [Fintype File] (hfile : fs.canonicalize path = some file)
    (hreadable : ∀ f, ReflTransGen (ExtendsFile fs parse) file f → Readable fs parse f)
    (hfuel : (outside stack).card < fuel) :
    ∃ result, loadValueRecursive fs parse fuel path stack = some (result, stack) ∧
      ((∃ e, result = .error e) ↔ Blocked (ExtendsFile fs parse) {f | f ∈ stack} file) := by
  induction fuel generalizing path stack file with
  | zero => exact absurd hfuel (Nat.not_lt_zero _)
  | succ fuel ih =>
    by_cases hmem : file ∈ stack
    · obtain ⟨e, he⟩ := loadValueRecursive_of_mem fs parse fuel hfile hmem
      exact ⟨_, he, iff_of_true ⟨e, rfl⟩ (blocked_of_mem hmem)⟩
    obtain ⟨names, own, hreads⟩ := (hreadable file .refl).reads
    have hparent : ∀ p ∈ (names.getD []).map (fs.join file), ∃ result,
        loadValueRecursive fs parse fuel p (stack ++ [file]) = some (result, stack ++ [file]) ∧
        ((∃ e, result = .error e) ↔ ∃ parent, fs.canonicalize p = some parent ∧
          Blocked (ExtendsFile fs parse) (insert file {f | f ∈ stack}) parent) := by
      intro p hp
      obtain ⟨parent, hcanonical⟩ : ∃ parent, fs.canonicalize p = some parent := by
        cases names with
        | none => nomatch hp
        | some names =>
          obtain ⟨name, hname, rfl⟩ := List.mem_map.1 hp
          exact (hreadable file .refl).exist names own hreads name hname
      have hextends := (extendsFile_iff hreads).2 ⟨p, hp, hcanonical⟩
      have hcard := card_outside_lt hmem
      have hstack : {f | f ∈ stack ++ [file]} = insert file {f | f ∈ stack} := by
        ext f
        simp [or_comm]
      have hfuel' : (outside (stack ++ [file])).card < fuel := by omega
      obtain ⟨result, hload, hresult⟩ := ih hcanonical
        (fun f hf => hreadable f (.head hextends hf)) hfuel'
      rw [hstack] at hresult
      refine ⟨result, hload, hresult.trans ⟨fun h => ⟨parent, hcanonical, h⟩, ?_⟩⟩
      rintro ⟨parent', hparent', h⟩
      exact some.inj (hparent'.symm.trans hcanonical) ▸ h
    obtain ⟨result, hload, hresult⟩ := loadExtends_returns _ hparent (.table [])
    refine ⟨result.map (mergeValues · (.table own)), ?_, ?_⟩
    · rw [loadValueRecursive_of_notMem hfile hmem, loadFile_of_reads hreads, hload]
      simp
    · have hmap : (∃ e, result.map (mergeValues · (.table own)) = .error e) ↔
          ∃ e, result = .error e := by
        cases result <;> simp [Except.map]
      rw [hmap, hresult, blocked_iff (show file ∉ {f | f ∈ stack} from hmem)]
      simp only [extendsFile_iff hreads]
      constructor
      · rintro ⟨p, hp, parent, hparent, hblocked⟩
        exact ⟨parent, ⟨p, hp, hparent⟩, hblocked⟩
      · rintro ⟨parent, ⟨p, hp, hparent⟩, hblocked⟩
        exact ⟨p, hp, parent, hparent, hblocked⟩

/-- More fuel does not change a load. -/
theorem loadValueRecursive_mono {fuel' : ℕ} (hle : fuel ≤ fuel')
    {result : Except String TomlValue × List File}
    (h : loadValueRecursive fs parse fuel path stack = some result) :
    loadValueRecursive fs parse fuel' path stack = some result := by
  induction fuel generalizing fuel' path stack result with
  | zero => nomatch h
  | succ fuel ih =>
    obtain ⟨fuel', rfl⟩ : ∃ n, fuel' = n + 1 := ⟨fuel' - 1, by omega⟩
    cases hfile : fs.canonicalize path with
    | none =>
      rw [loadValueRecursive, hfile] at h ⊢
      exact h
    | some file =>
      by_cases hmem : file ∈ stack
      · rw [loadValueRecursive, hfile] at h ⊢
        simpa only [if_pos hmem] using h
      rw [loadValueRecursive_of_notMem hfile hmem] at h ⊢
      obtain ⟨result, hload, rfl⟩ := map_eq_some_iff.1 h
      refine map_eq_some_iff.2 ⟨result, ?_, rfl⟩
      by_cases hreads : ∃ names own, Reads fs parse file names own
      · obtain ⟨names, own, hreads⟩ := hreads
        rw [loadFile_of_reads hreads] at hload ⊢
        obtain ⟨merged, hmerged, rfl⟩ := map_eq_some_iff.1 hload
        have hmono : ∀ path stack result,
            loadValueRecursive fs parse fuel path stack = some result →
              loadValueRecursive fs parse fuel' path stack = some result :=
          fun _ _ _ => ih (by omega)
        exact map_eq_some_iff.2 ⟨merged, loadExtends_mono hmono hmerged, rfl⟩
      · obtain ⟨e, he⟩ := loadFile_of_not_reads hreads
        rw [he] at hload ⊢
        exact hload

/-- A load of a readable file from an empty stack: it ends, and rejects the files that reach a
cycle. -/
theorem loadValue_returns [Fintype File] (hfile : fs.canonicalize path = some file)
    (hreadable : ∀ f, ReflTransGen (ExtendsFile fs parse) file f → Readable fs parse f) :
    ∃ result, (∀ fuel, Fintype.card File < fuel → loadValue fs parse fuel path = some result) ∧
      ((∃ e, result = .error e) ↔ ReachesCycle (ExtendsFile fs parse) file) := by
  have hfuel : (outside ([] : List File)).card < Fintype.card File + 1 :=
    Nat.lt_succ_of_le (card_outside_le [])
  obtain ⟨result, hload, hresult⟩ := loadValueRecursive_returns hfile hreadable hfuel
  refine ⟨result, fun fuel hlt => ?_, hresult.trans ?_⟩
  · rw [loadValue, loadValueRecursive_mono hlt hload]
    rfl
  · have hempty : {f : File | f ∈ ([] : List File)} = ∅ := by simp
    rw [hempty, blocked_empty]

/-- **Loading a configuration ends, and rejects exactly the files that reach a cycle.** The value
of any other file is the merge of the values of the files it extends, with its own table last. -/
theorem loadValue_spec [Fintype File] {path : Path} (hfile : fs.canonicalize path = some file)
    (hreadable : ∀ f, ReflTransGen (ExtendsFile fs parse) file f → Readable fs parse f) :
    ∃ result, (∀ fuel, Fintype.card File < fuel → loadValue fs parse fuel path = some result) ∧
      ((∃ e, result = .error e) ↔ ReachesCycle (ExtendsFile fs parse) file) ∧
      ∀ value, result = .ok value →
        (∃ entries, value = .table entries ∧ lookup entries "extends" = none) ∧
        ∃ names own values, Reads fs parse file names own ∧
          List.Forall₂ (fun name v => ∀ fuel, Fintype.card File < fuel →
            loadValue fs parse fuel (fs.join file name) = some (.ok v)) (names.getD []) values ∧
          value = mergeValues (values.foldl mergeValues (.table [])) (.table own) := by
  obtain ⟨result, hload, hresult⟩ := loadValue_returns hfile hreadable
  refine ⟨result, hload, hresult, ?_⟩
  rintro value rfl
  obtain ⟨⟨_, stack⟩, hvalue, rfl⟩ := Option.map_eq_some_iff.1 (hload _ (Nat.lt_succ_self _))
  obtain ⟨file', names, own, values, hfile', hreads, hvalues, rfl⟩ :=
    loadValueRecursive_eq_ok hvalue
  obtain rfl := Option.some.inj (hfile.symm.trans hfile')
  refine ⟨(loaded_of_loadValueRecursive hvalue).2, names, own, values, hreads, ?_, rfl⟩
  have hparents := (List.forall₂_and_left (p := (· ∈ names.getD [])) _ _).2
    ⟨fun name hname => hname, List.forall₂_map_left_iff.1 hvalues⟩
  refine hparents.imp fun name v hname fuel hfuel => ?_
  obtain ⟨hname, _, _, hstacked⟩ := hname
  have hpath := List.mem_map_of_mem (f := fs.join file) hname
  obtain ⟨parent, hparent⟩ : ∃ parent, fs.canonicalize (fs.join file name) = some parent := by
    cases names with
    | none => nomatch hname
    | some names => exact (hreadable file .refl).exist names own hreads name hname
  have hextends := (extendsFile_iff hreads).2 ⟨_, hpath, hparent⟩
  obtain ⟨result, hload', hresult'⟩ := loadValue_returns hparent
    fun f hf => hreadable f (.head hextends hf)
  cases result with
  | error e =>
    obtain ⟨e', he'⟩ := hresult.2 ((hresult'.1 ⟨e, rfl⟩).head hextends)
    nomatch he'
  | ok v' =>
    obtain ⟨⟨_, stack'⟩, hv', rfl⟩ := Option.map_eq_some_iff.1 (hload' fuel hfuel)
    rw [hload' fuel hfuel, loadValueRecursive_unique hstacked hv' rfl]

end Load

/-! ### Two files -/

/-- A file `true` that extends the file `false`. -/
def twoFiles : FileSystem Bool Bool where
  canonicalize := some
  readToString file := some (if file then "child" else "base")
  join _ _ := false
  displayPath _ := "path"
  displayFile _ := "file"

def parseTwoFiles : String → Option TomlTable
  | "child" => some (leafTable [("extends", .string "base"), ("y", .integer 2)]
      (by unfold Entries.Sorted; decide) (by decide))
  | _ => some tagTable

theorem readable_twoFiles (file : Bool) : Readable twoFiles parseTwoFiles file where
  reads := by
    cases file with
    | false => exact ⟨none, [("type", .string "t")], "base", _, rfl, rfl, rfl⟩
    | true => exact ⟨some ["base"], [("y", .integer 2)], "child", _, rfl, rfl, rfl⟩
  exist _ _ _ _ _ := ⟨false, rfl⟩

theorem loadValue_spec_twoFiles :
    ∃ result, (∀ fuel, Fintype.card Bool < fuel →
        loadValue twoFiles parseTwoFiles fuel true = some result) ∧
      ((∃ e, result = .error e) ↔ ReachesCycle (ExtendsFile twoFiles parseTwoFiles) true) ∧
      ∀ value, result = .ok value →
        (∃ entries, value = .table entries ∧ lookup entries "extends" = none) ∧
        ∃ names own values, Reads twoFiles parseTwoFiles true names own ∧
          List.Forall₂ (fun name v => ∀ fuel, Fintype.card Bool < fuel →
            loadValue twoFiles parseTwoFiles fuel (twoFiles.join true name) = some (.ok v))
            (names.getD []) values ∧
          value = mergeValues (values.foldl mergeValues (.table [])) (.table own) :=
  loadValue_spec rfl fun file _ => readable_twoFiles file

end BurnDragon.Config
