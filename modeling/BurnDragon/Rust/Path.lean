import BurnDragon.Rust.Text

/-!
# Paths

The part of `std::path` that the models use, for Unix. A path is what `Path::components` gives, on
which its equality rests: whether it starts at the root, and its names; `..` stays a name.

The temporary file next to a file has the file's name with `.partial` after it (`partialPath`), so
its extension is `partial` (`extension_partialPath`).
-/

namespace BurnDragon.Rust

open List

/-! ## Searching from the end -/

/-- `rsplit_once`: the text before and after the last separator. -/
def rsplitOnce (sep : Char) (s : List Char) : Option (List Char × List Char) :=
  match s.reverse.dropWhile (· ≠ sep) with
  | [] => none
  | _ :: before => some (before.reverse, (s.reverse.takeWhile (· ≠ sep)).reverse)

/-- The last separator of a text is the one it was joined with, when none comes after. -/
theorem rsplitOnce_append {sep : Char} (before : List Char) {after : List Char} (h : sep ∉ after) :
    rsplitOnce sep (before ++ sep :: after) = some (before, after) := by
  have hafter : ∀ c ∈ after.reverse, decide (c ≠ sep) = true := fun c hc => by
    rw [decide_eq_true_eq]
    rintro rfl
    exact h (mem_reverse.1 hc)
  have hreverse : (before ++ sep :: after).reverse = after.reverse ++ sep :: before.reverse := by
    simp
  rw [rsplitOnce, hreverse, dropWhile_append_of_pos hafter, takeWhile_append_of_pos hafter]
  simp

/-- `str::ends_with`. -/
def endsWith (s suffix : List Char) : Bool := suffix.isSuffixOf s

/-- `str::eq_ignore_ascii_case`. -/
def eqIgnoreAsciiCase (s t : List Char) : Bool := s.map Char.toLower = t.map Char.toLower

/-! ## Paths -/

structure Path where
  absolute : Bool
  components : List (List Char)
  deriving DecidableEq

namespace Path

/-- `Path::new`: repeated separators and the name `.` do not count. -/
def ofText (s : List Char) : Path where
  absolute := s.head? = some '/'
  components := (s.splitOn '/').filter fun name => name ≠ [] ∧ name ≠ ['.']

/-- `join`: an absolute path stands for itself. -/
def join (path other : Path) : Path :=
  if other.absolute then other
  else { path with components := path.components ++ other.components }

/-- `parent`. -/
def parent (path : Path) : Option Path :=
  if path.components = [] then none else some { path with components := path.components.dropLast }

/-- `file_name`. -/
def fileName (path : Path) : Option (List Char) :=
  path.components.getLast?.filter fun name => name ≠ ['.', '.']

theorem fileName_concat (absolute : Bool) (names : List (List Char)) {name : List Char}
    (h : name ≠ ['.', '.']) : fileName ⟨absolute, names ++ [name]⟩ = some name := by
  simp [fileName, Option.filter, h]

/-- The stem and the extension of a file name; a dot at its start begins no extension. -/
def splitAtDot (name : List Char) : List Char × Option (List Char) :=
  match rsplitOnce '.' name with
  | some (before, after) => if before = [] then (name, none) else (before, some after)
  | none => (name, none)

/-- `file_stem`. -/
def fileStem (path : Path) : Option (List Char) := path.fileName.map fun name => (splitAtDot name).1

/-- `extension`. -/
def extension (path : Path) : Option (List Char) := path.fileName.bind fun name => (splitAtDot name).2

/-- `with_file_name`. -/
def withFileName (path : Path) (name : List Char) : Path :=
  if path.fileName.isSome then
    join { path with components := path.components.dropLast } (ofText name)
  else
    path.join (ofText name)

/-- `with_extension`, for extensions without a separator. -/
def withExtension (path : Path) (ext : List Char) : Path :=
  match path.fileStem with
  | none => path
  | some stem =>
    let name := if ext = [] then stem else stem ++ '.' :: ext
    { path with components := path.components.dropLast ++ [name] }

/-- The name at the end of a text is that of its path. -/
theorem fileName_ofText_append (s : List Char) {suffix : List Char} (hslash : '/' ∉ suffix)
    (hlength : 2 < suffix.length) :
    ∃ name, (ofText (s ++ suffix)).fileName = some (name ++ suffix) := by
  obtain ⟨before, name, hsplit⟩ : ∃ before name,
      (s ++ suffix).splitOn '/' = before ++ [name ++ suffix] := by
    induction s with
    | nil => exact ⟨[], [], by rw [nil_append, splitOn_eq_singleton hslash]; rfl⟩
    | cons c s ih =>
      obtain ⟨before, name, ih⟩ := ih
      rw [cons_append, splitOn_cons_eq_if_modifyHead, ih]
      split_ifs
      · exact ⟨[] :: before, name, rfl⟩
      · cases before with
        | nil => exact ⟨[], c :: name, rfl⟩
        | cons first before => exact ⟨(c :: first) :: before, name, rfl⟩
  have hlong : ∀ short : List Char, short.length ≤ 2 → name ++ suffix ≠ short := by
    rintro short hshort rfl
    rw [length_append] at hshort
    omega
  have hkeep : decide (name ++ suffix ≠ [] ∧ name ++ suffix ≠ ['.']) = true := by
    rw [decide_eq_true_eq]
    exact ⟨hlong [] (by simp), hlong ['.'] (by simp)⟩
  refine ⟨name, ?_⟩
  have hcomponents : (ofText (s ++ suffix)).components =
      before.filter (fun name => name ≠ [] ∧ name ≠ ['.']) ++ [name ++ suffix] := by
    rw [ofText, hsplit, filter_append, filter_singleton, hkeep]
    rfl
  rw [fileName, hcomponents, getLast?_concat, Option.filter_some,
    if_pos (decide_eq_true (hlong ['.', '.'] (by simp)))]

theorem fileName_withFileName (path : Path) {text name : List Char}
    (h : (ofText text).fileName = some name) : (path.withFileName text).fileName = some name := by
  have hne : (ofText text).components ≠ [] := by
    intro hnil
    simp [fileName, hnil] at h
  have hjoin : ∀ path : Path, (path.join (ofText text)).fileName = some name := by
    intro path
    rw [join]
    split_ifs
    · exact h
    · rw [fileName] at h ⊢
      rw [← h, getLast?_append_of_ne_nil _ hne]
  rw [withFileName]
  split_ifs <;> exact hjoin _

/-- Joining relative paths to one directory keeps them apart. -/
theorem join_injective {directory p q : Path} (hp : p.absolute = false) (hq : q.absolute = false)
    (h : directory.join p = directory.join q) : p = q := by
  simp only [join, hp, hq, Bool.false_eq_true, if_false, mk.injEq, append_cancel_left_eq,
    true_and] at h
  cases p
  cases q
  simp_all

/-- The temporary file of `write_bytes_atomically`. -/
def partialPath (path : Path) : Path :=
  path.withExtension (path.extension.getD [] ++ ".partial".toList)

/-- A path without a file name is its own temporary file. -/
theorem partialPath_eq_self {path : Path} (h : path.fileName = none) : path.partialPath = path := by
  rw [partialPath, withExtension, fileStem, h]
  rfl

/-- The temporary file of a path with a file name has the extension `partial`. -/
theorem extension_partialPath {path : Path} (h : path.fileName.isSome) :
    path.partialPath.extension = some "partial".toList := by
  obtain ⟨name, hname⟩ := Option.isSome_iff_exists.1 h
  obtain ⟨ext, hext⟩ : ∃ ext, path.extension.getD [] = ext := ⟨_, rfl⟩
  have hshape : (splitAtDot name).1 ++ '.' :: (ext ++ ".partial".toList) =
      ((splitAtDot name).1 ++ '.' :: ext) ++ '.' :: "partial".toList := by
    simp
  have hsplit : splitAtDot ((splitAtDot name).1 ++ '.' :: (ext ++ ".partial".toList)) =
      ((splitAtDot name).1 ++ '.' :: ext, some "partial".toList) := by
    rw [hshape, splitAtDot, rsplitOnce_append _ (by decide)]
    simp
  have hdots : (splitAtDot name).1 ++ '.' :: (ext ++ ".partial".toList) ≠ ['.', '.'] := fun heq => by
    have hnone : (splitAtDot ['.', '.']).2 = some "partial".toList := congrArg Prod.snd (heq ▸ hsplit)
    exact absurd hnone (by decide)
  rw [partialPath, withExtension, fileStem, hname, hext]
  simp only [Option.map_some, append_eq_nil_iff]
  rw [if_neg (by simp), extension, fileName_concat _ _ hdots, Option.bind_some, hsplit]

end Path

/-- A path's text. -/
example : (Path.ofText "models//./model.bpk".toList).partialPath =
    Path.ofText "models/model.bpk.partial".toList := by decide

end BurnDragon.Rust
