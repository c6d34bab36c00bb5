import BurnDragon.Layout.Segments
import BurnDragon.Rust.Text

/-!
# Chunk files

The tokens of a corpus lie in chunk files, four bytes a token. A manifest lists the files with the
place and the number of their tokens, and `ChunkedTokens` copies a range of the tokens: it looks up the
chunk of its cursor, copies what this chunk has of the range, and goes on behind it. Where the cursor is
at the end of all chunks, the loop does not come to an end.

Token counts are far below the range of `usize`, so sums of them are sums of natural numbers.
-/

namespace BurnDragon.Corpus

open Rust Layout List

/-! ## Bytes -/

/-- `u32::to_le_bytes`. -/
def toLeBytes (token : UInt32) : List UInt8 :=
  [UInt8.ofNat token.toNat, UInt8.ofNat (token.toNat / 2 ^ 8), UInt8.ofNat (token.toNat / 2 ^ 16),
    UInt8.ofNat (token.toNat / 2 ^ 24)]

/-- The number in four bytes, as a little-endian machine reads it. -/
def ofLeBytes (bytes : List UInt8) : UInt32 :=
  UInt32.ofNat (bytes.foldr (fun byte value => value * 2 ^ 8 + byte.toNat) 0)

theorem ofLeBytes_toLeBytes (token : UInt32) : ofLeBytes (toLeBytes token) = token := by
  have hlt := token.toNat_lt
  refine UInt32.toNat_inj.1 ?_
  simp only [ofLeBytes, toLeBytes, foldr_cons, foldr_nil, UInt8.toNat_ofNat', UInt32.toNat_ofNat']
  omega

/-- The bytes of a file of tokens. -/
def tokenBytes (tokens : List UInt32) : List UInt8 := tokens.flatMap toLeBytes

theorem tokenBytes_append (tokens tokens' : List UInt32) :
    tokenBytes (tokens ++ tokens') = tokenBytes tokens ++ tokenBytes tokens' := flatMap_append

theorem rect_map_toLeBytes (tokens : List UInt32) : Rect (tokens.map toLeBytes) 4 := by
  intro row hrow
  obtain ⟨token, -, rfl⟩ := mem_map.1 hrow
  rfl

theorem length_tokenBytes (tokens : List UInt32) : (tokenBytes tokens).length = tokens.length * 4 := by
  rw [tokenBytes, flatMap_def, length_flatten_eq (rect_map_toLeBytes tokens), length_map]

/-- `mmap_as_u32_slice`. -/
def mmapAsU32Slice (bytes : List UInt8) (len : ℕ) : List UInt32 := (ofData len 4 bytes).map ofLeBytes

theorem mmapAsU32Slice_tokenBytes (tokens : List UInt32) :
    mmapAsU32Slice (tokenBytes tokens) tokens.length = tokens := by
  have hrows := ofData_flatten (rect_map_toLeBytes tokens)
  rw [length_map] at hrows
  rw [mmapAsU32Slice, tokenBytes, flatMap_def, hrows, map_map]
  conv_rhs => rw [← map_id tokens]
  exact map_congr_left fun token _ => ofLeBytes_toLeBytes token

/-! ## Files -/

/-- A number with five digits at least. -/
def decimal05 (n : ℕ) : String := String.ofList (List.leftpad 5 '0' (Nat.toDigits 10 n))

theorem decimal05_injective : Function.Injective decimal05 := by
  intro m n h
  have hvalue : ∀ n, Nat.ofDigitChars 10 (decimal05 n).toList 0 = n := fun n => by
    rw [decimal05, String.toList_ofList, List.leftpad, Nat.ofDigitChars_append,
      Nat.ofDigitChars_replicate_zero, Nat.mul_zero, Nat.ofDigitChars_toDigits (by decide) (by decide)]
  rw [← hvalue m, h, hvalue]

inductive SampleSplit
  | train
  | validation
  deriving DecidableEq, Repr

structure UniversalityChunkManifest where
  fileName : String
  split : SampleSplit
  tokenOffset : ℕ
  tokenCount : ℕ
  sampleCount : ℕ

structure UniversalitySampleRecord where
  sampleIndex : ℕ
  split : SampleSplit
  tokenOffset : ℕ
  tokenCount : ℕ

/-- The files of the chunk directory. -/
abbrev ChunkDir := Map String (List UInt8)

/-- The named files hold the tokens. -/
def Stored (dir : ChunkDir) (names : List String) (parts : List (List UInt32)) : Prop :=
  List.Forall₂ (fun name tokens => dir name = some (tokenBytes tokens)) names parts

namespace Stored

variable {dir : ChunkDir} {names : List String} {parts : List (List UInt32)} {name : String}
  {tokens : List UInt32}

/-- A write to a new file. -/
theorem insert (h : Stored dir names parts) (hname : name ∉ names) (bytes : List UInt8) :
    Stored (dir.insert name bytes) names parts := by
  induction h with
  | nil => exact .nil
  | cons hhead htail ih =>
    rw [mem_cons, not_or] at hname
    exact .cons ((Map.insert_of_ne dir bytes (Ne.symm hname.1)).trans hhead) (ih hname.2)

theorem concat (h : Stored dir names parts) (hname : name ∉ names) :
    Stored (dir.insert name (tokenBytes tokens)) (names ++ [name]) (parts ++ [tokens]) :=
  rel_append (h.insert hname _) (.cons (Map.insert_self dir name _) .nil)

theorem get? (h : Stored dir names parts) {i : ℕ} (hname : names[i]? = some name)
    (htokens : parts[i]? = some tokens) : dir name = some (tokenBytes tokens) := by
  obtain ⟨hi, rfl⟩ := List.getElem?_eq_some_iff.1 hname
  obtain ⟨hi', rfl⟩ := List.getElem?_eq_some_iff.1 htokens
  exact h.get hi hi'

end Stored

/-! ## Reading -/

structure ChunkedTokenFile where
  path : String
  tokenOffset : ℕ
  tokenCount : ℕ

/-- The files of a manifest, in the chunk directory. -/
def UniversalityChunkManifest.toFile (chunk : UniversalityChunkManifest) : ChunkedTokenFile :=
  ⟨chunk.fileName, chunk.tokenOffset, chunk.tokenCount⟩

/-- `load_cached_chunk`, which panics when the file is missing or has another size. -/
def chunkData (dir : ChunkDir) (chunk : ChunkedTokenFile) : Run (List UInt8) :=
  match dir chunk.path with
  | none => .error .missingKey
  | some bytes =>
    if bytes.length % 4 ≠ 0 ∨ bytes.length / 4 ≠ chunk.tokenCount then .error .indexOutOfBounds
    else .ok bytes

/-- `xs[start..start + len]`. -/
def sliceRange {α : Type*} (start len : ℕ) (xs : List α) : Run (List α) :=
  if start + len ≤ xs.length then .ok (slice start len xs) else .error .indexOutOfBounds

/-- `partition_point` of entries that the predicate holds of up to some entry only. -/
def partitionPoint {α : Type*} (predicate : α → Bool) (xs : List α) : ℕ :=
  xs.findIdx fun x => !predicate x

/-- The chunk of a cursor, and its tokens. -/
def chunkAt (dir : ChunkDir) (chunks : List ChunkedTokenFile) (cursor : ℕ) :
    Run (ChunkedTokenFile × List UInt32) := do
  let chunkIdx := min
    (partitionPoint (fun chunk => decide (chunk.tokenOffset + chunk.tokenCount ≤ cursor)) chunks)
    (chunks.length - 1)
  let chunk ← index chunks chunkIdx
  let data ← chunkData dir chunk
  return (chunk, mmapAsU32Slice data chunk.tokenCount)

/-- The loop of `copy_into`, which may never end. -/
def copyLoop (dir : ChunkDir) (chunks : List ChunkedTokenFile) :
    ℕ → ℕ → ℕ → ℕ → List UInt32 → Option (Run (List UInt32))
  | 0, _, _, _, _ => none
  | fuel + 1, cursor, written, remaining, dst =>
    if remaining = 0 then some (.ok dst)
    else
      let pass : Run (ℕ × List UInt32) := do
        let (chunk, chunkTokens) ← chunkAt dir chunks cursor
        let chunkStart := cursor - chunk.tokenOffset
        let copyLen := min (chunk.tokenCount - chunkStart) remaining
        let src ← sliceRange chunkStart copyLen chunkTokens
        return (copyLen, copyFromSlice written src dst)
      match pass with
      | .error panic => some (.error panic)
      | .ok (copyLen, dst) =>
        copyLoop dir chunks fuel (cursor + copyLen) (written + copyLen) (remaining - copyLen) dst

/-- `ChunkedTokens::copy_into`. -/
def copyInto (dir : ChunkDir) (chunks : List ChunkedTokenFile) (fuel start : ℕ) (dst : List UInt32) :
    Option (Run (List UInt32)) :=
  copyLoop dir chunks fuel start 0 dst.length dst

section Reading

variable {dir : ChunkDir} {chunks : List ChunkedTokenFile} {parts : List (List UInt32)}

/-- The chunks, and the tokens in their files. -/
structure Holds (dir : ChunkDir) (chunks : List ChunkedTokenFile) (parts : List (List UInt32)) : Prop where
  stored : Stored dir (chunks.map ChunkedTokenFile.path) parts
  describes : Describes ChunkedTokenFile.tokenOffset ChunkedTokenFile.tokenCount chunks parts

/-- The chunk that is found covers the cursor. -/
theorem Holds.chunkAt_eq (h : Holds dir chunks parts) {cursor : ℕ}
    (hcursor : cursor < parts.flatten.length) :
    ∃ chunk tokens, chunkAt dir chunks cursor = .ok (chunk, tokens) ∧
      chunk.tokenOffset ≤ cursor ∧ cursor < chunk.tokenOffset + chunk.tokenCount ∧
      tokens.length = chunk.tokenCount ∧
      ∀ start n, start + n ≤ tokens.length →
        slice start n tokens = slice (chunk.tokenOffset + start) n parts.flatten := by
  obtain ⟨chunk, tokens, hchunk, htokens, hle, hlt⟩ := h.describes.segment_of_findIdx hcursor
  set i := chunks.findIdx fun chunk => !decide (chunk.tokenOffset + chunk.tokenCount ≤ cursor)
    with hidx
  obtain ⟨hoffset, hcount⟩ := h.describes.entry i chunk tokens hchunk htokens
  have hi : i < chunks.length := (List.getElem?_eq_some_iff.1 hchunk).1
  have hdata : chunkData dir chunk = .ok (tokenBytes tokens) := by
    have hname : (chunks.map ChunkedTokenFile.path)[i]? = some chunk.path := by
      rw [getElem?_map, hchunk, Option.map_some]
    rw [chunkData, h.stored.get? hname htokens]
    dsimp only
    rw [length_tokenBytes, if_neg (by omega)]
  have hpoint : partitionPoint
      (fun chunk => decide (chunk.tokenOffset + chunk.tokenCount ≤ cursor)) chunks = i := rfl
  refine ⟨chunk, tokens, ?_, hle, hlt, hcount.symm, fun start n hn => ?_⟩
  · rw [chunkAt, hpoint, min_eq_left (by omega), bind_eq_ok]
    exact ⟨chunk, index_eq_ok.2 hchunk, bind_eq_ok.2
      ⟨_, hdata, by rw [hcount, mmapAsU32Slice_tokenBytes]; rfl⟩⟩
  · obtain ⟨hi', rfl⟩ := List.getElem?_eq_some_iff.1 htokens
    rw [hoffset, slice_segment hi' hn]

theorem Holds.copyLoop_eq (h : Holds dir chunks parts) {fuel cursor written remaining : ℕ}
    {dst : List UInt32} (hcursor : cursor + remaining ≤ parts.flatten.length)
    (hdst : written + remaining ≤ dst.length) (hfuel : remaining < fuel) :
    copyLoop dir chunks fuel cursor written remaining dst =
      some (.ok (dst.take written ++ slice cursor remaining parts.flatten ++
        dst.drop (written + remaining))) := by
  induction fuel generalizing cursor written remaining dst with
  | zero => omega
  | succ fuel ih =>
    rw [copyLoop]
    split_ifs with hdone
    · subst hdone
      simp [slice]
    · obtain ⟨chunk, tokens, hchunk, hle, hlt, hcount, hslice⟩ :=
        h.chunkAt_eq (show cursor < parts.flatten.length by omega)
      set copyLen := min (chunk.tokenCount - (cursor - chunk.tokenOffset)) remaining with hcopy
      have hpos : 0 < copyLen := by omega
      have hsrc : sliceRange (cursor - chunk.tokenOffset) copyLen tokens =
          .ok (slice cursor copyLen parts.flatten) := by
        rw [sliceRange, if_pos (by omega), hslice _ _ (by omega), Nat.add_sub_cancel' hle]
      have hlen : (slice cursor copyLen parts.flatten).length = copyLen := length_slice (by omega)
      have hpass : (do
          let (chunk, chunkTokens) ← chunkAt dir chunks cursor
          let chunkStart := cursor - chunk.tokenOffset
          let copyLen := min (chunk.tokenCount - chunkStart) remaining
          let src ← sliceRange chunkStart copyLen chunkTokens
          return (copyLen, copyFromSlice written src dst) : Run (ℕ × List UInt32)) =
            .ok (copyLen, copyFromSlice written (slice cursor copyLen parts.flatten) dst) :=
        bind_eq_ok.2 ⟨_, hchunk, bind_eq_ok.2 ⟨_, hsrc, rfl⟩⟩
      simp only [hpass]
      have htake : (copyFromSlice written (slice cursor copyLen parts.flatten) dst).take
          (written + copyLen) = dst.take written ++ slice cursor copyLen parts.flatten := by
        rw [copyFromSlice, take_left' (by
          rw [length_append, length_take, hlen]; omega)]
      have hdrop : (copyFromSlice written (slice cursor copyLen parts.flatten) dst).drop
          (written + remaining) = dst.drop (written + remaining) := by
        have hsplit : written + remaining = written + copyLen + (remaining - copyLen) := by omega
        rw [copyFromSlice, hsplit, ← drop_drop, drop_left' (by
          rw [length_append, length_take, hlen]; omega), hlen, drop_drop]
      rw [ih (by omega) (by rw [length_copyFromSlice (by omega)]; omega) (by omega), htake,
        show written + copyLen + (remaining - copyLen) = written + remaining by omega, hdrop,
        append_assoc (dst.take written), slice_add,
        show copyLen + (remaining - copyLen) = remaining by omega]

/-- **Copying.** A range inside of the tokens is copied, after at most as many passes as it is long. -/
theorem Holds.copyInto_eq (h : Holds dir chunks parts) {fuel start : ℕ} {dst : List UInt32}
    (hrange : start + dst.length ≤ parts.flatten.length) (hfuel : dst.length < fuel) :
    copyInto dir chunks fuel start dst = some (.ok (slice start dst.length parts.flatten)) := by
  rw [copyInto, h.copyLoop_eq hrange (by omega) hfuel]
  simp

end Reading

end BurnDragon.Corpus
