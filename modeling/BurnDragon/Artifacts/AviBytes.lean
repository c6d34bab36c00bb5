import BurnDragon.Artifacts.FrameRows

/-!
# The bytes of the AVI writer

What `write_avi_raw` has written at its end: the headers with their patched fields, the list of the
frame chunks, and the index (`writeBuffer_eq`). The sizes of the lists are those of what follows
them, so every part but one is a node of a RIFF tree. The exception is the main header, whose chunk
declares 56 bytes and has 52.
-/

namespace BurnDragon.Artifacts

open Rust Corpus Layout List Nat

/-! ## Patches -/

theorem length_toLeBytes (value : UInt32) : (toLeBytes value).length = 4 := by
  simp only [toLeBytes, length_cons, length_nil, zero_add, reduceAdd]

theorem length_u16Bytes (value : UInt16) : (u16Bytes value).length = 2 := by
  simp only [u16Bytes, length_cons, length_nil, zero_add, reduceAdd]

theorem toLeBytes_asU32 (n : ℕ) : toLeBytes (asU32 n) = field32 n := by
  have hbyte : ∀ m k, m % 256 = k % 256 → UInt8.ofNat m = UInt8.ofNat k := fun m k h =>
    UInt8.toNat_inj.1 (by rwa [UInt8.toNat_ofNat', UInt8.toNat_ofNat'])
  have hnat : (asU32 n).toNat = n % 2 ^ 32 := UInt32.toNat_ofNat'
  have hfield : field32 n = [UInt8.ofNat n, UInt8.ofNat (n / 256), UInt8.ofNat (n / 65536),
      UInt8.ofNat (n / 16777216)] := by simp [field32, range_succ]
  rw [toLeBytes, hnat, hfield, hbyte (n % 2 ^ 32) n (by omega),
    hbyte (n % 2 ^ 32 / 2 ^ 8) (n / 256) (by omega),
    hbyte (n % 2 ^ 32 / 2 ^ 16) (n / 65536) (by omega),
    hbyte (n % 2 ^ 32 / 2 ^ 24) (n / 16777216) (by omega)]

theorem patchU32_toLeBytes (old value : UInt32) (rest : List UInt8) :
    patchU32 (toLeBytes old ++ rest) 0 value = .ok (toLeBytes value ++ rest) := by
  rw [patchU32, if_pos (by simp [length_toLeBytes])]
  rfl

/-- A patch behind the first bytes. -/
theorem patchU32_append (pos : ℕ) (value : UInt32) {front buf : List UInt8}
    (h : front.length ≤ pos) : patchU32 (front ++ buf) pos value =
      (patchU32 buf (pos - front.length) value).map (front ++ ·) := by
  have hsub : pos + 4 - front.length = pos - front.length + 4 := by omega
  unfold patchU32
  rw [length_append]
  by_cases hpos : pos - front.length + 4 ≤ buf.length
  · rw [if_pos hpos, if_pos (by omega), Except.map, copyFromSlice, copyFromSlice, take_append,
      take_of_length_le h, drop_append, length_toLeBytes, hsub, drop_eq_nil_of_le (by omega),
      nil_append, append_assoc, append_assoc, append_assoc]
  · rw [if_neg hpos, if_neg (by omega)]
    rfl

theorem map_ok {ε α β : Type} (f : α → β) (a : α) :
    Except.map f (.ok a : Except ε α) = .ok (f a) := rfl

/-! ## Headers -/

/-- The fields of the main header. -/
def avihFields (count : UInt32) (frameSize width height : ℕ) (fps : UInt32) : List UInt8 :=
  [toLeBytes (1000000 / max fps 1), toLeBytes (asU32 (frameSize * fps.toNat)), toLeBytes 0,
    toLeBytes 0x10, toLeBytes count, toLeBytes 1, toLeBytes (asU32 frameSize),
    toLeBytes (asU32 width), toLeBytes (asU32 height), toLeBytes 0, toLeBytes 0, toLeBytes 0,
    toLeBytes 0].flatten

/-- The fields of the stream header. -/
def strhFields (count : UInt32) (frameSize width height : ℕ) (fps : UInt32) : List UInt8 :=
  [utf8Bytes "vids".toList, utf8Bytes "DIB ".toList, toLeBytes 0, toLeBytes 0, toLeBytes 0,
    toLeBytes 1, toLeBytes fps, toLeBytes 0, toLeBytes count, toLeBytes (asU32 frameSize),
    toLeBytes 0xFFFFFFFF, toLeBytes 0, u16Bytes 0, u16Bytes 0, u16Bytes (clampI16 width).toUInt16,
    u16Bytes (clampI16 height).toUInt16].flatten

/-- The fields of the stream format. -/
def strfFields (frameSize width height : ℕ) : List UInt8 :=
  [toLeBytes 40, toLeBytes (Int32.ofNat width).toUInt32, toLeBytes (Int32.ofNat height).toUInt32,
    u16Bytes 1, u16Bytes 24, toLeBytes 0, toLeBytes (asU32 frameSize), toLeBytes 0, toLeBytes 0,
    toLeBytes 0, toLeBytes 0].flatten

/-- The bytes up to the end of the list `hdrl`, with the fields that are patched. -/
def headers (riffSize hdrlSize avihFrames strlSize strhFrames : UInt32)
    (frameSize width height : ℕ) (fps : UInt32) : List UInt8 :=
  [utf8Bytes "RIFF".toList, toLeBytes riffSize, utf8Bytes "AVI ".toList,
    utf8Bytes "LIST".toList, toLeBytes hdrlSize, utf8Bytes "hdrl".toList,
    utf8Bytes "avih".toList, toLeBytes 56, avihFields avihFrames frameSize width height fps,
    utf8Bytes "LIST".toList, toLeBytes strlSize, utf8Bytes "strl".toList,
    utf8Bytes "strh".toList, toLeBytes 56, strhFields strhFrames frameSize width height fps,
    utf8Bytes "strf".toList, toLeBytes 40, strfFields frameSize width height].flatten

theorem length_codes : ∀ code ∈ ["RIFF", "AVI ", "LIST", "hdrl", "avih", "strl", "strh", "vids",
    "DIB ", "strf", "movi", "idx1", "00db"], (utf8Bytes code.toList).length = 4 := by
  decide

/-- The place holder of the frame count is two numbers of two bytes. -/
theorem u16Bytes_zero_append (rest : List UInt8) :
    u16Bytes 0 ++ (u16Bytes 0 ++ rest) = toLeBytes 0 ++ rest := rfl

theorem foldl_append_zero (buf : List UInt8) :
    (List.range 4).foldl (fun buf _ => buf ++ toLeBytes 0) buf =
      buf ++ [toLeBytes 0, toLeBytes 0, toLeBytes 0, toLeBytes 0].flatten := by
  simp [range_succ]

section

variable (frameSize width height : ℕ) (fps : UInt32)

theorem writeHeaders_eq : writeHeaders width height frameSize fps =
    .ok (headers 0 188 0 116 0 frameSize width height fps, ⟨4, 48, 136⟩) := by
  have hlength := length_codes
  simp only [forall_mem_cons] at hlength
  simp only [writeHeaders, writeU32, writeFourcc, writeI32, writeI16, writeU16, foldl_append_zero,
    append_assoc, nil_append, u16Bytes_zero_append, flatten_cons, flatten_nil, append_nil,
    length_append, length_toLeBytes, length_u16Bytes, hlength, reduceAdd, reduceSub]
  simp (disch := simp only [length_toLeBytes, hlength, length_u16Bytes, reduceLeDiff]) only
    [patchU32_append, length_toLeBytes, hlength, reduceSub, patchU32_toLeBytes, map_ok, bind,
      Except.bind, pure, Except.pure]
  simp only [headers, avihFields, strhFields, strfFields, flatten_cons, flatten_nil,
    append_nil, append_assoc]
  rfl

variable (riffSize hdrlSize avihFrames strlSize strhFrames value : UInt32) (rest : List UInt8)

theorem length_headers : (headers riffSize hdrlSize avihFrames strlSize strhFrames frameSize width
    height fps).length = 208 := by
  have hlength := length_codes
  simp only [forall_mem_cons] at hlength
  simp only [headers, avihFields, strhFields, strfFields, flatten_cons, flatten_nil,
    append_nil, length_append, hlength, length_toLeBytes, length_u16Bytes, reduceAdd]

/-- The patches of the headers. -/
theorem patchU32_headers :
    patchU32 (headers riffSize hdrlSize avihFrames strlSize strhFrames frameSize width height fps ++
      rest) 48 value = .ok (headers riffSize hdrlSize value strlSize strhFrames frameSize width
        height fps ++ rest) ∧
    patchU32 (headers riffSize hdrlSize avihFrames strlSize strhFrames frameSize width height fps ++
      rest) 136 value = .ok (headers riffSize hdrlSize avihFrames strlSize value frameSize width
        height fps ++ rest) ∧
    patchU32 (headers riffSize hdrlSize avihFrames strlSize strhFrames frameSize width height fps ++
      rest) 4 value = .ok (headers value hdrlSize avihFrames strlSize strhFrames frameSize width
        height fps ++ rest) ∧
    patchU32 (headers riffSize hdrlSize avihFrames strlSize strhFrames frameSize width height fps ++
      rest) 16 value = .ok (headers riffSize value avihFrames strlSize strhFrames frameSize width
        height fps ++ rest) := by
  have hlength := length_codes
  simp only [forall_mem_cons] at hlength
  simp only [headers, avihFields, strhFields, flatten_cons, flatten_nil, append_nil, append_assoc]
  refine ⟨?_, ?_, ?_, ?_⟩ <;>
    simp (disch := simp only [length_toLeBytes, hlength, reduceLeDiff]) only
      [patchU32_append, length_toLeBytes, hlength, reduceSub, patchU32_toLeBytes, map_ok]

end

/-! ## Frames -/

/-- `00db`, the identifier of a frame chunk. -/
def frameId : List UInt8 := utf8Bytes "00db".toList

/-- The chunks of the frames. -/
def frameChunks (encoded : List (List UInt8)) : List Riff := encoded.map (Riff.chunk frameId)

/-- The index entries of frame chunks of one size. -/
def frameEntries (size count : ℕ) : List AviIndexEntry :=
  (List.range count).map fun i => ⟨asU32 (i * (8 + size)), asU32 size⟩

theorem length_frameEntries (size count : ℕ) : (frameEntries size count).length = count := by
  rw [frameEntries, length_map, length_range]

variable {data : List UInt8}

theorem encode_chunk (h : data.length % 2 = 0) :
    (Riff.chunk frameId data).encode = frameId ++ toLeBytes (asU32 data.length) ++ data := by
  rw [Riff.encode, Riff.pad, h, replicate_zero, append_nil, toLeBytes_asU32]

theorem length_encode_chunk (h : data.length % 2 = 0) :
    (Riff.chunk frameId data).encode.length = 8 + data.length := by
  rw [encode_chunk h, length_append, length_append, length_toLeBytes]
  rfl

variable {encoded : List (List UInt8)} {size : ℕ}

theorem length_frameChunks
    (hencoded : ∀ data ∈ encoded, data.length = size) (hsize : size % 2 = 0) :
    (Riff.encodeAll (frameChunks encoded)).length = encoded.length * (8 + size) := by
  induction encoded with
  | nil => rw [length_nil, zero_mul]; rfl
  | cons data encoded ih =>
    rw [forall_mem_cons] at hencoded
    rw [frameChunks, map_cons, Riff.encodeAll, length_append,
      length_encode_chunk (hencoded.1 ▸ hsize), hencoded.1, length_cons, succ_mul, add_comm]
    exact congrArg (· + (8 + size)) (ih hencoded.2)

variable {stride : ℕ}

theorem writeFrame_eq {moviStart : ℕ} {frame : ArtifactFrame}
    (hdata : encodeBgr frame stride = .ok data) (heven : data.length % 2 = 0) (buf : List UInt8)
    (entries : List AviIndexEntry) : writeFrame stride moviStart (buf, entries) frame =
      .ok (buf ++ (Riff.chunk frameId data).encode,
        entries ++ [⟨asU32 (buf.length - moviStart), asU32 data.length⟩]) := by
  rw [writeFrame, encode_chunk heven]
  simp only [hdata, heven, bind, Except.bind, pure, Except.pure, writeFourcc, writeU32, frameId,
    append_assoc]
  rfl

variable {frames : List ArtifactFrame}

theorem foldlM_writeFrame {moviStart : ℕ} (hsize : size % 2 = 0)
    (h : List.Forall₂ (fun frame data => encodeBgr frame stride = .ok data ∧ data.length = size)
      frames encoded) (buf : List UInt8) (entries : List AviIndexEntry) :
    frames.foldlM (writeFrame stride moviStart) (buf, entries) =
      .ok (buf ++ Riff.encodeAll (frameChunks encoded), entries ++
        (List.range encoded.length).map fun i =>
          ⟨asU32 (buf.length + i * (8 + size) - moviStart), asU32 size⟩) := by
  induction h generalizing buf entries with
  | nil => simp [frameChunks, Riff.encodeAll, pure, Except.pure]
  | @cons frame data frames encoded hdata _ ih =>
    have heven : data.length % 2 = 0 := by rw [hdata.2, hsize]
    rw [foldlM_cons, writeFrame_eq hdata.1 heven]
    refine (ih _ _).trans ?_
    rw [length_append, length_encode_chunk heven, hdata.2, length_cons, range_succ_eq_map, map_cons,
      map_map, zero_mul, add_zero, append_assoc, append_assoc]
    congr 4
    refine congrArg (List.cons _) ?_
    refine map_congr_left fun i _ => ?_
    simp only [Function.comp_apply, succ_mul]
    congr 2
    omega

/-! ## The index -/

/-- The bytes of an index entry. -/
def entryBytes (entry : AviIndexEntry) : List UInt8 :=
  frameId ++ toLeBytes 0x10 ++ toLeBytes entry.offset ++ toLeBytes entry.size

theorem foldl_writeIndexEntry (entries : List AviIndexEntry) (buf : List UInt8) :
    entries.foldl writeIndexEntry buf = buf ++ entries.flatMap entryBytes := by
  induction entries generalizing buf with
  | nil => rw [foldl_nil, flatMap_nil, append_nil]
  | cons entry entries ih =>
    rw [foldl_cons, ih, flatMap_cons, ← append_assoc]
    simp only [writeIndexEntry, entryBytes, writeU32, writeFourcc, frameId, append_assoc]

theorem length_entryBytes (entry : AviIndexEntry) : (entryBytes entry).length = 16 := by
  simp only [entryBytes, length_append, length_toLeBytes]
  rfl

theorem length_flatMap_entryBytes (entries : List AviIndexEntry) :
    (entries.flatMap entryBytes).length = entries.length * 16 := by
  rw [flatMap_def, length_flatten_eq fun row hrow => ?_, length_map]
  obtain ⟨entry, -, rfl⟩ := mem_map.mp hrow
  exact length_entryBytes entry

/-! ## The file -/

/-- The bytes behind the list `hdrl`: the list of the frame chunks and the index. -/
def framesAndIndex (encoded : List (List UInt8)) (size : ℕ) : List UInt8 :=
  [utf8Bytes "LIST".toList, field32 (4 + encoded.length * (8 + size)), utf8Bytes "movi".toList,
    Riff.encodeAll (frameChunks encoded), utf8Bytes "idx1".toList, field32 (encoded.length * 16),
    (frameEntries size encoded.length).flatMap entryBytes].flatten

/-- All bytes. -/
def aviBytes (encoded : List (List UInt8)) (size width height : ℕ) (fps : UInt32) : List UInt8 :=
  headers (asU32 (220 + encoded.length * (8 + size + 16))) 188 (asU32 encoded.length) 116
    (asU32 encoded.length) size width height fps ++ framesAndIndex encoded size

theorem patchU32_movi (riffSize hdrlSize avihFrames strlSize strhFrames : UInt32)
    (frameSize width height : ℕ) (fps : UInt32) (rest : List UInt8) (value : UInt32) :
    patchU32 (headers riffSize hdrlSize avihFrames strlSize strhFrames frameSize width height fps ++
      (utf8Bytes "LIST".toList ++ (toLeBytes 0 ++ rest))) 212 value =
        .ok (headers riffSize hdrlSize avihFrames strlSize strhFrames frameSize width height fps ++
          (utf8Bytes "LIST".toList ++ (toLeBytes value ++ rest))) := by
  have hlist : (utf8Bytes "LIST".toList).length = 4 := length_codes _ (by simp)
  simp (disch := simp only [length_headers, hlist, reduceLeDiff]) only [patchU32_append,
    length_headers, hlist, reduceSub, patchU32_toLeBytes, map_ok]

theorem length_data
    (h : List.Forall₂ (fun frame data => encodeBgr frame stride = .ok data ∧ data.length = size)
      frames encoded) : ∀ data ∈ encoded, data.length = size := by
  induction h with
  | nil => exact forall_mem_nil _
  | cons hdata _ ih => exact forall_mem_cons.mpr ⟨hdata.2, ih⟩

theorem writeBuffer_eq {width height : ℕ} (hsize : size = rowStride width * height)
    (heven : size % 2 = 0)
    (h : List.Forall₂ (fun frame data => encodeBgr frame (rowStride width) = .ok data ∧ data.length
      = size) frames encoded) (fps : UInt32) :
    writeBuffer frames width height fps = .ok (aviBytes encoded size width height fps) := by
  have hmovi := length_frameChunks (length_data h) heven
  have hcount : frames.length = encoded.length := h.length_eq
  have hstride : (width * 3 + 3) / 4 * 4 = rowStride width := rfl
  have hlength := length_codes
  simp only [forall_mem_cons] at hlength
  have hmoviSize : 208 + (4 + (4 + (4 + encoded.length * (8 + size)))) - 216 =
      4 + encoded.length * (8 + size) := by omega
  have hentries : ((List.range encoded.length).map fun i =>
      (⟨asU32 (220 + i * (8 + size) - 220), asU32 size⟩ : AviIndexEntry)) =
        frameEntries size encoded.length :=
    map_congr_left fun i _ => by rw [Nat.add_sub_cancel_left]
  have hindex : ((frameEntries size encoded.length).flatMap entryBytes).length =
      encoded.length * 16 := by
    rw [length_flatMap_entryBytes, length_frameEntries]
  have hriffSize : 208 + (4 + (4 + (4 + (encoded.length * (8 + size) +
      (4 + (4 + encoded.length * 16)))))) - 8 = 220 + encoded.length * (8 + size + 16) := by
    rw [mul_add _ (8 + size)]
    omega
  rw [writeBuffer, hstride, ← hsize, writeHeaders_eq]
  simp only [bind, Except.bind, foldlM_writeFrame heven h, writeFourcc, writeU32,
    append_assoc, length_append, length_headers, length_toLeBytes, hlength, hmovi,
    reduceAdd, nil_append, patchU32_movi, hmoviSize, hentries, foldl_writeIndexEntry,
    length_frameEntries, hindex, hriffSize, hcount, (patchU32_headers _ _ _ _ _ _ _ _ _ _ _).1,
    (patchU32_headers _ _ _ _ _ _ _ _ _ _ _).2.1, (patchU32_headers _ _ _ _ _ _ _ _ _ _ _).2.2.1]
  simp only [aviBytes, framesAndIndex, flatten_cons, flatten_nil, append_nil, toLeBytes_asU32]

end BurnDragon.Artifacts
