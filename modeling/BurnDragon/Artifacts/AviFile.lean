import BurnDragon.Artifacts.AviBytes

/-!
# The AVI file

`AviDecodes` says that bytes are an AVI file of frames: a RIFF tree whose main header states the
number and the size of the frames, whose index lists the frame chunks, and whose frame chunks hold
the images.

The file of `write_avi_raw` is none. The writer leaves one field of the main header out, so the
header is four bytes shorter than its chunk declares: no tree has these bytes
(`encode_ne_aviBytes`), and the size of a frame stands where the number of streams belongs
(`fieldAt_aviBytes`).
-/

namespace BurnDragon.Artifacts

open Rust Corpus Layout List

/-- The number in the field at a position. -/
def fieldAt (bytes : List UInt8) (pos : ℕ) : ℕ := readField (slice pos 4 bytes)

/-- The fields of the main header at their places. -/
structure IsMainHeader (count width height : ℕ) (header : List UInt8) : Prop where
  frames : fieldAt header 16 = count
  streams : fieldAt header 24 = 1
  width : fieldAt header 32 = width
  height : fieldAt header 36 = height

/-- The index has an entry for each chunk, with the place of the chunk in its list and its size. -/
structure IsIndex (chunks : List (List UInt8)) (index : List UInt8) : Prop where
  length : index.length = chunks.length * 16
  id : ∀ i < chunks.length, slice (i * 16) 4 index = frameId
  offset : ∀ i < chunks.length,
    fieldAt index (i * 16 + 8) = Riff.childStart (frameChunks chunks) i
  size : ∀ (i : ℕ) (h : i < chunks.length), fieldAt index (i * 16 + 12) = chunks[i].length

/-- The bytes are an AVI file of the frames. -/
def AviDecodes (frames : List ArtifactFrame) (width height : ℕ) (bytes : List UInt8) : Prop :=
  ∃ (header : List UInt8) (hdrl nodes : List Riff) (chunks : List (List UInt8))
    (index : List UInt8) (file : Riff),
    file = .list Riff.riffId (utf8Bytes "AVI ".toList)
      (.list Riff.listId (utf8Bytes "hdrl".toList)
        (.chunk (utf8Bytes "avih".toList) header :: hdrl) :: nodes) ∧
    file.WellFormed ∧ file.encode = bytes ∧
    Riff.list Riff.listId (utf8Bytes "movi".toList) (frameChunks chunks) ∈ nodes ∧
    Riff.chunk (utf8Bytes "idx1".toList) index ∈ nodes ∧
    IsMainHeader frames.length width height header ∧ IsIndex chunks index ∧
    chunks.map (decodeBgr width height) = frames.map (·.rgb)

/-- Frames of one size, which fit the fields of the file. -/
structure AviFrames (frames : List ArtifactFrame) (width height : ℕ) : Prop where
  nonempty : frames ≠ []
  width_pos : 0 < width
  height_pos : 0 < height
  sized : ∀ frame ∈ frames, frame.width = width ∧ frame.height = height ∧
    frame.rgb.length = height * width * 3
  fits : 220 + frames.length * (rowStride width * height + 24) < 2 ^ 32

variable {frames : List ArtifactFrame} {encoded : List (List UInt8)} {width height size : ℕ}

/-! ## The writer returns -/

theorem rowStride_mod (width height : ℕ) : rowStride width * height % 4 = 0 := by
  rw [rowStride, Nat.mul_right_comm, Nat.mul_mod_left]

/-- The frame chunks of the writer. -/
structure Encodes (frames : List ArtifactFrame) (width height : ℕ) (encoded : List (List UInt8)) :
    Prop where
  returns : List.Forall₂ (fun frame data => encodeBgr frame (rowStride width) = .ok data ∧
    data.length = rowStride width * height) frames encoded
  decodes : encoded.map (decodeBgr width height) = frames.map (·.rgb)

theorem exists_encoded (hsized : ∀ frame ∈ frames, frame.width = width ∧ frame.height = height ∧
    frame.rgb.length = height * width * 3) : ∃ encoded, Encodes frames width height encoded := by
  induction frames with
  | nil => exact ⟨[], .nil, rfl⟩
  | cons frame frames ih =>
    obtain ⟨⟨hwidth, hheight, hrgb⟩, hsized⟩ := forall_mem_cons.mp hsized
    subst hwidth hheight
    obtain ⟨encoded, hreturns, hdecodes⟩ := ih hsized
    obtain ⟨data, hdata, hlength, hdecode⟩ := encodeBgr_eq_ok hrgb
    refine ⟨data :: encoded, .cons ⟨hdata, hlength⟩ hreturns, ?_⟩
    rw [map_cons, map_cons, hdecode, hdecodes]

/-- The bytes that the writer returns. -/
theorem writeAviRaw_eq (h : AviFrames frames width height)
    (hencoded : Encodes frames width height encoded) (fps : UInt32) :
    writeAviRaw frames fps =
      .ok (aviBytes encoded (rowStride width * height) width height fps) := by
  have hmod := rowStride_mod width height
  have hbuffer := writeBuffer_eq rfl (by omega) hencoded.returns fps
  obtain ⟨first, rest, rfl⟩ := exists_cons_of_ne_nil h.nonempty
  obtain ⟨⟨hwidth, hheight, -⟩, hrest⟩ := forall_mem_cons.mp h.sized
  subst hwidth hheight
  have hsize : ¬ (first.width = 0 ∨ first.height = 0) :=
    not_or.mpr ⟨h.width_pos.ne', h.height_pos.ne'⟩
  have hsame : (rest.any fun frame =>
      frame.width ≠ first.width ∨ frame.height ≠ first.height) = false := by
    rw [any_eq_false]
    intro frame hframe
    obtain ⟨hw, hh, -⟩ := hrest frame hframe
    simp [hw, hh]
  rw [writeAviRaw, if_neg hsize, hsame, if_neg Bool.false_ne_true, hbuffer, Except.mapError]

/-! ## The main header -/

theorem length_avihFields (count : UInt32) (fps : UInt32) :
    (avihFields count size width height fps).length = 52 := by
  simp only [avihFields, flatten_cons, flatten_nil, append_nil, length_append,
    length_toLeBytes, Nat.reduceAdd]

/-- No list of RIFF nodes begins with the main header and the list behind it: the chunk takes the
identifier of this list for its own data, and then the type of the list is a length. -/
theorem encodeAll_ne_hdrl {nodes : List Riff} (h : Riff.AllWellFormed nodes)
    (hlength : (Riff.encodeAll nodes).length = 184) {fields : List UInt8}
    (hfields : fields.length = 52) (more rest : List UInt8) :
    Riff.encodeAll nodes ++ more ≠ utf8Bytes "avih".toList ++ (field32 56 ++ (fields ++
      (Riff.listId ++ (field32 116 ++ (utf8Bytes "strl".toList ++ rest))))) := by
  intro hencode
  match nodes, h with
  | [], _ => cases hlength
  | avih :: nodes, h =>
    rw [Riff.AllWellFormed] at h
    obtain ⟨id, n, body, havih, hid, hn, hbody⟩ := Riff.exists_header h.1
    rw [Riff.encodeAll, havih] at hencode hlength
    simp only [append_assoc] at hencode
    have hsize := (append_inj hencode hid).2
    obtain ⟨hfield, hdata⟩ := append_inj hsize rfl
    obtain rfl : n = 56 := field32_inj hn (by omega) hfield
    rw [← append_assoc fields] at hdata
    have hbody' : body.length = (fields ++ Riff.listId).length := by
      rw [length_append, hbody, hfields]
      rfl
    have hnext := (append_inj hdata hbody').2
    simp only [length_append, hid, length_field32, hbody] at hlength
    match nodes, h.2 with
    | [], _ =>
      rw [Riff.encodeAll, length_nil] at hlength
      omega
    | node :: nodes, h =>
      rw [Riff.AllWellFormed] at h
      obtain ⟨id', n', body', hnode, hid', hn', hbody'⟩ := Riff.exists_header h.1
      rw [Riff.encodeAll, hnode] at hnext hlength
      simp only [append_assoc] at hnext
      have hsize' := (append_inj hnext hid').2
      have hfield' := (append_inj hsize' rfl).1
      have hvalue : n' = readField (utf8Bytes "strl".toList) := by
        rw [← hfield', readField_field32_of_lt hn']
      have hlarge : readField (utf8Bytes "strl".toList) = 1819440243 := rfl
      simp only [length_append, hid', length_field32, hbody'] at hlength
      omega

/-- The bytes of the writer up to the type of the second list. -/
theorem aviBytes_eq (encoded : List (List UInt8)) (size width height : ℕ) (fps : UInt32) :
    ∃ fields rest, fields.length = 52 ∧ aviBytes encoded size width height fps =
      Riff.riffId ++ field32 (220 + encoded.length * (8 + size + 16)) ++
        (utf8Bytes "AVI ".toList ++ (Riff.listId ++ (field32 188 ++ (utf8Bytes "hdrl".toList ++
          (utf8Bytes "avih".toList ++ (field32 56 ++ (fields ++ (Riff.listId ++ (field32 116 ++
            (utf8Bytes "strl".toList ++ rest)))))))))) := by
  refine ⟨avihFields (asU32 encoded.length) size width height fps,
    [utf8Bytes "strh".toList, toLeBytes 56, strhFields (asU32 encoded.length) size width height fps,
      utf8Bytes "strf".toList, toLeBytes 40, strfFields size width height].flatten ++
        framesAndIndex encoded size, length_avihFields _ _, ?_⟩
  rw [aviBytes, headers]
  simp only [flatten_cons, flatten_nil, append_nil, append_assoc, toLeBytes_asU32]
  rfl

/-- **No RIFF tree has the bytes of the writer.** -/
theorem encode_ne_aviBytes (hsize : 220 + encoded.length * (8 + size + 16) < 2 ^ 32) (fps : UInt32)
    {file : Riff} (h : file.WellFormed) :
    file.encode ≠ aviBytes encoded size width height fps := by
  intro hencode
  obtain ⟨fields, rest, hfields, hbytes⟩ := aviBytes_eq encoded size width height fps
  rw [hbytes, ← append_nil file.encode] at hencode
  -- the file is a list, and its first node begins behind its type
  obtain ⟨type, nodes, rfl⟩ := Riff.exists_list h (.inl rfl)
    (hencode.trans (append_assoc _ _ _))
  obtain ⟨-, hnodes⟩ := Riff.encodeAll_of_list h hsize hencode
  rw [Riff.WellFormed] at h
  rw [append_nil] at hnodes
  have hfirst := (append_inj hnodes h.2.1).2
  match nodes, h.2.2.2 with
  | [], _ => cases hfirst
  | hdrl :: nodes, hwell =>
    rw [Riff.AllWellFormed] at hwell
    rw [Riff.encodeAll] at hfirst
    -- so is the first node, whose nodes begin with the main header
    obtain ⟨type', children, rfl⟩ := Riff.exists_list hwell.1 (.inr rfl) hfirst
    rw [← append_assoc Riff.listId] at hfirst
    obtain ⟨hlength, hchildren⟩ := Riff.encodeAll_of_list hwell.1 (by omega) hfirst
    have hdrl := hwell.1
    rw [Riff.WellFormed] at hdrl
    rw [append_assoc] at hchildren
    have havih := (append_inj hchildren hdrl.2.1).2
    exact encodeAll_ne_hdrl hdrl.2.2.2 (by omega) hfields _ _ havih

theorem slice_zero_append {field rest : List UInt8} (h : field.length = 4) :
    slice 0 4 (field ++ rest) = field := by
  rw [slice, drop_zero, ← h, take_left]

/-- The eighth field of the main header, the place of the number of streams, has the size of a
frame. -/
theorem fieldAt_aviBytes (encoded : List (List UInt8)) (size width height : ℕ) (fps : UInt32) :
    fieldAt (aviBytes encoded size width height fps) 56 = size % 2 ^ 32 := by
  have hlength := length_codes
  simp only [forall_mem_cons] at hlength
  rw [fieldAt, aviBytes, headers, avihFields]
  simp only [flatten_cons, flatten_nil, append_nil, append_assoc]
  simp (disch := simp only [length_toLeBytes, hlength, Nat.reduceLeDiff]) only
    [slice_append_right, length_toLeBytes, hlength, Nat.reduceSub, slice_zero_append]
  rw [toLeBytes_asU32, readField_field32]

theorem not_aviDecodes (h : AviFrames frames width height)
    (hencoded : Encodes frames width height encoded) (fps : UInt32) :
    ¬ AviDecodes frames width height
      (aviBytes encoded (rowStride width * height) width height fps) := by
  rintro ⟨header, hdrl, nodes, chunks, index, file, -, hwell, hencode, -⟩
  have hcount : frames.length = encoded.length := hencoded.returns.length_eq
  have hsum : 8 + rowStride width * height + 16 = rowStride width * height + 24 := by omega
  refine encode_ne_aviBytes ?_ fps hwell hencode
  rw [hsum, ← hcount]
  exact h.fits

/-- **The file of the writer is no AVI file of the frames.** -/
theorem writeAviRaw_not_decodes (frames : List ArtifactFrame) (width height : ℕ)
    (h : AviFrames frames width height) (fps : UInt32) :
    ∃ bytes, writeAviRaw frames fps = .ok bytes ∧ ¬ AviDecodes frames width height bytes := by
  obtain ⟨encoded, hencoded⟩ := exists_encoded h.sized
  exact ⟨_, writeAviRaw_eq h hencoded fps, not_aviDecodes h hencoded fps⟩

/-- One white pixel. -/
def whitePixel : List ArtifactFrame := [⟨1, 1, [255, 255, 255]⟩]

theorem whitePixel_aviFrames : AviFrames whitePixel 1 1 where
  nonempty := cons_ne_nil _ _
  width_pos := Nat.one_pos
  height_pos := Nat.one_pos
  sized := forall_mem_singleton.mpr ⟨rfl, rfl, rfl⟩
  fits := by decide

theorem writeAviRaw_not_decodes_whitePixel :
    ∃ bytes, writeAviRaw whitePixel 8 = .ok bytes ∧ ¬ AviDecodes whitePixel 1 1 bytes :=
  writeAviRaw_not_decodes whitePixel 1 1 whitePixel_aviFrames 8

/-- Its file declares four streams, the size of the frame. -/
theorem whitePixel_four_streams : ∃ bytes, writeAviRaw whitePixel 8 = .ok bytes ∧
    fieldAt bytes 56 = 4 ∧ ¬ AviDecodes whitePixel 1 1 bytes := by
  obtain ⟨encoded, hencoded⟩ := exists_encoded whitePixel_aviFrames.sized
  exact ⟨_, writeAviRaw_eq whitePixel_aviFrames hencoded 8, fieldAt_aviBytes _ _ _ _ _,
    not_aviDecodes whitePixel_aviFrames hencoded 8⟩

/-- A file of the pixel. -/
example : ∃ bytes, AviDecodes whitePixel 1 1 bytes := by
  refine ⟨_, [0, 0, 0, 0, 1, 0, 1, 0, 1, 1].flatMap field32, [],
    [.list Riff.listId (utf8Bytes "movi".toList) (frameChunks [[255, 255, 255, 0]]),
      .chunk (utf8Bytes "idx1".toList) (frameId ++ [16, 0, 4].flatMap field32)],
    [[255, 255, 255, 0]], frameId ++ [16, 0, 4].flatMap field32, _, rfl, ?_, rfl,
    List.mem_cons_self, List.mem_cons_of_mem _ List.mem_cons_self, ⟨rfl, rfl, rfl, rfl⟩,
    ⟨rfl, by decide, by decide, by decide⟩, by decide⟩
  simp only [Riff.WellFormed, Riff.AllWellFormed, frameChunks, List.map]
  decide +kernel

end BurnDragon.Artifacts
