import BurnDragon.Checkpoint.Parts
import BurnDragon.Layout.Aligned

/-!
# Parts keep every tensor

The layout of a part is the one of `Layout.Aligned` with alignment 256, as long as its sizes are machine
integers (`placeTensors_eq_ok`). A part that has been written has sizes that are, since no file is
longer than the largest offset, so its bytes are the packed data of its tensors
(`writeTensors_eq_ok`) and the estimate is its length. The groups of the plan are the records cut into
pieces, whatever the estimates are (`splitRecords_eq_ok`).
-/

namespace BurnDragon.Checkpoint

open Rust Layout List

variable {overflowChecks : Bool} {encode : RawBurnpackMetadata → Except String (List UInt8)}
  {records : List TensorRecord} {sourceMetadata : BTreeMap String String}

/-! ## Placing the tensors -/

theorem tensorAlignment_pos : 0 < tensorAlignment := by decide

variable {offset : ℕ}

theorem alignOffset_eq_ok (h : alignUp tensorAlignment offset ≤ usizeMax) :
    alignOffset overflowChecks offset tensorAlignment = .ok (alignUp tensorAlignment offset) :=
  usizeResult_of_le h

/-- The sizes of the tensors. -/
def byteLengths (records : List TensorRecord) : List ℕ :=
  records.map fun record => record.descriptor.byteLength

/-- The descriptor of a tensor with its place in the part. -/
def TensorRecord.placed (record : TensorRecord) (start : ℕ) : RawTensorDescriptor :=
  { record.descriptor with dataOffsets := (start, start + record.descriptor.byteLength) }

/-- The descriptors of the part after those in `tensors`, with all tensors in place. -/
def placedTensors : BTreeMap String RawTensorDescriptor → ℕ → List TensorRecord →
    BTreeMap String RawTensorDescriptor
  | tensors, _, [] => tensors
  | tensors, offset, record :: records =>
    let start := alignUp tensorAlignment offset
    placedTensors (tensors.insert record.name (record.placed start))
      (start + record.descriptor.byteLength) records

variable {tensors : BTreeMap String RawTensorDescriptor}

/-- Sizes that are machine integers are placed without loss. -/
theorem placeTensors_eq_ok (h : extent tensorAlignment offset (byteLengths records) ≤ usizeMax) :
    placeTensors overflowChecks tensors offset records =
      .ok (placedTensors tensors offset records,
        extent tensorAlignment offset (byteLengths records)) := by
  induction records generalizing tensors offset with
  | nil => rfl
  | cons record records ih =>
    rw [byteLengths, map_cons, extent] at h ⊢
    have hend := (le_extent tensorAlignment_pos).trans h
    have hstart : alignUp tensorAlignment offset ≤ usizeMax := by omega
    rw [placeTensors, alignOffset_eq_ok hstart]
    simp only [bind, Except.bind, saturatingAdd_of_le hend]
    exact ih h

/-- A descriptor stays when no later tensor has its name. -/
theorem placeTensors_get?_of_notMem {tensors' : BTreeMap String RawTensorDescriptor} {n : ℕ}
    {name : String} (h : placeTensors overflowChecks tensors offset records = .ok (tensors', n))
    (hname : name ∉ records.map (·.name)) : tensors'.get? name = tensors.get? name := by
  induction records generalizing tensors offset with
  | nil =>
    obtain ⟨rfl, -⟩ : tensors = tensors' ∧ offset = n := by simpa [placeTensors] using h
    rfl
  | cons record records ih =>
    obtain ⟨hne, hname⟩ : name ≠ record.name ∧ name ∉ records.map (·.name) := by
      simpa using hname
    obtain ⟨start, -, h⟩ := bind_eq_ok.1 h
    rw [ih h hname, BTreeMap.get?_insert_of_ne _ _ hne]

/-- Without overflow checks nothing panics. -/
theorem placeTensors_returns :
    ∃ result, placeTensors false tensors offset records = .ok result := by
  induction records generalizing tensors offset with
  | nil => exact ⟨_, rfl⟩
  | cons record records ih =>
    obtain ⟨start, hstart⟩ := usizeResult_false_returns
      ((offset + tensorAlignment - 1) / tensorAlignment * tensorAlignment)
    rw [placeTensors, alignOffset, hstart]
    exact ih

/-- The names in the metadata of a part are those of its tensors. -/
theorem mem_keys_placedTensors {name : String} :
    name ∈ (placedTensors tensors offset records).keys ↔
      name ∈ tensors.keys ∨ name ∈ records.map (·.name) := by
  induction records generalizing tensors offset with
  | nil => simp [placedTensors]
  | cons record records ih =>
    rw [placedTensors, ih, BTreeMap.mem_keys_insert, map_cons, mem_cons]
    tauto

/-! ## Writing a part -/

/-- The bytes of a tensor in the source. -/
def sourceBytes (source : List UInt8) (dataStart : ℕ) (record : TensorRecord) : List UInt8 :=
  (source.drop (dataStart + record.descriptor.dataOffsets.1)).take record.descriptor.byteLength

theorem checkedAdd_eq_some_iff {a b c : ℕ} :
    checkedAdd a b = some c ↔ a + b ≤ usizeMax ∧ a + b = c := by
  unfold checkedAdd
  split_ifs with h <;> simp [h]

variable {out : List UInt8}

theorem writeAll_eq_ok_iff {bytes out' : List UInt8} :
    writeAll out bytes = .ok out' ↔ out.length + bytes.length ≤ isizeMax ∧ out ++ bytes = out' := by
  unfold writeAll
  split_ifs with h <;> simp [h]

/-- Padding up to a target that the file does not pass. -/
theorem writePadding_eq_ok {out' : List UInt8} {target written' : ℕ}
    (h : writePadding out out.length target = .ok (out', written')) (hle : out.length ≤ target)
    (hlen : out.length ≤ isizeMax) :
    out' = out ++ List.replicate (target - out.length) 0 ∧ written' = target ∧
      target ≤ isizeMax := by
  unfold writePadding at h
  split_ifs at h with hlt
  · obtain ⟨_, hwrite, hpure⟩ := bind_eq_ok.1 h
    obtain ⟨hsize, rfl⟩ := writeAll_eq_ok_iff.1 hwrite
    cases hpure
    rw [length_replicate] at hsize
    exact ⟨rfl, rfl, by omega⟩
  · cases h
    obtain rfl : target = out.length := by omega
    simpa using hlen

variable {source : List UInt8}

theorem readExactAt_eq_ok {buffer : List UInt8} {position length : ℕ}
    (h : readExactAt source position length = .ok buffer) :
    buffer = (source.drop position).take length ∧ buffer.length = length := by
  unfold readExactAt at h
  split_ifs at h with hseek hread
  cases h
  exact ⟨rfl, by rw [length_take]; omega⟩

variable {part : List UInt8} {dataStart : ℕ}

/-- **The writer packs the data.** Every tensor is read in full, and what is written is the packed
data, which does not pass the largest file offset. -/
theorem writeTensors_eq_ok {dataSectionStart n : ℕ} {tensors' : BTreeMap String RawTensorDescriptor}
    (hplace : placeTensors overflowChecks tensors offset records = .ok (tensors', n))
    (hnodup : (records.map (·.name)).Nodup) (hstart : tensorAlignment ∣ dataSectionStart)
    (hout : out.length = dataSectionStart + offset) (hlen : out.length ≤ isizeMax)
    (hwrite : writeTensors source dataStart dataSectionStart tensors' out out.length records = .ok
      part) :
    part = pack tensorAlignment 0 out (records.map (sourceBytes source dataStart)) ∧
      (∀ record ∈ records, (sourceBytes source dataStart record).length =
        record.descriptor.byteLength) ∧ part.length ≤ isizeMax := by
  induction records generalizing tensors offset out with
  | nil =>
    obtain rfl : out = part := by simpa [writeTensors] using hwrite
    exact ⟨rfl, by simp, hlen⟩
  | cons record records ih =>
    obtain ⟨hname, hnodup⟩ := nodup_cons.1 hnodup
    have hmax : isizeMax + tensorAlignment ≤ usizeMax := by decide
    have hlt := alignUp_lt (n := offset) tensorAlignment_pos
    have hle := le_alignUp (n := offset) tensorAlignment_pos
    have halign : alignUp tensorAlignment out.length =
        dataSectionStart + alignUp tensorAlignment offset := by
      rw [hout, alignUp_add tensorAlignment_pos hstart]
    -- the place of the tensor in the metadata is the one the layout gives it
    rw [placeTensors, alignOffset_eq_ok (by omega)] at hplace
    simp only [bind, Except.bind] at hplace
    have hget := placeTensors_get?_of_notMem hplace hname
    rw [BTreeMap.get?_insert_self] at hget
    simp only [writeTensors, bind_eq_ok, okOr_eq_ok, hget, Option.some.injEq, exists_eq_left',
      checkedAdd_eq_some_iff, Prod.exists] at hwrite
    obtain ⟨target, ⟨-, rfl⟩, padded, written, hpad, seek, ⟨-, rfl⟩, -, -, buffer, hread, written',
      hbuffer, hrest⟩ := hwrite
    obtain ⟨rfl, rfl, -⟩ := writePadding_eq_ok hpad (by omega) hlen
    obtain ⟨rfl, hread⟩ := readExactAt_eq_ok hread
    obtain ⟨hsize, rfl⟩ := writeAll_eq_ok_iff.1 hbuffer
    have happend : out ++ List.replicate (dataSectionStart + alignUp tensorAlignment offset -
        out.length) 0 ++ sourceBytes source dataStart record =
          appendAligned tensorAlignment 0 out (sourceBytes source dataStart record) := by
      rw [appendAligned, halign]
    have hlength := length_appendAligned tensorAlignment_pos 0 out
      (sourceBytes source dataStart record)
    change (sourceBytes source dataStart record).length = _ at hread
    change writeTensors _ _ _ _ (_ ++ _ ++ sourceBytes source dataStart record) (saturatingAdd _
      (sourceBytes source dataStart record).length) _ = _ at hrest
    change List.length (out ++ _) + (sourceBytes source dataStart record).length ≤ _ at hsize
    rw [← length_append, happend] at hsize
    rw [happend, hread, saturatingAdd_of_le (by omega), ← halign, ← hread, ← hlength] at hrest
    rw [saturatingAdd_of_le (by omega)] at hplace
    obtain ⟨hpart, hall, hfits⟩ := ih hplace hnodup (by omega) hsize hrest
    refine ⟨hpart, ?_, hfits⟩
    rw [forall_mem_cons]
    exact ⟨hread, hall⟩

/-! ## Parts -/

/-- The start of the data of a part. -/
def dataSection (metadataBytes : List UInt8) : ℕ :=
  alignUp tensorAlignment (burnpackHeaderSize + metadataBytes.length)

/-- The part starts with its header and its metadata, which says for every tensor, and for no other
name, where the bytes of the tensor are: from a multiple of the alignment on, and before those of
the tensors after it. -/
structure IsPart (encode : RawBurnpackMetadata → Except String (List UInt8)) (file : List UInt8)
    (version dataStart : ℕ) (sourceMetadata : BTreeMap String String)
    (records : List TensorRecord) (part : List UInt8) (metadata : RawBurnpackMetadata)
    (metadataBytes : List UInt8) : Prop where
  encode : encode metadata = .ok metadataBytes
  header : burnpackHeader version metadataBytes.length ++ metadataBytes <+: part
  source : metadata.metadata = sourceMetadata
  names : ∀ name, name ∈ metadata.tensors.keys ↔ ∃ record ∈ records, record.name = name
  tensors : ∀ record ∈ records, ∃ start,
    metadata.tensors.get? record.name = some (record.placed start) ∧
    tensorAlignment ∣ dataSection metadataBytes + start ∧
    Holds part (dataSection metadataBytes + start) (sourceBytes file dataStart record) ∧
    (sourceBytes file dataStart record).length = record.descriptor.byteLength
  disjoint : records.Pairwise fun record record' => ∀ descriptor descriptor',
    metadata.tensors.get? record.name = some descriptor →
    metadata.tensors.get? record'.name = some descriptor' →
    descriptor.dataOffsets.2 ≤ descriptor'.dataOffsets.1

/-- With distinct names, the descriptors of the part are those of the layout. -/
theorem placedTensors_get? (hnodup : (records.map (·.name)).Nodup) :
    List.Forall₂ (fun start record => (placedTensors tensors offset records).get? record.name =
      some (record.placed start)) (starts tensorAlignment offset (byteLengths records)) records := by
  have hkeep : ∀ (records : List TensorRecord) (tensors : BTreeMap String RawTensorDescriptor)
      (offset : ℕ) (name : String), name ∉ records.map (·.name) →
      (placedTensors tensors offset records).get? name = tensors.get? name := by
    intro records
    induction records with
    | nil => exact fun _ _ _ _ => rfl
    | cons record records ih =>
      intro tensors offset name hname
      obtain ⟨hne, hname⟩ : name ≠ record.name ∧ name ∉ records.map (·.name) := by
        simpa using hname
      rw [placedTensors, ih _ _ _ hname, BTreeMap.get?_insert_of_ne _ _ hne]
  induction records generalizing tensors offset with
  | nil => exact .nil
  | cons record records ih =>
    obtain ⟨hname, hnodup⟩ := nodup_cons.1 hnodup
    rw [byteLengths, map_cons, starts]
    refine .cons ?_ (ih hnodup)
    rw [placedTensors, hkeep _ _ _ _ hname, BTreeMap.get?_insert_self]

/-- The header is 10 bytes long. -/
theorem length_burnpackHeader (version metadataSize : ℕ) :
    (burnpackHeader version metadataSize).length = burnpackHeaderSize := by
  simp [burnpackHeader, littleEndian, burnpackHeaderSize]

variable {metadataBytes : List UInt8}

theorem alignedDataSectionStart_eq_ok (h : dataSection metadataBytes ≤ usizeMax) :
    alignedDataSectionStart overflowChecks metadataBytes.length =
      .ok (dataSection metadataBytes) := by
  have hle := le_alignUp (n := burnpackHeaderSize + metadataBytes.length) tensorAlignment_pos
  rw [alignedDataSectionStart, usizeResult_of_le (hle.trans h)]
  exact alignOffset_eq_ok h

/-- The estimate of a group whose sizes are machine integers. -/
theorem estimatePartTotalBytes_eq_ok
    (hencode : encode ⟨placedTensors .empty 0 records, sourceMetadata⟩ = .ok metadataBytes)
    (h : dataSection metadataBytes + extent tensorAlignment 0 (byteLengths records) ≤ usizeMax) :
    estimatePartTotalBytes overflowChecks encode sourceMetadata records =
      .ok (dataSection metadataBytes + extent tensorAlignment 0 (byteLengths records)) := by
  have hplace : placeTensors overflowChecks .empty 0 records = _ :=
    placeTensors_eq_ok (by omega)
  have hstart : alignedDataSectionStart overflowChecks metadataBytes.length = _ :=
    alignedDataSectionStart_eq_ok (by omega)
  simp only [estimatePartTotalBytes, partMetadata, hplace, hencode, hstart, usizeResult_of_le h,
    Except.mapError, bind, Except.bind, pure, Except.pure]

/-- The places of the layout, for each tensor and between the tensors. -/
theorem isPart_of_layout {version : ℕ}
    (hencode : encode ⟨placedTensors .empty 0 records, sourceMetadata⟩ = .ok metadataBytes)
    (hheader : burnpackHeader version metadataBytes.length ++ metadataBytes <+: part)
    (hnodup : (records.map (·.name)).Nodup)
    (hread : ∀ record ∈ records, (sourceBytes source dataStart record).length =
      record.descriptor.byteLength)
    (hholds : List.Forall₂ (fun start record => Holds part (dataSection metadataBytes + start)
      (sourceBytes source dataStart record)) (starts tensorAlignment 0 (byteLengths records))
      records) :
    IsPart encode source version dataStart sourceMetadata records part
      ⟨placedTensors .empty 0 records, sourceMetadata⟩ metadataBytes := by
  obtain ⟨hlength, hholds⟩ := forall₂_iff_zip.1 hholds
  obtain ⟨-, hget⟩ : _ ∧ ∀ {start record}, (start, record) ∈ (starts tensorAlignment 0
      (byteLengths records)).zip records → (placedTensors .empty 0 records).get? record.name =
        some (record.placed start) :=
    forall₂_iff_zip.1 (placedTensors_get? hnodup)
  set offsets := starts tensorAlignment 0 (byteLengths records)
  refine ⟨hencode, hheader, rfl, fun name => ?_, fun record hrecord => ?_, ?_⟩
  · rw [mem_keys_placedTensors, mem_map]
    simp [BTreeMap.keys, BTreeMap.empty]
  · obtain ⟨start, hmem⟩ : ∃ start, (start, record) ∈ offsets.zip records := by
      obtain ⟨i, hi, rfl⟩ := mem_iff_getElem.1 hrecord
      exact ⟨offsets[i], mem_iff_getElem.2 ⟨i, by simp [hlength, hi], by simp⟩⟩
    exact ⟨start, hget hmem, Nat.dvd_add dvd_alignUp (dvd_of_mem_starts (of_mem_zip hmem).1),
      hholds hmem, hread record hrecord⟩
  · have hpairs : (offsets.zip records).Pairwise fun x y =>
        x.1 + x.2.descriptor.byteLength ≤ y.1 := by
      have h : (offsets.zip (byteLengths records)).Pairwise fun x y => x.1 + x.2 ≤ y.1 :=
        starts_pairwise tensorAlignment_pos
      rw [byteLengths, zip_map_right, pairwise_map] at h
      exact h
    have hrecords : ((offsets.zip records).map Prod.snd).Pairwise fun record record' =>
        ∀ descriptor descriptor',
        (placedTensors .empty 0 records).get? record.name = some descriptor →
        (placedTensors .empty 0 records).get? record'.name = some descriptor' →
        descriptor.dataOffsets.2 ≤ descriptor'.dataOffsets.1 := by
      refine pairwise_map.2 (hpairs.imp_of_mem fun {x y} hx hy hxy descriptor descriptor'
        hd hd' => ?_)
      obtain rfl := Option.some.inj ((hget hx).symm.trans hd)
      obtain rfl := Option.some.inj ((hget hy).symm.trans hd')
      exact hxy
    rwa [map_snd_zip hlength.ge] at hrecords

/-- **A part that has been written** is as long as estimated and holds its tensors. -/
theorem writeBurnpackPart_eq_ok {version : ℕ} (hnodup : (records.map (·.name)).Nodup)
    (h : writeBurnpackPart overflowChecks encode source version dataStart sourceMetadata records =
      .ok part) :
    estimatePartTotalBytes overflowChecks encode sourceMetadata records = .ok part.length ∧
      ∃ metadata metadataBytes, IsPart encode source version dataStart sourceMetadata records part
        metadata metadataBytes := by
  simp only [writeBurnpackPart, partMetadata, bind_eq_ok, mapError_eq_ok, throw_bind,
    ite_error_eq_ok, Prod.exists, writeAll_eq_ok_iff, pure, Except.pure, Except.ok.injEq,
    Prod.mk.injEq] at h
  obtain ⟨_, _, _, ⟨tensors, n, hplace, metadataBytes, hencode, rfl, rfl, rfl⟩, -, start, hstart, _,
    ⟨-, rfl⟩, _, ⟨hsize, rfl⟩, padded, written, hpad, hwrite⟩ := h
  have hmax : isizeMax + tensorAlignment ≤ usizeMax := by decide
  have hlength : (burnpackHeader version metadataBytes.length ++ metadataBytes).length =
      burnpackHeaderSize + metadataBytes.length := by
    rw [length_append, length_burnpackHeader]
  have hlt := alignUp_lt (n := burnpackHeaderSize + metadataBytes.length) tensorAlignment_pos
  have hle := le_alignUp (n := burnpackHeaderSize + metadataBytes.length) tensorAlignment_pos
  rw [nil_append, ← length_append, hlength] at hsize
  obtain rfl : dataSection metadataBytes = start := Except.ok.inj
    ((alignedDataSectionStart_eq_ok (by unfold dataSection; omega)).symm.trans hstart)
  rw [nil_append, ← hlength] at hpad
  obtain ⟨rfl, rfl, hdata⟩ := writePadding_eq_ok hpad (hlength.trans_le hle) (by omega)
  -- the data of the part starts where its header, its metadata and the padding end
  have hdvd : tensorAlignment ∣ dataSection metadataBytes := dvd_alignUp
  generalize hout : burnpackHeader version metadataBytes.length ++ metadataBytes ++
    List.replicate (dataSection metadataBytes - _) 0 = out at hpad hwrite
  have hinitial : burnpackHeader version metadataBytes.length ++ metadataBytes <+: out :=
    hout ▸ prefix_append _ _
  have houtlen : out.length = dataSection metadataBytes := by
    rw [← hout, length_append, length_replicate]
    unfold dataSection
    omega
  rw [show writeTensors source dataStart _ tensors out (dataSection metadataBytes) records =
    writeTensors source dataStart _ tensors out out.length records by rw [houtlen]] at hwrite
  obtain ⟨rfl, hread, hfits⟩ := writeTensors_eq_ok hplace hnodup hdvd
    (houtlen.trans (Nat.add_zero _).symm) (by omega) hwrite
  have hblocks : (records.map (sourceBytes source dataStart)).map List.length =
      byteLengths records := by
    rw [map_map]
    exact map_congr_left hread
  have htotal : (pack tensorAlignment 0 out (records.map (sourceBytes source dataStart))).length =
      dataSection metadataBytes + extent tensorAlignment 0 (byteLengths records) := by
    have hextent : extent tensorAlignment (dataSection metadataBytes + 0) (byteLengths records) =
        _ := extent_add tensorAlignment_pos hdvd
    rw [length_pack tensorAlignment_pos, hblocks, houtlen]
    rwa [Nat.add_zero] at hextent
  obtain ⟨rfl, -⟩ : placedTensors .empty 0 records = tensors ∧ _ = n := by
    simpa using (placeTensors_eq_ok (by omega)).symm.trans hplace
  refine ⟨htotal ▸ estimatePartTotalBytes_eq_ok hencode (by omega), _, _,
    isPart_of_layout hencode ?_ hnodup hread ?_⟩
  · exact hinitial.trans prefix_pack
  · have hholds : List.Forall₂ (Holds (pack tensorAlignment 0 out
        (records.map (sourceBytes source dataStart)))) _ _ := pack_holds tensorAlignment_pos
    rw [hblocks, houtlen, ← Nat.add_zero (dataSection metadataBytes),
      starts_add tensorAlignment_pos hdvd, forall₂_map_left_iff, forall₂_map_right_iff] at hholds
    exact hholds

/-! ## The plan -/

/-- The estimate of a group of several tensors is within the limit. -/
def WithinLimit (overflowChecks : Bool) (encode : RawBurnpackMetadata → Except String (List UInt8))
    (sourceMetadata : BTreeMap String String) (maxPartBytes : ℕ) (group : List TensorRecord) :
    Prop :=
  1 < group.length → ∃ bytes ≤ maxPartBytes,
    candidateBytes overflowChecks encode sourceMetadata group = .ok bytes

/-- **The groups are the records cut into pieces**, none empty and all within the limit. -/
theorem splitRecords_eq_ok {maxPartBytes : ℕ} {currentGroup : List TensorRecord}
    {groups : List (List TensorRecord)}
    (hcurrent : WithinLimit overflowChecks encode sourceMetadata maxPartBytes currentGroup)
    (h : splitRecords overflowChecks encode sourceMetadata maxPartBytes currentGroup records =
      .ok groups) :
    groups.flatten = currentGroup ++ records ∧ ∀ group ∈ groups, group ≠ [] ∧
      WithinLimit overflowChecks encode sourceMetadata maxPartBytes group := by
  induction records generalizing currentGroup groups with
  | nil =>
    rw [splitRecords, Except.ok.injEq] at h
    by_cases hnil : currentGroup = []
    · simp [← h, hnil]
    · simpa [← h, hnil] using hcurrent
  | cons record records ih =>
    obtain ⟨bytes, hbytes, h⟩ := bind_eq_ok.1 h
    have hsingle : WithinLimit overflowChecks encode sourceMetadata maxPartBytes [record] :=
      fun hlt => by simp at hlt
    split at h
    · rename_i hexceeds
      obtain ⟨rest, hrest, hgroups⟩ := bind_eq_ok.1 h
      obtain rfl := Except.ok.inj hgroups
      obtain ⟨hflatten, hall⟩ := ih hsingle hrest
      refine ⟨by rw [flatten_cons, hflatten, singleton_append], ?_⟩
      rw [forall_mem_cons]
      exact ⟨⟨hexceeds.1, hcurrent⟩, hall⟩
    · rename_i hfits
      have hcandidate : WithinLimit overflowChecks encode sourceMetadata maxPartBytes
          (currentGroup ++ [record]) := by
        -- a candidate of several tensors has a group to leave
        intro hlt
        have hne : currentGroup ≠ [] := by
          rintro rfl
          simp at hlt
        exact ⟨bytes, not_lt.1 fun hexceeds => hfits ⟨hne, hexceeds⟩, hbytes⟩
      obtain ⟨hflatten, hall⟩ := ih hcandidate h
      exact ⟨by rw [hflatten, append_assoc, singleton_append], hall⟩

/-- The exact sizes of a part with these tensors are machine integers. -/
def Fits (encode : RawBurnpackMetadata → Except String (List UInt8))
    (sourceMetadata : BTreeMap String String) (records : List TensorRecord) : Prop :=
  extent tensorAlignment 0 (byteLengths records) ≤ usizeMax ∧ ∀ metadataBytes,
    encode ⟨placedTensors .empty 0 records, sourceMetadata⟩ = .ok metadataBytes →
    dataSection metadataBytes + extent tensorAlignment 0 (byteLengths records) ≤ usizeMax

theorem candidateBytes_returns
    (h : overflowChecks = false ∨ Fits encode sourceMetadata records) :
    ∃ bytes, candidateBytes overflowChecks encode sourceMetadata records = .ok bytes := by
  rcases h with rfl | ⟨hextent, hfits⟩
  · obtain ⟨⟨tensors, n⟩, hplace⟩ :
        ∃ result, placeTensors false .empty 0 records = .ok result := placeTensors_returns
    unfold candidateBytes estimatePartTotalBytes partMetadata
    rw [hplace]
    cases hencode : encode ⟨tensors, sourceMetadata⟩ with
    | error message => simp [hencode, Except.mapError, bind, Except.bind, Fallible.unwrapOr]
    | ok metadataBytes =>
      obtain ⟨size, hsize⟩ := usizeResult_false_returns (burnpackHeaderSize + metadataBytes.length)
      obtain ⟨start, hstart⟩ := usizeResult_false_returns
        ((size + tensorAlignment - 1) / tensorAlignment * tensorAlignment)
      obtain ⟨total, htotal⟩ := usizeResult_false_returns (start + n)
      simp [hencode, alignedDataSectionStart, alignOffset, hsize, hstart, htotal, Except.mapError,
        bind, Except.bind, Fallible.unwrapOr, pure, Except.pure]
  · cases hencode : encode ⟨placedTensors .empty 0 records, sourceMetadata⟩ with
    | error message =>
      simp [candidateBytes, estimatePartTotalBytes, partMetadata, placeTensors_eq_ok hextent,
        hencode, Except.mapError, bind, Except.bind, Fallible.unwrapOr]
    | ok metadataBytes =>
      rw [candidateBytes, estimatePartTotalBytes_eq_ok hencode (hfits _ hencode)]
      exact ⟨_, rfl⟩

/-- Planning panics only in a build with overflow checks, at a run of records whose sizes are not
machine integers. -/
theorem splitRecords_returns {maxPartBytes : ℕ} {currentGroup : List TensorRecord}
    (h : overflowChecks = false ∨ ∀ group, group <:+: currentGroup ++ records →
      Fits encode sourceMetadata group) :
    ∃ groups, splitRecords overflowChecks encode sourceMetadata maxPartBytes currentGroup records =
      .ok groups := by
  induction records generalizing currentGroup with
  | nil => exact ⟨_, rfl⟩
  | cons record records ih =>
    have happend : currentGroup ++ record :: records = currentGroup ++ [record] ++ records := by simp
    obtain ⟨bytes, hbytes⟩ : ∃ bytes, candidateBytes overflowChecks encode sourceMetadata
        (currentGroup ++ [record]) = .ok bytes :=
      candidateBytes_returns (h.imp_right fun hfits => hfits _
        (happend ▸ (prefix_append _ _).isInfix))
    rw [splitRecords, hbytes]
    simp only [bind, Except.bind]
    split
    · have htail : overflowChecks = false ∨ ∀ group, group <:+: [record] ++ records →
          Fits encode sourceMetadata group :=
        h.imp_right fun hfits group hgroup =>
          hfits group (hgroup.trans (suffix_append _ _).isInfix)
      obtain ⟨groups, hgroups⟩ := ih htail
      exact ⟨_, by rw [hgroups]; rfl⟩
    · exact ih (h.imp_right fun hfits group hgroup => hfits group (happend ▸ hgroup))

/-! ## A burnpack -/

/-- The records of a burnpack have distinct names. -/
theorem nodup_tensorRecords (metadata : RawBurnpackMetadata) :
    ((tensorRecords metadata).map (·.name)).Nodup := by
  rw [tensorRecords, ((sortByKey_perm _ _).map _).nodup_iff, map_map]
  exact metadata.tensors.nodup_keys

/-- **Splitting keeps every tensor.** The plan of every burnpack is made, except for a panic at sizes
that are not machine integers in a build that checks for them; its groups are the records in their
order; and every part that is written for a group is as long as estimated and holds the bytes of its
tensors. -/
theorem splitTensorRecords_keeps_tensors (overflowChecks : Bool)
    (encode : RawBurnpackMetadata → Except String (List UInt8)) (metadata : RawBurnpackMetadata)
    (maxPartBytes : ℕ) :
    (overflowChecks = false ∨ (∀ group, group <:+: tensorRecords metadata →
        Fits encode metadata.metadata group) →
      ∃ groups, splitTensorRecords overflowChecks encode (tensorRecords metadata) maxPartBytes
        metadata.metadata = .ok groups) ∧
    ∀ groups, splitTensorRecords overflowChecks encode (tensorRecords metadata) maxPartBytes
        metadata.metadata = .ok groups →
      groups.flatten = tensorRecords metadata ∧ ∀ group ∈ groups, group ≠ [] ∧
        WithinLimit overflowChecks encode metadata.metadata maxPartBytes group ∧
        ∀ source version dataStart part, writeBurnpackPart overflowChecks encode source version
            dataStart metadata.metadata group = .ok part →
          estimatePartTotalBytes overflowChecks encode metadata.metadata group = .ok part.length ∧
          ∃ partMetadata metadataBytes, IsPart encode source version dataStart metadata.metadata group
            part partMetadata metadataBytes := by
  refine ⟨fun h => splitRecords_returns h, fun groups hgroups => ?_⟩
  obtain ⟨hflatten, hall⟩ := splitRecords_eq_ok (fun hlt => by simp at hlt) hgroups
  rw [List.nil_append] at hflatten
  refine ⟨hflatten, fun group hgroup => ⟨(hall group hgroup).1, (hall group hgroup).2, ?_⟩⟩
  intro source version dataStart part hpart
  have hsublist : group.Sublist (tensorRecords metadata) :=
    hflatten ▸ List.sublist_flatten_of_mem hgroup
  exact writeBurnpackPart_eq_ok ((hsublist.map _).nodup (nodup_tensorRecords metadata)) hpart

end BurnDragon.Checkpoint
