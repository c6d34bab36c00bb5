import BurnDragon.Rust.BTreeMap
import BurnDragon.Rust.Machine

/-!
# Splitting a burnpack into parts

`parts.rs`: the tensors of a burnpack file, in the order of their data, are gathered into groups whose
estimated size stays within a limit (`splitTensorRecords`), and every group is written as a burnpack
file of its own (`writeBurnpackPart`): a header, the metadata and the data of the tensors, each from a
multiple of 256 on.

A file is the list of its bytes. The CBOR encoder is a parameter, a function of the metadata that may
fail. `u64` and `usize` are both 64 bits wide; arithmetic that the code does not check goes through
`usizeResult`.
-/

namespace BurnDragon.Checkpoint

open Rust

/-! ## Metadata -/

/-- `ciborium::Value`, as far as it occurs as a data type. -/
inductive CborValue
  | text (text : String)
  | integer (value : ℤ)
  | array (items : List CborValue)
  | map (entries : List (CborValue × CborValue))
  | bytes (bytes : List UInt8)
  | bool (value : Bool)
  | float (bits : UInt64)
  | tag (tag : ℕ) (value : CborValue)
  | null

structure RawTensorDescriptor where
  dtype : CborValue
  shape : List ℕ
  dataOffsets : ℕ × ℕ
  paramId : Option ℕ

structure RawBurnpackMetadata where
  tensors : BTreeMap String RawTensorDescriptor
  metadata : BTreeMap String String

structure TensorRecord where
  name : String
  descriptor : RawTensorDescriptor

/-- The number of bytes between the data offsets, which `saturating_sub` gives. -/
def RawTensorDescriptor.byteLength (descriptor : RawTensorDescriptor) : ℕ :=
  descriptor.dataOffsets.2 - descriptor.dataOffsets.1

/-- The errors of the writer, one for each message. -/
inductive PartError
  | metadata (message : String)
  | metadataSize
  | missingTensor (name : String)
  | offsetOverflow
  | seek
  | read
  | write
  deriving DecidableEq

/-! ## Offsets -/

def burnpackHeaderSize : ℕ := 10

def burnpackMagicNumber : ℕ := 0x4255524E

def tensorAlignment : ℕ := 256

/-- `align_offset`. -/
def alignOffset (overflowChecks : Bool) (offset alignment : ℕ) : Run ℕ :=
  usizeResult overflowChecks ((offset + alignment - 1) / alignment * alignment)

/-- `aligned_data_section_start`. -/
def alignedDataSectionStart (overflowChecks : Bool) (metadataSize : ℕ) : Run ℕ := do
  let size ← usizeResult overflowChecks (burnpackHeaderSize + metadataSize)
  alignOffset overflowChecks size tensorAlignment

/-- The loop over the records that gives each tensor its data offsets in the part, which
`estimate_part_total_bytes` and `write_burnpack_part` both have: the descriptors and the end of the
data. -/
def placeTensors (overflowChecks : Bool) : BTreeMap String RawTensorDescriptor → ℕ →
    List TensorRecord → Run (BTreeMap String RawTensorDescriptor × ℕ)
  | tensors, nextOffset, [] => .ok (tensors, nextOffset)
  | tensors, nextOffset, record :: records => do
    let tensorBytes := record.descriptor.byteLength
    let alignedStart ← alignOffset overflowChecks nextOffset tensorAlignment
    let descriptor := { record.descriptor with
      dataOffsets := (alignedStart, saturatingAdd alignedStart tensorBytes) }
    placeTensors overflowChecks (tensors.insert record.name descriptor) descriptor.dataOffsets.2
      records

section Encoder

variable (overflowChecks : Bool) (encode : RawBurnpackMetadata → Except String (List UInt8))

/-- The metadata of a part with its bytes, and the end of the data. -/
def partMetadata (sourceMetadata : BTreeMap String String) (records : List TensorRecord) :
    Fallible PartError (RawBurnpackMetadata × List UInt8 × ℕ) := do
  let (tensors, nextOffset) ← (placeTensors overflowChecks .empty 0 records).mapError .panic
  let metadata : RawBurnpackMetadata := { tensors, metadata := sourceMetadata }
  let metadataBytes ← (encode metadata).mapError fun message => .error (.metadata message)
  return (metadata, metadataBytes, nextOffset)

/-! ## The plan -/

/-- `estimate_part_total_bytes`. -/
def estimatePartTotalBytes (sourceMetadata : BTreeMap String String) (records : List TensorRecord) :
    Fallible PartError ℕ := do
  let (_, metadataBytes, payloadBytes) ← partMetadata overflowChecks encode sourceMetadata records
  let start ← (alignedDataSectionStart overflowChecks metadataBytes.length).mapError .panic
  (usizeResult overflowChecks (start + payloadBytes)).mapError .panic

/-- The estimate that the plan works with: a part whose metadata cannot be encoded counts as too
large. -/
def candidateBytes (sourceMetadata : BTreeMap String String) (records : List TensorRecord) :
    Run ℕ :=
  (estimatePartTotalBytes overflowChecks encode sourceMetadata records).unwrapOr usizeMax

/-- The loop of `split_tensor_records` with the group gathered so far: the groups from that one
on. -/
def splitRecords (sourceMetadata : BTreeMap String String) (maxPartBytes : ℕ) :
    List TensorRecord → List TensorRecord → Run (List (List TensorRecord))
  | currentGroup, [] => .ok (if currentGroup = [] then [] else [currentGroup])
  | currentGroup, record :: records => do
    let candidateGroup := currentGroup ++ [record]
    let bytes ← candidateBytes overflowChecks encode sourceMetadata candidateGroup
    if currentGroup ≠ [] ∧ bytes > maxPartBytes then do
      let groups ← splitRecords sourceMetadata maxPartBytes [record] records
      return currentGroup :: groups
    else
      splitRecords sourceMetadata maxPartBytes candidateGroup records

/-- `split_tensor_records`. -/
def splitTensorRecords (records : List TensorRecord) (maxPartBytes : ℕ)
    (sourceMetadata : BTreeMap String String) : Run (List (List TensorRecord)) :=
  splitRecords overflowChecks encode sourceMetadata maxPartBytes [] records

end Encoder

/-- The records of a burnpack in the order of their data, as `write_burnpack_parts` plans them. -/
def tensorRecords (metadata : RawBurnpackMetadata) : List TensorRecord :=
  sortByKey (fun record => record.descriptor.dataOffsets.1)
    (metadata.tensors.entries.map fun (name, descriptor) => ⟨name, descriptor⟩)

/-! ## The writer -/

/-- `write_all` at the end of a file, which cannot grow beyond the largest file offset. -/
def writeAll (out bytes : List UInt8) : Fallible PartError (List UInt8) :=
  if out.length + bytes.length ≤ isizeMax then .ok (out ++ bytes) else .error (.error .write)

/-- Zeros up to the target offset, if the file does not reach it yet. -/
def writePadding (out : List UInt8) (written targetOffset : ℕ) :
    Fallible PartError (List UInt8 × ℕ) :=
  if targetOffset > written then do
    let out ← writeAll out (List.replicate (targetOffset - written) 0)
    return (out, targetOffset)
  else
    .ok (out, written)

/-- `seek` to a position and `read_exact` of a number of bytes. -/
def readExactAt (source : List UInt8) (position length : ℕ) : Fallible PartError (List UInt8) :=
  if position > isizeMax then
    .error (.error .seek)
  else if (source.drop position).length < length then
    .error (.error .read)
  else
    .ok ((source.drop position).take length)

/-- The loop of `write_burnpack_part` over the records. -/
def writeTensors (source : List UInt8) (dataStart dataSectionStart : ℕ)
    (tensors : BTreeMap String RawTensorDescriptor) :
    List UInt8 → ℕ → List TensorRecord → Fallible PartError (List UInt8)
  | out, _, [] => .ok out
  | out, written, record :: records => do
    let descriptor ← okOr (tensors.get? record.name) (.error (.missingTensor record.name))
    let targetOffset ← okOr (checkedAdd dataSectionStart descriptor.dataOffsets.1)
      (.error .offsetOverflow)
    let (out, written) ← writePadding out written targetOffset
    let seekOffset ← okOr (checkedAdd dataStart record.descriptor.dataOffsets.1)
      (.error .offsetOverflow)
    let length := record.descriptor.byteLength
    (withCapacity 1 length).mapError .panic
    let buffer ← readExactAt source seekOffset length
    let out ← writeAll out buffer
    writeTensors source dataStart dataSectionStart tensors out
      (saturatingAdd written buffer.length) records

/-- `to_le_bytes`. -/
def littleEndian (width n : ℕ) : List UInt8 :=
  (List.range width).map fun i => UInt8.ofNat (n / 256 ^ i)

/-- The header of a burnpack. -/
def burnpackHeader (version metadataSize : ℕ) : List UInt8 :=
  littleEndian 4 burnpackMagicNumber ++ littleEndian 2 version ++ littleEndian 4 metadataSize

/-- `write_burnpack_part`: the bytes of the part. -/
def writeBurnpackPart (overflowChecks : Bool)
    (encode : RawBurnpackMetadata → Except String (List UInt8)) (source : List UInt8)
    (version dataStart : ℕ) (sourceMetadata : BTreeMap String String)
    (records : List TensorRecord) : Fallible PartError (List UInt8) := do
  let (metadata, metadataBytes, _) ← partMetadata overflowChecks encode sourceMetadata records
  if metadataBytes.length ≥ 2 ^ 32 then
    throw (.error .metadataSize)
  let dataSectionStart ←
    (alignedDataSectionStart overflowChecks metadataBytes.length).mapError .panic
  let out ← writeAll [] (burnpackHeader version metadataBytes.length)
  let out ← writeAll out metadataBytes
  let written := burnpackHeaderSize + metadataBytes.length
  let (out, written) ← writePadding out written dataSectionStart
  writeTensors source dataStart dataSectionStart metadata.tensors out written records

end BurnDragon.Checkpoint
