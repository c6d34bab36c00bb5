import BurnDragon.Corpus.Chunks
import BurnDragon.Layout.Riff
import BurnDragon.Rust.Utf8

/-!
# The raw AVI writer

`write_avi_raw` writes the frames of a video without a codec. The header fields come one by one,
with a place holder where a size or a count is not known yet, and `patch_u32` fills these in from
the positions of the buffer.

The bytes are the result of the model, and the file that receives them is left out. Products of
sizes stay below the range of `usize`, so they are products of natural numbers.
-/

namespace BurnDragon.Artifacts

open Rust Corpus Layout

structure ArtifactFrame where
  width : ℕ
  height : ℕ
  rgb : List UInt8

/-- `value as u32` -/
abbrev asU32 (value : ℕ) : UInt32 := UInt32.ofNat value

/-! ## Fields -/

/-- `u16::to_le_bytes` -/
def u16Bytes (value : UInt16) : List UInt8 :=
  [UInt8.ofNat value.toNat, UInt8.ofNat (value.toNat / 2 ^ 8)]

def writeFourcc (buf : List UInt8) (code : String) : List UInt8 := buf ++ utf8Bytes code.toList

def writeU16 (buf : List UInt8) (value : UInt16) : List UInt8 := buf ++ u16Bytes value

def writeI16 (buf : List UInt8) (value : Int16) : List UInt8 := buf ++ u16Bytes value.toUInt16

def writeU32 (buf : List UInt8) (value : UInt32) : List UInt8 := buf ++ toLeBytes value

def writeI32 (buf : List UInt8) (value : Int32) : List UInt8 := buf ++ toLeBytes value.toUInt32

def clampI16 (value : ℕ) : Int16 := Int16.ofNat (min value 32767)

def patchU32 (buf : List UInt8) (pos : ℕ) (value : UInt32) : Run (List UInt8) :=
  if pos + 4 ≤ buf.length then .ok (copyFromSlice pos (toLeBytes value) buf)
  else .error .indexOutOfBounds

/-! ## Frames -/

/-- The assignment to an element of a slice. -/
def assign (out : List UInt8) (i : ℕ) (value : UInt8) : Run (List UInt8) :=
  if i < out.length then .ok (out.set i value) else .error .indexOutOfBounds

/-- One pixel of `encode_bgr`. -/
def encodePixel (frame : ArtifactFrame) (rowStride y : ℕ) (out : List UInt8) (x : ℕ) :
    Run (List UInt8) := do
  let dstRow := frame.height - 1 - y
  let src := (y * frame.width + x) * 3
  let dst := dstRow * rowStride + x * 3
  let out ← assign out dst (← index frame.rgb (src + 2))
  let out ← assign out (dst + 1) (← index frame.rgb (src + 1))
  assign out (dst + 2) (← index frame.rgb src)

def encodeBgr (frame : ArtifactFrame) (rowStride : ℕ) : Run (List UInt8) :=
  (List.range frame.height).foldlM
    (fun out y => (List.range frame.width).foldlM (encodePixel frame rowStride y) out)
    (List.replicate (rowStride * frame.height) 0)

/-! ## The file -/

/-- The positions that are patched when the whole file is known. -/
structure AviPositions where
  riffSizePos : ℕ
  avihFramesPos : ℕ
  strhFramesPos : ℕ

/-- The part of `write_avi_raw` up to the end of the list `hdrl`. -/
def writeHeaders (width height frameSize : ℕ) (fps : UInt32) :
    Run (List UInt8 × AviPositions) := do
  let buf := writeFourcc [] "RIFF"
  let riffSizePos := buf.length
  let buf := writeU32 buf 0
  let buf := writeFourcc buf "AVI "
  let buf := writeFourcc buf "LIST"
  let hdrlSizePos := buf.length
  let buf := writeU32 buf 0
  let buf := writeFourcc buf "hdrl"
  let buf := writeFourcc buf "avih"
  let buf := writeU32 buf 56
  let buf := writeU32 buf (1000000 / max fps 1)
  let buf := writeU32 buf (asU32 (frameSize * fps.toNat))
  let buf := writeU32 buf 0
  let buf := writeU32 buf 0x10
  let avihFramesPos := buf.length
  let buf := writeU16 buf 0
  let buf := writeU16 buf 0
  let buf := writeU32 buf 1
  let buf := writeU32 buf (asU32 frameSize)
  let buf := writeU32 buf (asU32 width)
  let buf := writeU32 buf (asU32 height)
  let buf := (List.range 4).foldl (fun buf _ => writeU32 buf 0) buf
  let buf := writeFourcc buf "LIST"
  let strlSizePos := buf.length
  let buf := writeU32 buf 0
  let buf := writeFourcc buf "strl"
  let buf := writeFourcc buf "strh"
  let buf := writeU32 buf 56
  let buf := writeFourcc buf "vids"
  let buf := writeFourcc buf "DIB "
  let buf := writeU32 buf 0
  let buf := writeU32 buf 0
  let buf := writeU32 buf 0
  let buf := writeU32 buf 1
  let buf := writeU32 buf fps
  let buf := writeU32 buf 0
  let strhFramesPos := buf.length
  let buf := writeU32 buf 0
  let buf := writeU32 buf (asU32 frameSize)
  let buf := writeU32 buf 0xFFFFFFFF
  let buf := writeU32 buf 0
  let buf := writeI16 buf 0
  let buf := writeI16 buf 0
  let buf := writeI16 buf (clampI16 width)
  let buf := writeI16 buf (clampI16 height)
  let buf := writeFourcc buf "strf"
  let buf := writeU32 buf 40
  let buf := writeU32 buf 40
  let buf := writeI32 buf (Int32.ofNat width)
  let buf := writeI32 buf (Int32.ofNat height)
  let buf := writeU16 buf 1
  let buf := writeU16 buf 24
  let buf := writeU32 buf 0
  let buf := writeU32 buf (asU32 frameSize)
  let buf := writeI32 buf 0
  let buf := writeI32 buf 0
  let buf := writeU32 buf 0
  let buf := writeU32 buf 0
  let hdrlEnd := buf.length
  let buf ← patchU32 buf strlSizePos (asU32 (hdrlEnd - (strlSizePos + 4)))
  let buf ← patchU32 buf hdrlSizePos (asU32 (hdrlEnd - (hdrlSizePos + 4)))
  return (buf, ⟨riffSizePos, avihFramesPos, strhFramesPos⟩)

structure AviIndexEntry where
  offset : UInt32
  size : UInt32

/-- One step of the loop over the frames. -/
def writeFrame (rowStride moviStart : ℕ) (state : List UInt8 × List AviIndexEntry)
    (frame : ArtifactFrame) : Run (List UInt8 × List AviIndexEntry) := do
  let (buf, idxEntries) := state
  let chunkPos := buf.length
  let buf := writeFourcc buf "00db"
  let encoded ← encodeBgr frame rowStride
  let chunkSize := encoded.length
  let buf := writeU32 buf (asU32 chunkSize)
  let buf := buf ++ encoded
  let buf := if chunkSize % 2 ≠ 0 then buf ++ [0] else buf
  return (buf, idxEntries ++ [⟨asU32 (chunkPos - moviStart), asU32 chunkSize⟩])

/-- One step of the loop over the index entries. -/
def writeIndexEntry (buf : List UInt8) (entry : AviIndexEntry) : List UInt8 :=
  writeU32 (writeU32 (writeU32 (writeFourcc buf "00db") 0x10) entry.offset) entry.size

/-- The part of `write_avi_raw` that builds the buffer. -/
def writeBuffer (frames : List ArtifactFrame) (width height : ℕ) (fps : UInt32) :
    Run (List UInt8) := do
  let rowStride := (width * 3 + 3) / 4 * 4
  let frameSize := rowStride * height
  let (buf, positions) ← writeHeaders width height frameSize fps
  let buf := writeFourcc buf "LIST"
  let moviSizePos := buf.length
  let buf := writeU32 buf 0
  let buf := writeFourcc buf "movi"
  let moviStart := buf.length
  let (buf, idxEntries) ← frames.foldlM (writeFrame rowStride moviStart) (buf, [])
  let moviEnd := buf.length
  let buf ← patchU32 buf moviSizePos (asU32 (moviEnd - (moviSizePos + 4)))
  let buf := writeFourcc buf "idx1"
  let buf := writeU32 buf (asU32 (idxEntries.length * 16))
  let buf := idxEntries.foldl writeIndexEntry buf
  let riffSize := buf.length - 8
  let buf ← patchU32 buf positions.avihFramesPos (asU32 frames.length)
  let buf ← patchU32 buf positions.strhFramesPos (asU32 frames.length)
  patchU32 buf positions.riffSizePos (asU32 riffSize)

/-- `write_avi_raw` -/
def writeAviRaw (frames : List ArtifactFrame) (fps : UInt32) : Fallible String (List UInt8) :=
  match frames with
  | [] => .error (.error "no frames to write")
  | first :: rest =>
    let width := first.width
    let height := first.height
    if width = 0 ∨ height = 0 then .error (.error "invalid frame size")
    else if rest.any fun frame => frame.width ≠ width ∨ frame.height ≠ height then
      .error (.error "frame size mismatch")
    else (writeBuffer frames width height fps).mapError .panic

end BurnDragon.Artifacts
