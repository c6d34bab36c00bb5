import BurnDragon.Nca.Generate

/-!
# Statistics of a sample

`compute_sample_stats`: counts and `f32` ratios over the frames of a sample. The patches are cut at
every multiple of the patch size, also where the last patch of a row or a column is not whole
(`framePatches`), so a frame whose extents are not multiples of the patch size is read past its end.
-/

namespace BurnDragon.Nca

open Rust

structure SampleStats where
  gridWidth : ℕ
  gridHeight : ℕ
  steps : ℕ
  stateCount : ℕ
  patchCountPerFrame : ℕ
  patchTokenCount : ℕ
  meanEntropyBits : Float32
  meanTransitionRate : Float32
  activeRatioMean : Float32
  uniqueFrames : ℕ
  uniquePatchCount : ℕ
  frameUniquenessRatio : Float32
  patchUniquenessRatio : Float32
  gzipComplexityRatio : Float32
  complexityScore : Float32

/-- The sum of `f32` values. -/
def floatSum (values : List Float32) : Float32 := values.foldl (· + ·) 0.0

def mean (values : List Float32) : Float32 :=
  if values.isEmpty then 0.0 else floatSum values / Float32.ofNat values.length

def frameEntropyBits (frame : List ℕ) (stateCount : ℕ) : Run Float32 :=
  if frame.isEmpty || stateCount = 0 then .ok 0.0
  else do
    frame.forM fun cell => if cell < stateCount then .ok () else .error .indexOutOfBounds
    let counts := (List.range stateCount).map frame.count
    return floatSum ((counts.filter (0 < ·)).map fun count =>
      let p := Float32.ofNat count / Float32.ofNat frame.length
      (-p) * p.log2)

/-- `base36_digit`. -/
def base36Digit (value : ℕ) : Char :=
  "0123456789abcdefghijklmnopqrstuvwxyz".toList.getD (min value 35) '0'

/-- `(0..extent).step_by(patch_size)`. -/
def stepBy (patchSize extent : ℕ) : List ℕ :=
  (List.range ((extent + patchSize - 1) / patchSize)).map (· * patchSize)

def framePatches (frame : List ℕ) (width height patchSize : ℕ) : Run (List String) :=
  ((stepBy patchSize height).flatMap fun patchY => (stepBy patchSize width).map fun patchX =>
    (patchX, patchY)).mapM fun (patchX, patchY) => do
      let cells ← (coordinates patchSize patchSize).mapM fun (dx, dy) =>
        index frame ((patchY + dy) * width + patchX + dx)
      return String.ofList (cells.map base36Digit)

/-- The statistics of a frame. -/
structure FrameStats where
  entropy : Float32
  activeRatio : Float32
  patches : List String

def frameStats (sample : NcaSample) (patchSize : ℕ) (frame : List ℕ) : Run FrameStats := do
  let entropy ← frameEntropyBits frame sample.stateCount
  let patches ← framePatches frame sample.width sample.height patchSize
  return {
    entropy
    activeRatio := Float32.ofNat (frame.countP (· ≠ 0)) / Float32.ofNat frame.length
    patches }

/-- The share of the cells that change between two frames. -/
def transitionRate (previous frame : List ℕ) : Float32 :=
  Float32.ofNat ((previous.zip frame).countP fun cells => cells.1 ≠ cells.2) /
    Float32.ofNat frame.length

/-- `f32::clamp`. -/
def floatClamp (value lower upper : Float32) : Float32 :=
  if value < lower then lower else if upper < value then upper else value

def computeSampleStats {ρ : Type} (ext : Externals ρ) (sample : NcaSample)
    (serialization : NcaSerializationConfig) : Run SampleStats := do
  let patchSize := max serialization.patchSize 1
  let patchCountPerFrame := (sample.width / patchSize) * (sample.height / patchSize)
  let patchTokens ← patchTokenIds sample serialization
  let stats ← sample.frames.mapM (frameStats sample patchSize)
  let uniqueFrames := sample.frames.dedup.length
  let uniquePatchCount := (stats.flatMap FrameStats.patches).dedup.length
  let totalPatchSlots := max patchCountPerFrame 1 * max sample.frames.length 1
  let gzipComplexityRatio ← if 0.0 < sample.gzipComplexityRatio then .ok sample.gzipComplexityRatio
    else computeGzipComplexityRatio ext sample serialization
  return {
    gridWidth := sample.width
    gridHeight := sample.height
    steps := sample.frames.length
    stateCount := sample.stateCount
    patchCountPerFrame
    patchTokenCount := patchTokens.length
    meanEntropyBits := mean (stats.map FrameStats.entropy)
    meanTransitionRate := mean (sample.frames.zipWith transitionRate sample.frames.tail)
    activeRatioMean := mean (stats.map FrameStats.activeRatio)
    uniqueFrames
    uniquePatchCount
    frameUniquenessRatio := Float32.ofNat uniqueFrames / Float32.ofNat (max sample.frames.length 1)
    patchUniquenessRatio := Float32.ofNat uniquePatchCount / Float32.ofNat totalPatchSlots
    gzipComplexityRatio
    complexityScore := floatClamp (gzipComplexityRatio * 100.0) 0.0 100.0 }

end BurnDragon.Nca
