import BurnDragon.Rust.Machine

/-!
# Probes of the startup autotune

The records of `startup_autotune.rs` and what is predicted from them: the memory of a larger batch
from the two largest measured ones below it, and whether that stays under the caps. `f64` and `f32`
are the floating-point numbers of the machine.
-/

namespace BurnDragon.Training

open Rust

/-! ## Floating-point numbers -/

/-- `f64::max`. -/
def floatMax (a b : Float) : Float := if a.isNaN then b else if b.isNaN || b < a then a else b

/-- `f32::max`. -/
def float32Max (a b : Float32) : Float32 := if a.isNaN then b else if b.isNaN || b < a then a else b

/-- `f32::clamp`. -/
def float32Clamp (x low high : Float32) : Float32 :=
  if x < low then low else if high < x then high else x

/-- `f32::EPSILON`. -/
def float32Epsilon : Float32 := 1.1920929e-7

/-- `as u64`. -/
def asU64 (x : Float) : ℕ := x.toUInt64.toNat

def bytesToMb (bytes : ℕ) : Float := Float.ofNat bytes / (1024.0 * 1024.0)

/-! ## Records -/

structure StartupAutotuneProbe where
  batchSize : ℕ
  reservedMb : Option Float
  inUseMb : Option Float
  hostBaselineMb : Option Float
  hostUsedMb : Option Float
  hostAvailableMb : Option Float
  hostDeltaMb : Option Float
  projectedHostUsedMb : Option Float
  fitTarget : Bool
  status : String

structure SystemMemorySnapshot where
  totalBytes : ℕ
  availableBytes : ℕ

namespace SystemMemorySnapshot

def usedBytes (snapshot : SystemMemorySnapshot) : ℕ :=
  snapshot.totalBytes - snapshot.availableBytes

def usedMb (snapshot : SystemMemorySnapshot) : Float := bytesToMb snapshot.usedBytes

def availableMb (snapshot : SystemMemorySnapshot) : Float := bytesToMb snapshot.availableBytes

end SystemMemorySnapshot

/-! ## Predictions -/

def measuredProbeCanPredict (probe : StartupAutotuneProbe) : Bool :=
  !probe.status.startsWith "predicted_" && probe.status != "host_memory_cap_reached" &&
    probe.status != "probe_cap_no_prediction" && probe.status != "probe_failed"

/-- The line through the last two points. -/
def predictCandidateBytesFromPoints (candidate : ℕ) (measured : List (ℕ × Float)) :
    Option Float :=
  match (sortByKey Prod.fst measured).reverse with
  | (lastBatch, lastBytes) :: (prevBatch, prevBytes) :: _ =>
    if candidate ≤ lastBatch ∨ lastBatch ≤ prevBatch then none
    else
      let slope := floatMax ((lastBytes - prevBytes) / Float.ofNat (lastBatch - prevBatch)) 0.0
      some (lastBytes + slope * Float.ofNat (candidate - lastBatch))
  | _ => none

def predictCandidateDeviceBytes (candidate : ℕ) (probes : List StartupAutotuneProbe) :
    Option Float :=
  predictCandidateBytesFromPoints candidate
    ((probes.filter measuredProbeCanPredict).filterMap fun probe =>
      if probe.batchSize ≥ candidate then none
      else
        match probe.reservedMb, probe.inUseMb with
        | some reserved, some inUse =>
          some (probe.batchSize, floatMax reserved inUse * 1024.0 * 1024.0)
        | some reserved, none => some (probe.batchSize, reserved * 1024.0 * 1024.0)
        | none, some inUse => some (probe.batchSize, inUse * 1024.0 * 1024.0)
        | none, none => none)

def predictCandidateHostDeltaBytes (candidate : ℕ) (probes : List StartupAutotuneProbe) :
    Option Float :=
  predictCandidateBytesFromPoints candidate
    ((probes.filter measuredProbeCanPredict).filterMap fun probe =>
      if probe.batchSize ≥ candidate then none
      else probe.hostDeltaMb.map fun delta => (probe.batchSize, delta * 1024.0 * 1024.0))

def predictedProbe (candidate : ℕ) (predictedDeviceBytes : Option Float)
    (snapshot : Option SystemMemorySnapshot) (predictedHostDeltaBytes : Option Float)
    (projectedHostBytes : Option ℕ) (status : String) : StartupAutotuneProbe where
  batchSize := candidate
  reservedMb := predictedDeviceBytes.map fun bytes => bytesToMb (asU64 (floatMax bytes 0.0))
  inUseMb := none
  hostBaselineMb := snapshot.map SystemMemorySnapshot.usedMb
  hostUsedMb := snapshot.map SystemMemorySnapshot.usedMb
  hostAvailableMb := snapshot.map SystemMemorySnapshot.availableMb
  hostDeltaMb := predictedHostDeltaBytes.map fun bytes => bytesToMb (asU64 (floatMax bytes 0.0))
  projectedHostUsedMb := projectedHostBytes.map bytesToMb
  fitTarget := false
  status := status

def predictedOverMemoryCap (candidate : ℕ) (probes : List StartupAutotuneProbe)
    (memoryCapBytes : Option ℕ) (safetyMargin : Float32) : Option StartupAutotuneProbe := do
  let memoryCapBytes ← memoryCapBytes
  let predictedBytes ← predictCandidateDeviceBytes candidate probes
  if predictedBytes * (float32Max safetyMargin 1.0).toFloat ≤ Float.ofNat memoryCapBytes then none
  else
    some (predictedProbe candidate (some predictedBytes) none none none
      "predicted_over_memory_cap")

/-- The host memory after a candidate, as projected. -/
def projectedHostBytes (snapshot : SystemMemorySnapshot) (predictedHostDeltaBytes : Float)
    (safetyMargin : Float32) : ℕ :=
  saturatingAdd snapshot.usedBytes
    (asU64 (floatMax (predictedHostDeltaBytes * (float32Max safetyMargin 1.0).toFloat) 0.0))

def probeMemoryCapSkipWithSnapshot (candidate : ℕ) (probes : List StartupAutotuneProbe)
    (deviceTargetBytes hostCapBytes : Option ℕ) (safetyMargin : Float32)
    (snapshot : Option SystemMemorySnapshot) : Option StartupAutotuneProbe :=
  match predictedOverMemoryCap candidate probes deviceTargetBytes safetyMargin with
  | some skip => some skip
  | none => do
    let hostCapBytes ← hostCapBytes
    let snapshot ← snapshot
    if snapshot.usedBytes ≥ hostCapBytes then
      some {
        batchSize := candidate
        reservedMb := none
        inUseMb := none
        hostBaselineMb := some snapshot.usedMb
        hostUsedMb := some snapshot.usedMb
        hostAvailableMb := some snapshot.availableMb
        hostDeltaMb := some 0.0
        projectedHostUsedMb := some snapshot.usedMb
        fitTarget := false
        status := "host_memory_cap_reached" }
    else
      let predictedHostDeltaBytes ← predictCandidateHostDeltaBytes candidate probes
      let projected := projectedHostBytes snapshot predictedHostDeltaBytes safetyMargin
      if projected ≤ hostCapBytes then none
      else
        some (predictedProbe candidate (predictCandidateDeviceBytes candidate probes)
          (some snapshot) (some predictedHostDeltaBytes) (some projected)
          "predicted_host_memory_cap")

/-- Without caps nothing is skipped. -/
theorem probeMemoryCapSkipWithSnapshot_none (candidate : ℕ) (probes : List StartupAutotuneProbe)
    (safetyMargin : Float32) (snapshot : Option SystemMemorySnapshot) :
    probeMemoryCapSkipWithSnapshot candidate probes none none safetyMargin snapshot = none := rfl

/-- The host part of a prediction: nothing when it does not fit, else the projection, if there is
one. -/
def projectedHostFit (hostCapBytes : Option ℕ) (snapshot : Option SystemMemorySnapshot)
    (predictedHostDeltaBytes : Option Float) (safetyMargin : Float32) : Option (Option ℕ) :=
  match hostCapBytes, snapshot with
  | some hostCapBytes, some snapshot =>
    if snapshot.usedBytes ≥ hostCapBytes then none
    else do
      let predictedHostDeltaBytes ← predictedHostDeltaBytes
      let projected := projectedHostBytes snapshot predictedHostDeltaBytes safetyMargin
      if projected > hostCapBytes then none else some (some projected)
  | _, _ => some none

def predictedFitProbeWithSnapshot (candidate : ℕ) (probes : List StartupAutotuneProbe)
    (deviceTargetBytes hostCapBytes : Option ℕ) (safetyMargin : Float32)
    (snapshot : Option SystemMemorySnapshot) : Option StartupAutotuneProbe := do
  let predictedDeviceBytes := predictCandidateDeviceBytes candidate probes
  match deviceTargetBytes with
  | some deviceTargetBytes =>
    let predictedDeviceBytes ← predictedDeviceBytes
    if predictedDeviceBytes * (float32Max safetyMargin 1.0).toFloat >
        Float.ofNat deviceTargetBytes then
      none
  | none => pure ()
  let predictedHostDeltaBytes := predictCandidateHostDeltaBytes candidate probes
  let projected ← projectedHostFit hostCapBytes snapshot predictedHostDeltaBytes safetyMargin
  if predictedDeviceBytes.isNone && predictedHostDeltaBytes.isNone then none
  else
    some { predictedProbe candidate predictedDeviceBytes snapshot predictedHostDeltaBytes projected
      "predicted_fit" with fitTarget := true }

def probeCapSkipProbe (candidate : ℕ) (snapshot : Option SystemMemorySnapshot) :
    StartupAutotuneProbe where
  batchSize := candidate
  reservedMb := none
  inUseMb := none
  hostBaselineMb := snapshot.map SystemMemorySnapshot.usedMb
  hostUsedMb := snapshot.map SystemMemorySnapshot.usedMb
  hostAvailableMb := snapshot.map SystemMemorySnapshot.availableMb
  hostDeltaMb := some 0.0
  projectedHostUsedMb := snapshot.map SystemMemorySnapshot.usedMb
  fitTarget := false
  status := "probe_cap_no_prediction"

end BurnDragon.Training
