import BurnDragon.Layout.RowMajor
import BurnDragon.Recurrence.SecondOrder
import BurnDragon.Ruliad.FrontierSampler
import BurnDragon.Training.ContextMasks

/-!
# Context recurrences

`continual_benchmark.rs`: a row of the benchmark follows one of four second-order recurrences modulo
the payload modulus, from two values that depend on the seed, the batch and the row only. A prefix
of the row is observed; the targets after it are supervised.

* `fourth_agreement`: three transitions in a row that fit two of the laws bring a fourth, in every
  commutative ring;
* `supportPrefixDecides_iff`: when equal prefixes mean equal supervised targets.
-/

namespace BurnDragon.Training

open Rust Layout Recurrence List

/-! ## The tasks -/

inductive ContextRecurrenceTask
  | a
  | b
  | c
  | d
  deriving DecidableEq

namespace ContextRecurrenceTask

def coefficients : ContextRecurrenceTask → ℕ × ℕ × ℕ
  | a => (1, 1, 1)
  | b => (3, 1, 2)
  | c => (1, 3, 3)
  | d => (3, 3, 1)

/-- The next payload value, of the last one and the one before. -/
def next (task : ContextRecurrenceTask) (modulus previous previousPrevious : ℕ) : ℕ :=
  let (left, right, bias) := task.coefficients
  (left * previous + right * previousPrevious + bias) % modulus

/-- The law of a task in a commutative ring. -/
def law {R : Type*} [CommRing R] (task : ContextRecurrenceTask) (x y : R) : R :=
  task.coefficients.1 * x + task.coefficients.2.1 * y + task.coefficients.2.2

end ContextRecurrenceTask

structure ContextRecurrenceSpec where
  batchSize : ℕ
  blockSize : ℕ
  payloadModulus : ℕ

namespace ContextRecurrenceSpec

def validate (spec : ContextRecurrenceSpec) : Except String Unit :=
  if spec.batchSize = 0 then
    .error "context recurrence batch_size must be > 0"
  else if spec.blockSize < 4 then
    .error "context recurrence block_size must be >= 4"
  else if spec.payloadModulus < 4 then
    .error "context recurrence payload_modulus must be >= 4"
  else if usizeMax / 16 < spec.payloadModulus ∨ 2 ^ 63 - 1 - 1 < spec.payloadModulus then
    .error "context recurrence payload_modulus exceeds safe token arithmetic"
  else if checkedMul spec.batchSize spec.blockSize = none then
    .error "context recurrence batch geometry overflows usize"
  else
    .ok ()

/-- What validation promises. -/
structure Valid (spec : ContextRecurrenceSpec) : Prop where
  blockSize : 4 ≤ spec.blockSize
  payloadModulus : 4 ≤ spec.payloadModulus
  payloadModulus_le : spec.payloadModulus ≤ usizeMax / 16

theorem valid_of_validate {spec : ContextRecurrenceSpec} (h : spec.validate = .ok ()) :
    spec.Valid := by
  unfold validate at h
  split_ifs at h with hbatch hblock hmodulus hlarge hgeometry
  rw [not_or, not_lt] at hlarge
  exact ⟨not_lt.1 hblock, not_lt.1 hmodulus, hlarge.1⟩

end ContextRecurrenceSpec

/-! ## Rows -/

def contextRecurrenceObservationTokens (blockSize : ℕ) : ℕ :=
  let halfBlock := (blockSize + 1) / 2
  if halfBlock < 3 then 3 else if halfBlock < 16 then halfBlock else 16

def rowKey (splitSeed batchIndex : UInt64) (row : ℕ) : UInt64 :=
  splitSeed ^^^ batchIndex * 0xd6e8feb86659fd93 ^^^ UInt64.ofNat row * 0xa0761d6478bd642f

/-- The first value of a row. -/
def firstValue (splitSeed batchIndex : UInt64) (row modulus : ℕ) : ℕ :=
  (splitmix64 (rowKey splitSeed batchIndex row)).toNat % modulus

/-- The second value of a row. -/
def secondValue (splitSeed batchIndex : UInt64) (row modulus : ℕ) : ℕ :=
  (splitmix64 (rowKey splitSeed batchIndex row ^^^ 0x589965cc75374cc3)).toNat % modulus

/-- One turn of the loop of `sequence`. -/
def pushPayload (task : ContextRecurrenceTask) (modulus : ℕ) (payload : List ℕ) : List ℕ :=
  payload ++ [task.next modulus (payload.getD (payload.length - 1) 0)
    (payload.getD (payload.length - 2) 0)]

/-- `sequence`. Every turn of its loop pushes one value. -/
def sequence (task : ContextRecurrenceTask) (splitSeed batchIndex : UInt64)
    (row blockSize modulus : ℕ) : List ℤ :=
  let payload := (pushPayload task modulus)^[blockSize + 1 - 2]
    [firstValue splitSeed batchIndex row modulus, secondValue splitSeed batchIndex row modulus]
  payload.map fun value => ((1 + value : ℕ) : ℤ)

/-! ## Batches -/

/-- A batch as tensors of shape `[batch_size, block_size]`, given by their rows. -/
structure ContextRecurrenceBatch (K : Type) where
  inputs : List (List ℤ)
  targets : List (List ℤ)
  lossMask : List (List ℤ)
  streamDescriptor : List K

section Descriptor

variable {K : Type} [Field K] [LinearOrder K]

def normalizeDescriptor (library : Ruliad.FloatLibrary K) (descriptor : List K) : List K :=
  let norm := library.sqrt (descriptor.map (· ^ 2)).sum
  if 0 < norm then descriptor.map (· / norm) else descriptor

/-- The entries of the descriptor that a triple of observed tokens counts for. -/
def tripleIndices (payloadModulus coefficientSpan : ℕ) (first second third : ℤ) : List ℕ :=
  let previousPrevious := first.toNat - 1
  let previous := second.toNat - 1
  let next := third.toNat - 1
  (List.range coefficientSpan).flatMap fun left =>
    (List.range coefficientSpan).filterMap fun right =>
      let linear := (left * previous + right * previousPrevious) % payloadModulus
      let bias := (next + payloadModulus - linear) % payloadModulus
      if bias < coefficientSpan then
        some ((left * coefficientSpan + right) * coefficientSpan + bias)
      else
        none

def observedStreamDescriptor (library : Ruliad.FloatLibrary K) (inputs : List ℤ)
    (batchSize blockSize payloadModulus : ℕ) : List K :=
  let coefficientSpan := min payloadModulus 8
  let observed := contextRecurrenceObservationTokens blockSize
  let chanceMatch : K := ((batchSize * (observed - 2) : ℕ) : K) / payloadModulus
  let counted := (List.range batchSize).flatMap fun row =>
    (List.range (observed - 2)).flatMap fun start =>
      let token := fun i => inputs.getD (row * blockSize + start + i) 0
      tripleIndices payloadModulus coefficientSpan (token 0) (token 1) (token 2)
  normalizeDescriptor library
    (counted.foldl (fun descriptor index => descriptor.modify index (· + 1))
      (List.replicate (coefficientSpan ^ 3) (-chanceMatch)))

/-- `context_recurrence_batch`. -/
def contextRecurrenceBatch (library : Ruliad.FloatLibrary K) (task : ContextRecurrenceTask)
    (splitSeed batchIndex : UInt64) (spec : ContextRecurrenceSpec) :
    Except String (ContextRecurrenceBatch K) := do
  spec.validate
  let supervisedStart := contextRecurrenceObservationTokens spec.blockSize - 1
  let tokens := fun row =>
    sequence task splitSeed batchIndex row spec.blockSize spec.payloadModulus
  let inputs := (List.range spec.batchSize).flatMap fun row => (tokens row).take spec.blockSize
  let targets := (List.range spec.batchSize).flatMap fun row => (tokens row).drop 1
  let lossMask := (List.range spec.batchSize).flatMap fun _ =>
    (List.range spec.blockSize).map fun position => if supervisedStart ≤ position then 1 else 0
  return {
    inputs := ofData spec.batchSize spec.blockSize inputs
    targets := ofData spec.batchSize spec.blockSize targets
    lossMask := ofData spec.batchSize spec.blockSize lossMask
    streamDescriptor := observedStreamDescriptor library inputs spec.batchSize spec.blockSize
      spec.payloadModulus }

end Descriptor

/-! ## Rows as orbits -/

section Orbits

variable {task : ContextRecurrenceTask} {splitSeed batchIndex : UInt64} {row modulus blockSize : ℕ}

/-- The payload after some turns of the loop. -/
theorem iterate_pushPayload (task : ContextRecurrenceTask) (modulus first second turns : ℕ) :
    (pushPayload task modulus)^[turns] [first, second] =
      (List.range (turns + 2)).map (orbit (task.next modulus) first second) := by
  induction turns with
  | zero => rfl
  | succ turns ih =>
    have hget : ∀ k < turns + 2,
        ((List.range (turns + 2)).map (orbit (task.next modulus) first second)).getD k 0 =
          orbit (task.next modulus) first second k := fun k hk => by
      rw [getD_eq_getElem?_getD, getElem?_map, getElem?_range hk]
      rfl
    rw [Function.iterate_succ_apply', ih, pushPayload, length_map, length_range,
      hget _ (by omega), hget _ (by omega), range_succ (n := turns + 2), map_append]
    rfl

/-- A row is the orbit of its first two values. -/
theorem sequence_eq (hblock : 1 ≤ blockSize) :
    sequence task splitSeed batchIndex row blockSize modulus =
      (List.range (blockSize + 1)).map fun k =>
        ((1 + orbit (task.next modulus) (firstValue splitSeed batchIndex row modulus)
          (secondValue splitSeed batchIndex row modulus) k : ℕ) : ℤ) := by
  have hturns : blockSize + 1 - 2 + 2 = blockSize + 1 := by omega
  rw [sequence, iterate_pushPayload, map_map, hturns]
  rfl

/-- Modulo the payload modulus a row is an orbit of the law in a ring. -/
theorem cast_next (task : ContextRecurrenceTask) (modulus x y : ℕ) :
    ((task.next modulus x y : ℕ) : ZMod modulus) =
      task.law (x : ZMod modulus) (y : ZMod modulus) := by
  rw [ContextRecurrenceTask.next, ContextRecurrenceTask.law, ZMod.natCast_mod]
  push_cast
  rfl

/-- Two tasks agree at a place when their laws do in the ring. -/
theorem agreeAt_next_iff {task' : ContextRecurrenceTask} {first second k : ℕ} :
    AgreeAt (task.next modulus) (task'.next modulus) first second k ↔
      AgreeAt (task.law (R := ZMod modulus)) task'.law first second k := by
  have hcast := fun j => map_orbit (fun n : ℕ => (n : ZMod modulus)) (cast_next task modulus) first
    second j
  rw [AgreeAt, AgreeAt, ← hcast, ← hcast, ← cast_next, ← cast_next, ZMod.natCast_eq_natCast_iff]
  simp only [ContextRecurrenceTask.next, Nat.ModEq, Nat.mod_mod]

/-- **Three agreements in a row bring a fourth**, whatever the ring. -/
theorem fourth_agreement {R : Type*} [CommRing R] (task task' : ContextRecurrenceTask)
    (first second : R) (n : ℕ) (h0 : AgreeAt task.law task'.law first second n)
    (h1 : AgreeAt task.law task'.law first second (n + 1))
    (h2 : AgreeAt task.law task'.law first second (n + 2)) :
    AgreeAt task.law task'.law first second (n + 3) := by
  simp only [AgreeAt, orbit_add_two] at h0 h1 h2 ⊢
  generalize orbit task.law first second (n + 1) = x at *
  generalize orbit task.law first second n = y at *
  cases task <;> cases task' <;>
    simp only [ContextRecurrenceTask.law, ContextRecurrenceTask.coefficients, Nat.cast_ofNat,
      Nat.cast_one] at h0 h1 h2 ⊢ <;> grind

end Orbits

/-! ## Transitions that fit two tasks -/

/-- The transition from `y` and `x` fits both tasks. -/
def Fits (task task' : ContextRecurrenceTask) (modulus : ℕ) (x y : ℤ) : Prop :=
  (modulus : ℤ) ∣ task.law x y - task'.law x y

/-- The rows of the two tasks never part. -/
def StayTogether (modulus first second : ℕ) : ContextRecurrenceTask → ContextRecurrenceTask → Prop
  | .a, .c | .c, .a => modulus ∣ 2 * first + 2 ∧ modulus ∣ 2 * second + 2
  | .a, .d | .d, .a => modulus = 4 ∧ first % 2 = 1 ∧ second % 2 = 1
  | .b, .d | .d, .b => modulus = 7 ∧ first = 4 ∧ second = 4
  | .c, .d | .d, .c => modulus ∣ 12 ∧ 2 * second ≡ 2 [MOD modulus] ∧ modulus ∣ 6 * first + 6
  | .a, .b | .b, .a | .b, .c | .c, .b => False
  | .a, .a | .b, .b | .c, .c | .d, .d => True

section Fits

variable {task task' : ContextRecurrenceTask} {modulus first second : ℕ}

theorem fits_iff {x y : ℤ} :
    Fits task task' modulus x y ↔
      task.law (x : ZMod modulus) y = task'.law (x : ZMod modulus) y := by
  rw [Fits, ← ZMod.intCast_zmod_eq_zero_iff_dvd, Int.cast_sub, sub_eq_zero]
  simp only [ContextRecurrenceTask.law]
  push_cast
  rfl

/-- The first transition of a row. -/
theorem agreeAt_zero_iff : AgreeAt (task.law (R := ZMod modulus)) task'.law first second 0 ↔
    Fits task task' modulus second first := by
  rw [fits_iff, AgreeAt]
  simp only [orbit, Int.cast_natCast]

/-- The second transition of a row. -/
theorem agreeAt_one_iff : AgreeAt (task.law (R := ZMod modulus)) task'.law first second 1 ↔
    Fits task task' modulus (task.law second first) second := by
  rw [fits_iff, AgreeAt]
  simp only [orbit, ContextRecurrenceTask.law]
  push_cast
  rfl

open scoped Rust.Instances in
/-- What it means in a ring that the first three transitions fit both tasks. -/
def TogetherIn {R : Type*} [CommRing R] (y x : R) :
    ContextRecurrenceTask → ContextRecurrenceTask → Prop
  | .a, .c | .c, .a => 2 * y + 2 = 0 ∧ 2 * x + 2 = 0
  | .a, .d | .d, .a => (4 : R) = 0 ∧ 2 * y + 2 = 0 ∧ 2 * x + 2 = 0
  | .b, .d | .d, .b => (7 : R) = 0 ∧ 2 * y = 1 ∧ 2 * x = 1
  | .c, .d | .d, .c => (12 : R) = 0 ∧ 2 * x = 2 ∧ 6 * y + 6 = 0
  | .a, .b | .b, .a | .b, .c | .c, .b => (1 : R) = 0
  | .a, .a | .b, .b | .c, .c | .d, .d => True

theorem agreeAt_three_iff {R : Type*} [CommRing R] (task task' : ContextRecurrenceTask) (y x : R) :
    (AgreeAt task.law task'.law y x 0 ∧ AgreeAt task.law task'.law y x 1 ∧
      AgreeAt task.law task'.law y x 2) ↔ TogetherIn y x task task' := by
  simp only [AgreeAt, orbit]
  cases task <;> cases task' <;>
    simp only [ContextRecurrenceTask.law, ContextRecurrenceTask.coefficients, Nat.cast_ofNat,
      Nat.cast_one, TogetherIn] <;> constructor <;> intro h <;> grind

/-- **Rows that stay together**: the first three transitions fit both tasks. -/
theorem stayTogether_iff (hmodulus : 4 ≤ modulus) (hfirst : first < modulus)
    (hsecond : second < modulus) :
    StayTogether modulus first second task task' ↔
      TogetherIn (first : ZMod modulus) (second : ZMod modulus) task task' := by
  have hzero : ∀ n : ℕ, ((n : ℕ) : ZMod modulus) = 0 ↔ modulus ∣ n := fun n =>
    ZMod.natCast_eq_zero_iff n modulus
  have hone : ¬(1 : ZMod modulus) = 0 := fun h => by
    have hdvd := (hzero 1).1 (by exact_mod_cast h)
    have := Nat.le_of_dvd Nat.one_pos hdvd
    omega
  have hdouble : ∀ n : ℕ, (2 * n + 2 : ZMod modulus) = 0 ↔ modulus ∣ 2 * n + 2 := fun n => by
    rw [← hzero]
    push_cast
    rfl
  have hle : ∀ {n : ℕ}, 0 < n → modulus ∣ n → modulus ≤ n := fun hn h => Nat.le_of_dvd hn h
  cases task <;> cases task' <;> simp only [StayTogether, TogetherIn]
  case a.b | b.a | b.c | c.b => exact iff_of_false id hone
  case a.c | c.a => rw [hdouble, hdouble]
  case a.d | d.a =>
    rw [hdouble, hdouble, show (4 : ZMod modulus) = ((4 : ℕ) : ZMod modulus) by norm_cast, hzero]
    constructor
    · rintro ⟨rfl, hf, hs⟩
      omega
    · rintro ⟨h4, hf, hs⟩
      obtain rfl : modulus = 4 := le_antisymm (hle (by norm_num) h4) hmodulus
      omega
  case b.d | d.b =>
    have hhalf : ∀ n : ℕ, (7 : ZMod modulus) = 0 →
        ((2 * n : ZMod modulus) = 1 ↔ modulus ∣ 2 * n + 6) := fun n h7 => by
      rw [← hzero]
      push_cast
      constructor
      · intro h
        linear_combination h + h7
      · intro h
        linear_combination h - h7
    constructor
    · rintro ⟨rfl, rfl, rfl⟩
      decide
    · rintro ⟨h7, hf, hs⟩
      rw [hhalf _ h7] at hf hs
      have hdvd : modulus ∣ 7 := (hzero 7).1 (by exact_mod_cast h7)
      obtain rfl : modulus = 7 :=
        ((Nat.dvd_prime (by norm_num)).1 hdvd).resolve_left (by omega)
      omega
  case c.d | d.c =>
    rw [show (12 : ZMod modulus) = ((12 : ℕ) : ZMod modulus) by norm_cast, hzero,
      ← ZMod.natCast_eq_natCast_iff, ← hzero (6 * first + 6)]
    push_cast
    rfl

end Fits

/-! ## The support prefix -/

section Support

variable {K : Type} [Field K] [LinearOrder K] (library : Ruliad.FloatLibrary K)
  (task task' : ContextRecurrenceTask) (splitSeed batchIndex : UInt64)
  (spec : ContextRecurrenceSpec) (row : ℕ)

/-- The payload of a row. -/
def rowOrbit (k : ℕ) : ℕ :=
  orbit (task.next spec.payloadModulus) (firstValue splitSeed batchIndex row spec.payloadModulus)
    (secondValue splitSeed batchIndex row spec.payloadModulus) k

/-- Equal observed prefixes of a row for two tasks mean equal targets wherever the mask is 1. -/
def SupportPrefixDecides : Prop :=
  let observed := contextRecurrenceObservationTokens spec.blockSize
  ∃ batch batch', contextRecurrenceBatch library task splitSeed batchIndex spec = .ok batch ∧
    contextRecurrenceBatch library task' splitSeed batchIndex spec = .ok batch' ∧
    ((batch.inputs.getD row []).take observed = (batch'.inputs.getD row []).take observed →
      ∀ position < spec.blockSize, (batch.lossMask.getD row []).getD position 0 = 1 →
        (batch.targets.getD row []).getD position 0 = (batch'.targets.getD row []).getD position 0)

variable {library task task' splitSeed batchIndex spec row}

theorem observationTokens_le {blockSize : ℕ} (h : 4 ≤ blockSize) :
    3 ≤ contextRecurrenceObservationTokens blockSize ∧
      contextRecurrenceObservationTokens blockSize ≤ blockSize := by
  unfold contextRecurrenceObservationTokens
  simp only
  split_ifs <;> omega

/-- How much a short block observes. -/
theorem observationTokens_of_lt {blockSize : ℕ} (h4 : 4 ≤ blockSize) (h9 : blockSize < 9) :
    contextRecurrenceObservationTokens blockSize = if 7 ≤ blockSize then 4 else 3 := by
  unfold contextRecurrenceObservationTokens
  simp only
  split_ifs <;> omega

theorem five_le_observationTokens {blockSize : ℕ} (h : 9 ≤ blockSize) :
    5 ≤ contextRecurrenceObservationTokens blockSize := by
  unfold contextRecurrenceObservationTokens
  simp only
  split_ifs <;> omega

/-- The rows of a batch. -/
theorem exists_contextRecurrenceBatch (library : Ruliad.FloatLibrary K)
    (task : ContextRecurrenceTask) (splitSeed batchIndex : UInt64)
    (hvalid : spec.validate = .ok ()) (hrow : row < spec.batchSize) :
    ∃ batch, contextRecurrenceBatch library task splitSeed batchIndex spec = .ok batch ∧
      batch.inputs.getD row [] = (List.range spec.blockSize).map
        (fun k => ((1 + rowOrbit task splitSeed batchIndex spec row k : ℕ) : ℤ)) ∧
      batch.targets.getD row [] = (List.range spec.blockSize).map
        (fun k => ((1 + rowOrbit task splitSeed batchIndex spec row (k + 1) : ℕ) : ℤ)) ∧
      batch.lossMask.getD row [] = (List.range spec.blockSize).map fun position =>
        if contextRecurrenceObservationTokens spec.blockSize - 1 ≤ position then 1 else 0 := by
  have hblock : 1 ≤ spec.blockSize := (spec.valid_of_validate hvalid).blockSize.trans' (by norm_num)
  have htokens : ∀ r, sequence task splitSeed batchIndex r spec.blockSize spec.payloadModulus =
      (List.range (spec.blockSize + 1)).map fun k =>
        ((1 + rowOrbit task splitSeed batchIndex spec r k : ℕ) : ℤ) := fun r => sequence_eq hblock
  have htake : ∀ r, (sequence task splitSeed batchIndex r spec.blockSize spec.payloadModulus).take
      spec.blockSize = (List.range spec.blockSize).map fun k =>
        ((1 + rowOrbit task splitSeed batchIndex spec r k : ℕ) : ℤ) := fun r => by
    rw [htokens, ← map_take, take_range, min_eq_left (Nat.le_succ _)]
  have hdrop : ∀ r, (sequence task splitSeed batchIndex r spec.blockSize spec.payloadModulus).drop
      1 = (List.range spec.blockSize).map fun k =>
        ((1 + rowOrbit task splitSeed batchIndex spec r (k + 1) : ℕ) : ℤ) := fun r => by
    rw [htokens, range_succ_eq_map, map_cons, drop_one, tail_cons, map_map]
    rfl
  have hlength : ∀ f : ℕ → ℤ, ((List.range spec.blockSize).map f).length = spec.blockSize :=
    fun f => by rw [length_map, length_range]
  refine ⟨_, by rw [contextRecurrenceBatch, hvalid]; rfl, ?_, ?_, ?_⟩
  · rw [getD_eq_getElem?_getD,
      getElem?_ofData_flatMap (fun r => (congrArg List.length (htake r)).trans (hlength _)) hrow]
    exact htake row
  · rw [getD_eq_getElem?_getD,
      getElem?_ofData_flatMap (fun r => (congrArg List.length (hdrop r)).trans (hlength _)) hrow]
    exact hdrop row
  · rw [getD_eq_getElem?_getD, getElem?_ofData_flatMap (fun r => hlength _) hrow]
    rfl

/-- The support prefix decides a row when agreement on the prefix lasts to the end of the row. -/
theorem supportPrefixDecides_iff_orbit (hvalid : spec.validate = .ok ())
    (hrow : row < spec.batchSize) :
    SupportPrefixDecides library task task' splitSeed batchIndex spec row ↔
      ((∀ k < contextRecurrenceObservationTokens spec.blockSize,
          rowOrbit task splitSeed batchIndex spec row k =
            rowOrbit task' splitSeed batchIndex spec row k) →
        ∀ k < spec.blockSize + 1, rowOrbit task splitSeed batchIndex spec row k =
          rowOrbit task' splitSeed batchIndex spec row k) := by
  obtain ⟨hthree, hle⟩ := observationTokens_le (spec.valid_of_validate hvalid).blockSize
  obtain ⟨batch, hbatch, hinputs, htargets, hmask⟩ :=
    exists_contextRecurrenceBatch library task splitSeed batchIndex hvalid hrow
  obtain ⟨batch', hbatch', hinputs', htargets', -⟩ :=
    exists_contextRecurrenceBatch library task' splitSeed batchIndex hvalid hrow
  have htoken : ∀ m n : ℕ, ((1 + m : ℕ) : ℤ) = ((1 + n : ℕ) : ℤ) ↔ m = n := fun m n => by
    rw [Nat.cast_inj, Nat.add_left_cancel_iff]
  have hget : ∀ (f : ℕ → ℤ) (position : ℕ), position < spec.blockSize →
      ((List.range spec.blockSize).map f).getD position 0 = f position := fun f position hp => by
    rw [getD_eq_getElem?_getD, getElem?_map, getElem?_range hp]
    rfl
  have hobservedEq : (batch.inputs.getD row []).take
        (contextRecurrenceObservationTokens spec.blockSize) =
      (batch'.inputs.getD row []).take (contextRecurrenceObservationTokens spec.blockSize) ↔
      ∀ k < contextRecurrenceObservationTokens spec.blockSize,
        rowOrbit task splitSeed batchIndex spec row k =
          rowOrbit task' splitSeed batchIndex spec row k := by
    rw [hinputs, hinputs', ← map_take, ← map_take, take_range, min_eq_left hle, map_inj_left]
    simp only [mem_range, htoken]
  have hsupervised : ∀ position < spec.blockSize,
      (batch.lossMask.getD row []).getD position 0 = 1 ↔
        contextRecurrenceObservationTokens spec.blockSize ≤ position + 1 := by
    intro position hp
    rw [hmask, hget _ _ hp]
    split_ifs with h
    · exact iff_of_true rfl (by omega)
    · exact iff_of_false (by norm_num) (by omega)
  have htarget : ∀ position < spec.blockSize,
      (batch.targets.getD row []).getD position 0 = (batch'.targets.getD row []).getD position 0 ↔
        rowOrbit task splitSeed batchIndex spec row (position + 1) =
          rowOrbit task' splitSeed batchIndex spec row (position + 1) := by
    intro position hp
    rw [htargets, htargets', hget _ _ hp, hget _ _ hp, htoken]
  constructor
  · rintro ⟨b, b', hb, hb', hdecides⟩ hagree k hk
    obtain rfl := Except.ok.inj (hb.symm.trans hbatch)
    obtain rfl := Except.ok.inj (hb'.symm.trans hbatch')
    by_cases hobserved : k < contextRecurrenceObservationTokens spec.blockSize
    · exact hagree k hobserved
    · obtain ⟨position, rfl⟩ : ∃ position, k = position + 1 := ⟨k - 1, by omega⟩
      have hp : position < spec.blockSize := by omega
      exact (htarget position hp).1 (hdecides (hobservedEq.2 hagree) position hp
        ((hsupervised position hp).2 (by omega)))
  · intro h
    refine ⟨batch, batch', hbatch, hbatch', fun hobserved position hp _ => ?_⟩
    exact (htarget position hp).2 (h (hobservedEq.1 hobserved) (position + 1) (by omega))

/-- **When the support prefix decides the supervised targets**: blocks of nine tokens and more
always do, since they observe three transitions; a shorter one does unless the observed transitions
fit both tasks and a later one does not. -/
theorem supportPrefixDecides_iff (library : Ruliad.FloatLibrary K) (spec : ContextRecurrenceSpec)
    (task task' : ContextRecurrenceTask) (splitSeed batchIndex : UInt64) (row : ℕ)
    (hvalid : spec.validate = .ok ()) (hrow : row < spec.batchSize) :
    let first := firstValue splitSeed batchIndex row spec.payloadModulus
    let second := secondValue splitSeed batchIndex row spec.payloadModulus
    SupportPrefixDecides library task task' splitSeed batchIndex spec row ↔
      9 ≤ spec.blockSize ∨
      ¬(Fits task task' spec.payloadModulus second first ∧
        (7 ≤ spec.blockSize →
          Fits task task' spec.payloadModulus (task.law (second : ℤ) first) second)) ∨
      StayTogether spec.payloadModulus first second task task' := by
  intro first second
  have hspec := spec.valid_of_validate hvalid
  have hmodulus := hspec.payloadModulus
  have hblock := hspec.blockSize
  have hfirst : first < spec.payloadModulus := Nat.mod_lt _ (by omega)
  have hsecond : second < spec.payloadModulus := Nat.mod_lt _ (by omega)
  set agree := AgreeAt (task.law (R := ZMod spec.payloadModulus)) task'.law first second with hagree
  have horbit : ∀ n, (∀ k < n, rowOrbit task splitSeed batchIndex spec row k =
      rowOrbit task' splitSeed batchIndex spec row k) ↔ ∀ k, k + 2 < n → agree k := fun n => by
    refine (orbit_eq_iff n).trans (forall₂_congr fun k _ => agreeAt_next_iff)
  have hforever : agree 0 → agree 1 → agree 2 → ∀ k, agree k :=
    agreeAt_of_three fun n => fourth_agreement task task' _ _ n
  have hstay : StayTogether spec.payloadModulus first second task task' ↔
      agree 0 ∧ agree 1 ∧ agree 2 := by
    rw [stayTogether_iff hmodulus hfirst hsecond, ← agreeAt_three_iff]
  rw [supportPrefixDecides_iff_orbit hvalid hrow, horbit, horbit, ← agreeAt_zero_iff,
    ← agreeAt_one_iff, hstay]
  -- a block of at least nine tokens observes three transitions
  have hlong : 9 ≤ spec.blockSize →
      (∀ k, k + 2 < contextRecurrenceObservationTokens spec.blockSize → agree k) →
      ∀ k, agree k := fun h9 hobserved => by
    have hfive := five_le_observationTokens h9
    exact hforever (hobserved 0 (by omega)) (hobserved 1 (by omega)) (hobserved 2 (by omega))
  have hshort : spec.blockSize < 9 →
      ((∀ k, k + 2 < contextRecurrenceObservationTokens spec.blockSize → agree k) ↔
        agree 0 ∧ (7 ≤ spec.blockSize → agree 1)) := fun h9 => by
    rw [observationTokens_of_lt hblock h9]
    constructor
    · exact fun h => ⟨h 0 (by split_ifs <;> omega), fun h7 => h 1 (by rw [if_pos h7]; omega)⟩
    · rintro ⟨h0, h1⟩ k hk
      split_ifs at hk with h7
      · obtain rfl | rfl : k = 0 ∨ k = 1 := by omega
        · exact h0
        · exact h1 h7
      · obtain rfl : k = 0 := by omega
        exact h0
  constructor
  · intro h
    by_cases h9 : 9 ≤ spec.blockSize
    · exact .inl h9
    · refine .inr (or_iff_not_imp_left.2 fun hfits => ?_)
      have hall := h ((hshort (not_le.1 h9)).2 (not_not.1 hfits))
      exact ⟨hall 0 (by omega), hall 1 (by omega), hall 2 (by omega)⟩
  · rintro h hobserved k -
    rcases h with h9 | hfits | ⟨h0, h1, h2⟩
    · exact hlong h9 hobserved k
    · by_cases h9 : 9 ≤ spec.blockSize
      · exact hlong h9 hobserved k
      · exact absurd ((hshort (not_le.1 h9)).1 hobserved) hfits
    · exact hforever h0 h1 h2 k

/-- The geometry of the repository's test, with tasks `b` and `c` in row 0 of seed 0. -/
theorem supportPrefixDecides_iff_b_c :
    SupportPrefixDecides (⟨id, id, id⟩ : Ruliad.FloatLibrary ℚ) .b .c 0 0 ⟨2, 8, 11⟩ 0 ↔
      9 ≤ 8 ∨
      ¬(Fits .b .c 11 (secondValue 0 0 0 11) (firstValue 0 0 0 11) ∧
        (7 ≤ 8 → Fits .b .c 11 (ContextRecurrenceTask.b.law (secondValue 0 0 0 11 : ℤ)
          (firstValue 0 0 0 11)) (secondValue 0 0 0 11))) ∨
      StayTogether 11 (firstValue 0 0 0 11) (secondValue 0 0 0 11) .b .c :=
  supportPrefixDecides_iff ⟨id, id, id⟩ ⟨2, 8, 11⟩ .b .c 0 0 0 rfl (by decide)

/-- **A prefix that does not decide**: in that row both tasks show 1, 7, 2, 4, and then `b` demands
5 and `c` demands 2. -/
theorem not_supportPrefixDecides_b_c : (⟨2, 8, 11⟩ : ContextRecurrenceSpec).validate = .ok () ∧
    ¬SupportPrefixDecides (⟨id, id, id⟩ : Ruliad.FloatLibrary ℚ) .b .c 0 0 ⟨2, 8, 11⟩ 0 := by
  refine ⟨rfl, fun h => ?_⟩
  rw [supportPrefixDecides_iff_orbit rfl (by decide)] at h
  have hobservedEq : ∀ k < contextRecurrenceObservationTokens 8,
      rowOrbit .b 0 0 ⟨2, 8, 11⟩ 0 k = rowOrbit .c 0 0 ⟨2, 8, 11⟩ 0 k := by decide +kernel
  have hnext : rowOrbit .b 0 0 ⟨2, 8, 11⟩ 0 4 ≠ rowOrbit .c 0 0 ⟨2, 8, 11⟩ 0 4 := by
    decide +kernel
  exact hnext (h hobservedEq 4 (by decide))

end Support

end BurnDragon.Training
