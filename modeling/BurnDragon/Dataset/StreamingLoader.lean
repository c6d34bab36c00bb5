import BurnDragon.Dataset.LoaderEvents
import BurnDragon.Transition.Run

/-!
# The streaming data loader

`StreamingDataLoader` and `StreamingIterator` of `scheduler.rs`, over a dataset without source selection.
The rows of a batch are chunks of documents; the documents of an epoch are visited in the order of its
permutation, a group of one document per row at a time, chunk by chunk.

An iterator is at its place from the step at which it was created and the number of its batches alone
(`Places`), so that a batch continues the one before it exactly when the two iterators have come to the
same place (`continues_iff`).
-/

namespace BurnDragon.Dataset

open Rust Transition LoaderEvent List Nat

variable {τ : Type*}

/-- The settings of a loader and what it asks of its dataset. `draw` is the start and the stride that
`resolve_stream_document_permutation` draws for an epoch and a number of documents. -/
structure StreamConfig (τ : Type*) where
  batchSize : ℕ
  blockSize : ℕ
  stepsPerEpoch : ℕ
  totalSteps : Option ℕ
  logicalDocumentTokens : ℕ
  splitOffset : ℕ
  splitSpan : ℕ
  draw : ℕ → ℕ → ℕ × ℕ
  tokenAt : ℕ → ℕ → τ
  batchSize_pos : 0 < batchSize
  blockSize_pos : 0 < blockSize
  blockSize_le : blockSize ≤ usizeMax
  logicalDocumentTokens_le : logicalDocumentTokens ≤ usizeMax

namespace StreamConfig

/-- `logical_document_tokens` of an iterator. -/
def documentTokens (config : StreamConfig τ) : ℕ :=
  max config.logicalDocumentTokens config.blockSize

def chunksPerDocument (config : StreamConfig τ) : ℕ :=
  max ((config.documentTokens + config.blockSize - 1) / config.blockSize) 1

def documentSpan (config : StreamConfig τ) : ℕ := config.documentTokens + 1

def numDocuments (config : StreamConfig τ) : ℕ := max (config.splitSpan / config.documentSpan) 1

/-- `resolve_stream_document_permutation`. -/
def documentPermutation (config : StreamConfig τ) (epochIndex : ℕ) : ℕ × ℕ :=
  if config.numDocuments ≤ 1 then (0, 1) else config.draw epochIndex config.numDocuments

end StreamConfig

structure StreamingIterator where
  stepsTotal : ℕ
  step : ℕ
  nextDocumentGroup : ℕ
  chunkIndexInDocument : ℕ
  documentStart : ℕ
  documentStride : ℕ
  epochIndex : ℕ

/-- The part of the dataset that a row is read from. -/
structure StreamWindow where
  epochIndex : ℕ
  documentIndex : ℕ
  start : ℕ
  deriving DecidableEq

structure StreamBatch (τ : Type*) where
  windows : List StreamWindow
  inputs : List (List τ)
  targets : List (List τ)
  resetStreamState : Bool

structure StreamingDataLoader where
  consumedSteps : Option UInt64
  iterators : List StreamingIterator

variable {config : StreamConfig τ}

namespace StreamingIterator

/-- The document of a row. The rank within the permutation is multiplied and added with wraparound. -/
def documentIndex (config : StreamConfig τ) (it : StreamingIterator) (row : ℕ) : ℕ :=
  let docRank := (it.nextDocumentGroup + row) % config.numDocuments
  (it.documentStart + docRank * it.documentStride % 2 ^ 64) % 2 ^ 64 % config.numDocuments

def window (config : StreamConfig τ) (it : StreamingIterator) (row : ℕ) : StreamWindow :=
  let docIdx := it.documentIndex config row
  let docStart := config.splitOffset + saturatingMul docIdx config.documentSpan
  { epochIndex := it.epochIndex
    documentIndex := docIdx
    start := docStart + saturatingMul it.chunkIndexInDocument config.blockSize }

/-- `copy_token_range_with_epoch`, one token more than a block. -/
def sample (config : StreamConfig τ) (window : StreamWindow) : List τ :=
  (List.range (config.blockSize + 1)).map fun t =>
    config.tokenAt window.epochIndex (window.start + t)

/-- The batch of a call of `next`. -/
def batch (config : StreamConfig τ) (it : StreamingIterator) : StreamBatch τ :=
  let windows := (List.range config.batchSize).map (it.window config)
  { windows := windows
    inputs := windows.map fun window => (sample config window).take config.blockSize
    targets := windows.map fun window => (sample config window).drop 1
    resetStreamState := it.chunkIndexInDocument = 0 }

/-- The iterator after the batch. -/
def advance (config : StreamConfig τ) (it : StreamingIterator) : StreamingIterator :=
  if config.chunksPerDocument ≤ it.chunkIndexInDocument + 1 then
    { it with
      step := it.step + 1
      chunkIndexInDocument := 0
      nextDocumentGroup := (it.nextDocumentGroup + config.batchSize) % config.numDocuments }
  else { it with
    step := it.step + 1
    chunkIndexInDocument := it.chunkIndexInDocument + 1 }

end StreamingIterator

namespace StreamingDataLoader

def resume (config : StreamConfig τ) (initialSteps : ℕ) : StreamingDataLoader where
  consumedSteps := initialConsumedSteps config.totalSteps initialSteps
  iterators := []

/-- `iter`. -/
def iter (config : StreamConfig τ) (loader : StreamingDataLoader) : StreamingIterator :=
  let consumed := (loader.consumedSteps.getD 0).toNat
  let stepsPerEpoch := max config.stepsPerEpoch 1
  let epochIndex := consumed / stepsPerEpoch
  let stepInEpoch := consumed % stepsPerEpoch
  let permutation := config.documentPermutation epochIndex
  { stepsTotal := iterSteps config.totalSteps loader.consumedSteps config.stepsPerEpoch
    step := 0
    nextDocumentGroup :=
      saturatingMul (stepInEpoch / config.chunksPerDocument) config.batchSize % config.numDocuments
    chunkIndexInDocument := stepInEpoch % config.chunksPerDocument
    documentStart := permutation.1
    documentStride := permutation.2
    epochIndex := epochIndex }

/-- `next` on the k-th iterator. The counter moves on even if no step is left. -/
def next (config : StreamConfig τ) (loader : StreamingDataLoader) (k : ℕ) (it : StreamingIterator) :
    LoaderEvent (StreamBatch τ) × StreamingDataLoader :=
  let iterators := loader.iterators.set k (it.advance config)
  if it.stepsTotal ≤ it.step then (.ended k, loader)
  else match loader.consumedSteps with
    | some previous =>
      let counted := { loader with consumedSteps := some (previous + 1) }
      if config.totalSteps.any (· ≤ previous.toNat) then (.ended k, counted)
      else (.yielded k previous.toNat (it.batch config), { counted with iterators := iterators })
    | none =>
      let absoluteStep := saturatingAdd (saturatingMul it.epochIndex (max config.stepsPerEpoch 1)) it.step
      (.yielded k absoluteStep (it.batch config), { loader with iterators := iterators })

/-- A call of `iter` or of `next`. -/
inductive Step (config : StreamConfig τ) : StreamingDataLoader →
    Option (LoaderEvent (StreamBatch τ)) → StreamingDataLoader → Prop
  | iter {loader : StreamingDataLoader} :
    Step config loader (some (.created (loader.consumedSteps.getD 0).toNat))
      { loader with iterators := loader.iterators ++ [loader.iter config] }
  | next {loader : StreamingDataLoader} {k : ℕ} {it : StreamingIterator} :
    loader.iterators[k]? = some it →
    Step config loader (some (loader.next config k it).1) (loader.next config k it).2

end StreamingDataLoader

/-! ## Places -/

/-- Every row of the batch holds the tokens that follow those of the row before, in the same epoch and
the same document. -/
def Continues (config : StreamConfig τ) (prev batch : StreamBatch τ) : Prop :=
  batch.windows = prev.windows.map (fun window =>
    { window with start := window.start + config.blockSize }) ∧
  batch.inputs = prev.windows.map fun window => (List.range config.blockSize).map fun t =>
    config.tokenAt window.epochIndex (window.start + config.blockSize + t)

namespace StreamConfig

/-- The epoch of an iterator that is created at a step. -/
def epochAt (config : StreamConfig τ) (start : ℕ) : ℕ := start / max config.stepsPerEpoch 1

/-- The number of chunks that an iterator has passed in the document group in which it started, after a
number of batches, and in those that follow. -/
def chunksPassed (config : StreamConfig τ) (start count : ℕ) : ℕ :=
  start % max config.stepsPerEpoch 1 % config.chunksPerDocument + count

def chunkAt (config : StreamConfig τ) (start count : ℕ) : ℕ :=
  config.chunksPassed start count % config.chunksPerDocument

def groupAt (config : StreamConfig τ) (start count : ℕ) : ℕ :=
  (saturatingMul (start % max config.stepsPerEpoch 1 / config.chunksPerDocument) config.batchSize +
    config.chunksPassed start count / config.chunksPerDocument * config.batchSize) %
      config.numDocuments

/-- The document of a row of an iterator that was created at a step, after a number of batches. -/
def documentAt (config : StreamConfig τ) (start count row : ℕ) : ℕ :=
  let permutation := config.documentPermutation (config.epochAt start)
  let docRank := (config.groupAt start count + row) % config.numDocuments
  (permutation.1 + docRank * permutation.2 % 2 ^ 64) % 2 ^ 64 % config.numDocuments

/-- Two iterators have come to the same place: to the same chunk of the same documents in one epoch. -/
structure SamePlace (config : StreamConfig τ) (start count start' count' : ℕ) : Prop where
  epoch : config.epochAt start = config.epochAt start'
  chunk : config.chunkAt start count = config.chunkAt start' count'
  document : ∀ row < config.batchSize,
    config.documentAt start count row = config.documentAt start' count' row

end StreamConfig

/-- The fields of an iterator that was created at a step, after a number of batches. -/
structure Places (config : StreamConfig τ) (it : StreamingIterator) (start count : ℕ) : Prop where
  epoch : it.epochIndex = config.epochAt start
  group : it.nextDocumentGroup = config.groupAt start count
  chunk : it.chunkIndexInDocument = config.chunkAt start count
  permutation : config.documentPermutation (config.epochAt start) =
    (it.documentStart, it.documentStride)

namespace StreamConfig

variable {start count : ℕ}

theorem chunksPerDocument_pos (config : StreamConfig τ) : 0 < config.chunksPerDocument :=
  lt_of_lt_of_le zero_lt_one (le_max_right ..)

theorem chunksPassed_succ :
    config.chunksPassed start (count + 1) = config.chunksPassed start count + 1 := rfl

/-- The last chunk of a document is followed by the first one of the next group. -/
theorem chunkAt_succ_of_last (h : config.chunksPerDocument ≤ config.chunkAt start count + 1) :
    config.chunkAt start (count + 1) = 0 ∧
      config.chunksPassed start (count + 1) / config.chunksPerDocument =
        config.chunksPassed start count / config.chunksPerDocument + 1 := by
  have hpos := config.chunksPerDocument_pos
  have hlt : config.chunkAt start count < config.chunksPerDocument := mod_lt _ hpos
  have heq := div_add_mod (config.chunksPassed start count) config.chunksPerDocument
  obtain ⟨hdiv, hmod⟩ := (Nat.div_mod_unique (a := config.chunksPassed start (count + 1))
    (c := 0) (d := config.chunksPassed start count / config.chunksPerDocument + 1) hpos).2 ⟨by
      rw [chunksPassed_succ, mul_add, mul_one]
      unfold chunkAt at h hlt
      omega, hpos⟩
  exact ⟨hmod, hdiv⟩

/-- Any other chunk is followed by the next one of the same group. -/
theorem chunkAt_succ_of_lt (h : config.chunkAt start count + 1 < config.chunksPerDocument) :
    config.chunkAt start (count + 1) = config.chunkAt start count + 1 ∧
      config.chunksPassed start (count + 1) / config.chunksPerDocument =
        config.chunksPassed start count / config.chunksPerDocument := by
  have heq := div_add_mod (config.chunksPassed start count) config.chunksPerDocument
  obtain ⟨hdiv, hmod⟩ := (Nat.div_mod_unique (a := config.chunksPassed start (count + 1))
    (c := config.chunkAt start count + 1)
    (d := config.chunksPassed start count / config.chunksPerDocument)
    config.chunksPerDocument_pos).2 ⟨by
      rw [chunksPassed_succ]
      unfold chunkAt
      omega, h⟩
  exact ⟨hmod, hdiv⟩

/-- The chunks of a document are within it, so that their starts do not saturate. -/
theorem saturatingMul_chunk {chunk : ℕ} (h : chunk < config.chunksPerDocument) :
    saturatingMul chunk config.blockSize = chunk * config.blockSize := by
  apply saturatingMul_of_le
  have htokens : config.documentTokens ≤ usizeMax :=
    max_le config.logicalDocumentTokens_le config.blockSize_le
  rcases Nat.eq_zero_or_pos chunk with rfl | hpos
  · omega
  have hle : chunk + 1 ≤ (config.documentTokens + config.blockSize - 1) / config.blockSize := by
    unfold chunksPerDocument at h
    omega
  have hmul := (le_div_iff_mul_le config.blockSize_pos).1 hle
  have hblock := config.blockSize_pos
  rw [add_mul, one_mul] at hmul
  omega

end StreamConfig

namespace Places

variable {it : StreamingIterator} {start count : ℕ}

theorem iter (config : StreamConfig τ) (loader : StreamingDataLoader) :
    Places config (loader.iter config) (loader.consumedSteps.getD 0).toNat 0 where
  epoch := rfl
  group := by
    simp [StreamingDataLoader.iter, StreamConfig.groupAt, StreamConfig.chunksPassed,
      div_eq_of_lt (mod_lt _ config.chunksPerDocument_pos)]
  chunk := (mod_mod ..).symm
  permutation := rfl

/-- **The place after a batch.** -/
theorem advance (h : Places config it start count) :
    Places config (it.advance config) start (count + 1) := by
  unfold StreamingIterator.advance
  rw [h.chunk]
  split
  case isTrue hlast =>
    obtain ⟨hchunk, hdiv⟩ := StreamConfig.chunkAt_succ_of_last hlast
    refine ⟨h.epoch, ?_, hchunk.symm, h.permutation⟩
    simp only [h.group, StreamConfig.groupAt, hdiv]
    rw [mod_add_mod, add_mul, one_mul, add_assoc]
  case isFalse hnext =>
    obtain ⟨hchunk, hdiv⟩ := StreamConfig.chunkAt_succ_of_lt (not_le.1 hnext)
    refine ⟨h.epoch, ?_, hchunk.symm, h.permutation⟩
    simp only [h.group, StreamConfig.groupAt, hdiv]

theorem documentIndex (h : Places config it start count) (row : ℕ) :
    it.documentIndex config row = config.documentAt start count row := by
  simp only [StreamingIterator.documentIndex, StreamConfig.documentAt, h.permutation, h.group]

theorem chunk_lt (h : Places config it start count) :
    it.chunkIndexInDocument < config.chunksPerDocument :=
  h.chunk ▸ mod_lt _ config.chunksPerDocument_pos

end Places

/-! ## Two batches -/

/-- A batch continues another one if it holds the next chunk of the same documents. -/
theorem continues_iff {it it' : StreamingIterator}
    (hchunk : it.chunkIndexInDocument < config.chunksPerDocument)
    (hchunk' : it'.chunkIndexInDocument < config.chunksPerDocument) :
    Continues config (it.batch config) (it'.batch config) ↔
      it'.epochIndex = it.epochIndex ∧ it'.chunkIndexInDocument = it.chunkIndexInDocument + 1 ∧
        ∀ row < config.batchSize, it'.documentIndex config row = it.documentIndex config row := by
  have hwindow : ∀ row, it'.window config row = { it.window config row with
      start := (it.window config row).start + config.blockSize } ↔
      it'.epochIndex = it.epochIndex ∧ it'.documentIndex config row = it.documentIndex config row ∧
        it'.chunkIndexInDocument = it.chunkIndexInDocument + 1 := by
    intro row
    simp only [StreamingIterator.window, StreamWindow.mk.injEq,
      StreamConfig.saturatingMul_chunk hchunk, StreamConfig.saturatingMul_chunk hchunk']
    refine and_congr_right fun _ => and_congr_right fun hdocument => ?_
    rw [hdocument, add_assoc _ (it.chunkIndexInDocument * config.blockSize),
      add_left_cancel_iff, ← succ_mul]
    exact Nat.mul_left_inj config.blockSize_pos.ne'
  have hwindows : (it'.batch config).windows = (it.batch config).windows.map (fun window =>
      { window with start := window.start + config.blockSize }) ↔
      ∀ row < config.batchSize, it'.window config row = { it.window config row with
        start := (it.window config row).start + config.blockSize } := by
    simp [StreamingIterator.batch]
  constructor
  · rintro ⟨h, -⟩
    have hrow := fun row hlt => (hwindow row).1 (hwindows.1 h row hlt)
    obtain ⟨hepoch, -, hnext⟩ := hrow 0 config.batchSize_pos
    exact ⟨hepoch, hnext, fun row hlt => (hrow row hlt).2.1⟩
  · rintro ⟨hepoch, hnext, hdocument⟩
    have h := hwindows.2 fun row hlt => (hwindow row).2 ⟨hepoch, hdocument row hlt, hnext⟩
    refine ⟨h, ?_⟩
    have hinputs : ∀ b : StreamingIterator, (b.batch config).inputs =
        (b.batch config).windows.map fun window => (List.range config.blockSize).map fun t =>
          config.tokenAt window.epochIndex (window.start + t) := by
      intro b
      simp [StreamingIterator.batch, StreamingIterator.sample, ← map_take, take_range]
    rw [hinputs, h, map_map]
    rfl

/-- **A batch within a document continues the one before it exactly if both iterators have come to the
same place.** -/
theorem Places.continues_iff {it it' : StreamingIterator} {start count start' count' : ℕ}
    (h : Places config it start count) (h' : Places config it' start' count')
    (hchunk : config.chunkAt start' count' ≠ 0) :
    Continues config (it.batch config) (it'.batch config) ↔
      config.SamePlace start (count + 1) start' count' := by
  rw [Dataset.continues_iff h.chunk_lt h'.chunk_lt, h.epoch, h'.epoch, h.chunk, h'.chunk]
  simp only [h.documentIndex, h'.documentIndex]
  have hlt' : config.chunkAt start' count' < config.chunksPerDocument := h'.chunk ▸ h'.chunk_lt
  rcases lt_or_ge (config.chunkAt start count + 1) config.chunksPerDocument with hlt | hge
  · obtain ⟨hnext, hdiv⟩ := StreamConfig.chunkAt_succ_of_lt hlt
    have hdocument : ∀ row, config.documentAt start (count + 1) row =
        config.documentAt start count row := fun row => by
      simp only [StreamConfig.documentAt, StreamConfig.groupAt, hdiv]
    constructor
    · rintro ⟨hepoch, hchunk', hrows⟩
      exact ⟨hepoch.symm, hnext.trans hchunk'.symm, fun row hrow =>
        (hdocument row).trans (hrows row hrow).symm⟩
    · rintro ⟨hepoch, hchunk', hrows⟩
      exact ⟨hepoch.symm, hchunk'.symm.trans hnext, fun row hrow =>
        (hrows row hrow).symm.trans (hdocument row)⟩
  · have hnext := (StreamConfig.chunkAt_succ_of_last hge).1
    constructor
    · rintro ⟨-, hchunk', -⟩
      omega
    · rintro ⟨-, hchunk', -⟩
      exact absurd (hchunk'.symm.trans hnext) hchunk

/-- An iterator is at the same place as itself. -/
theorem StreamConfig.SamePlace.refl (config : StreamConfig τ) (start count : ℕ) :
    config.SamePlace start count start count :=
  ⟨rfl, rfl, fun _ _ => rfl⟩

/-! ## Runs -/

/-- The events agree with the iterators. -/
structure Placed (config : StreamConfig τ) (events : List (LoaderEvent (StreamBatch τ)))
    (iterators : List StreamingIterator) : Prop where
  starts_length : (starts events).length = iterators.length
  fresh : ∀ k, iterators.length ≤ k → stepsOf k events = []
  places : ∀ (k : ℕ) (it : StreamingIterator) (start : ℕ), iterators[k]? = some it →
    (starts events)[k]? = some start → Places config it start (stepsOf k events).length
  last : ∀ j batch, lastYield events = some (j, batch) → ∃ it start count,
    (starts events)[j]? = some start ∧ Places config it start count ∧ batch = it.batch config ∧
      (stepsOf j events).length = count + 1

namespace Placed

variable {events : List (LoaderEvent (StreamBatch τ))} {iterators : List StreamingIterator}
  {it : StreamingIterator} {k start : ℕ}

theorem created (h : Placed config events iterators) (hit : Places config it start 0) :
    Placed config (events ++ [.created start]) (iterators ++ [it]) := by
  constructor
  case starts_length => simp [h.starts_length]
  case fresh =>
    intro k hk
    rw [stepsOf_created]
    exact h.fresh k ((length_append ▸ le_add_right ..).trans hk)
  case places =>
    intro k it' start' hit' hstart'
    rw [starts_created] at hstart'
    rw [stepsOf_created]
    rcases lt_or_ge k iterators.length with hlt | hge
    · rw [getElem?_append_left hlt] at hit'
      rw [getElem?_append_left (h.starts_length ▸ hlt)] at hstart'
      exact h.places k it' start' hit' hstart'
    · rw [getElem?_append_right hge, getElem?_singleton] at hit'
      rw [getElem?_append_right (h.starts_length ▸ hge), h.starts_length,
        getElem?_singleton] at hstart'
      rw [h.fresh k hge]
      split at hit'
      · simp_all
      · simp at hit'
  case last =>
    intro j batch hlast
    rw [lastYield_created] at hlast
    obtain ⟨it', start', count, hstart', hrest⟩ := h.last j batch hlast
    refine ⟨it', start', count, ?_, by rw [stepsOf_created]; exact hrest⟩
    rw [starts_created, List.getElem?_append_left (List.getElem?_eq_some_iff.1 hstart').1]
    exact hstart'

theorem concat_ended (h : Placed config events iterators) :
    Placed config (events ++ [.ended k]) iterators where
  starts_length := by simpa using h.starts_length
  fresh := by simpa using h.fresh
  places := by simpa using h.places
  last := by simpa using h.last

theorem concat_yielded (h : Placed config events iterators) (hit : iterators[k]? = some it) {n : ℕ} :
    Placed config (events ++ [.yielded k n (it.batch config)])
      (iterators.set k (it.advance config)) := by
  have hk := (List.getElem?_eq_some_iff.1 hit).1
  obtain ⟨start, hstart⟩ : ∃ start, (starts events)[k]? = some start :=
    ⟨_, List.getElem?_eq_getElem (h.starts_length ▸ hk)⟩
  have hplaces := h.places k it start hit hstart
  constructor
  case starts_length => simp [h.starts_length]
  case fresh =>
    intro k' hk'
    rw [length_set] at hk'
    rw [stepsOf_yielded_of_ne (by omega)]
    exact h.fresh k' hk'
  case places =>
    intro k' it' start' hit' hstart'
    rw [starts_yielded] at hstart'
    by_cases hkk : k' = k
    · subst hkk
      rw [getElem?_set_self hk] at hit'
      obtain rfl := Option.some_inj.1 hit'
      obtain rfl : start = start' := Option.some_inj.1 (hstart.symm.trans hstart')
      rw [stepsOf_yielded_self, length_append]
      exact hplaces.advance
    · rw [getElem?_set_ne (Ne.symm hkk)] at hit'
      rw [stepsOf_yielded_of_ne (Ne.symm hkk)]
      exact h.places k' it' start' hit' hstart'
  case last =>
    intro j batch hlast
    rw [lastYield_yielded] at hlast
    obtain ⟨rfl, rfl⟩ := Prod.mk.inj (Option.some_inj.1 hlast)
    refine ⟨it, start, _, starts_yielded.symm ▸ hstart, hplaces, rfl, ?_⟩
    rw [stepsOf_yielded_self, length_append]
    rfl

end Placed

namespace StreamingDataLoader

variable {loader loader' : StreamingDataLoader} {it : StreamingIterator} {k initialSteps : ℕ}
  {events : List (LoaderEvent (StreamBatch τ))}

/-- `next` finds no step left, or yields the batch of the iterator. -/
theorem next_cases (config : StreamConfig τ) (loader : StreamingDataLoader) (k : ℕ)
    (it : StreamingIterator) :
    (loader.next config k it).1 = .ended k ∧
        (loader.next config k it).2.iterators = loader.iterators ∨
      ∃ n, (loader.next config k it).1 = .yielded k n (it.batch config) ∧
        (loader.next config k it).2.iterators = loader.iterators.set k (it.advance config) := by
  unfold next
  split
  · exact .inl ⟨rfl, rfl⟩
  · split
    · simp only
      split
      · exact .inl ⟨rfl, rfl⟩
      · exact .inr ⟨_, rfl, rfl⟩
    · exact .inr ⟨_, rfl, rfl⟩

theorem placed (h : Run (Step config) (resume config initialSteps) events loader) :
    Placed config events loader.iterators := by
  refine h.induct (P := fun events loader => Placed config events loader.iterators)
    ⟨rfl, fun _ _ => rfl, fun _ _ _ h => by simp [resume] at h, fun _ _ h => by simp [lastYield] at h⟩
    fun events loader event loader' _ ih hstep => ?_
  cases hstep with
  | iter => exact ih.created (.iter config loader)
  | @next k it hit =>
    rcases next_cases config loader k it with ⟨hevent, hiterators⟩ | ⟨n, hevent, hiterators⟩
    · rw [hevent, hiterators]
      exact ih.concat_ended
    · rw [hevent, hiterators]
      exact ih.concat_yielded hit

/-- What is yielded is the batch of an iterator. -/
theorem Step.yielded {n : ℕ} {batch : StreamBatch τ}
    (h : Step config loader (some (.yielded k n batch)) loader') :
    ∃ it, loader.iterators[k]? = some it ∧ batch = it.batch config := by
  generalize hevent : some (LoaderEvent.yielded k n batch) = event at h
  cases h with
  | iter => simp at hevent
  | @next k' it hit =>
    rcases next_cases config loader k' it with ⟨hnext, -⟩ | ⟨m, hnext, -⟩
    · simp [hnext] at hevent
    · rw [hnext] at hevent
      obtain ⟨rfl, -, rfl⟩ : k = k' ∧ n = m ∧ batch = it.batch config := by simpa using hevent
      exact ⟨it, hit, rfl⟩

/-- The place of the k-th iterator is the start of a document, or the place to which the iterator has
come that yielded the last batch. -/
def InPlace (config : StreamConfig τ) (events : List (LoaderEvent (StreamBatch τ))) (k : ℕ) : Prop :=
  ∃ start, (starts events)[k]? = some start ∧
    (config.chunkAt start (stepsOf k events).length = 0 ∨
      ∃ j prev start', lastYield events = some (j, prev) ∧ (starts events)[j]? = some start' ∧
        config.SamePlace start' (stepsOf j events).length start (stepsOf k events).length)

/-- **The batches that do not reset continue the stream exactly where the iterator is in place.** -/
theorem yielded_continues_iff {before after : List (LoaderEvent (StreamBatch τ))} {n : ℕ}
    {batch : StreamBatch τ}
    (hrun : Run (Step config) (resume config initialSteps) (before ++ .yielded k n batch :: after)
      loader) :
    (batch.resetStreamState = false →
      ∃ j prev, lastYield before = some (j, prev) ∧ Continues config prev batch) ↔
    InPlace config before k := by
  rw [← List.singleton_append, ← List.append_assoc] at hrun
  obtain ⟨_, hyielded, -⟩ := hrun.split
  obtain ⟨s, s', hbefore, hstep, -⟩ := hyielded.exists_step
  have hplaced := placed hbefore
  obtain ⟨it, hit, rfl⟩ := hstep.yielded
  obtain ⟨start, hstart⟩ : ∃ start, (starts before)[k]? = some start :=
    ⟨_, List.getElem?_eq_getElem (hplaced.starts_length ▸ (List.getElem?_eq_some_iff.1 hit).1)⟩
  have hplaces := hplaced.places k it start hit hstart
  have hreset : (it.batch config).resetStreamState = false ↔
      config.chunkAt start (stepsOf k before).length ≠ 0 := by
    simp [StreamingIterator.batch, hplaces.chunk]
  rw [hreset]
  constructor
  · intro h
    refine ⟨start, hstart, or_iff_not_imp_left.2 fun hchunk => ?_⟩
    obtain ⟨j, prev, hlast, hcontinues⟩ := h hchunk
    obtain ⟨it', start', count, hstart', hplaces', rfl, hcount⟩ := hplaced.last j prev hlast
    refine ⟨j, _, start', hlast, hstart', ?_⟩
    rw [hcount]
    exact (hplaces'.continues_iff hplaces hchunk).1 hcontinues
  · rintro ⟨start', hstart', h⟩ hchunk
    obtain rfl : start = start' := Option.some_inj.1 (hstart.symm.trans hstart')
    obtain ⟨j, prev, start', hlast, hstart', hsame⟩ := h.resolve_left hchunk
    obtain ⟨it', start'', count, hstart'', hplaces', rfl, hcount⟩ := hplaced.last j prev hlast
    obtain rfl : start' = start'' := Option.some_inj.1 (hstart'.symm.trans hstart'')
    rw [hcount] at hsame
    exact ⟨j, _, hlast, (hplaces'.continues_iff hplaces hchunk).2 hsame⟩

/-- Documents of two chunks of two tokens, one document in all, and three steps per epoch. -/
def tokensConfig : StreamConfig ℕ where
  batchSize := 1
  blockSize := 2
  stepsPerEpoch := 3
  totalSteps := some 9
  logicalDocumentTokens := 4
  splitOffset := 0
  splitSpan := 5
  draw := fun _ _ => (0, 1)
  tokenAt := fun _ position => position
  batchSize_pos := by decide
  blockSize_pos := by decide
  blockSize_le := by decide
  logicalDocumentTokens_le := by decide

/-- Two batches of an iterator that is created at step two, in the first epoch. -/
theorem run_tokensConfig : Run (Step tokensConfig) (resume tokensConfig 2)
    ([.created 2, .yielded 0 2 ⟨[⟨0, 0, 0⟩], [[0, 1]], [[1, 2]], true⟩] ++
      [.yielded 0 3 ⟨[⟨0, 0, 2⟩], [[2, 3]], [[3, 4]], false⟩])
    ⟨some 4, [⟨3, 2, 0, 0, 0, 1, 0⟩]⟩ := by
  have hcreated : Run (Step tokensConfig) (resume tokensConfig 2) [.created 2] _ :=
    Run.single (e := some _) .iter
  have hfirst := hcreated.tail (.next (k := 0) rfl)
  exact hfirst.tail (.next (k := 0) rfl)

theorem yielded_continues_iff_tokensConfig : Continues tokensConfig
    ⟨[⟨0, 0, 0⟩], [[0, 1]], [[1, 2]], true⟩ ⟨[⟨0, 0, 2⟩], [[2, 3]], [[3, 4]], false⟩ := by
  have hplace : InPlace tokensConfig
      [.created 2, .yielded 0 2 ⟨[⟨0, 0, 0⟩], [[0, 1]], [[1, 2]], true⟩] 0 :=
    ⟨2, rfl, .inr ⟨0, _, 2, rfl, rfl, .refl ..⟩⟩
  obtain ⟨j, prev, hlast, hcontinues⟩ := (yielded_continues_iff run_tokensConfig).2 hplace rfl
  obtain ⟨-, rfl⟩ := Prod.mk.inj (Option.some_inj.1 hlast)
  exact hcontinues

/-- **An iterator that is created in the middle of a document of the next epoch goes on as if it continued
the stream.** Its first batch repeats the chunk of the last one and is not marked as a reset. -/
theorem next_iterator_splices : ∃ before batch loader,
    Run (Step tokensConfig) (resume tokensConfig 2) (before ++ [.yielded 1 4 batch]) loader ∧
    batch.resetStreamState = false ∧ ∃ prev, lastYield before = some (0, prev) ∧
      ¬ Continues tokensConfig prev batch := by
  have hcreated := run_tokensConfig.tail .iter
  have hyielded := hcreated.tail (.next (k := 1) rfl)
  refine ⟨_, ⟨[⟨1, 0, 2⟩], [[2, 3]], [[3, 4]], false⟩, _, hyielded, rfl, _, rfl, fun h => ?_⟩
  exact absurd h.1 (by decide)

end StreamingDataLoader

end BurnDragon.Dataset
