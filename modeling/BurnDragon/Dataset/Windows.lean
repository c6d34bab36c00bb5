import BurnDragon.Dataset.Shape

/-!
# The windows that the loaders request

A loader requests windows of one token more than a block from its dataset. The windows of the random
loader start anywhere within a logical document, or within the split when there are none; those of the
streaming loader are the chunks of a logical document. `requested_windows_inside_iff` says for which
datasets all of them lie inside of their document and of the split, so that they can be copied: the last
chunk of a document leaves it when its length is not a multiple of the block size.

The windows of a batch that a live source selection serves are not requested from the dataset.
-/

namespace BurnDragon.Dataset

open Rust Corpus Transition LoaderEvent List Nat

/-- The start of a window, with the place and the length of the logical document that it is for. -/
structure RequestedWindow where
  document : Option (ℕ × ℕ)
  start : ℕ

/-- The window lies inside of its document and of the split, and it can be copied. -/
structure Inside (dataset : TokenDataset) (split : DatasetSplit) (window : RequestedWindow) :
    Prop where
  document_le : ∀ document ∈ window.document, document.1 ≤ window.start ∧
    window.start + (dataset.loaderBlockSize + 1) ≤ document.1 + document.2
  offset_le : (dataset.splitOffsetAndSpan split).1 ≤ window.start
  end_le : window.start + (dataset.loaderBlockSize + 1) ≤
    (dataset.splitOffsetAndSpan split).1 + (dataset.splitOffsetAndSpan split).2
  copies : ∀ requestTrain epochIndex, dataset.storage.Copies requestTrain epochIndex dataset.trainLen
    window.start (dataset.loaderBlockSize + 1)

/-! ## Requests -/

/-- The window of a row of `sample_host_batch_with_shape`. The document is selected or drawn, and the
start is drawn. -/
inductive RandomWindow (dataset : TokenDataset) (split : DatasetSplit) : RequestedWindow → Prop
  | document {documentTokens documentIndex startInDocument : ℕ} :
    dataset.logicalDocumentTokens = some documentTokens →
    documentIndex <
      max ((dataset.splitOffsetAndSpan split).2 / saturatingAdd documentTokens 1) 1 →
    startInDocument ≤ min (documentTokens - dataset.loaderBlockSize)
      (saturatingAdd documentTokens 1 - (dataset.loaderBlockSize + 1)) →
    RandomWindow dataset split
      { document := some ((dataset.splitOffsetAndSpan split).1 +
          documentIndex * saturatingAdd documentTokens 1, saturatingAdd documentTokens 1)
        start := (dataset.splitOffsetAndSpan split).1 +
          saturatingMul documentIndex (saturatingAdd documentTokens 1) + startInDocument }
  | flat {startOffset : ℕ} :
    dataset.logicalDocumentTokens = none →
    startOffset ≤ (dataset.splitOffsetAndSpan split).2 - (dataset.loaderBlockSize + 1) →
    RandomWindow dataset split
      { document := none
        start := (dataset.splitOffsetAndSpan split).1 + startOffset }

/-- What the caller of a streaming loader and its generator choose. -/
structure StreamSettings where
  batchSize : ℕ
  stepsPerEpoch : ℕ
  totalSteps : Option ℕ
  minLogicalBlockSize : Option ℕ
  draw : ℕ → ℕ → ℕ × ℕ

namespace AdmittedDataset

variable (dataset : AdmittedDataset) (split : DatasetSplit)

theorem resolveStreamLogicalDocumentTokens_le (requestedMinLogicalBlockSize : Option ℕ) :
    dataset.resolveStreamLogicalDocumentTokens split requestedMinLogicalBlockSize ≤ usizeMax := by
  have hblock := dataset.loaderBlockSize_le
  have htokens := dataset.logicalDocumentTokens_lt
  rw [TokenDataset.resolveStreamLogicalDocumentTokens]
  split
  · rename_i documentTokens hsome
    exact max_le (htokens documentTokens hsome).le hblock
  · exact max_le ((min_le_left ..).trans (min_le_right ..)) hblock

/-- A token as a window holds it. -/
def tokenAt (epochIndex position : ℕ) : UInt32 :=
  match dataset.storage.copyTokenRange (split = .train) epochIndex dataset.trainLen 2 position [0] with
  | some (.ok [token]) => token
  | _ => 0

/-- `StreamingDataLoader::new` over the dataset. -/
def streamConfig (settings : StreamSettings) : StreamConfig UInt32 where
  batchSize := max settings.batchSize 1
  blockSize := dataset.loaderBlockSize
  stepsPerEpoch := max settings.stepsPerEpoch 1
  totalSteps := settings.totalSteps.filter (0 < ·)
  logicalDocumentTokens :=
    dataset.resolveStreamLogicalDocumentTokens split settings.minLogicalBlockSize
  splitOffset := (dataset.splitOffsetAndSpan split).1
  splitSpan := (dataset.splitOffsetAndSpan split).2
  draw := settings.draw
  tokenAt := dataset.tokenAt split
  batchSize_pos := Nat.lt_of_lt_of_le Nat.zero_lt_one (le_max_right ..)
  blockSize_pos := dataset.loaderBlockSize_pos
  blockSize_le := dataset.loaderBlockSize_le
  logicalDocumentTokens_le := dataset.resolveStreamLogicalDocumentTokens_le split _

end AdmittedDataset

/-- The window of a row of a streaming batch. -/
def StreamWindow.requested {τ : Type*} (config : StreamConfig τ) (window : StreamWindow) :
    RequestedWindow where
  document := some (config.splitOffset + window.documentIndex * config.documentSpan,
    config.documentSpan)
  start := window.start

/-- All windows of the batches that random loaders sample are inside. -/
def RandomInside (dataset : TokenDataset) (split : DatasetSplit) : Prop :=
  ∀ window, RandomWindow dataset split window → Inside dataset split window

/-- All windows of the batches that streaming loaders yield in their runs are inside. -/
def StreamInside (dataset : AdmittedDataset) (split : DatasetSplit) : Prop :=
  ∀ (settings : StreamSettings) (initialSteps : ℕ)
    (events : List (LoaderEvent (StreamBatch UInt32))) (loader : StreamingDataLoader),
    Run (StreamingDataLoader.Step (dataset.streamConfig split settings))
      (StreamingDataLoader.resume (dataset.streamConfig split settings) initialSteps) events loader →
    ∀ k n batch, .yielded k n batch ∈ events → ∀ window ∈ batch.windows,
      Inside dataset.toTokenDataset split (window.requested (dataset.streamConfig split settings))

/-- The documents, or the split when there are none, have room for a window and end within the data, and
the documents are cut into whole blocks. -/
def AdmittedDataset.Fits (dataset : AdmittedDataset) (split : DatasetSplit) : Prop :=
  let (offset, span) := dataset.splitOffsetAndSpan split
  match dataset.logicalDocumentTokens with
  | none => dataset.loaderBlockSize + 1 ≤ span ∧ offset + span ≤ dataset.dataLen
  | some documentTokens =>
    dataset.loaderBlockSize ≤ documentTokens ∧ dataset.loaderBlockSize ∣ documentTokens ∧
      documentTokens + 1 ≤ span ∧
      offset + span / (documentTokens + 1) * (documentTokens + 1) ≤ dataset.dataLen

/-! ## Windows of a document -/

variable {dataset : AdmittedDataset} {split : DatasetSplit}

theorem AdmittedDataset.inside_of_bounds {window : RequestedWindow}
    (hdocument : ∀ document ∈ window.document, document.1 ≤ window.start ∧ window.start +
      (dataset.loaderBlockSize + 1) ≤ document.1 + document.2)
    (hoffset : (dataset.splitOffsetAndSpan split).1 ≤ window.start)
    (hend : window.start + (dataset.loaderBlockSize + 1) ≤ (dataset.splitOffsetAndSpan split).1 +
      (dataset.splitOffsetAndSpan split).2)
    (hdata : window.start + (dataset.loaderBlockSize + 1) ≤ dataset.dataLen) :
    Inside dataset.toTokenDataset split window :=
  ⟨hdocument, hoffset, hend, fun _ _ =>
    (TokenStorage.copies_iff dataset.holds (succ_pos _)).2 hdata⟩

theorem Inside.end_le_dataLen {window : RequestedWindow}
    (h : Inside dataset.toTokenDataset split window) :
    window.start + (dataset.loaderBlockSize + 1) ≤ dataset.dataLen :=
  (TokenStorage.copies_iff dataset.holds (succ_pos _)).1 (h.copies true 0)

/-- The documents that are laid out in a span fit into it. -/
theorem document_le_span {documentIndex documentSpan span : ℕ}
    (h : documentIndex < span / documentSpan) :
    documentIndex * documentSpan + documentSpan ≤ span / documentSpan * documentSpan ∧
      span / documentSpan * documentSpan ≤ span := by
  have hmul := mul_le_mul_right documentSpan (succ_le_of_lt h)
  rw [succ_mul] at hmul
  exact ⟨hmul, div_mul_le_self ..⟩

/-- A window within one of the documents of the split. -/
theorem AdmittedDataset.inside_of_document {documentIndex documentSpan startInDocument : ℕ}
    (hindex : documentIndex < (dataset.splitOffsetAndSpan split).2 / documentSpan)
    (hdata : (dataset.splitOffsetAndSpan split).1 + (dataset.splitOffsetAndSpan split).2 /
      documentSpan * documentSpan ≤ dataset.dataLen)
    (hstart : startInDocument + (dataset.loaderBlockSize + 1) ≤ documentSpan) :
    Inside dataset.toTokenDataset split
      { document := some ((dataset.splitOffsetAndSpan split).1 + documentIndex * documentSpan,
          documentSpan)
        start := (dataset.splitOffsetAndSpan split).1 +
          saturatingMul documentIndex documentSpan + startInDocument } := by
  obtain ⟨hdocument, hspan⟩ := document_le_span hindex
  have hmul : saturatingMul documentIndex documentSpan = documentIndex * documentSpan :=
    saturatingMul_of_le (by have := dataset.splitSpan_le split; omega)
  rw [hmul]
  refine dataset.inside_of_bounds ?_ ?_ ?_ ?_
  · rintro _ ⟨⟩
    dsimp only
    omega
  · dsimp only
    omega
  · dsimp only
    omega
  · dsimp only
    omega

/-! ## The random loader -/

section Random

variable {dataset : AdmittedDataset} {split : DatasetSplit}

theorem AdmittedDataset.Fits.randomInside (h : dataset.Fits split) :
    RandomInside dataset.toTokenDataset split := by
  intro window hwindow
  rw [AdmittedDataset.Fits] at h
  cases hwindow with
  | @document documentTokens documentIndex startInDocument hsome hindex hstart =>
    simp only [hsome] at h
    obtain ⟨hblock, -, hspan, hdata⟩ := h
    have hadd : saturatingAdd documentTokens 1 = documentTokens + 1 :=
      saturatingAdd_of_le (dataset.logicalDocumentTokens_lt _ hsome)
    rw [hadd] at hindex hstart ⊢
    have hpos : 1 ≤ (dataset.splitOffsetAndSpan split).2 / (documentTokens + 1) :=
      (le_div_iff_mul_le (succ_pos _)).2 (by omega)
    rw [max_eq_left hpos] at hindex
    exact dataset.inside_of_document hindex hdata (by omega)
  | @flat startOffset hnone hstart =>
    simp only [hnone] at h
    obtain ⟨hspan, hdata⟩ := h
    refine dataset.inside_of_bounds nofun ?_ ?_ ?_
    · exact Nat.le_add_right ..
    · dsimp only
      omega
    · dsimp only
      omega

/-- When the random loader stays inside, the documents have room for a window and end within the data. -/
theorem RandomInside.room (h : RandomInside dataset.toTokenDataset split) :
    match dataset.logicalDocumentTokens with
    | none => dataset.loaderBlockSize + 1 ≤ (dataset.splitOffsetAndSpan split).2 ∧
        (dataset.splitOffsetAndSpan split).1 + (dataset.splitOffsetAndSpan split).2 ≤
          dataset.dataLen
    | some documentTokens => dataset.loaderBlockSize ≤ documentTokens ∧
        documentTokens + 1 ≤ (dataset.splitOffsetAndSpan split).2 ∧
        (dataset.splitOffsetAndSpan split).1 +
          (dataset.splitOffsetAndSpan split).2 / (documentTokens + 1) * (documentTokens + 1) ≤
            dataset.dataLen := by
  cases hlogical : dataset.logicalDocumentTokens with
  | none =>
    have hlast := h _ (.flat hlogical le_rfl)
    have hend := hlast.end_le
    have hdata := hlast.end_le_dataLen
    dsimp only at hend hdata ⊢
    omega
  | some documentTokens =>
    have hadd : saturatingAdd documentTokens 1 = documentTokens + 1 :=
      saturatingAdd_of_le (dataset.logicalDocumentTokens_lt _ hlogical)
    -- The last start in a document reaches its end.
    have hwindow : ∀ documentIndex,
        documentIndex < max ((dataset.splitOffsetAndSpan split).2 / (documentTokens + 1)) 1 →
        Inside dataset.toTokenDataset split _ := fun documentIndex hindex =>
      h _ (.document hlogical (by rwa [hadd]) le_rfl)
    rw [hadd] at hwindow
    have hfirst := hwindow 0 (lt_of_lt_of_le zero_lt_one (le_max_right ..))
    have hblock := (hfirst.document_le _ rfl).2
    have hend := hfirst.end_le
    simp only [zero_mul, saturatingMul, zero_min] at hblock hend
    have hspan : documentTokens + 1 ≤ (dataset.splitOffsetAndSpan split).2 := by omega
    have hcount : 1 ≤ (dataset.splitOffsetAndSpan split).2 / (documentTokens + 1) :=
      (le_div_iff_mul_le (succ_pos _)).2 (by omega)
    refine ⟨by omega, hspan, ?_⟩
    have hlast := (hwindow ((dataset.splitOffsetAndSpan split).2 / (documentTokens + 1) - 1)
      (lt_of_lt_of_le (sub_lt hcount zero_lt_one) (le_max_left ..))).end_le_dataLen
    have hle := dataset.splitSpan_le split
    generalize (dataset.splitOffsetAndSpan split).2 = span at *
    have hmul : (span / (documentTokens + 1) - 1) * (documentTokens + 1) + (documentTokens + 1) =
        span / (documentTokens + 1) * (documentTokens + 1) := by
      rw [← Nat.succ_mul, Nat.succ_eq_add_one, Nat.sub_add_cancel hcount]
    have hdiv := div_mul_le_self span (documentTokens + 1)
    rw [saturatingMul_of_le (by omega)] at hlast
    dsimp only at hlast
    omega

end Random

/-! ## The streaming loader -/

section Streaming

variable {dataset : AdmittedDataset} {split : DatasetSplit}

variable {τ : Type*} {config : StreamConfig τ}

/-- The windows of a run are chunks of documents. -/
theorem StreamingDataLoader.yielded_window {initialSteps : ℕ}
    {events : List (LoaderEvent (StreamBatch τ))} {loader : StreamingDataLoader}
    (hrun : Run (Step config) (resume config initialSteps) events loader) {k n : ℕ}
    {batch : StreamBatch τ} (hbatch : .yielded k n batch ∈ events) {window : StreamWindow}
    (hwindow : window ∈ batch.windows) :
    window.documentIndex < config.numDocuments ∧ ∃ chunk < config.chunksPerDocument,
      window.start = config.splitOffset + saturatingMul window.documentIndex config.documentSpan +
        saturatingMul chunk config.blockSize := by
  obtain ⟨before, after, rfl⟩ := List.append_of_mem hbatch
  rw [← singleton_append, ← append_assoc] at hrun
  obtain ⟨_, hyielded, -⟩ := hrun.split
  obtain ⟨s, s', hbefore, hstep, -⟩ := hyielded.exists_step
  have hplaced := placed hbefore
  obtain ⟨it, hit, rfl⟩ := hstep.yielded
  have hlt := (List.getElem?_eq_some_iff.1 hit).1
  obtain ⟨start, hstart⟩ : ∃ start, (starts before)[k]? = some start :=
    ⟨_, getElem?_eq_getElem (hplaced.starts_length ▸ hlt)⟩
  obtain ⟨row, -, rfl⟩ := mem_map.1 hwindow
  have hpos : 0 < config.numDocuments := lt_of_lt_of_le zero_lt_one (le_max_right ..)
  exact ⟨mod_lt _ hpos, it.chunkIndexInDocument,
    (hplaced.places k it start hit hstart).chunk_lt, rfl⟩

/-- The chunks of a document of whole blocks lie within it. -/
theorem StreamConfig.chunk_le (hdvd : config.blockSize ∣ config.documentTokens) {chunk : ℕ}
    (hchunk : chunk < config.chunksPerDocument) :
    chunk * config.blockSize + config.blockSize ≤ config.documentTokens := by
  have hpos := config.blockSize_pos
  obtain ⟨count, hcount⟩ := hdvd
  have hblock : config.blockSize ≤ config.documentTokens := le_max_right ..
  have hchunks : config.chunksPerDocument = count := by
    have hone : 1 ≤ count := by
      rcases Nat.eq_zero_or_pos count with rfl | hcount'
      · omega
      · exact hcount'
    rw [chunksPerDocument, hcount, show config.blockSize * count + config.blockSize - 1 =
      config.blockSize - 1 + config.blockSize * count by omega, add_mul_div_left _ _ hpos,
      div_eq_of_lt (by omega), zero_add, max_eq_left hone]
  rw [hchunks] at hchunk
  rw [hcount, ← succ_mul, mul_comm config.blockSize]
  exact mul_le_mul_right _ hchunk

theorem AdmittedDataset.documentTokens_streamConfig (settings : StreamSettings) :
    (dataset.streamConfig split settings).documentTokens =
      dataset.resolveStreamLogicalDocumentTokens split settings.minLogicalBlockSize := by
  refine max_eq_left ?_
  change dataset.loaderBlockSize ≤
    dataset.resolveStreamLogicalDocumentTokens split settings.minLogicalBlockSize
  rw [TokenDataset.resolveStreamLogicalDocumentTokens]
  split <;> exact le_max_right ..

/-- The documents of a streaming loader over a dataset that fits. -/
theorem AdmittedDataset.Fits.documentTokens (h : dataset.Fits split) (settings : StreamSettings) :
    dataset.loaderBlockSize ∣ (dataset.streamConfig split settings).documentTokens ∧
      (dataset.streamConfig split settings).documentSpan ≤ (dataset.splitOffsetAndSpan split).2 ∧
      (dataset.splitOffsetAndSpan split).1 + (dataset.splitOffsetAndSpan split).2 /
        (dataset.streamConfig split settings).documentSpan *
          (dataset.streamConfig split settings).documentSpan ≤ dataset.dataLen := by
  rw [StreamConfig.documentSpan, documentTokens_streamConfig]
  rw [AdmittedDataset.Fits] at h
  cases hlogical : dataset.logicalDocumentTokens with
  | none =>
    simp only [hlogical] at h
    obtain ⟨hdvd, hspan⟩ := dataset.resolveStreamLogicalDocumentTokens_spec hlogical h.1
      settings.minLogicalBlockSize
    refine ⟨hdvd, hspan, ?_⟩
    have := div_mul_le_self (dataset.splitOffsetAndSpan split).2
      (dataset.resolveStreamLogicalDocumentTokens split settings.minLogicalBlockSize + 1)
    omega
  | some documentTokens =>
    simp only [hlogical] at h
    obtain ⟨hblock, hdvd, hspan, hdata⟩ := h
    have hresolve : dataset.resolveStreamLogicalDocumentTokens split settings.minLogicalBlockSize =
        documentTokens := by
      rw [TokenDataset.resolveStreamLogicalDocumentTokens, hlogical]
      exact max_eq_left hblock
    rw [hresolve]
    exact ⟨hdvd, hspan, hdata⟩

theorem AdmittedDataset.Fits.streamInside (h : dataset.Fits split) : StreamInside dataset split := by
  intro settings initialSteps events loader hrun k n batch hbatch window hwindow
  obtain ⟨hindex, chunk, hchunk, hstart⟩ := StreamingDataLoader.yielded_window hrun hbatch hwindow
  obtain ⟨hdvd, hspan, hdata⟩ := h.documentTokens settings
  have hpos : 1 ≤ (dataset.splitOffsetAndSpan split).2 /
      (dataset.streamConfig split settings).documentSpan :=
    (le_div_iff_mul_le (succ_pos _)).2 (by rwa [one_mul])
  have hcount : (dataset.streamConfig split settings).numDocuments =
      (dataset.splitOffsetAndSpan split).2 /
        (dataset.streamConfig split settings).documentSpan := max_eq_left hpos
  rw [hcount] at hindex
  rw [StreamConfig.saturatingMul_chunk hchunk] at hstart
  have hle := StreamConfig.chunk_le hdvd hchunk
  rw [StreamWindow.requested, hstart]
  refine dataset.inside_of_document hindex hdata ?_
  exact succ_le_succ hle

/-- A loader that is resumed at the last chunk of a document yields this chunk. -/
theorem StreamingDataLoader.exists_last_chunk
    (hsteps : config.stepsPerEpoch = config.chunksPerDocument)
    (htotal : config.totalSteps = some config.chunksPerDocument)
    (hle : config.chunksPerDocument ≤ usizeMax) :
    ∃ (events : List (LoaderEvent (StreamBatch τ))) (loader : StreamingDataLoader) (k n : ℕ)
      (it : StreamingIterator), Run (Step config) (resume config (config.chunksPerDocument - 1))
        (events ++ [.yielded k n (it.batch config)]) loader ∧
      it.chunkIndexInDocument = config.chunksPerDocument - 1 := by
  have hpos := config.chunksPerDocument_pos
  have hmax : usizeMax < 2 ^ 64 := by decide
  set count := config.chunksPerDocument with hcount
  have hconsumed : (resume config (count - 1)).consumedSteps = some (UInt64.ofNat (count - 1)) := by
    rw [resume, initialConsumedSteps, htotal, Option.map_some, min_eq_left (sub_le ..)]
  have htoNat : (UInt64.ofNat (count - 1)).toNat = count - 1 := by
    rw [UInt64.toNat_ofNat', mod_eq_of_lt (by omega)]
  set it := (resume config (count - 1)).iter config with hit
  have hchunk : it.chunkIndexInDocument = count - 1 := by
    rw [hit, StreamingDataLoader.iter, hconsumed, Option.getD_some, htoNat, hsteps,
      max_eq_left hpos]
    exact (mod_mod ..).trans (mod_eq_of_lt (sub_lt hpos zero_lt_one))
  have hleft : ¬ it.stepsTotal ≤ it.step := by
    rw [hit, StreamingDataLoader.iter, hconsumed, htotal, hsteps]
    simp only [iterSteps, htoNat]
    rw [if_neg (by omega)]
    omega
  -- One call of `iter`, then one of `next` on the new iterator.
  have hcreated : Run (Step config) (resume config (count - 1)) [.created _] _ :=
    Run.single (e := some _) .iter
  have hyielded := hcreated.tail (.next (k := 0) rfl)
  have hevent : (StreamingDataLoader.next config
      { resume config (count - 1) with
        iterators := (resume config (count - 1)).iterators ++ [it] } 0 it).1 =
      .yielded 0 (count - 1) (it.batch config) := by
    rw [StreamingDataLoader.next, if_neg hleft]
    simp only [hconsumed, htotal, htoNat, Option.any_some]
    rw [if_neg (by simp; omega)]
  rw [← hit, hevent] at hyielded
  exact ⟨_, _, 0, count - 1, it, hyielded, hchunk⟩

section

/-- The chunks cover a document. -/
theorem StreamConfig.documentTokens_le (config : StreamConfig τ) :
    config.documentTokens ≤ config.chunksPerDocument * config.blockSize := by
  have hpos := config.blockSize_pos
  have hdiv := div_add_mod (config.documentTokens + config.blockSize - 1) config.blockSize
  have hmod := mod_lt (config.documentTokens + config.blockSize - 1) hpos
  have hle := mul_le_mul_right config.blockSize (le_max_left
    ((config.documentTokens + config.blockSize - 1) / config.blockSize) 1)
  rw [mul_comm (_ / _)] at hle
  rw [chunksPerDocument]
  omega

theorem StreamConfig.chunksPerDocument_le (config : StreamConfig τ) :
    config.chunksPerDocument ≤ usizeMax := by
  have hpos := config.blockSize_pos
  have htokens : config.documentTokens ≤ usizeMax :=
    max_le config.logicalDocumentTokens_le config.blockSize_le
  refine max_le (le_trans ?_ htokens) (by decide)
  rw [div_le_iff_le_mul_add_pred hpos]
  have := Nat.le_mul_of_pos_left config.documentTokens hpos
  omega

/-- The last chunk only ends with its document when this is cut into whole blocks. -/
theorem StreamConfig.dvd_of_last_chunk
    (h : (config.chunksPerDocument - 1) * config.blockSize + config.blockSize ≤
      config.documentTokens) : config.blockSize ∣ config.documentTokens := by
  have hle := config.documentTokens_le
  rw [← Nat.succ_mul, Nat.succ_eq_add_one, Nat.sub_add_cancel config.chunksPerDocument_pos] at h
  exact ⟨config.chunksPerDocument, by rw [mul_comm]; exact le_antisymm hle h⟩

theorem StreamConfig.saturatingMul_document (hspan : config.splitSpan ≤ usizeMax)
    {documentIndex : ℕ} (h : documentIndex < config.numDocuments) :
    saturatingMul documentIndex config.documentSpan = documentIndex * config.documentSpan := by
  refine saturatingMul_of_le ?_
  rcases Nat.eq_zero_or_pos documentIndex with rfl | hpos
  · rw [zero_mul]
    exact zero_le _
  · have hlt : documentIndex < config.splitSpan / config.documentSpan := by
      rw [StreamConfig.numDocuments] at h
      omega
    obtain ⟨hdocument, hle⟩ := document_le_span hlt
    omega

end

/-- When the streaming loader stays inside, the last chunk of a document ends with it. -/
theorem StreamInside.dvd (h : StreamInside dataset split) {documentTokens : ℕ}
    (hsome : dataset.logicalDocumentTokens = some documentTokens)
    (hblock : dataset.loaderBlockSize ≤ documentTokens) :
    dataset.loaderBlockSize ∣ documentTokens := by
  -- A loader with as many steps in an epoch as a document has chunks.
  set count := max ((documentTokens + dataset.loaderBlockSize - 1) / dataset.loaderBlockSize) 1
  have hcount : 0 < count := lt_of_lt_of_le zero_lt_one (le_max_right ..)
  let settings : StreamSettings := ⟨1, count, some count, none, fun _ _ => (0, 1)⟩
  set config := dataset.streamConfig split settings with hconfig
  have htokens : config.documentTokens = documentTokens := by
    rw [hconfig, AdmittedDataset.documentTokens_streamConfig,
      TokenDataset.resolveStreamLogicalDocumentTokens, hsome]
    exact max_eq_left hblock
  have hchunks : config.chunksPerDocument = count := by
    rw [StreamConfig.chunksPerDocument, htokens]
    rfl
  have hsteps : config.stepsPerEpoch = config.chunksPerDocument := by
    rw [hchunks]
    exact max_eq_left hcount
  have htotal : config.totalSteps = some config.chunksPerDocument := by
    rw [hchunks]
    exact if_pos (decide_eq_true hcount)
  obtain ⟨events, loader, k, n, it, hrun, hchunk⟩ :=
    StreamingDataLoader.exists_last_chunk hsteps htotal config.chunksPerDocument_le
  have hwindow : it.window config 0 ∈ (it.batch config).windows :=
    mem_map.2 ⟨0, mem_range.2 config.batchSize_pos, rfl⟩
  have hinside := h settings _ _ _ hrun k n _ (by simp) _ hwindow
  have hindex : it.documentIndex config 0 < config.numDocuments :=
    mod_lt _ (lt_of_lt_of_le zero_lt_one (le_max_right ..))
  have hstart : (it.window config 0).start = config.splitOffset +
      it.documentIndex config 0 * config.documentSpan +
        (config.chunksPerDocument - 1) * config.blockSize := by
    rw [StreamingIterator.window]
    simp only [hchunk]
    rw [StreamConfig.saturatingMul_document (dataset.splitSpan_le split) hindex,
      StreamConfig.saturatingMul_chunk (sub_lt config.chunksPerDocument_pos zero_lt_one)]
  have hend : (it.window config 0).start + (config.blockSize + 1) ≤ config.splitOffset +
      it.documentIndex config 0 * config.documentSpan + config.documentSpan :=
    (hinside.document_le _ rfl).2
  rw [hstart, StreamConfig.documentSpan] at hend
  rw [← htokens]
  exact StreamConfig.dvd_of_last_chunk (by omega)

end Streaming

/-! ## Both loaders -/

/-- **The windows that both loaders request lie inside of their document and of the split, and can be
copied, exactly for the datasets that fit.** -/
theorem requested_windows_inside_iff (dataset : AdmittedDataset) (split : DatasetSplit) :
    RandomInside dataset.toTokenDataset split ∧ StreamInside dataset split ↔
      dataset.Fits split := by
  constructor
  · rintro ⟨hrandom, hstream⟩
    have hroom := hrandom.room
    rw [AdmittedDataset.Fits]
    cases hlogical : dataset.logicalDocumentTokens with
    | none =>
      rw [hlogical] at hroom
      exact hroom
    | some documentTokens =>
      rw [hlogical] at hroom
      exact ⟨hroom.1, hstream.dvd hlogical hroom.1, hroom.2⟩
  · exact fun h => ⟨h.randomInside, h.streamInside⟩

/-! ## A document of five tokens in blocks of four -/

/-- One document of six tokens for each split. -/
def preparedManifest : TokenDataset.UniversalityCorpusManifest where
  corpusKind := .ruliad
  trainTokenCount := 6
  valTokenCount := 6
  tokenCount := 12
  trainSamples := 1
  validationSamples := 1
  chunks := [⟨"train-chunk-00000.u32le", .train, 0, 6, 1⟩,
    ⟨"validation-chunk-00000.u32le", .validation, 6, 6, 1⟩]

def preparedChunkDir : ChunkDir :=
  (Map.empty.insert "train-chunk-00000.u32le" (tokenBytes (List.replicate 6 1))).insert
    "validation-chunk-00000.u32le" (tokenBytes (List.replicate 6 2))

theorem holds_preparedChunkDir :
    Corpus.Holds preparedChunkDir (preparedManifest.chunks.map UniversalityChunkManifest.toFile)
      [List.replicate 6 1, List.replicate 6 2] where
  stored := .cons ((Map.insert_of_ne _ _ (by decide)).trans (Map.insert_self ..))
    (.cons (Map.insert_self ..) .nil)
  describes := by
    refine ⟨rfl, fun i entry tokens hentry htokens => ?_⟩
    match i, hentry, htokens with
    | 0, hentry, htokens =>
      cases hentry
      cases htokens
      exact ⟨rfl, rfl⟩
    | 1, hentry, htokens =>
      cases hentry
      cases htokens
      exact ⟨rfl, rfl⟩

/-- The dataset that is read from the manifest, with blocks of four tokens. -/
def preparedDataset : AdmittedDataset where
  storage := .chunked preparedChunkDir
    (preparedManifest.chunks.map UniversalityChunkManifest.toFile)
  tokenCount := 12
  trainLen := 6
  blockSize := 4
  logicalDocumentTokens := some 5
  dataLen := 12
  constructed := .manifest preparedChunkDir preparedManifest 4 rfl
  holds := .chunked holds_preparedChunkDir
  tokenCount_le := by decide
  trainLen_le := by decide
  blockSize_le := four_le_usizeMax
  logicalDocumentTokens_lt := by decide

/-- The second chunk of the document leaves it, and the training split. -/
theorem preparedDataset_streams_validation :
    ¬ (RandomInside preparedDataset.toTokenDataset .train ∧ StreamInside preparedDataset .train) :=
  fun h => absurd (h.2.dvd rfl (by decide)) (by decide)

end BurnDragon.Dataset
