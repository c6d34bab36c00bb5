import BurnDragon.Dataset.SourceStream

/-!
# What the chunks of a document cover

The chunks of a row of a live stream up to the first one that completes the documents hold every usable
token of the row's document after the first as a target, once and in order, and only padding after them.
The masks of the chunks are the mask of the whole document, cut at the same places, with zeros at the
padding. A document without a supervised target has no mask but zeros.
-/

namespace BurnDragon.Dataset

open Rust Layout Ruliad List

/-! ## Completion and masks -/

/-- The chunks that a document takes. -/
def documentChunks (eosId : Option ℕ) (blockSize : ℕ) (document : List ℕ) : ℕ :=
  max ((validDocumentTokenCount eosId document - 1 + max blockSize 1 - 1) / max blockSize 1) 1

/-- `source_selected_stream_document_complete`. -/
def sourceSelectedStreamDocumentComplete (documents : List (List ℕ)) (eosId : Option ℕ)
    (blockSize chunkIndex : ℕ) : Bool :=
  let chunks := ((documents.map (documentChunks eosId blockSize)).max?).getD 1
  saturatingAdd chunkIndex 1 ≥ chunks

/-- `ruliad_target_loss_mask_for_document_range`. -/
def ruliadTargetLossMaskForDocumentRange (document : List ℕ) (usableLen start blockSize : ℕ)
    (mask : List ℤ) (supervision : RuliadTokenSupervisionConfig) : Run (Bool × List ℤ) :=
  let mask := List.replicate mask.length 0
  let usableLen := min usableLen document.length
  if usableLen < 2 || blockSize = 0 then
    .ok (false, mask)
  else do
    let (any, documentMask) ←
      ruliadTokenLossMask (document.take usableLen) (List.replicate (usableLen - 1) 0) supervision
    if any then
      let mask := mask.mapIdx fun offset slot =>
        if offset < blockSize then documentMask[saturatingAdd start offset]?.getD slot else slot
      return (mask.any (· ≠ 0), mask)
    else
      return (false, mask)

/-- `source_selected_stream_loss_masks_from_documents`. -/
def sourceSelectedStreamLossMasksFromDocuments (documents : List (List ℕ)) (eosId : Option ℕ)
    (batchSize blockSize chunkIndex : ℕ) (supervision : RuliadTokenSupervisionConfig) :
    Run (List (List ℤ)) :=
  if documents.isEmpty then
    .ok []
  else
    let start := saturatingMul chunkIndex blockSize
    (List.range batchSize).mapM fun row => do
      let document := documents.getD (row % documents.length) []
      let usableLen := validDocumentTokenCount eosId document
      let (_, mask) ← ruliadTargetLossMaskForDocumentRange document usableLen start blockSize
        (List.replicate blockSize 0) supervision
      return mask

/-! ## The last chunk -/

variable {documents : List (List ℕ)} {eosId : Option ℕ} {blockSize : ℕ}

section Completion

theorem validDocumentTokenCount_le (eosId : Option ℕ) (document : List ℕ) :
    validDocumentTokenCount eosId document ≤ document.length := min_le_right _ _

theorem documentChunks_le (eosId : Option ℕ) (hblock : 1 ≤ blockSize) {document : List ℕ}
    (hlength : document.length ≤ usizeMax) : documentChunks eosId blockSize document ≤ usizeMax := by
  have hvalid := validDocumentTokenCount_le eosId document
  have hone : 1 ≤ usizeMax := by decide
  unfold documentChunks
  rw [max_eq_left hblock]
  refine max_le ?_ hone
  cases hcount : validDocumentTokenCount eosId document - 1 with
  | zero => rw [Nat.div_eq_of_lt (by omega)]; exact Nat.zero_le _
  | succ n =>
    rw [show n + 1 + blockSize - 1 = n + blockSize by omega, Nat.add_div_right _ hblock]
    have := Nat.div_le_self n blockSize
    omega

/-- A document has no more targets than its chunks hold. -/
theorem targets_le_documentChunks (hblock : 1 ≤ blockSize) (eosId : Option ℕ) (document : List ℕ) :
    validDocumentTokenCount eosId document - 1 ≤
      documentChunks eosId blockSize document * blockSize := by
  have hceil := Nat.lt_div_mul_add hblock
    (a := validDocumentTokenCount eosId document - 1 + blockSize - 1)
  have hmax := Nat.mul_le_mul_right blockSize (le_max_left
    ((validDocumentTokenCount eosId document - 1 + blockSize - 1) / blockSize) 1)
  unfold documentChunks
  rw [max_eq_left hblock]
  omega

/-- The first chunk that completes the documents ends no document too early. -/
theorem exists_first_complete (eosId : Option ℕ) (hne : documents ≠ []) (hblock : 1 ≤ blockSize)
    (hlength : ∀ document ∈ documents, document.length ≤ usizeMax) : ∃ last,
      sourceSelectedStreamDocumentComplete documents eosId blockSize last = true ∧
      (∀ chunk < last, sourceSelectedStreamDocumentComplete documents eosId blockSize chunk = false) ∧
      ∀ document ∈ documents,
        validDocumentTokenCount eosId document - 1 ≤ (last + 1) * blockSize := by
  obtain ⟨chunks, hchunks⟩ : ∃ chunks,
      (documents.map (documentChunks eosId blockSize)).max? = some chunks :=
    Option.isSome_iff_exists.1 (isSome_max?_of_ne_nil (by simpa using hne))
  obtain ⟨hmem, hle⟩ := max?_eq_some_iff.1 hchunks
  obtain ⟨longest, hlongest, rfl⟩ := mem_map.1 hmem
  have hpos : 1 ≤ documentChunks eosId blockSize longest := le_max_right _ _
  have hmax := documentChunks_le eosId hblock (hlength longest hlongest)
  have hcomplete : ∀ chunk, sourceSelectedStreamDocumentComplete documents eosId blockSize chunk =
      decide (documentChunks eosId blockSize longest ≤ chunk + 1) := by
    intro chunk
    rw [sourceSelectedStreamDocumentComplete, hchunks]
    refine decide_eq_decide.2 ?_
    unfold saturatingAdd
    rw [Option.getD_some]
    omega
  refine ⟨documentChunks eosId blockSize longest - 1, ?_, fun chunk hchunk => ?_,
    fun document hdocument => ?_⟩
  · rw [hcomplete, decide_eq_true_eq]
    omega
  · rw [hcomplete, decide_eq_false_iff_not]
    omega
  · rw [Nat.sub_add_cancel hpos]
    exact (targets_le_documentChunks hblock eosId document).trans
      (Nat.mul_le_mul_right _ (hle _ (mem_map_of_mem hdocument)))

end Completion

/-! ## Targets -/

variable {document : List ℕ}

section Targets

/-- The tokens of a document up to its end mark. -/
def usableTokens (eosId : Option ℕ) (document : List ℕ) : List ℕ :=
  document.take (validDocumentTokenCount eosId document)

@[simp] theorem length_usableTokens (eosId : Option ℕ) (document : List ℕ) :
    (usableTokens eosId document).length = validDocumentTokenCount eosId document := by
  rw [usableTokens, length_take, min_eq_left (validDocumentTokenCount_le _ _)]

theorem paddedToken_eq (eosId : Option ℕ) (document : List ℕ) (position : ℕ) :
    paddedToken eosId document position =
      (usableTokens eosId document)[position]?.getD (eosId.getD 0) := by
  rw [paddedToken, usableTokens, getElem?_take]
  split_ifs with hlt
  · cases document[position]? <;> simp [Option.filter, hlt]
  · cases document[position]? <;> simp [Option.filter, hlt]

/-- The targets of the chunks are the usable tokens after the first, and padding. -/
theorem flatMap_targets (hlength : document.length ≤ usizeMax) {count : ℕ}
    (hcount : validDocumentTokenCount eosId document - 1 ≤ count * blockSize) :
    ((List.range count).flatMap fun chunkIndex =>
        (documentChunk eosId document blockSize chunkIndex).drop 1) =
      (usableTokens eosId document).drop 1 ++
        List.replicate (count * blockSize - (validDocumentTokenCount eosId document - 1))
          (eosId.getD 0) := by
  have hvalid : ((usableTokens eosId document).drop 1).length =
      validDocumentTokenCount eosId document - 1 := by
    rw [length_drop, length_usableTokens]
  have hdrop : ∀ chunkIndex, (documentChunk eosId document blockSize chunkIndex).drop 1 =
      (List.range blockSize).map fun offset =>
        ((usableTokens eosId document).drop 1)[chunkIndex * blockSize + offset]?.getD
          (eosId.getD 0) := by
    intro chunkIndex
    rw [documentChunk_eq hlength, ← map_drop, range_succ_eq_map, drop_one, tail_cons, map_map]
    refine map_congr_left fun offset _ => ?_
    rw [Function.comp_apply, paddedToken_eq, getElem?_drop]
    congr 2
    omega
  simp only [hdrop]
  rw [flatMap_range_blocks fun i => ((usableTokens eosId document).drop 1)[i]?.getD (eosId.getD 0),
    map_getD_range _ _ (hvalid.trans_le hcount), hvalid]

end Targets

/-! ## Masks -/

variable {supervision : RuliadTokenSupervisionConfig}

section Masks

variable {any : Bool} {weights : List ℤ}

/-- The mask of a whole document. -/
def documentLossMask (eosId : Option ℕ) (document : List ℕ)
    (supervision : RuliadTokenSupervisionConfig) : Run (Bool × List ℤ) :=
  ruliadTokenLossMask (usableTokens eosId document)
    (List.replicate (validDocumentTokenCount eosId document - 1) 0) supervision

theorem length_of_documentLossMask
    (h : documentLossMask eosId document supervision = .ok (any, weights)) :
    weights.length = validDocumentTokenCount eosId document - 1 := by
  obtain ⟨any', weights', hmask, hlength, -⟩ := ruliadTokenLossMask_nonneg
    (usableTokens eosId document) (List.replicate (validDocumentTokenCount eosId document - 1) 0)
    supervision
  obtain ⟨-, rfl⟩ := Prod.mk.inj (Except.ok.inj (h.symm.trans hmask))
  rw [hlength, length_replicate]

/-- The mask of a range is the part of the document's mask there. -/
theorem ruliadTargetLossMaskForDocumentRange_eq (hlength : document.length ≤ usizeMax)
    (hblock : 1 ≤ blockSize)
    (h : documentLossMask eosId document supervision = .ok (any, weights)) (chunkIndex : ℕ) :
    (ruliadTargetLossMaskForDocumentRange document (validDocumentTokenCount eosId document)
        (saturatingMul chunkIndex blockSize) blockSize (List.replicate blockSize 0)
        supervision).map Prod.snd =
      .ok ((List.range blockSize).map fun offset =>
        (if any then weights else [])[chunkIndex * blockSize + offset]?.getD 0) := by
  have hweights := length_of_documentLossMask h
  have hvalid := validDocumentTokenCount_le eosId document
  have hzeros : (List.range blockSize).map (fun offset =>
      ([] : List ℤ)[chunkIndex * blockSize + offset]?.getD 0) = List.replicate blockSize 0 := by
    simp
  unfold ruliadTargetLossMaskForDocumentRange
  rw [length_replicate, min_eq_left hvalid]
  by_cases hshort : validDocumentTokenCount eosId document < 2
  · obtain rfl : weights = [] := eq_nil_of_length_eq_zero (by omega)
    rw [if_pos (by simp [hshort]), ite_self, hzeros]
    rfl
  rw [if_neg (by simp [hshort]; omega)]
  change ruliadTokenLossMask (document.take _) _ _ = _ at h
  rw [h]
  cases any with
  | false => exact congrArg Except.ok hzeros.symm
  | true =>
    refine congrArg Except.ok (ext_getElem (by simp) fun offset hoffset hoffset' => ?_)
    have hlt : offset < blockSize := by simpa using hoffset'
    rw [getElem_mapIdx, getElem_map, getElem_range, if_pos hlt, if_pos rfl,
      getElem_replicate, saturatingAdd_saturatingMul]
    rcases le_total (chunkIndex * blockSize + offset) usizeMax with hle | hle
    · rw [min_eq_left hle]
    · rw [min_eq_right hle, getElem?_eq_none (show weights.length ≤ usizeMax by omega),
        getElem?_eq_none (show weights.length ≤ chunkIndex * blockSize + offset by omega)]

/-- The masks of the chunks are the document's mask, and zeros. -/
theorem flatMap_masks (h : documentLossMask eosId document supervision = .ok (any, weights))
    {count : ℕ} (hcount : validDocumentTokenCount eosId document - 1 ≤ count * blockSize) :
    ((List.range count).flatMap fun chunkIndex => (List.range blockSize).map fun offset =>
        (if any then weights else [])[chunkIndex * blockSize + offset]?.getD 0) =
      (if any then weights else List.replicate weights.length 0) ++
        List.replicate (count * blockSize - (validDocumentTokenCount eosId document - 1)) 0 := by
  have hweights := length_of_documentLossMask h
  rw [flatMap_range_blocks fun i => (if any then weights else [])[i]?.getD 0]
  cases any with
  | false =>
    rw [if_neg Bool.false_ne_true, if_neg Bool.false_ne_true, map_getD_range _ _ (Nat.zero_le _),
      nil_append, ← replicate_add, hweights, Nat.add_sub_cancel' hcount]
    rfl
  | true =>
    rw [if_pos rfl, if_pos rfl, map_getD_range _ _ (hweights.trans_le hcount), hweights]

end Masks

/-! ## Rows -/

section Rows

/-- The document of a row. -/
def rowDocument (documents : List (List ℕ)) (row : ℕ) : List ℕ :=
  documents.getD (row % documents.length) []

theorem rowDocument_mem (hne : documents ≠ []) (row : ℕ) : rowDocument documents row ∈ documents := by
  have hlt := Nat.mod_lt row (length_pos_iff.2 hne)
  rw [rowDocument, getD_eq_getElem?_getD, getElem?_eq_getElem hlt]
  exact getElem_mem hlt

/-- What the chunks of a row hold, up to a chunk: the windows' targets and the masks. -/
structure CoversRow (corpus : SourceCorpus) (documents : List (List ℕ)) (blockSize last row : ℕ)
    (supervision : RuliadTokenSupervisionConfig) (windows : ℕ → List (List ℕ))
    (masks : ℕ → List (List ℤ)) : Prop where
  targets_eq : ((List.range (last + 1)).flatMap fun chunk => ((windows chunk).getD row []).drop 1) =
    (usableTokens corpus.eosId (rowDocument documents row)).drop 1 ++
      List.replicate ((last + 1) * blockSize -
        (validDocumentTokenCount corpus.eosId (rowDocument documents row) - 1))
        (corpus.eosId.getD 0)
  masks_eq : ∃ any weights, documentLossMask corpus.eosId (rowDocument documents row) supervision =
      .ok (any, weights) ∧
    weights.length = ((usableTokens corpus.eosId (rowDocument documents row)).drop 1).length ∧
    ((List.range (last + 1)).flatMap fun chunk => (masks chunk).getD row []) =
      (if any then weights else List.replicate weights.length 0) ++
        List.replicate ((last + 1) * blockSize -
          (validDocumentTokenCount corpus.eosId (rowDocument documents row) - 1)) 0
  length_targets : ∀ chunk, (((windows chunk).getD row []).drop 1).length = blockSize
  length_masks : ∀ chunk, ((masks chunk).getD row []).length = blockSize

/-- The window of a row. -/
theorem getD_streamWindows (corpus : SourceCorpus) (hne : documents ≠ []) {window : RuliadWindowRequest}
    (hprefer : window.preferAnswerWindow = false) {row : ℕ} (hrow : row < window.batchSize)
    (chunk : ℕ) :
    (corpus.streamWindowsFromDocuments documents ⟨window, chunk⟩).getD row [] =
      documentChunk corpus.eosId (rowDocument documents row) window.blockSize chunk := by
  rw [SourceCorpus.streamWindowsFromDocuments, if_neg (by simpa using hne), getD_eq_getElem?_getD,
    getElem?_map, getElem?_range hrow, Option.map_some, Option.getD_some, SourceCorpus.streamWindow]
  dsimp only
  rw [if_neg (by simp [hprefer])]
  rfl

/-- The masks of a chunk. -/
theorem exists_masks (eosId : Option ℕ) (hne : documents ≠ [])
    (hlength : ∀ document ∈ documents, document.length ≤ usizeMax) (hblock : 1 ≤ blockSize)
    (batchSize chunk : ℕ) (supervision : RuliadTokenSupervisionConfig) :
    ∃ masks, sourceSelectedStreamLossMasksFromDocuments documents eosId batchSize blockSize chunk
        supervision = .ok masks ∧
      ∀ row < batchSize, ∀ any weights,
        documentLossMask eosId (rowDocument documents row) supervision = .ok (any, weights) →
        masks.getD row [] = (List.range blockSize).map fun offset =>
          (if any then weights else [])[chunk * blockSize + offset]?.getD 0 := by
  rw [sourceSelectedStreamLossMasksFromDocuments, if_neg (by simpa using hne)]
  dsimp only
  generalize hrow : (fun row => _ : ℕ → Run (List ℤ)) = rowMask
  have hmask : ∀ row any weights,
      documentLossMask eosId (rowDocument documents row) supervision = .ok (any, weights) →
      rowMask row = .ok ((List.range blockSize).map fun offset =>
        (if any then weights else [])[chunk * blockSize + offset]?.getD 0) := by
    intro row any weights h
    have hrange := ruliadTargetLossMaskForDocumentRange_eq (hlength _ (rowDocument_mem hne row)) hblock
      h chunk
    rw [← hrow, ← hrange]
    rfl
  have hreturns : ∀ row ∈ List.range batchSize, ∃ mask, rowMask row = .ok mask := fun row _ => by
    obtain ⟨any, weights, h, -, -⟩ := ruliadTokenLossMask_nonneg
      (usableTokens eosId (rowDocument documents row))
      (List.replicate (validDocumentTokenCount eosId (rowDocument documents row) - 1) 0) supervision
    exact ⟨_, hmask row any weights h⟩
  obtain ⟨masks, hmasks⟩ := mapM_returns hreturns
  refine ⟨masks, hmasks, fun row hlt any weights h => ?_⟩
  have hindex : row < masks.length := by rwa [length_of_mapM hmasks, length_range]
  obtain ⟨i, hi, hresult⟩ := getElem?_of_mapM hmasks (getElem?_eq_getElem hindex)
  obtain ⟨_, rfl⟩ := List.getElem?_eq_some_iff.1 hi
  rw [getElem_range, hmask row any weights h] at hresult
  rw [getD_eq_getElem?_getD, getElem?_eq_getElem hindex, Option.getD_some, Except.ok.inj hresult]

/-- **The chunks of a row cover its document.** There is a first chunk that completes the documents. Up to
it, the targets of a row are the usable tokens of its document after the first, in order, and padding; and
the masks are the mask of the whole document, cut alike, with zeros at the padding. They are all 0 for a
document of which no target is supervised. -/
theorem stream_chunks_cover (corpus : SourceCorpus) (supervision : RuliadTokenSupervisionConfig)
    (window : RuliadWindowRequest) (hne : documents ≠ [])
    (hlength : ∀ document ∈ documents, document.length ≤ usizeMax) (hblock : 1 ≤ window.blockSize)
    (hprefer : window.preferAnswerWindow = false) : ∃ last,
      sourceSelectedStreamDocumentComplete documents corpus.eosId window.blockSize last = true ∧
      (∀ chunk < last,
        sourceSelectedStreamDocumentComplete documents corpus.eosId window.blockSize chunk = false) ∧
      ∃ masks : ℕ → List (List ℤ),
        (∀ chunk, sourceSelectedStreamLossMasksFromDocuments documents corpus.eosId window.batchSize
          window.blockSize chunk supervision = .ok (masks chunk)) ∧
        ∀ row < window.batchSize, CoversRow corpus documents window.blockSize last row supervision
          (fun chunk => corpus.streamWindowsFromDocuments documents ⟨window, chunk⟩) masks := by
  obtain ⟨last, hcomplete, hfirst, hcount⟩ := exists_first_complete corpus.eosId hne hblock hlength
  choose masks hmasks hrows using fun chunk =>
    exists_masks corpus.eosId hne hlength hblock window.batchSize chunk supervision
  refine ⟨last, hcomplete, hfirst, masks, hmasks, fun row hrow => ?_⟩
  have hdocument := rowDocument_mem hne row
  have htargets := hcount _ hdocument
  obtain ⟨any, weights, hmask, -, -⟩ := ruliadTokenLossMask_nonneg
    (usableTokens corpus.eosId (rowDocument documents row))
    (List.replicate (validDocumentTokenCount corpus.eosId (rowDocument documents row) - 1) 0)
    supervision
  have hrowMask := fun chunk => hrows chunk row hrow any weights hmask
  refine ⟨?_, ⟨any, weights, hmask, ?_, ?_⟩, fun chunk => ?_, fun chunk => ?_⟩
  · simp only [getD_streamWindows corpus hne hprefer hrow]
    exact flatMap_targets (hlength _ hdocument) htargets
  · rw [length_of_documentLossMask hmask, List.length_drop, length_usableTokens]
  · simp only [hrowMask]
    exact flatMap_masks hmask htargets
  · rw [getD_streamWindows corpus hne hprefer hrow, documentChunk, List.length_drop, List.length_map,
      List.length_range, Nat.add_sub_cancel]
  · rw [hrowMask, List.length_map, List.length_range]

theorem stream_chunks_cover_pairCorpus : ∃ last,
    sourceSelectedStreamDocumentComplete [[5, 6, 7, 8]] pairCorpus.eosId 2 last = true ∧
    (∀ chunk < last,
      sourceSelectedStreamDocumentComplete [[5, 6, 7, 8]] pairCorpus.eosId 2 chunk = false) ∧
    ∃ masks : ℕ → List (List ℤ),
      (∀ chunk, sourceSelectedStreamLossMasksFromDocuments [[5, 6, 7, 8]] pairCorpus.eosId 3 2 chunk
        .default = .ok (masks chunk)) ∧
      ∀ row < 3, CoversRow pairCorpus [[5, 6, 7, 8]] 2 last row .default
        (fun chunk => pairCorpus.streamWindowsFromDocuments [[5, 6, 7, 8]]
          ⟨⟨.train, 0, 0, 3, 2, false⟩, chunk⟩) masks :=
  stream_chunks_cover pairCorpus .default ⟨.train, 0, 0, 3, 2, false⟩ (by simp) (by decide)
    (Nat.le_succ 1) rfl

/-- The mask of this document is not 0, but it has no supervised target, and its chunk is masked. -/
theorem unanswered_document_masked :
    documentLossMask none [1, 2, 3] { RuliadTokenSupervisionConfig.default with mode := .traceAndAnswer } =
      .ok (false, [1, 1]) ∧
    sourceSelectedStreamDocumentComplete [[1, 2, 3]] none 2 0 = true ∧
    sourceSelectedStreamLossMasksFromDocuments [[1, 2, 3]] none 1 2 0
      { RuliadTokenSupervisionConfig.default with mode := .traceAndAnswer } = .ok [[0, 0]] :=
  ⟨rfl, rfl, rfl⟩

end Rows

end BurnDragon.Dataset
