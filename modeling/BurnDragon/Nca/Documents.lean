import BurnDragon.Nca.Decode
import BurnDragon.Nca.Materialize

/-!
# Documents with boundary tokens

The boundary tokens of a document are made from the state count of its sample, and a patch token of
another document can be any number below the number of patches of that document. All documents of a
configuration use the same boundary tokens, apart from all patch tokens, exactly if the configuration
has one state count and an end of sequence beyond its patches (`uniquelyDecodable_iff`).
-/

namespace BurnDragon.Nca

open Rust Layout Nat

variable {vocabSize patchSize stateCount width height : ℕ} {eosId : Option UInt32}
  {overflowChecks : Bool} {config : NcaCorpusConfig} {sample sample' : NcaSample}
  {tokens tokens' : List ℕ}

/-! ## Documents -/

/-- The patch tokens of a sample. -/
def NcaSample.patchTokens (patchSize : ℕ) (sample : NcaSample) : List ℕ :=
  sample.frames.flatMap fun frame =>
    (patches (sample.width / patchSize) (sample.height / patchSize)).map
      (frameValue sample.width patchSize sample.stateCount frame)

def NcaSample.startId (patchSize : ℕ) (sample : NcaSample) : Option ℕ :=
  frameStartId true (patchVocabSize patchSize sample.stateCount)

def NcaSample.endId (patchSize : ℕ) (sample : NcaSample) : Option ℕ :=
  frameEndId true (patchVocabSize patchSize sample.stateCount)

/-- The tokens of a document that are not patch tokens. -/
def NcaSample.specialIds (eosId : Option UInt32) (patchSize : ℕ) (sample : NcaSample) : List ℕ :=
  (sample.startId patchSize).toList ++ (sample.endId patchSize).toList ++
    (eosId.map UInt32.toNat).toList

/-- A document of a configuration: the tokens of a sample of one of its families, on a grid of whole
patches. -/
structure Document (overflowChecks : Bool) (config : NcaCorpusConfig) (vocabSize : ℕ)
    (eosId : Option UInt32) (sample : NcaSample) (tokens : List ℕ) : Prop where
  family : ∃ family ∈ config.families, SampleOf overflowChecks config.serialization family sample
  width_dvd : config.serialization.patchSize ∣ sample.width
  height_dvd : config.serialization.patchSize ∣ sample.height
  frames_ne : sample.frames ≠ []
  encoded : (CorpusTokenizer.patchTokenIds vocabSize eosId true).encodePatchSample sample
    config.serialization = .ok tokens

/-- What a decoder relies on. -/
structure UniquelyDecodable (overflowChecks : Bool) (config : NcaCorpusConfig) (vocabSize : ℕ)
    (eosId : Option UInt32) : Prop where
  boundaries : ∀ sample tokens sample' tokens',
    Document overflowChecks config vocabSize eosId sample tokens →
    Document overflowChecks config vocabSize eosId sample' tokens' →
    sample.startId config.serialization.patchSize = sample'.startId config.serialization.patchSize ∧
      sample.endId config.serialization.patchSize = sample'.endId config.serialization.patchSize
  special : ∀ sample tokens sample' tokens',
    Document overflowChecks config vocabSize eosId sample tokens →
    Document overflowChecks config vocabSize eosId sample' tokens' →
    ∀ id ∈ sample.specialIds eosId config.serialization.patchSize,
      id ∉ sample'.patchTokens config.serialization.patchSize
  frames : ∀ sample tokens, Document overflowChecks config vocabSize eosId sample tokens →
    decodeFrames eosId true config.serialization.patchSize sample.stateCount sample.width sample.height
      tokens = sample.frames

/-! ## Shapes of documents -/

/-- A state count and a grid of which there are documents. -/
structure HasDocuments (overflowChecks : Bool) (config : NcaCorpusConfig) (vocabSize : ℕ)
    (eosId : Option UInt32) (stateCount width height : ℕ) : Prop where
  family : ∃ family ∈ config.families, family.HasStateCount stateCount ∧
    family.HasGrid overflowChecks config.serialization.patchSize width height
  width_dvd : config.serialization.patchSize ∣ width
  height_dvd : config.serialization.patchSize ∣ height
  sample : SampleFits vocabSize eosId true config.serialization.patchSize stateCount
  boundaries : BoundariesFit vocabSize
    (frameStartId true (patchVocabSize config.serialization.patchSize stateCount))
    (frameEndId true (patchVocabSize config.serialization.patchSize stateCount))

/-- One state count, whose patches spell numbers below the end of sequence. -/
def SharedAlphabet (overflowChecks : Bool) (config : NcaCorpusConfig) (vocabSize : ℕ)
    (eosId : Option UInt32) : Prop :=
  ∀ stateCount width height stateCount' width' height',
    HasDocuments overflowChecks config vocabSize eosId stateCount width height →
    HasDocuments overflowChecks config vocabSize eosId stateCount' width' height' →
    (stateCount = stateCount' ∨
      2 ^ 32 ∣ config.serialization.patchSize * config.serialization.patchSize) ∧
    (0 < width' → 0 < height' →
      config.serialization.patchSize * config.serialization.patchSize < 2 ^ 32 ∧
      ∀ id ∈ eosId,
        stateCount' ^ (config.serialization.patchSize * config.serialization.patchSize) ≤ id.toNat)

theorem Document.stateCount_bounds (h : Document overflowChecks config vocabSize eosId sample tokens) :
    1 < sample.stateCount ∧ sample.stateCount < 2 ^ 32 := by
  obtain ⟨family, -, hsample⟩ := h.family
  have := hsample.stateCount.bounds
  omega

theorem Document.frameOf (h : Document overflowChecks config vocabSize eosId sample tokens) :
    ∀ frame ∈ sample.frames, FrameOf sample.width sample.height sample.stateCount frame := by
  obtain ⟨family, -, hsample⟩ := h.family
  exact hsample.frames

section

variable (hpatch : 0 < config.serialization.patchSize)
  (h : Document overflowChecks config vocabSize eosId sample tokens)
include hpatch h

theorem Document.fits :
    (SampleFits vocabSize eosId true config.serialization.patchSize sample.stateCount ∧
      ∀ frame ∈ sample.frames, FrameFits vocabSize true config.serialization.patchSize sample frame) ∧
    tokens = sampleTokens eosId true config.serialization.patchSize sample :=
  (encodePatchSample_eq_ok hpatch h.frameOf (zero_lt_of_lt h.stateCount_bounds.1)
    h.stateCount_bounds.2).1 h.encoded

theorem Document.hasDocuments :
    HasDocuments overflowChecks config vocabSize eosId sample.stateCount sample.width
      sample.height := by
  obtain ⟨⟨hsample, hframes⟩, -⟩ := h.fits hpatch
  obtain ⟨frame, hframe⟩ := List.exists_mem_of_ne_nil _ h.frames_ne
  obtain ⟨family, hfamily, hshape⟩ := h.family
  exact ⟨⟨family, hfamily, hshape.stateCount, hshape.grid⟩, h.width_dvd, h.height_dvd, hsample,
    (hframes frame hframe).boundaries⟩

end

/-- A patch token spells the cells of a patch. -/
theorem Document.patchToken_lt (h : Document overflowChecks config vocabSize eosId sample tokens)
    {id : ℕ} (hid : id ∈ sample.patchTokens config.serialization.patchSize) :
    (0 < sample.width ∧ 0 < sample.height) ∧ id < sample.stateCount ^
      (config.serialization.patchSize * config.serialization.patchSize) := by
  obtain ⟨frame, hframe, hid⟩ := List.mem_flatMap.1 hid
  obtain ⟨patch, hpatch, rfl⟩ := List.mem_map.1 hid
  exact ⟨pos_of_mem_patches hpatch,
    (h.frameOf frame hframe).frameValue_lt _ h.stateCount_bounds.1 patch⟩

section

variable (hpatch : 0 < config.serialization.patchSize)
  (h : HasDocuments overflowChecks config vocabSize eosId stateCount width height)
include hpatch h

/-- Every number that a patch can spell is a patch token of a document. -/
theorem HasDocuments.exists_patchToken {id : ℕ}
    (hid : id < stateCount ^ (config.serialization.patchSize * config.serialization.patchSize))
    (hmax : id < 2 ^ 32) (hvocab : id < vocabSize) :
    ∃ sample tokens, Document overflowChecks config vocabSize eosId sample tokens ∧
      sample.stateCount = stateCount ∧ (0 < width → 0 < height →
        id ∈ sample.patchTokens config.serialization.patchSize) := by
  obtain ⟨family, hfamily, hstates, hgrid⟩ := h.family
  have hbounds := hstates.bounds
  have hpos : 0 < stateCount := by omega
  obtain ⟨digits, hlength, hdigits, hspell⟩ := exists_spell hpos hid
  have hframe := frameOf_frameWithPatch width height config.serialization.patchSize hpos hdigits
  have hfirst : 0 < width → 0 < height → frameValue width config.serialization.patchSize stateCount
      (frameWithPatch width height config.serialization.patchSize digits) (0, 0) = id := fun hw hh =>
    (frameValue_frameWithPatch (le_of_dvd hw h.width_dvd) (le_of_dvd hh h.height_dvd)
      hlength).trans hspell
  have hvalues : ∀ patch ∈ patches (width / config.serialization.patchSize)
      (height / config.serialization.patchSize),
      PatchFits vocabSize width config.serialization.patchSize stateCount
        (frameWithPatch width height config.serialization.patchSize digits) patch := by
    intro patch hmem
    obtain ⟨hw, hh⟩ := pos_of_mem_patches hmem
    rw [PatchFits]
    by_cases hne : patch = (0, 0)
    · rw [hne, hfirst hw hh]
      exact ⟨hmax, hvocab⟩
    · rw [frameValue_frameWithPatch_eq_zero hmem hne]
      omega
  set sample := plainSample family width height stateCount
    [frameWithPatch width height config.serialization.patchSize digits] with hsample
  have hframes : ∀ frame ∈ sample.frames, FrameOf width height stateCount frame := by
    simpa [hsample, plainSample] using hframe
  refine ⟨sample, _, ⟨⟨family, hfamily, hstates, hgrid, hframes⟩, h.width_dvd, h.height_dvd,
    by simp [hsample, plainSample], (encodePatchSample_eq_ok hpatch hframes hpos
      (by change stateCount < 2 ^ 32; omega)).2 ⟨⟨h.sample, fun frame hmem => ?_⟩, rfl⟩⟩, rfl, fun hw hh => ?_⟩
  · obtain rfl : frame = frameWithPatch width height config.serialization.patchSize digits := by
      simpa [hsample, plainSample] using hmem
    exact ⟨h.boundaries, hvalues⟩
  · refine List.mem_flatMap.2 ⟨_, List.mem_singleton_self _, List.mem_map.2 ⟨(0, 0), ?_, hfirst hw hh⟩⟩
    exact mem_patches.2 ⟨div_pos (le_of_dvd hw h.width_dvd) hpatch,
      div_pos (le_of_dvd hh h.height_dvd) hpatch⟩

/-- There is a document of every shape that has documents. -/
theorem HasDocuments.exists_document :
    ∃ sample tokens, Document overflowChecks config vocabSize eosId sample tokens ∧
      sample.stateCount = stateCount := by
  obtain ⟨family, -, hstates, -⟩ := h.family
  have hbounds := hstates.bounds
  have hvocab : 0 < vocabSize := zero_lt_of_lt (h.boundaries.1 _ rfl)
  obtain ⟨sample, tokens, hdocument, hsample, -⟩ :=
    h.exists_patchToken hpatch (Nat.pow_pos (by omega)) (by decide) hvocab
  exact ⟨sample, tokens, hdocument, hsample⟩

end

/-! ## Decoding -/

theorem mem_specialIds {id : ℕ} : id ∈ sample.specialIds eosId patchSize ↔
    id = patchVocabSize patchSize sample.stateCount ∨
      checkedSucc (patchVocabSize patchSize sample.stateCount) = some id ∨
      ∃ eos ∈ eosId, eos.toNat = id := by
  simp [NcaSample.specialIds, NcaSample.startId, NcaSample.endId, frameStartId, frameEndId, eq_comm]

theorem uniquelyDecodable_of_sharedAlphabet (hpatch : 0 < config.serialization.patchSize)
    (h : SharedAlphabet overflowChecks config vocabSize eosId) :
    UniquelyDecodable overflowChecks config vocabSize eosId := by
  set cells := config.serialization.patchSize * config.serialization.patchSize with hcells
  have hcellsPos : 0 < cells := mul_pos hpatch hpatch
  refine ⟨fun sample tokens sample' tokens' hd hd' => ?_,
    fun sample tokens sample' tokens' hd hd' id hid hmem => ?_, fun sample tokens hd => ?_⟩
  · have hsame : patchVocabSize config.serialization.patchSize sample.stateCount =
        patchVocabSize config.serialization.patchSize sample'.stateCount := by
      rcases (h _ _ _ _ _ _ (hd.hasDocuments hpatch) (hd'.hasDocuments hpatch)).1 with heq | hdvd
      · rw [heq]
      · rw [patchVocabSize, patchVocabSize, mod_eq_zero_of_dvd hdvd, pow_zero, pow_zero]
    exact ⟨congrArg (frameStartId true) hsame, congrArg (frameEndId true) hsame⟩
  · obtain ⟨⟨hwidth, hheight⟩, hlt⟩ := hd'.patchToken_lt hmem
    obtain ⟨heq, hrest⟩ := h _ _ _ _ _ _ (hd.hasDocuments hpatch) (hd'.hasDocuments hpatch)
    obtain ⟨hsmall, heos⟩ := hrest hwidth hheight
    rw [← hcells] at heq hsmall heos hlt
    have hstates : sample.stateCount = sample'.stateCount :=
      heq.resolve_right fun hdvd => hsmall.not_ge (le_of_dvd hcellsPos hdvd)
    have hvocab : patchVocabSize config.serialization.patchSize sample.stateCount =
        sample'.stateCount ^ cells := by
      rw [patchVocabSize, ← hcells, mod_eq_of_lt hsmall, hstates]
    rcases mem_specialIds.1 hid with rfl | hend | ⟨eos, heosId, rfl⟩
    · exact hlt.ne hvocab
    · rw [checkedSucc, hvocab] at hend
      split_ifs at hend
      cases hend
      omega
    · exact hlt.not_ge (heos eos heosId)
  · rw [(hd.fits hpatch).2]
    exact decodeFrames_sampleTokens hpatch (zero_lt_of_lt hd.stateCount_bounds.1) hd.frameOf
      hd.width_dvd hd.height_dvd

theorem sharedAlphabet_of_uniquelyDecodable (hpatch : 0 < config.serialization.patchSize)
    (heos : ∀ id ∈ eosId, id.toNat < vocabSize)
    (h : UniquelyDecodable overflowChecks config vocabSize eosId) :
    SharedAlphabet overflowChecks config vocabSize eosId := by
  intro stateCount width height stateCount' width' height' hshape hshape'
  obtain ⟨sample, tokens, hd, rfl⟩ := hshape.exists_document hpatch
  obtain ⟨sample', tokens', hd', hstates'⟩ := hshape'.exists_document hpatch
  have hbounds' := hd'.stateCount_bounds
  rw [hstates'] at hbounds'
  set cells := config.serialization.patchSize * config.serialization.patchSize with hcells
  refine ⟨?_, fun hwidth hheight => ⟨?_, fun eos heosId => ?_⟩⟩
  · have hsame : sample.stateCount ^ (cells % 2 ^ 32) = stateCount' ^ (cells % 2 ^ 32) := by
      rw [← hstates']
      exact Option.some.inj (h.boundaries _ _ _ _ hd hd').1
    by_cases hzero : cells % 2 ^ 32 = 0
    · exact .inr (dvd_of_mod_eq_zero hzero)
    · exact .inl (Nat.pow_left_injective hzero hsame)
  · -- Otherwise the exponent is truncated, and the first boundary token is a patch token.
    by_contra hlarge
    have hexponent : cells % 2 ^ 32 < cells :=
      (mod_lt _ (by decide)).trans_le (not_lt.1 hlarge)
    have hlt : patchVocabSize config.serialization.patchSize stateCount' < stateCount' ^ cells :=
      Nat.pow_lt_pow_right hbounds'.1 hexponent
    obtain ⟨other, otherTokens, hother, -, hmem⟩ := hshape'.exists_patchToken hpatch hlt
      hshape'.sample.patchVocab (hshape'.boundaries.1 _ rfl)
    exact h.special _ _ _ _ hd' hother _ (mem_specialIds.2 (.inl (by rw [hstates'])))
      (hmem hwidth hheight)
  · by_contra hsmall
    obtain ⟨other, otherTokens, hother, -, hmem⟩ :=
      hshape'.exists_patchToken hpatch (not_le.1 hsmall) eos.toNat_lt (heos eos heosId)
    exact h.special _ _ _ _ hd' hother _ (mem_specialIds.2 (.inr (.inr ⟨eos, heosId, rfl⟩)))
      (hmem hwidth hheight)

/-- **Documents with boundary tokens.** For a configuration that `validate` accepts, all documents have
the same boundary tokens and no patch token among the special ones, so that one decoder recovers all
frames, exactly if the documents share one state count and the end of sequence is beyond their patch
tokens. -/
theorem uniquelyDecodable_iff (hvalid : config.validate overflowChecks = .ok ())
    (htokenization : config.tokenization = .patchTokenIds vocabSize eosId true) :
    UniquelyDecodable overflowChecks config vocabSize eosId ↔
      SharedAlphabet overflowChecks config vocabSize eosId := by
  obtain ⟨hpatch, -, hcheck⟩ := validate_eq_ok hvalid
  rw [checkTokenization, htokenization] at hcheck
  exact ⟨sharedAlphabet_of_uniquelyDecodable hpatch (eos_lt_of_checkPatchTokenIds hcheck),
    uniquelyDecodable_of_sharedAlphabet hpatch⟩

/-- A configuration with boundary tokens. -/
def framedConfig (stateCount : UsizeRangeConfig) (vocabSize : ℕ) (eosId : Option UInt32) :
    NcaCorpusConfig :=
  { smallConfig vocabSize 3 with
    tokenization := .patchTokenIds vocabSize eosId true
    families := [{ smallFamily 3 with stateCount := some stateCount }] }

theorem uniquelyDecodable_iff_three :
    UniquelyDecodable false (framedConfig ⟨3, 3⟩ 6 (some 5)) 6 (some 5) ↔
      SharedAlphabet false (framedConfig ⟨3, 3⟩ 6 (some 5)) 6 (some 5) :=
  uniquelyDecodable_iff rfl rfl

/-- Two state counts, and an end of sequence that a patch can spell. -/
theorem framedConfig_special_mem_patchTokens :
    (framedConfig ⟨3, 4⟩ 7 (some 2)).validate false = .ok () ∧
    ∃ sample sample', Document false (framedConfig ⟨3, 4⟩ 7 (some 2)) 7 (some 2) sample
        [3, 2, 4, 3, 2, 4, 2] ∧
      Document false (framedConfig ⟨3, 4⟩ 7 (some 2)) 7 (some 2) sample' [4, 3, 5, 4, 3, 5, 2] ∧
      sample.startId 1 = some 3 ∧ sample'.startId 1 = some 4 ∧ sample.endId 1 = some 4 ∧
      3 ∈ sample'.patchTokens 1 ∧ 2 ∈ sample.patchTokens 1 := by
  have hdocument : ∀ stateCount ∈ [3, 4], ∀ cell < stateCount, ∀ tokens,
      (CorpusTokenizer.patchTokenIds 7 (some 2) true).encodePatchSample
        (plainSample (smallFamily 3) 1 1 stateCount [[cell], [cell]])
        (framedConfig ⟨3, 4⟩ 7 (some 2)).serialization = .ok tokens →
      Document false (framedConfig ⟨3, 4⟩ 7 (some 2)) 7 (some 2)
        (plainSample (smallFamily 3) 1 1 stateCount [[cell], [cell]]) tokens := by
    intro stateCount hstates cell hcell tokens htokens
    have hstates : stateCount = 3 ∨ stateCount = 4 := by simpa using hstates
    refine ⟨⟨_, List.mem_singleton_self _, ⟨stateCount, ⟨?_, ?_⟩, ?_⟩,
      ⟨1, 1, ⟨le_rfl, le_rfl⟩, ⟨le_rfl, le_rfl⟩, rfl, rfl⟩, ?_⟩, dvd_rfl, dvd_rfl, nofun, htokens⟩
    · change 3 ≤ stateCount
      omega
    · change stateCount ≤ 4
      omega
    · rcases hstates with rfl | rfl <;> rfl
    · intro frame hframe
      obtain rfl : frame = [cell] := by simpa [plainSample] using hframe
      exact ⟨rfl, by simpa [plainSample] using hcell⟩
  exact ⟨rfl, plainSample (smallFamily 3) 1 1 3 [[2], [2]], plainSample (smallFamily 3) 1 1 4 [[3], [3]],
    hdocument 3 (by decide) 2 (by decide) _ rfl, hdocument 4 (by decide) 3 (by decide) _ rfl,
    rfl, rfl, rfl, by decide, by decide⟩

end BurnDragon.Nca
