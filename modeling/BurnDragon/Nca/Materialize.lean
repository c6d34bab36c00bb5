import BurnDragon.Nca.Encode

/-!
# Configurations that can be materialized

A sample is materialized when it is encoded and its statistics are computed. For the samples of a
shape this works exactly if the shape passes the checks of the encoder and the grid consists of whole
patches (`materializes_iff`). `validate` checks the largest configured state count only, so these
conditions are not implied by it.
-/

namespace BurnDragon.Nca

open Rust Layout List Nat

variable {ρ : Type} {ext : Externals ρ} {vocabSize patchSize stateCount width height : ℕ}
  {eosId : Option UInt32} {frameSpecialTokens overflowChecks : Bool} {sample : NcaSample}
  {frame : List ℕ} {serialization : NcaSerializationConfig} {family : NcaFamilyConfig}

/-! ## Statistics -/

theorem patchTokenIds_returns (hpatch : 0 < serialization.patchSize) (hpos : 0 < sample.stateCount)
    (hstates : sample.stateCount < 2 ^ 32)
    (hframes : ∀ frame ∈ sample.frames,
      FrameOf sample.width sample.height sample.stateCount frame)
    (hvalues : ∀ frame ∈ sample.frames, ∀ patch ∈ patches (sample.width / serialization.patchSize)
        (sample.height / serialization.patchSize),
      frameValue sample.width serialization.patchSize sample.stateCount frame patch < 2 ^ 32) :
    ∃ tokens, patchTokenIds sample serialization = .ok tokens := by
  have hmax : max serialization.patchSize 1 = serialization.patchSize := max_eq_left hpatch
  obtain ⟨values, hmap⟩ : ∃ values, (sample.frames.mapM fun frame =>
      (patches (sample.width / serialization.patchSize) (sample.height / serialization.patchSize)).mapM
        fun patch => patchValue Panic.arithmeticOverflow id sample.stateCount sample.width
          frame (patchCells serialization.patchSize patch.1 patch.2)) = .ok values := by
    refine mapM_returns fun frame hframe => mapM_returns fun patch hmem =>
      ⟨frameValue sample.width serialization.patchSize sample.stateCount frame patch, ?_⟩
    exact (patchValue_eq hpos ((hframes frame hframe).cell_index_lt hmem)).trans
      (if_pos (hvalues frame hframe patch hmem))
  refine ⟨values.flatten, ?_⟩
  simp only [patchTokenIds, hmax, mod_eq_of_lt hstates]
  exact bind_eq_ok.2 ⟨values, hmap, rfl⟩

theorem frameEntropyBits_returns (h : ∀ cell ∈ frame, cell < stateCount) :
    ∃ entropy, frameEntropyBits frame stateCount = .ok entropy := by
  have hcells : (frame.forM fun cell =>
      if cell < stateCount then .ok () else .error .indexOutOfBounds : Run Unit) = .ok () :=
    forM_eq_ok.2 fun cell hcell => if_pos (h cell hcell)
  unfold frameEntropyBits
  split_ifs
  · exact ⟨_, rfl⟩
  · rw [hcells]
    exact ⟨_, rfl⟩

theorem mem_stepBy (hpatch : 0 < patchSize) {extent x : ℕ} :
    x ∈ stepBy patchSize extent ↔ patchSize ∣ x ∧ x < extent := by
  simp only [stepBy, mem_map, mem_range]
  constructor
  · rintro ⟨m, hm, rfl⟩
    refine ⟨dvd_mul_left _ _, ?_⟩
    have hle := (le_div_iff_mul_le hpatch).1 (succ_le_of_lt hm)
    rw [succ_mul] at hle
    omega
  · rintro ⟨⟨m, rfl⟩, hlt⟩
    refine ⟨m, ?_, mul_comm _ _⟩
    refine lt_of_succ_le ((le_div_iff_mul_le hpatch).2 ?_)
    rw [succ_mul, mul_comm]
    omega

theorem mem_coordinates {cell : ℕ × ℕ} :
    cell ∈ coordinates width height ↔ cell.1 < width ∧ cell.2 < height := by
  obtain ⟨x, y⟩ := cell
  simp [coordinates, and_comm]

/-- A whole patch that starts inside the extent ends inside of it. -/
theorem add_lt_of_dvd {extent x dx : ℕ} (hextent : patchSize ∣ extent) (hx : patchSize ∣ x)
    (hlt : x < extent) (hdx : dx < patchSize) : x + dx < extent := by
  have := Nat.le_of_dvd (Nat.sub_pos_of_lt hlt) (Nat.dvd_sub hextent hx)
  omega

/-- A grid that the statistics can be computed for: it is empty, or it consists of whole patches. -/
def WholePatches (patchSize width height : ℕ) : Prop :=
  0 < width → 0 < height → patchSize ∣ width ∧ patchSize ∣ height

theorem framePatches_returns_iff (hpatch : 0 < patchSize) (hlength : frame.length = width * height) :
    (∃ patches, framePatches frame width height patchSize = .ok patches) ↔
      WholePatches patchSize width height := by
  constructor
  · rintro ⟨strings, hstrings⟩ hwidth hheight
    have hall := forall₂_of_mapM hstrings
    -- The last patch ends inside the frame.
    have hlast : ∀ {extent : ℕ}, 0 < extent →
        (extent - 1) / patchSize * patchSize ∈ stepBy patchSize extent ∧
          extent ≤ (extent - 1) / patchSize * patchSize + patchSize := by
      intro extent hextent
      have hdiv := div_add_mod' (extent - 1) patchSize
      have hmod := mod_lt (extent - 1) hpatch
      exact ⟨(mem_stepBy hpatch).2 ⟨dvd_mul_left _ _, by omega⟩, by omega⟩
    obtain ⟨hmemX, hx⟩ := hlast hwidth
    obtain ⟨hmemY, hy⟩ := hlast hheight
    set x := (width - 1) / patchSize * patchSize
    set y := (height - 1) / patchSize * patchSize
    obtain ⟨string, hstring⟩ : ∃ string, (do
        let cells ← (coordinates patchSize patchSize).mapM fun cell =>
          index frame ((y + cell.2) * width + x + cell.1)
        return String.ofList (cells.map base36Digit) : Run String) = .ok string := by
      have hmem : (x, y) ∈ (stepBy patchSize height).flatMap fun patchY =>
          (stepBy patchSize width).map fun patchX => (patchX, patchY) :=
        mem_flatMap.2 ⟨y, hmemY, mem_map.2 ⟨x, hmemX, rfl⟩⟩
      obtain ⟨i, hi, hget⟩ := mem_iff_getElem.1 hmem
      exact ⟨_, by simpa only [get_eq_getElem, hget] using hall.get hi (hall.length_eq ▸ hi)⟩
    obtain ⟨cells, hcells, -⟩ := bind_eq_ok.1 hstring
    have hcell : (patchSize - 1, patchSize - 1) ∈ coordinates patchSize patchSize :=
      mem_coordinates.2 ⟨by simp only; omega, by simp only; omega⟩
    obtain ⟨i, hi, hget⟩ := mem_iff_getElem.1 hcell
    have hcells := forall₂_of_mapM hcells
    have hlt := index_eq_ok.1 (hcells.get hi (hcells.length_eq ▸ hi))
    simp only [get_eq_getElem, hget] at hlt
    have hlt := (List.getElem?_eq_some_iff.1 hlt).1
    rw [hlength] at hlt
    have hdvdX : patchSize ∣ x := dvd_mul_left _ _
    have hdvdY : patchSize ∣ y := dvd_mul_left _ _
    -- so it is whole in both directions
    have hheight' : y + patchSize ≤ height := by
      by_contra hgt
      have : height * width ≤ (y + (patchSize - 1)) * width := mul_le_mul_right _ (by omega)
      rw [mul_comm width] at hlt
      omega
    have hwidth' : x + patchSize ≤ width := by
      by_contra hgt
      have : (height - 1) * width ≤ (y + (patchSize - 1)) * width := mul_le_mul_right _ (by omega)
      have hrow : (height - 1) * width + width = width * height := by
        rw [← Nat.succ_mul, Nat.mul_comm, Nat.succ_eq_add_one, Nat.sub_add_cancel hheight]
      omega
    exact ⟨(show x + patchSize = width by omega) ▸ dvd_add hdvdX dvd_rfl,
      (show y + patchSize = height by omega) ▸ dvd_add hdvdY dvd_rfl⟩
  · intro hwhole
    refine mapM_returns ?_
    rintro ⟨x, y⟩ hmem
    obtain ⟨y', hy, hmem⟩ := mem_flatMap.1 hmem
    obtain ⟨x', hx, heq⟩ := mem_map.1 hmem
    obtain ⟨rfl, rfl⟩ := Prod.mk.inj heq
    obtain ⟨hdvdX, hx⟩ := (mem_stepBy hpatch).1 hx
    obtain ⟨hdvdY, hy⟩ := (mem_stepBy hpatch).1 hy
    obtain ⟨hwidth, hheight⟩ := hwhole (zero_lt_of_lt hx) (zero_lt_of_lt hy)
    obtain ⟨cells, hcells⟩ : ∃ cells, ((coordinates patchSize patchSize).mapM fun cell =>
        index frame ((y' + cell.2) * width + x' + cell.1)) = .ok cells := by
      refine mapM_returns ?_
      rintro ⟨dx, dy⟩ hcell
      obtain ⟨hdx, hdy⟩ := mem_coordinates.1 hcell
      have hlt : (y' + dy) * width + (x' + dx) < frame.length :=
        hlength ▸ row_major_lt (add_lt_of_dvd hwidth hdvdX hx hdx)
          (add_lt_of_dvd hheight hdvdY hy hdy)
      rw [← add_assoc] at hlt
      exact ⟨_, index_of_lt hlt⟩
    exact ⟨String.ofList (cells.map base36Digit), bind_eq_ok.2 ⟨cells, hcells, rfl⟩⟩

/-! ## Samples -/

/-- A sample is encoded, in tokens of the vocabulary, and its statistics are computed. -/
structure Materializes (ext : Externals ρ) (vocabSize : ℕ) (eosId : Option UInt32)
    (frameSpecialTokens : Bool) (serialization : NcaSerializationConfig) (sample : NcaSample) :
    Prop where
  encoded : ∃ tokens, (CorpusTokenizer.patchTokenIds vocabSize eosId frameSpecialTokens).encodePatchSample
    sample serialization = .ok tokens ∧ ∀ token ∈ tokens, token < vocabSize
  stats : ∃ stats, computeSampleStats ext sample serialization = .ok stats

/-- A state count and a grid that the encoder and the statistics can deal with. -/
structure ShapeFits (vocabSize : ℕ) (eosId : Option UInt32) (frameSpecialTokens : Bool)
    (patchSize stateCount width height : ℕ) : Prop where
  sample : SampleFits vocabSize eosId frameSpecialTokens patchSize stateCount
  boundaries : BoundariesFit vocabSize
    (frameStartId frameSpecialTokens (patchVocabSize patchSize stateCount))
    (frameEndId frameSpecialTokens (patchVocabSize patchSize stateCount))
  whole : WholePatches patchSize width height
  values : 0 < width → 0 < height →
    stateCount ^ (patchSize * patchSize) ≤ 2 ^ 32 ∧ stateCount ^ (patchSize * patchSize) ≤ vocabSize

theorem pos_of_mem_patches {patch : ℕ × ℕ}
    (h : patch ∈ patches (width / patchSize) (height / patchSize)) : 0 < width ∧ 0 < height := by
  obtain ⟨hx, hy⟩ := mem_patches.1 h
  have := div_le_self width patchSize
  have := div_le_self height patchSize
  omega

section

variable (hpatch : 0 < serialization.patchSize)
  (hstates : 1 < sample.stateCount ∧ sample.stateCount < 2 ^ 32)
  (hframes : ∀ frame ∈ sample.frames, FrameOf sample.width sample.height sample.stateCount frame)
include hpatch hstates hframes

theorem computeSampleStats_returns
    (hwhole : WholePatches serialization.patchSize sample.width sample.height)
    (hvalues : 0 < sample.width → 0 < sample.height → sample.stateCount ^ (serialization.patchSize *
      serialization.patchSize) ≤ 2 ^ 32) :
    ∃ stats, computeSampleStats ext sample serialization = .ok stats := by
  have hmax : max serialization.patchSize 1 = serialization.patchSize := max_eq_left hpatch
  obtain ⟨tokens, htokens⟩ := patchTokenIds_returns hpatch (zero_lt_of_lt hstates.1) hstates.2
    hframes fun frame hframe patch hmem => by
      obtain ⟨hwidth, hheight⟩ := pos_of_mem_patches hmem
      exact ((hframes frame hframe).frameValue_lt _ hstates.1 patch).trans_le (hvalues hwidth hheight)
  obtain ⟨stats, hstats⟩ : ∃ stats, sample.frames.mapM (frameStats sample serialization.patchSize) =
      .ok stats := by
    refine mapM_returns fun frame hframe => ?_
    obtain ⟨entropy, hentropy⟩ := frameEntropyBits_returns (hframes frame hframe).cell_lt
    obtain ⟨patches, hpatches⟩ :=
      (framePatches_returns_iff hpatch (hframes frame hframe).length).2 hwhole
    exact ⟨_, bind_eq_ok.2 ⟨entropy, hentropy, bind_eq_ok.2 ⟨patches, hpatches, rfl⟩⟩⟩
  obtain ⟨ratio, hratio⟩ : ∃ ratio, computeGzipComplexityRatio ext sample serialization = .ok ratio := by
    simp only [computeGzipComplexityRatio, htokens, bind, Except.bind]
    split_ifs <;> exact ⟨_, rfl⟩
  unfold computeSampleStats
  simp only [hmax, htokens, hstats, hratio, bind, Except.bind]
  split_ifs <;> exact ⟨_, rfl⟩

/-- The shape decides. -/
theorem materializes_of_shapeFits (heos : ∀ id ∈ eosId, id.toNat < vocabSize)
    (h : ShapeFits vocabSize eosId frameSpecialTokens serialization.patchSize sample.stateCount
      sample.width sample.height) :
    Materializes ext vocabSize eosId frameSpecialTokens serialization sample := by
  have hvalue : ∀ frame ∈ sample.frames, ∀ patch ∈ patches (sample.width / serialization.patchSize)
      (sample.height / serialization.patchSize),
      PatchFits vocabSize sample.width serialization.patchSize sample.stateCount frame patch := by
    intro frame hframe patch hmem
    obtain ⟨hwidth, hheight⟩ := pos_of_mem_patches hmem
    have hlt := (hframes frame hframe).frameValue_lt serialization.patchSize hstates.1 patch
    obtain ⟨hmax, hvocab⟩ := h.values hwidth hheight
    exact ⟨hlt.trans_le hmax, hlt.trans_le hvocab⟩
  refine ⟨⟨_, (encodePatchSample_eq_ok hpatch hframes (zero_lt_of_lt hstates.1) hstates.2).2
    ⟨⟨h.sample, fun frame hframe => ⟨h.boundaries, hvalue frame hframe⟩⟩, rfl⟩, fun token htoken => ?_⟩,
    computeSampleStats_returns hpatch hstates hframes h.whole fun hwidth hheight =>
      (h.values hwidth hheight).1⟩
  rcases mem_append.1 htoken with hmem | hmem
  · obtain ⟨ts, hts, hmem⟩ := mem_flatten.1 hmem
    obtain ⟨frame, hframe, rfl⟩ := mem_map.1 hts
    simp only [frameTokens, mem_append, Option.mem_toList, mem_map] at hmem
    rcases hmem with (hstart | ⟨patch, hpatch', rfl⟩) | hend
    · exact h.boundaries.1 token hstart
    · exact (hvalue frame hframe patch hpatch').2
    · exact h.boundaries.2 token hend
  · obtain ⟨id, hid, rfl⟩ := Option.map_eq_some_iff.1 (Option.mem_toList.1 hmem)
    exact heos id hid

end

/-- If all samples of a shape with one frame are materialized, then the shape fits. -/
theorem shapeFits_of_materializes (hpatch : 0 < serialization.patchSize)
    (hstates : 1 < stateCount ∧ stateCount < 2 ^ 32)
    (h : ∀ frame, FrameOf width height stateCount frame →
      Materializes ext vocabSize eosId frameSpecialTokens serialization
        (plainSample family width height stateCount [frame])) :
    ShapeFits vocabSize eosId frameSpecialTokens serialization.patchSize stateCount width height := by
  have hpos : 0 < stateCount := zero_lt_of_lt hstates.1
  have hencoded : ∀ frame, FrameOf width height stateCount frame →
      SampleFits vocabSize eosId frameSpecialTokens serialization.patchSize stateCount ∧
        FrameFits vocabSize frameSpecialTokens serialization.patchSize
          (plainSample family width height stateCount [frame]) frame := by
    intro frame hframe
    obtain ⟨tokens, htokens, -⟩ := (h frame hframe).encoded
    obtain ⟨⟨hsample, hframes⟩, -⟩ := (encodePatchSample_eq_ok hpatch (by
      simpa [plainSample] using hframe) hpos hstates.2).1 htokens
    exact ⟨hsample, hframes frame mem_cons_self⟩
  have hblank : FrameOf width height stateCount
      (frameWithPatch width height serialization.patchSize []) :=
    frameOf_frameWithPatch width height _ hpos (by simp)
  have hwhole : WholePatches serialization.patchSize width height := by
    obtain ⟨stats, hstats⟩ := (h _ hblank).stats
    have hmax : max serialization.patchSize 1 = serialization.patchSize := max_eq_left hpatch
    unfold computeSampleStats at hstats
    simp only [hmax, bind_eq_ok] at hstats
    obtain ⟨-, -, stats, hframes, -⟩ := hstats
    obtain ⟨frameStats, hframeStats⟩ : ∃ stats, frameStats
        (plainSample family width height stateCount
          [frameWithPatch width height serialization.patchSize []]) serialization.patchSize
        (frameWithPatch width height serialization.patchSize []) = .ok stats := by
      cases forall₂_of_mapM hframes with
      | cons hframe _ => exact ⟨_, hframe⟩
    obtain ⟨entropy, hentropy, hrest⟩ := bind_eq_ok.1 hframeStats
    obtain ⟨strings, hstrings, -⟩ := bind_eq_ok.1 hrest
    exact (framePatches_returns_iff hpatch hblank.length).1 ⟨strings, hstrings⟩
  refine ⟨(hencoded _ hblank).1, (hencoded _ hblank).2.boundaries, hwhole, fun hwidth hheight => ?_⟩
  obtain ⟨hdvdW, hdvdH⟩ := hwhole hwidth hheight
  -- A patch that spells a number that is too large is not encoded.
  have hsmall : ∀ limit, (∀ frame, FrameOf width height stateCount frame →
      frameValue width serialization.patchSize stateCount frame (0, 0) < limit) →
      stateCount ^ (serialization.patchSize * serialization.patchSize) ≤ limit := by
    intro limit hlimit
    by_contra hgt
    obtain ⟨digits, hlength, hdigits, hspell⟩ := exists_spell hpos (not_le.1 hgt)
    have hlt := hlimit _ (frameOf_frameWithPatch width height serialization.patchSize hpos hdigits)
    rw [frameValue_frameWithPatch (le_of_dvd hwidth hdvdW) (le_of_dvd hheight hdvdH) hlength,
      hspell] at hlt
    exact lt_irrefl _ hlt
  have hfirst : (0, 0) ∈ patches (width / serialization.patchSize) (height / serialization.patchSize) :=
    mem_patches.2 ⟨div_pos (le_of_dvd hwidth hdvdW) hpatch,
      div_pos (le_of_dvd hheight hdvdH) hpatch⟩
  exact ⟨hsmall _ fun frame hframe => ((hencoded frame hframe).2.patches _ hfirst).1,
    hsmall _ fun frame hframe => ((hencoded frame hframe).2.patches _ hfirst).2⟩

/-! ## Configurations -/

theorem checkSome_eq_ok {α : Type} {field : Option α} {check : α → Fallible String Unit} {u : Unit} :
    checkSome field check = .ok u ↔ ∀ value ∈ field, check value = .ok () := by
  cases field <;> simp [checkSome]

theorem validatePositive_eq_ok {range : UsizeRangeConfig} {label : String}
    (h : range.validatePositive label = .ok ()) : range.min ≤ range.max ∧ 0 < range.min := by
  simp only [UsizeRangeConfig.validatePositive, UsizeRangeConfig.validate, bind_eq_ok, reject_eq_ok,
    decide_eq_false_iff_not, not_lt, Bool.or_eq_false_iff] at h
  obtain ⟨-, hle, hmin, -⟩ := h
  exact ⟨hle, pos_of_ne_zero hmin⟩

/-- A range that may be left out. -/
theorem getD_valid {range : Option UsizeRangeConfig} {default : UsizeRangeConfig} {label : String}
    (hdefault : default.min ≤ default.max ∧ 0 < default.min)
    (h : ∀ value ∈ range, UsizeRangeConfig.validatePositive value label = .ok ()) :
    (range.getD default).min ≤ (range.getD default).max ∧ 0 < (range.getD default).min := by
  cases range with
  | none => exact hdefault
  | some value => exact validatePositive_eq_ok (h value rfl)

theorem rangesValid_of_validate {index : ℕ} (h : family.validate index = .ok ()) :
    family.RangesValid := by
  simp only [NcaFamilyConfig.validate, bind_eq_ok, checkSome_eq_ok] at h
  obtain ⟨-, -, -, hgrid, -, -, -, hstates, -⟩ := h
  have hgridDefault : (gridDefault family).min ≤ (gridDefault family).max ∧
      0 < (gridDefault family).min := by
    unfold gridDefault
    split <;> decide
  have hstatesDefault : (stateCountDefault family).min ≤ (stateCountDefault family).max ∧
      0 < (stateCountDefault family).min := by
    unfold stateCountDefault
    split <;> decide
  obtain ⟨hgrid, hgridPos⟩ := getD_valid hgridDefault hgrid
  exact ⟨hgrid, hgridPos, (getD_valid hstatesDefault hstates).1⟩

/-- What `validate` establishes. -/
theorem validate_eq_ok {config : NcaCorpusConfig} (h : config.validate overflowChecks = .ok ()) :
    0 < config.serialization.patchSize ∧ (∀ family ∈ config.families, family.RangesValid) ∧
      checkTokenization overflowChecks config = .ok () := by
  simp only [NcaCorpusConfig.validate, bind_eq_ok, reject_eq_ok, forM_eq_ok] at h
  obtain ⟨-, -, -, -, -, -, -, hpatch, -, -, -, -, -, hfamilies, htokenization⟩ := h
  refine ⟨pos_of_ne_zero (by simpa using hpatch), fun family hfamily => ?_, htokenization⟩
  obtain ⟨i, hi, rfl⟩ := mem_iff_getElem.1 hfamily
  exact rangesValid_of_validate (hfamilies (_, i) (mem_zipIdx_iff_getElem?.2 (getElem?_eq_getElem hi)))

theorem eos_lt_of_checkPatchTokenIds {config : NcaCorpusConfig}
    (h : checkPatchTokenIds overflowChecks config vocabSize eosId frameSpecialTokens = .ok ()) :
    ∀ id ∈ eosId, id.toNat < vocabSize := by
  rintro id rfl
  unfold checkPatchTokenIds at h
  obtain ⟨_, _, h⟩ := bind_eq_ok.1 h
  obtain ⟨_, heos, _⟩ := bind_eq_ok.1 h
  simpa [checkEos, reject_eq_ok] using heos

/-- The state counts and grids of the families fit. -/
def FamiliesFit (overflowChecks : Bool) (config : NcaCorpusConfig) (vocabSize : ℕ)
    (eosId : Option UInt32) (frameSpecialTokens : Bool) : Prop :=
  ∀ family ∈ config.families, ∀ stateCount width height, family.HasStateCount stateCount →
    family.HasGrid overflowChecks config.serialization.patchSize width height →
    ShapeFits vocabSize eosId frameSpecialTokens config.serialization.patchSize stateCount width height

/-- **Configurations that can be materialized.** For a configuration that `validate` accepts, all
samples of the shapes of its families are materialized exactly if these shapes fit, and then so is every
sample that is generated. -/
theorem generateSample_materializes_iff {config : NcaCorpusConfig}
    (hvalid : config.validate overflowChecks = .ok ())
    (htokenization : config.tokenization = .patchTokenIds vocabSize eosId frameSpecialTokens) :
    ((∀ family ∈ config.families, ∀ sample, SampleOf overflowChecks config.serialization family sample →
        Materializes ext vocabSize eosId frameSpecialTokens config.serialization sample) ↔
      FamiliesFit overflowChecks config vocabSize eosId frameSpecialTokens) ∧
    (FamiliesFit overflowChecks config vocabSize eosId frameSpecialTokens →
      ∀ family ∈ config.families, ∀ fuel, Draw.Ensures
        (generateSample overflowChecks fuel ext family config.serialization)
        (Materializes ext vocabSize eosId frameSpecialTokens config.serialization)) := by
  obtain ⟨hpatch, hranges, hcheck⟩ := validate_eq_ok hvalid
  rw [checkTokenization, htokenization] at hcheck
  have hbounds : ∀ {s : ℕ}, 2 ≤ s ∧ s ≤ 16 → 1 < s ∧ s < 2 ^ 32 := by omega
  have hfits : FamiliesFit overflowChecks config vocabSize eosId frameSpecialTokens →
      ∀ family ∈ config.families, ∀ sample,
        SampleOf overflowChecks config.serialization family sample →
        Materializes ext vocabSize eosId frameSpecialTokens config.serialization sample :=
    fun h family hfamily sample hsample =>
      materializes_of_shapeFits hpatch (hbounds hsample.stateCount.bounds) hsample.frames
        (eos_lt_of_checkPatchTokenIds hcheck) (h family hfamily _ _ _ hsample.stateCount hsample.grid)
  refine ⟨⟨fun h family hfamily stateCount width height hstates hgrid => ?_, hfits⟩,
    fun h family hfamily fuel => (generateSample_ensures (hranges family hfamily) hpatch).mono
      fun sample hsample => hfits h family hfamily sample hsample⟩
  exact shapeFits_of_materializes hpatch (hbounds hstates.bounds) fun frame hframe =>
    h family hfamily (plainSample family width height stateCount [frame])
      ⟨hstates, hgrid, by simpa [plainSample] using hframe⟩

/-- A generator that draws the upper bound. -/
def upperBounds : Externals Unit where
  seedFromU64 _ := ()
  nextU64 _ := (0, ())
  genUsize _ upper _ := (upper, ())
  genInt _ upper _ := (upper, ())
  genFloat _ upper _ := (upper, ())
  genFloatInclusive _ upper _ := (upper, ())
  genBool _ _ := (true, ())
  gzip bytes := bytes
  genUsize_mem _ _ _ h := ⟨h, le_rfl⟩

/-- A family of 1 by 1 grids. -/
def smallFamily (stateCount : ℕ) : NcaFamilyConfig :=
  { kind := .cyclic
    weight := 1
    complexity := .simple
    gridSize := some ⟨1, 1⟩
    steps := some ⟨2, 2⟩
    stateCount := some ⟨stateCount, stateCount⟩
    stepStride := none
    startStep := none
    identityBias := none
    temperature := none
    ruleFilter := none }

def smallConfig (vocabSize stateCount : ℕ) : NcaCorpusConfig :=
  { outputDir := "out"
    seed := 1
    name := "small"
    trainSamples := 1
    validationSamples := 0
    chunkTokenCapacity := 16
    serialization := ⟨1, true, 1⟩
    tokenization := .patchTokenIds vocabSize none false
    families := [smallFamily stateCount] }

theorem generateSample_materializes_iff_three :
    ((∀ family ∈ (smallConfig 3 3).families, ∀ sample,
        SampleOf false (smallConfig 3 3).serialization family sample →
        Materializes upperBounds 3 none false (smallConfig 3 3).serialization sample) ↔
      FamiliesFit false (smallConfig 3 3) 3 none false) ∧
    (FamiliesFit false (smallConfig 3 3) 3 none false →
      ∀ family ∈ (smallConfig 3 3).families, ∀ fuel, Draw.Ensures
        (generateSample false fuel upperBounds family (smallConfig 3 3).serialization)
        (Materializes upperBounds 3 none false (smallConfig 3 3).serialization)) :=
  generateSample_materializes_iff rfl rfl

/-- A configured state count below the least that the generator uses. -/
theorem encodePatchSample_stateCount_two :
    (smallConfig 2 2).validate false = .ok () ∧ ∃ sample,
      Draw.Returns (generateSample false 1 upperBounds (smallFamily 2) (smallConfig 2 2).serialization) ()
        sample ∧
      (CorpusTokenizer.patchTokenIds 2 none false).encodePatchSample sample
        (smallConfig 2 2).serialization =
          .error (.error s!"patch token id {2} exceeds configured vocab_size {2}") := by
  have hcyclic : generateCyclicSample false upperBounds (smallFamily 2) (smallConfig 2 2).serialization ()
      = some (.ok (plainSample (smallFamily 2) 1 1 3 [[2], [2]], ())) := rfl
  obtain ⟨ratio, hratio⟩ : ∃ ratio, computeGzipComplexityRatio upperBounds
      (plainSample (smallFamily 2) 1 1 3 [[2], [2]]) (smallConfig 2 2).serialization = .ok ratio :=
    ⟨_, rfl⟩
  have hrun : generateSample false 1 upperBounds (smallFamily 2) (smallConfig 2 2).serialization () =
      (if (plainSample (smallFamily 2) 1 1 3 [[2], [2]]).gzipComplexityRatio == 0.0 then do
          let ratio ← Draw.lift (computeGzipComplexityRatio upperBounds
            (plainSample (smallFamily 2) 1 1 3 [[2], [2]]) (smallConfig 2 2).serialization)
          return { plainSample (smallFamily 2) 1 1 3 [[2], [2]] with gzipComplexityRatio := ratio }
        else return plainSample (smallFamily 2) 1 1 3 [[2], [2]] : Draw Unit NcaSample) () := rfl
  have hencode (ratio : Float32) : (CorpusTokenizer.patchTokenIds 2 none false).encodePatchSample
      { plainSample (smallFamily 2) 1 1 3 [[2], [2]] with gzipComplexityRatio := ratio }
      (smallConfig 2 2).serialization =
        .error (.error s!"patch token id {2} exceeds configured vocab_size {2}") := by
    simp [CorpusTokenizer.encodePatchSample, plainSample, smallConfig, checkedMul, usizeMax, okOr,
      reject, encodeFrame, encodeBoundary, frameStartId, frameEndId, encodePatch, patches, patchCells,
      patchValue, index, pushDigit, bind, pure, Except.bind, Except.pure, Except.mapError]
  refine ⟨rfl, ?_⟩
  split_ifs at hrun
  · refine ⟨_, ⟨(), hrun.trans ?_⟩, hencode ratio⟩
    rw [hratio]
    rfl
  · exact ⟨_, ⟨(), hrun⟩, hencode _⟩

end BurnDragon.Nca
