import BurnDragon.Nca.DocumentLengths

/-!
# Documents of the promised length

A corpus promises the length of its documents when it is made. The promise is made before the
configuration is validated, so some sizes make the constructor panic (`PanicFree`), and the
generators may have a number of frames of their own (`NcaFamilyConfig.KeepsSteps`).
-/

namespace BurnDragon.Nca

open Rust Corpus List

variable {overflowChecks : Bool} {config adjusted : NcaCorpusConfig} {request : Option ℕ}

/-! ## Panics of the validation -/

section Checks

variable {α β : Type} {label : String}

theorem not_panics_bind {x : Fallible String α} {f : α → Fallible String β} (h : ¬ Panics x)
    (hf : ∀ a, ¬ Panics (f a)) : ¬ Panics (x >>= f) := by
  rw [panics_bind_iff]
  rintro (hx | ⟨a, -, ha⟩)
  · exact h hx
  · exact hf a ha

theorem not_panics_forM {f : α → Fallible String Unit} {xs : List α} (h : ∀ x, ¬ Panics (f x)) :
    ¬ Panics (xs.forM f) := by
  induction xs with
  | nil => exact not_panics_ok
  | cons x xs ih => exact not_panics_bind (h x) fun _ => ih

theorem not_panics_checkSome {field : Option α} {check : α → Fallible String Unit}
    (h : ∀ value, ¬ Panics (check value)) : ¬ Panics (checkSome field check) := by
  cases field
  · exact not_panics_ok
  · exact h _

theorem not_panics_validatePositive {range : UsizeRangeConfig} :
    ¬ Panics (range.validatePositive label) :=
  not_panics_bind not_panics_reject fun _ => not_panics_reject

theorem not_panics_validateFloat {range : FloatRangeConfig} : ¬ Panics (range.validate label) :=
  not_panics_bind not_panics_reject fun _ => not_panics_reject

theorem not_panics_validateFilter {filter : NcaRuleFilterConfig} : ¬ Panics (filter.validate label) :=
  not_panics_bind (not_panics_checkSome fun _ => not_panics_reject) fun _ =>
    not_panics_bind (not_panics_checkSome fun _ => not_panics_reject) fun _ =>
      not_panics_bind (not_panics_checkSome fun _ => not_panics_checkSome fun _ => not_panics_reject)
        fun _ => not_panics_bind not_panics_reject fun _ => not_panics_reject

theorem not_panics_validateFamily {family : NcaFamilyConfig} {index : ℕ} :
    ¬ Panics (family.validate index) :=
  not_panics_bind not_panics_reject fun _ =>
    not_panics_bind (not_panics_checkSome fun _ => not_panics_validatePositive) fun _ =>
      not_panics_bind (not_panics_checkSome fun _ => not_panics_validatePositive) fun _ =>
        not_panics_bind (not_panics_checkSome fun _ => not_panics_validatePositive) fun _ =>
          not_panics_bind (not_panics_checkSome fun _ => not_panics_validatePositive) fun _ =>
            not_panics_bind (not_panics_checkSome fun _ => not_panics_reject) fun _ =>
              not_panics_bind (not_panics_checkSome fun _ => not_panics_validateFloat) fun _ =>
                not_panics_bind (not_panics_checkSome fun _ => not_panics_validateFloat) fun _ =>
                  not_panics_checkSome fun _ => not_panics_validateFilter

end Checks

/-- The checks of `validate` before the tokenization is checked. -/
def NcaCorpusConfig.checkFields (config : NcaCorpusConfig) : Fallible String Unit := do
  reject (trim config.name.toList = []) "name must not be empty"
  reject (config.trainSamples = 0) "train_samples must be > 0"
  reject (config.chunkTokenCapacity = 0) "chunk_token_capacity must be > 0"
  reject (config.serialization.patchSize = 0) "serialization.patch_size must be > 0"
  reject (config.serialization.previewSamples = 0) "serialization.preview_samples must be > 0"
  reject config.families.isEmpty "families must not be empty"
  config.families.zipIdx.forM fun (family, index) => family.validate index

theorem NcaCorpusConfig.validate_eq : config.validate overflowChecks = (do
    config.checkFields
    checkTokenization overflowChecks config) := by
  simp only [NcaCorpusConfig.validate, NcaCorpusConfig.checkFields, bind_assoc]

theorem not_panics_checkFields : ¬ Panics config.checkFields :=
  not_panics_bind not_panics_reject fun _ => not_panics_bind not_panics_reject fun _ =>
    not_panics_bind not_panics_reject fun _ => not_panics_bind not_panics_reject fun _ =>
      not_panics_bind not_panics_reject fun _ => not_panics_bind not_panics_reject fun _ =>
        not_panics_forM fun _ => not_panics_validateFamily

/-- The sizes on which the check of the vocabulary panics, in a build with overflow checks: the cells
of a patch are not counted by a word, or the vocabulary that a message is to name is not. -/
structure VocabularyPanics (config : NcaCorpusConfig) (vocabSize : ℕ) (eosId : Option UInt32)
    (frameSpecialTokens : Bool) : Prop where
  vocab : 2 ≤ vocabSize
  eos : ∀ id ∈ eosId, id.toNat < vocabSize
  sizes : usizeMax < config.serialization.patchSize * config.serialization.patchSize ∨
    ∃ patchVocab, config.serialization.patchSize * config.serialization.patchSize ≤ usizeMax ∧
      checkedPow (maxPatchStateCount config.families)
        (config.serialization.patchSize * config.serialization.patchSize % 2 ^ 32) =
          some patchVocab ∧
      vocabSize < usizeMax ∧
      usizeMax < patchVocab + (eosId.isSome.toNat + frameSpecialTokens.toNat * 2)

theorem panics_usizeResult_iff {n : ℕ} :
    Panics ((usizeResult overflowChecks n).mapError .panic : Fallible String ℕ) ↔
      overflowChecks = true ∧ usizeMax < n := by
  rw [panics_mapError_iff, usizeResult_eq_error]

theorem panics_patchExponent_iff {patchSize : ℕ} :
    Panics ((patchExponent overflowChecks patchSize).mapError .panic : Fallible String ℕ) ↔
      overflowChecks = true ∧ usizeMax < patchSize * patchSize := by
  rw [panics_mapError_iff, patchExponent, ← usizeResult_eq_error]
  cases usizeResult overflowChecks (patchSize * patchSize) <;>
    simp [bind, pure, Except.bind, Except.pure]

/-- The exponent of the vocabulary, in a build with overflow checks. -/
theorem patchExponent_eq_ok {patchSize exponent : ℕ} :
    patchExponent true patchSize = .ok exponent ↔
      patchSize * patchSize ≤ usizeMax ∧ exponent = patchSize * patchSize % 2 ^ 32 := by
  rw [patchExponent, usizeResult]
  split_ifs with hle
  · simp [hle, bind, pure, Except.bind, Except.pure, eq_comm]
  · simp [hle, bind, Except.bind]
  · contradiction

/-- What `validate` checks about the number of patches. -/
def checkPatchVocab (overflowChecks : Bool) (patchStates vocabSize : ℕ) (eosId : Option UInt32)
    (frameSpecialTokens : Bool) (patchVocabSize : ℕ) : Fallible String Unit := do
  let frameSpecialBudget := frameSpecialTokens.toNat * 2
  let specialBudget := eosId.isSome.toNat + frameSpecialBudget
  if vocabSize < saturatingAdd patchVocabSize specialBudget then
    let needed ← (usizeResult overflowChecks (patchVocabSize + specialBudget)).mapError .panic
    throw (.error (s!"tokenization.vocab_size={vocabSize} is too small for patch_token_ids " ++
      s!"(need at least {patchStates} states^patch_cells + specials = {needed})"))
  if frameSpecialTokens then
    let frameStartId := patchVocabSize % 2 ^ 32
    let frameEndId ← okOr (checkedSucc frameStartId) (.error "patch frame special token overflow")
    reject (eosId.any fun id => id.toNat = frameStartId || id.toNat = frameEndId)
      "tokenization.eos_id collides with patch frame special token ids"

variable {vocabSize : ℕ} {eosId : Option UInt32} {frameSpecialTokens : Bool}

section Vocabulary

theorem checkPatchTokenIds_eq :
    checkPatchTokenIds overflowChecks config vocabSize eosId frameSpecialTokens = (do
      reject (vocabSize < 2) "tokenization.vocab_size must be >= 2 for patch_token_ids"
      checkEos eosId vocabSize
      let exponent ← (patchExponent overflowChecks config.serialization.patchSize).mapError .panic
      let patchVocabSize ← okOr (checkedPow (maxPatchStateCount config.families) exponent)
        (.error "patch token vocabulary overflow")
      checkPatchVocab overflowChecks (maxPatchStateCount config.families) vocabSize eosId
        frameSpecialTokens patchVocabSize) := rfl

theorem panics_checkPatchVocab_iff {patchStates patchVocabSize : ℕ} :
    Panics (checkPatchVocab overflowChecks patchStates vocabSize eosId frameSpecialTokens
        patchVocabSize) ↔
      overflowChecks = true ∧ vocabSize < usizeMax ∧
        usizeMax < patchVocabSize + (eosId.isSome.toNat + frameSpecialTokens.toNat * 2) := by
  unfold checkPatchVocab
  by_cases hsmall : vocabSize < saturatingAdd patchVocabSize
      (eosId.isSome.toNat + frameSpecialTokens.toNat * 2)
  · have hlt : vocabSize < usizeMax := hsmall.trans_le (min_le_right _ _)
    simp only [hsmall, if_true, panics_bind_iff, panics_usizeResult_iff, hlt, true_and]
    refine or_iff_left ?_
    rintro ⟨needed, -, h | ⟨u, h, -⟩⟩
    · exact not_panics_error h
    · cases h
  · have hfits : usizeMax < patchVocabSize + (eosId.isSome.toNat + frameSpecialTokens.toNat * 2) →
        usizeMax ≤ vocabSize := fun hlarge =>
      (min_eq_right hlarge.le : saturatingAdd patchVocabSize _ = usizeMax) ▸ not_lt.1 hsmall
    have hnone : ¬ (vocabSize < usizeMax ∧ usizeMax <
        patchVocabSize + (eosId.isSome.toNat + frameSpecialTokens.toNat * 2)) := fun h =>
      h.1.not_ge (hfits h.2)
    simp only [hsmall, if_false, hnone, and_false, iff_false]
    split_ifs
    · exact not_panics_bind not_panics_okOr fun _ => not_panics_reject
    · exact not_panics_ok

theorem eos_any_iff : eosId.any (fun id => decide (vocabSize ≤ id.toNat)) = false ↔
    ∀ id ∈ eosId, id.toNat < vocabSize := by
  cases eosId <;> simp

theorem panics_checkPatchTokenIds_iff :
    Panics (checkPatchTokenIds overflowChecks config vocabSize eosId frameSpecialTokens) ↔
      overflowChecks = true ∧ VocabularyPanics config vocabSize eosId frameSpecialTokens := by
  simp only [checkPatchTokenIds_eq, panics_bind_iff, not_panics_reject, not_panics_okOr,
    panics_patchExponent_iff, panics_checkPatchVocab_iff, reject_eq_ok, okOr_eq_ok, mapError_eq_ok,
    checkEos, false_or]
  constructor
  · rintro ⟨-, hvocab, -, heos, h⟩
    have hvocab := not_lt.1 (of_decide_eq_false hvocab)
    have heos := eos_any_iff.1 heos
    rcases h with ⟨hchecks, hcells⟩ | ⟨exponent, hexponent, patchVocab, hpow, rfl, hmax, hlarge⟩
    · exact ⟨hchecks, hvocab, heos, .inl hcells⟩
    · obtain ⟨hcells, rfl⟩ := patchExponent_eq_ok.1 hexponent
      exact ⟨rfl, hvocab, heos, .inr ⟨patchVocab, hcells, hpow, hmax, hlarge⟩⟩
  · rintro ⟨rfl, hvocab, heos, h⟩
    refine ⟨(), decide_eq_false hvocab.not_gt, (), eos_any_iff.2 heos, ?_⟩
    rcases h with hcells | ⟨patchVocab, hcells, hpow, hmax, hlarge⟩
    · exact .inl ⟨rfl, hcells⟩
    · exact .inr ⟨_, patchExponent_eq_ok.2 ⟨hcells, rfl⟩, patchVocab, hpow, rfl, hmax, hlarge⟩

end Vocabulary

/-! ## Panics of the constructor -/

/-- The configuration's documents are patch tokens, and the condition holds of their layout. -/
def NcaCorpusConfig.PatchTokens (config : NcaCorpusConfig)
    (P : ℕ → Option UInt32 → Bool → Prop) : Prop :=
  ∃ vocabSize eosId frameSpecialTokens,
    config.tokenization = .patchTokenIds vocabSize eosId frameSpecialTokens ∧
      P vocabSize eosId frameSpecialTokens

theorem panics_checkTokenization_iff :
    Panics (checkTokenization overflowChecks config) ↔
      overflowChecks = true ∧ config.PatchTokens (VocabularyPanics config) := by
  unfold checkTokenization NcaCorpusConfig.PatchTokens
  cases htokenization : config.tokenization with
  | patchTokenIds vocabSize eosId frameSpecialTokens =>
    simp only [panics_checkPatchTokenIds_iff, NcaTokenizationConfig.patchTokenIds.injEq]
    constructor
    · rintro ⟨hchecks, h⟩
      exact ⟨hchecks, _, _, _, ⟨rfl, rfl, rfl⟩, h⟩
    · rintro ⟨hchecks, _, _, _, ⟨rfl, rfl, rfl⟩, h⟩
      exact ⟨hchecks, h⟩
  | gpt2ByteCompatible vocabSize eosId =>
    simp only [reduceCtorEq, false_and, exists_false, and_false, iff_false]
    exact not_panics_bind not_panics_reject fun _ => not_panics_reject
  | rustBpe =>
    simp only [reduceCtorEq, false_and, exists_false, and_false, iff_false]
    exact not_panics_bind not_panics_reject fun _ =>
      not_panics_bind not_panics_reject fun _ => not_panics_reject

theorem panics_count_iff :
    Panics (fixedDocumentTokenCount overflowChecks config) ↔
      config.PatchTokens fun _ eosId frameSpecialTokens =>
        config.CountPanics overflowChecks eosId frameSpecialTokens := by
  unfold NcaCorpusConfig.PatchTokens
  cases htokenization : config.tokenization with
  | patchTokenIds vocabSize eosId frameSpecialTokens =>
    rw [panics_fixedDocumentTokenCount_iff htokenization]
    simp only [NcaTokenizationConfig.patchTokenIds.injEq]
    constructor
    · exact fun h => ⟨_, _, _, ⟨rfl, rfl, rfl⟩, h⟩
    · rintro ⟨_, _, _, ⟨rfl, rfl, rfl⟩, h⟩
      exact h
  | gpt2ByteCompatible vocabSize eosId =>
    simp only [fixedDocumentTokenCount, htokenization, reduceCtorEq, false_and, exists_false,
      iff_false]
    exact not_panics_error
  | rustBpe =>
    simp only [fixedDocumentTokenCount, htokenization, reduceCtorEq, false_and, exists_false,
      iff_false]
    exact not_panics_error

/-- The configurations and requests on which no size overflows and nothing is divided by zero. -/
structure PanicFree (overflowChecks : Bool) (config : NcaCorpusConfig) (request : Option ℕ) :
    Prop where
  adjust : ¬ AdjustPanics overflowChecks config request
  vocabulary : ∀ adjusted, Adjusted overflowChecks config request adjusted →
    adjusted.checkFields = .ok () → overflowChecks = true →
      ¬ adjusted.PatchTokens (VocabularyPanics adjusted)
  count : ∀ adjusted, Adjusted overflowChecks config request adjusted →
    adjusted.validate overflowChecks = .ok () →
      ¬ adjusted.PatchTokens fun _ eosId frameSpecialTokens =>
        adjusted.CountPanics overflowChecks eosId frameSpecialTokens

theorem panics_validate_iff :
    Panics (config.validate overflowChecks) ↔ config.checkFields = .ok () ∧ overflowChecks = true ∧
      config.PatchTokens (VocabularyPanics config) := by
  rw [NcaCorpusConfig.validate_eq, panics_bind_iff, panics_checkTokenization_iff]
  constructor
  · rintro (h | ⟨⟨⟩, hfields, h⟩)
    · exact absurd h not_panics_checkFields
    · exact ⟨hfields, h⟩
  · rintro ⟨hfields, h⟩
    exact .inr ⟨(), hfields, h⟩

variable {loadRustBpe : NcaTokenizationConfig → Fallible String CorpusTokenizer}

section Constructor

/-- The tokenizer is there, unless it is read from a file. -/
theorem fromConfig_returns {tokenization : NcaTokenizationConfig}
    (h : tokenization = .patchTokenIds vocabSize eosId frameSpecialTokens) :
    CorpusTokenizer.fromConfig loadRustBpe tokenization =
      .ok (.patchTokenIds vocabSize eosId frameSpecialTokens) := by
  rw [h, CorpusTokenizer.fromConfig]

theorem not_panics_fromConfig (hload : ∀ tokenization, ¬ Panics (loadRustBpe tokenization))
    {tokenization : NcaTokenizationConfig} :
    ¬ Panics (CorpusTokenizer.fromConfig loadRustBpe tokenization) := by
  cases tokenization
  · exact not_panics_ok
  · exact not_panics_ok
  · exact hload _

/-- The constructor panics exactly on the configurations that are not free of panics. -/
theorem panics_new_iff (hload : ∀ tokenization, ¬ Panics (loadRustBpe tokenization)) :
    Panics (OnlineNcaCorpus.newWithMinLogicalDocumentTokens overflowChecks loadRustBpe config
      request) ↔ ¬ PanicFree overflowChecks config request := by
  simp only [OnlineNcaCorpus.newWithMinLogicalDocumentTokens, panics_bind_iff, panics_adapt_iff,
    adapt_eq_ok, panics_validate_iff, not_panics_fromConfig hload, panics_count_iff, false_or]
  constructor
  · rintro (hadjust | ⟨adjusted, hadjusted, ⟨hfields, hchecks, hvocabulary⟩ | ⟨u, hvalid, tokenizer,
      -, hcount | ⟨count, -, h⟩⟩⟩) hfree
    · exact hfree.adjust hadjust
    · exact hfree.vocabulary adjusted hadjusted hfields hchecks hvocabulary
    · exact hfree.count adjusted hadjusted hvalid hcount
    · exact not_panics_ok h
  · intro hfree
    by_contra hnone
    refine hfree ⟨fun h => hnone (.inl h), fun adjusted hadjusted hfields hchecks h => ?_,
      fun adjusted hadjusted hvalid h => ?_⟩
    · exact hnone (.inr ⟨adjusted, hadjusted, .inl ⟨hfields, hchecks, h⟩⟩)
    · obtain ⟨vocabSize, eosId, frameSpecialTokens, htokenization, -⟩ := id h
      exact hnone (.inr ⟨adjusted, hadjusted,
        .inr ⟨(), hvalid, _, fromConfig_returns htokenization, .inl h⟩⟩)

end Constructor

/-! ## The documents of a corpus -/

variable {corpus : OnlineNcaCorpus} {count : ℕ}

section Documents

variable {ρ : Type} {ext : Externals ρ}

variable {family : NcaFamilyConfig}

theorem familyAt_mem {families : List NcaFamilyConfig} {cursor : ℕ}
    (h : familyAt families cursor = some family) : family ∈ families := by
  induction families generalizing cursor with
  | nil => cases h
  | cons first families ih =>
    rw [familyAt] at h
    split_ifs at h
    · obtain rfl := Option.some.inj h
      exact mem_cons_self
    · exact mem_cons_of_mem _ (ih h)

theorem chooseFamily_ensures :
    Draw.Ensures (chooseFamily overflowChecks ext config) (· ∈ config.families) := by
  refine .after fun sum => .after fun cursor => ?_
  split
  · next family hfamily => exact .pure (familyAt_mem hfamily)
  · exact .lift fun family hfamily => mem_of_getElem? (index_eq_ok.1 hfamily)

/-- What a corpus that is made consists of. -/
theorem new_eq_ok : OnlineNcaCorpus.newWithMinLogicalDocumentTokens overflowChecks loadRustBpe config
    request = .ok corpus ↔ Adjusted overflowChecks config request corpus.config ∧
      corpus.config.validate overflowChecks = .ok () ∧
      CorpusTokenizer.fromConfig loadRustBpe corpus.config.tokenization = .ok corpus.tokenizer ∧
      fixedDocumentTokenCount overflowChecks corpus.config = .ok corpus.documentTokenCount := by
  simp only [OnlineNcaCorpus.newWithMinLogicalDocumentTokens, bind_eq_ok, adapt_eq_ok]
  constructor
  · rintro ⟨adjusted, hadjusted, _, hvalid, tokenizer, htokenizer, count, hcount, ⟨⟩⟩
    exact ⟨hadjusted, hvalid, htokenizer, hcount⟩
  · rintro ⟨hadjusted, hvalid, htokenizer, hcount⟩
    exact ⟨_, hadjusted, (), hvalid, _, htokenizer, _, hcount, rfl⟩

/-- Only patch tokens are counted. -/
theorem tokensOf_of_count (h : fixedDocumentTokenCount overflowChecks config = .ok count) :
    config.PatchTokens fun _ eosId frameSpecialTokens =>
      config.TokensOf overflowChecks eosId frameSpecialTokens count := by
  cases htokenization : config.tokenization with
  | patchTokenIds vocabSize eosId frameSpecialTokens =>
    exact ⟨_, _, _, htokenization, (fixedDocumentTokenCount_eq_ok htokenization).1 h⟩
  | gpt2ByteCompatible | rustBpe =>
    rw [fixedDocumentTokenCount, htokenization] at h
    cases h

/-- The number of steps that a family must have: at least two, and the last frame is reached before
the counter of the neural stochastic automaton saturates. -/
structure NcaFamilyConfig.StepsFit (family : NcaFamilyConfig) (steps : ℕ) : Prop where
  two_le : 2 ≤ steps
  last : family.kind = .neuralStochastic →
    family.startStepRange.max + (steps - 1) * max family.stepStrideRange.max 1 < usizeMax

variable {steps : ℕ}

theorem le_keptIterations {start stride : ℕ} (hstride : 0 < stride) (hsteps : 0 < steps)
    (hlast : start + (steps - 1) * stride < usizeMax) :
    steps ≤ keptIterations start stride (saturatingAdd start (saturatingMul steps stride)) := by
  have hproduct : steps * stride = (steps - 1) * stride + stride := by
    rw [← Nat.succ_mul, Nat.succ_eq_add_one, Nat.sub_add_cancel hsteps]
  rw [keptIterations, Nat.le_div_iff_mul_le hstride, hproduct]
  unfold saturatingAdd saturatingMul
  rw [hproduct]
  omega

/-- With such a number of steps a sample has as many frames as the family has steps. -/
theorem NcaFamilyConfig.StepsFit.keepsSteps (h : family.StepsFit steps) :
    family.KeepsSteps steps := by
  intro start stride hstart hstride
  have hmax : max steps 2 = steps := max_eq_left h.two_le
  unfold generatedFrames
  cases hkind : family.kind with
  | neuralStochastic =>
    have hstrideMax : max stride 1 ≤ max family.stepStrideRange.max 1 := by
      have := hstride.2
      omega
    have hlast : start + (steps - 1) * max stride 1 < usizeMax :=
      (Nat.add_le_add hstart.2 (Nat.mul_le_mul_left _ hstrideMax)).trans_lt (h.last hkind)
    have := h.two_le
    simp only [hmax]
    exact min_eq_left (le_keptIterations (by omega) (by omega) hlast)
  | lifeLikeBinary | cyclic | neuralTotalistic => exact hmax

/-- A job whose first part fails does not succeed. -/
theorem Job.ofFallible_bind_eq {α β : Type} {x : Fallible String α} {f : α → Job β} {b : β}
    (h : Job.ofFallible x >>= f = ExceptT.mk (some (.ok b))) :
    ∃ a, x = .ok a ∧ f a = ExceptT.mk (some (.ok b)) := by
  cases x with
  | error fault => cases h
  | ok a => exact ⟨a, rfl, h⟩

theorem Job.returns_of_ofDraw {α : Type} {draw : Draw ρ α} {rng : ρ} {a : α}
    (h : Job.ofDraw draw rng = ExceptT.mk (some (.ok a))) : draw.Returns rng a := by
  unfold Job.ofDraw at h
  change ((draw rng).run.map _ : Option _) = some _ at h
  obtain ⟨result, hresult, hok⟩ := Option.map_eq_some_iff.1 h
  rcases result with panic | ⟨value, rng'⟩
  · cases hok
  · obtain rfl := Except.ok.inj hok
    exact ⟨rng', hresult⟩

/-- A sample that is made has what every sample of the families has. -/
theorem of_generateRawSample {P : NcaSample → Prop} {fuel epoch index : ℕ} {split : SampleSplit}
    {sample : NcaSample}
    (hsample : ∀ family ∈ corpus.config.families, Draw.Ensures
      (generateSample overflowChecks fuel ext family corpus.config.serialization) P)
    (h : corpus.generateRawSample overflowChecks fuel ext split epoch index =
      ExceptT.mk (some (.ok sample))) : P sample := by
  have hdraw : Draw.Ensures (do
      let family ← chooseFamily overflowChecks ext corpus.config
      generateSample overflowChecks fuel ext family corpus.config.serialization) P :=
    .bind chooseFamily_ensures hsample
  obtain ⟨_, -, h⟩ := Job.ofFallible_bind_eq h
  exact hdraw _ _ (Job.returns_of_ofDraw h)

theorem validate_family (h : config.validate overflowChecks = .ok ())
    (hfamily : family ∈ config.families) : ∃ index, family.validate index = .ok () := by
  simp only [NcaCorpusConfig.validate, bind_eq_ok, forM_eq_ok] at h
  obtain ⟨_, _, _, _, _, _, _, _, _, _, _, _, _, hfamilies, _⟩ := h
  obtain ⟨i, hi, rfl⟩ := mem_iff_getElem.1 hfamily
  exact ⟨i, hfamilies (_, i) (mem_zipIdx_iff_getElem?.2 (getElem?_eq_getElem hi))⟩

/-- The grids are those of the configuration. -/
theorem Adjusted.gridSize (h : Adjusted overflowChecks config request adjusted)
    (hfamily : family ∈ adjusted.families) :
    ∃ original ∈ config.families, family.gridSize = original.gridSize := by
  cases h with
  | unasked | long => exact ⟨family, hfamily, rfl⟩
  | raised =>
    obtain ⟨original, horiginal, rfl⟩ := mem_map.1 hfamily
    exact ⟨original, horiginal, rfl⟩

theorem le_commonPayload (minTokens eosTokens : ℕ) {alignment : ℕ} (hpos : 0 < alignment) :
    minTokens + 1 - eosTokens ≤ commonPayload minTokens eosTokens alignment := by
  have hceil : ∀ n, n ≤ (n + alignment - 1) / alignment * alignment := fun n => by
    have := Nat.div_add_mod (n + alignment - 1) alignment
    have := Nat.mod_lt (n + alignment - 1) hpos
    have := Nat.mul_comm alignment ((n + alignment - 1) / alignment)
    omega
  exact hceil _

/-- The frames of every family fill the payload. -/
theorem count_withPayload {alignment payload : ℕ}
    (halignment : config.alignment frameSpecialTokens = some alignment) (hdvd : alignment ∣ payload)
    (h : (config.withPayload frameSpecialTokens payload).TokensOf overflowChecks eosId
      frameSpecialTokens count) : count = payload + eosId.isSome.toNat := by
  obtain ⟨family, hfamily⟩ := exists_mem_of_ne_nil _ h.1
  obtain ⟨grid, steps, hcountable, rfl, -⟩ := h.2 family hfamily
  obtain ⟨original, horiginal, rfl⟩ := mem_map.1 hfamily
  have hsteps := congrArg (Option.map UsizeRangeConfig.min) hcountable.fixed.steps
  simp only [Option.map_some, Option.some.injEq] at hsteps
  have hframe : original.frameTokens config.serialization.patchSize (frameSpecialTokens.toNat * 2) ∣
      payload :=
    ((dvd_of_foldlM_lcmUsize halignment).2 _ (mem_map_of_mem horiginal)).trans hdvd
  rw [← hsteps]
  exact congrArg (· + eosId.isSome.toNat) (Nat.div_mul_cancel hframe)

/-- The documents have room for the tokens that are asked for. -/
theorem Adjusted.le_count (hcount : fixedDocumentTokenCount overflowChecks adjusted = .ok count)
    (h : Adjusted overflowChecks config request adjusted) : request.getD 0 ≤ count - 1 := by
  cases h with
  | unasked h =>
    cases request with
    | none => exact Nat.zero_le _
    | some minTokens => exact (h minTokens rfl).trans_le (Nat.zero_le _)
  | long htokenization hpos hbase hlong =>
    obtain rfl := hbase.unique ((fixedDocumentTokenCount_eq_ok htokenization).1 hcount)
    exact hlong
  | @raised vocabSize eosId frameSpecialTokens minTokens base alignment htokenization hpos hbase
      hshort hmax halignment hne hpayload =>
    have hadjusted : (config.withPayload frameSpecialTokens
        (commonPayload minTokens eosId.isSome.toNat alignment)).tokenization = _ := htokenization
    have hdvd : alignment ∣ commonPayload minTokens eosId.isSome.toNat alignment :=
      Dvd.intro_left _ rfl
    obtain rfl := count_withPayload halignment hdvd
      ((fixedDocumentTokenCount_eq_ok hadjusted).1 hcount)
    have := le_commonPayload minTokens eosId.isSome.toNat (Nat.pos_of_ne_zero hne)
    rw [Option.getD_some]
    omega

/-- The tokens of a sample, when it has as many frames as the steps say. -/
theorem length_document {grid : ℕ} {sample : NcaSample} {serialization : NcaSerializationConfig}
    {tokens : List ℕ} (hsample : FixedSample family grid steps sample)
    (hstates : 2 ≤ sample.stateCount ∧ sample.stateCount ≤ 16)
    (hcountable : family.Countable overflowChecks serialization.patchSize grid steps)
    (hsteps : family.StepsFit steps)
    (htokens : (CorpusTokenizer.patchTokenIds vocabSize eosId frameSpecialTokens).encodePatchSample
      sample serialization = .ok tokens) (hlength : tokens.length ≤ usizeMax) :
    tokens.length = steps * family.frameTokens serialization.patchSize (frameSpecialTokens.toNat * 2)
      + eosId.isSome.toNat := by
  have hencoded := length_encodePatchSample hcountable.patchSize_pos hstates htokens
  obtain ⟨start, stride, hstart, hstride, hframes⟩ := hsample.frames
  rw [hframes, hsteps.keepsSteps start stride hstart hstride, hsample.width, hsample.height]
    at hencoded
  have hpatches : grid / serialization.patchSize * (grid / serialization.patchSize) < 2 ^ 64 := by
    have hle := Nat.le_mul_of_pos_left
      (grid / serialization.patchSize * (grid / serialization.patchSize) +
        frameSpecialTokens.toNat * 2) (Nat.zero_lt_of_lt hsteps.two_le)
    rw [hencoded] at hlength
    unfold usizeMax at hlength
    omega
  rw [hencoded, NcaFamilyConfig.frameTokens, hcountable.fixed.gridSize, Option.getD_some,
    Nat.mod_eq_of_lt hpatches]

end Documents

/-! ## The promise -/

section Promise

/-- The constructor keeps its promise: it does not panic, the documents are as long as was asked for
and of one length for every family, and they have that length when they are made. A document is a
vector, so a word counts its tokens. -/
structure PromisedLengths (overflowChecks : Bool)
    (loadRustBpe : NcaTokenizationConfig → Fallible String CorpusTokenizer) (config : NcaCorpusConfig)
    (request : Option ℕ) : Prop where
  returns : ¬ Panics (OnlineNcaCorpus.newWithMinLogicalDocumentTokens overflowChecks loadRustBpe
    config request)
  long : ∀ corpus, OnlineNcaCorpus.newWithMinLogicalDocumentTokens overflowChecks loadRustBpe config
    request = .ok corpus → request.getD 0 ≤ corpus.documentTokenCount - 1
  same : ∀ corpus, OnlineNcaCorpus.newWithMinLogicalDocumentTokens overflowChecks loadRustBpe config
    request = .ok corpus → ∀ family ∈ corpus.config.families,
      fixedDocumentTokenCount overflowChecks { corpus.config with families := [family] } =
        .ok corpus.documentTokenCount
  documents : ∀ corpus, OnlineNcaCorpus.newWithMinLogicalDocumentTokens overflowChecks loadRustBpe
    config request = .ok corpus → ∀ (ρ : Type) (ext : Externals ρ) (fuel : ℕ) split epoch index
      sample tokens, index < corpus.sampleCount split →
        corpus.generateRawSample overflowChecks fuel ext split epoch index =
          ExceptT.mk (some (.ok sample)) →
        corpus.encodeTokensFromSample sample = .ok tokens → tokens.length ≤ usizeMax →
          corpus.generateDocumentTokensForEpoch overflowChecks fuel ext split epoch index =
            ExceptT.mk (some (.ok tokens)) ∧ tokens.length = corpus.documentTokenCount

/-- The steps of every family are enough, in a configuration that is accepted. -/
def StepsSuffice (overflowChecks : Bool) (config : NcaCorpusConfig) (request : Option ℕ) : Prop :=
  ∀ adjusted, Adjusted overflowChecks config request adjusted →
    adjusted.validate overflowChecks = .ok () →
    (adjusted.PatchTokens fun _ eosId frameSpecialTokens =>
      ∃ count, adjusted.TokensOf overflowChecks eosId frameSpecialTokens count) →
    ∀ family ∈ adjusted.families, ∀ steps, family.steps = some ⟨steps, steps⟩ →
      family.StepsFit steps

theorem count_singleton {family : NcaFamilyConfig} (hfamily : family ∈ config.families)
    (h : fixedDocumentTokenCount overflowChecks config = .ok count) :
    fixedDocumentTokenCount overflowChecks { config with families := [family] } = .ok count := by
  obtain ⟨vocabSize, eosId, frameSpecialTokens, htokenization, hcount⟩ := tokensOf_of_count h
  have hsingle : ({ config with families := [family] } : NcaCorpusConfig).tokenization = _ :=
    htokenization
  refine (fixedDocumentTokenCount_eq_ok hsingle).2 ⟨cons_ne_nil _ _, ?_⟩
  rintro other hother
  obtain rfl := mem_singleton.1 hother
  exact hcount.2 other hfamily

/-- A sample of a corpus that is made has tokens of the promised length. -/
theorem length_of_generated {ρ : Type} {ext : Externals ρ} {fuel epoch index : ℕ}
    {split : SampleSplit} {sample : NcaSample} {tokens : List ℕ}
    (hgrids : ∀ family ∈ config.families, ∀ range ∈ family.gridSize, range.max ≤ usizeMax)
    (hsteps : StepsSuffice overflowChecks config request)
    (hnew : OnlineNcaCorpus.newWithMinLogicalDocumentTokens overflowChecks loadRustBpe config
      request = .ok corpus)
    (hsample : corpus.generateRawSample overflowChecks fuel ext split epoch index =
      ExceptT.mk (some (.ok sample)))
    (htokens : corpus.encodeTokensFromSample sample = .ok tokens)
    (hlength : tokens.length ≤ usizeMax) : tokens.length = corpus.documentTokenCount := by
  obtain ⟨hadjusted, hvalid, htokenizer, hcount⟩ := new_eq_ok.1 hnew
  obtain ⟨vocabSize, eosId, frameSpecialTokens, htokenization, hcounts⟩ := tokensOf_of_count hcount
  have htokenizer' := (fromConfig_returns htokenization).symm.trans htokenizer
  obtain htokenizer' := Except.ok.inj htokenizer'
  rw [OnlineNcaCorpus.encodeTokensFromSample, ← htokenizer'] at htokens
  obtain ⟨hpatch, hranges, -⟩ := validate_eq_ok hvalid
  obtain ⟨family, hfamily, hstates, grid, steps, hcountable, hfixed⟩ :
      ∃ family ∈ corpus.config.families, (2 ≤ sample.stateCount ∧ sample.stateCount ≤ 16) ∧
        ∃ grid steps, family.Countable overflowChecks corpus.config.serialization.patchSize grid steps ∧
          FixedSample family grid steps sample := by
    refine of_generateRawSample (P := fun sample => ∃ family ∈ corpus.config.families,
      (2 ≤ sample.stateCount ∧ sample.stateCount ≤ 16) ∧ ∃ grid steps,
        family.Countable overflowChecks corpus.config.serialization.patchSize grid steps ∧
          FixedSample family grid steps sample) (fun family hfamily => ?_) hsample
    obtain ⟨grid, steps, hcountable, -⟩ := hcounts.2 family hfamily
    obtain ⟨_, hindex⟩ := validate_family hvalid hfamily
    obtain ⟨original, horiginal, hgrid⟩ := hadjusted.gridSize hfamily
    have hmax : grid ≤ usizeMax :=
      hgrids original horiginal ⟨grid, grid⟩ (hgrid.symm.trans hcountable.fixed.gridSize)
    exact fun rng sample hreturns => ⟨family, hfamily,
      (generateSample_ensures (hranges family hfamily) hpatch rng sample hreturns).stateCount.bounds,
      grid, steps, hcountable,
      generateSample_fixed hcountable.fixed (stepRangesValid_of_validate hindex) hpatch
        hcountable.dvd hmax rng sample hreturns⟩
  have hfit : family.StepsFit steps :=
    hsteps _ hadjusted hvalid ⟨_, _, _, htokenization, _, hcounts⟩ family hfamily steps
      hcountable.fixed.steps
  rw [length_document hfixed hstates hcountable hfit htokens hlength]
  obtain ⟨grid', steps', hcountable', hpromised, -⟩ := hcounts.2 family hfamily
  obtain ⟨-, rfl⟩ := hcountable.fixed.unique hcountable'.fixed
  exact hpromised.symm

theorem generate_of_length {ρ : Type} {ext : Externals ρ} {fuel epoch index : ℕ}
    {split : SampleSplit} {sample : NcaSample} {tokens : List ℕ}
    (hsample : corpus.generateRawSample overflowChecks fuel ext split epoch index =
      ExceptT.mk (some (.ok sample)))
    (htokens : corpus.encodeTokensFromSample sample = .ok tokens)
    (hlength : tokens.length = corpus.documentTokenCount) :
    corpus.generateDocumentTokensForEpoch overflowChecks fuel ext split epoch index =
      ExceptT.mk (some (.ok tokens)) := by
  have hreject : ∀ message, reject (tokens.length ≠ corpus.documentTokenCount) message = .ok () :=
    fun message => reject_eq_ok.2 (by simp [hlength])
  rw [OnlineNcaCorpus.generateDocumentTokensForEpoch, hsample]
  change (Job.ofFallible (corpus.encodeTokensFromSample sample) >>= _) = _
  rw [htokens]
  change (Job.ofFallible (reject _ _) >>= _) = _
  rw [hreject]
  rfl

/-- **The promised lengths.** The constructor keeps its promise for the configurations that are free
of panics and whose steps suffice; it never keeps it for a configuration on which it panics. -/
theorem newWithMinLogicalDocumentTokens_promisedLengths
    (hload : ∀ tokenization, ¬ Panics (loadRustBpe tokenization))
    (hgrids : ∀ family ∈ config.families, ∀ range ∈ family.gridSize, range.max ≤ usizeMax) :
    (PanicFree overflowChecks config request ∧ StepsSuffice overflowChecks config request →
      PromisedLengths overflowChecks loadRustBpe config request) ∧
    (PromisedLengths overflowChecks loadRustBpe config request →
      PanicFree overflowChecks config request) := by
  refine ⟨fun h => ⟨?_, fun corpus hnew => ?_, fun corpus hnew family hfamily => ?_, ?_⟩, fun h => ?_⟩
  · exact fun hpanics => (panics_new_iff hload).1 hpanics h.1
  · obtain ⟨hadjusted, -, -, hcount⟩ := new_eq_ok.1 hnew
    exact hadjusted.le_count hcount
  · exact count_singleton hfamily (new_eq_ok.1 hnew).2.2.2
  · intro corpus hnew ρ ext fuel split epoch index sample tokens _ hsample htokens hlength
    have heq := length_of_generated hgrids h.2 hnew hsample htokens hlength
    exact ⟨generate_of_length hsample htokens heq, heq⟩
  · by_contra hfree
    exact h.returns ((panics_new_iff hload).2 hfree)

/-- No byte pair encoding is read. -/
def noRustBpe (_ : NcaTokenizationConfig) : Fallible String CorpusTokenizer :=
  .error (.error "failed to read the vocabulary")

theorem newWithMinLogicalDocumentTokens_promisedLengths_small :
    PromisedLengths true noRustBpe (smallConfig 3 3) (some 1) := by
  have hload : ∀ tokenization, ¬ Panics (noRustBpe tokenization) := fun _ => not_panics_error
  have hadapt : adaptConfigForMinLogicalDocumentTokens true (smallConfig 3 3) (some 1) =
      .ok (smallConfig 3 3) := rfl
  have hnew : ¬ Panics (OnlineNcaCorpus.newWithMinLogicalDocumentTokens true noRustBpe
      (smallConfig 3 3) (some 1)) := by
    rintro ⟨panic, h⟩
    cases h
  have hfree : PanicFree true (smallConfig 3 3) (some 1) :=
    not_not.1 fun h => hnew ((panics_new_iff hload).2 h)
  have hsteps : StepsSuffice true (smallConfig 3 3) (some 1) := by
    intro adjusted hadjusted _ _ family hfamily steps hfixed
    obtain rfl := Except.ok.inj (hadapt.symm.trans (adapt_eq_ok.2 hadjusted))
    obtain rfl := List.mem_singleton.1 hfamily
    cases hfixed
    exact ⟨le_rfl, nofun⟩
  refine (newWithMinLogicalDocumentTokens_promisedLengths hload ?_).1 ⟨hfree, hsteps⟩
  intro family hfamily range hrange
  obtain rfl := List.mem_singleton.1 hfamily
  cases hrange
  decide

/-- A corpus whose only family has one step. -/
def oneStepConfig : NcaCorpusConfig :=
  { smallConfig 3 3 with families := [{ smallFamily 3 with steps := some ⟨1, 1⟩ }] }

def oneStepCorpus : OnlineNcaCorpus :=
  { config := oneStepConfig, tokenizer := .patchTokenIds 3 none false, documentTokenCount := 1 }

/-- Its samples have two frames. -/
theorem oneStepCorpus_sample : ∃ sample,
    oneStepCorpus.generateRawSample false 1 upperBounds .train 0 0 =
      ExceptT.mk (some (.ok sample)) ∧
    oneStepCorpus.encodeTokensFromSample sample = .ok [2, 2] := by
  obtain ⟨ratio, hratio⟩ : ∃ ratio, computeGzipComplexityRatio upperBounds
      (plainSample (smallFamily 3) 1 1 3 [[2], [2]]) oneStepConfig.serialization = .ok ratio := ⟨_, rfl⟩
  have hraw : oneStepCorpus.generateRawSample false 1 upperBounds .train 0 0 =
      Job.ofDraw (if (plainSample (smallFamily 3) 1 1 3 [[2], [2]]).gzipComplexityRatio == 0.0 then do
          let ratio ← Draw.lift (computeGzipComplexityRatio upperBounds
            (plainSample (smallFamily 3) 1 1 3 [[2], [2]]) oneStepConfig.serialization)
          return { plainSample (smallFamily 3) 1 1 3 [[2], [2]] with gzipComplexityRatio := ratio }
        else return plainSample (smallFamily 3) 1 1 3 [[2], [2]] : Draw Unit NcaSample) () := rfl
  have hencode (ratio : Float32) : oneStepCorpus.encodeTokensFromSample
      { plainSample (smallFamily 3) 1 1 3 [[2], [2]] with gzipComplexityRatio := ratio } =
        .ok [2, 2] := by
    simp [OnlineNcaCorpus.encodeTokensFromSample, oneStepCorpus, oneStepConfig,
      CorpusTokenizer.encodePatchSample, plainSample, smallConfig, checkedMul, usizeMax, okOr, reject,
      encodeFrame, encodeBoundary, encodeEos, frameStartId, frameEndId, encodePatch, patches,
      patchCells, patchValue, index, pushDigit, bind, pure, Except.bind, Except.pure, Except.mapError]
  split_ifs at hraw
  · exact ⟨_, hraw.trans (by rw [hratio]; rfl), hencode ratio⟩
  · exact ⟨_, hraw.trans rfl, hencode _⟩

/-- A patch size that `validate` would refuse, and a family of one step. -/
theorem not_promisedLengths :
    ¬ PromisedLengths false noRustBpe { smallConfig 3 3 with serialization := ⟨0, true, 1⟩ } (some 1) ∧
      ¬ PromisedLengths false noRustBpe oneStepConfig none := by
  refine ⟨fun h => h.returns ⟨.divisionByZero, rfl⟩, fun h => ?_⟩
  obtain ⟨sample, hsample, htokens⟩ := oneStepCorpus_sample
  have hpromised := (h.documents oneStepCorpus rfl Unit upperBounds 1 .train 0 0 sample [2, 2]
    Nat.one_pos hsample htokens (by decide)).2
  exact absurd hpromised (by decide)

end Promise

end BurnDragon.Nca
