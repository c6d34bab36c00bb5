import BurnDragon.Nca.FrameCounts
import BurnDragon.Nca.Runtime

/-!
# The lengths that are promised

`fixed_document_token_count` computes the length of the documents from the configuration, and
`adapt_config_for_min_logical_document_tokens` raises the steps of the families to a common payload.
For every function there is a description of its results (`TokensOf`, `Adjusted`) and one of its
panics.
-/

namespace BurnDragon.Nca

open Rust List Nat

/-! ## Panics -/

section Panics

variable {ε α β : Type}

/-- The computation panics. -/
def Panics (x : Fallible ε α) : Prop := ∃ panic, x = .error (.panic panic)

theorem not_panics_ok {a : α} : ¬ Panics (.ok a : Fallible ε α) := by
  rintro ⟨panic, h⟩
  cases h

theorem not_panics_error {e : ε} : ¬ Panics (.error (.error e) : Fallible ε α) := by
  rintro ⟨panic, h⟩
  cases h

theorem panics_bind_iff {x : Fallible ε α} {f : α → Fallible ε β} :
    Panics (x >>= f) ↔ Panics x ∨ ∃ a, x = .ok a ∧ Panics (f a) := by
  cases x with
  | error fault => simp [Panics, bind, Except.bind]
  | ok a => simp [Panics, bind, Except.bind]

theorem not_panics_reject {condition : Bool} {message : String} :
    ¬ Panics (reject condition message) := by
  cases condition
  · exact not_panics_ok
  · exact not_panics_error

theorem not_panics_okOr {x : Option α} {e : ε} : ¬ Panics (okOr x (.error e) : Fallible ε α) := by
  cases x
  · exact not_panics_error
  · exact not_panics_ok

theorem panics_mapError_iff {x : Run α} :
    Panics (x.mapError .panic : Fallible ε α) ↔ ∃ panic, x = .error panic := by
  cases x <;> simp [Panics, Except.mapError]

/-- A loop panics at the first item whose turn panics. -/
theorem panics_foldlM_iff {f : β → α → Fallible ε β} {xs : List α} {s : β} :
    Panics (xs.foldlM f s) ↔
      ∃ pre x post t, xs = pre ++ x :: post ∧ pre.foldlM f s = .ok t ∧ Panics (f t x) := by
  induction xs generalizing s with
  | nil => exact ⟨fun h => absurd h not_panics_ok, by simp⟩
  | cons x xs ih =>
    rw [foldlM_cons, panics_bind_iff]
    constructor
    · rintro (h | ⟨t, ht, h⟩)
      · exact ⟨[], x, xs, s, rfl, rfl, h⟩
      · obtain ⟨pre, y, post, u, rfl, hpre, hy⟩ := ih.1 h
        exact ⟨x :: pre, y, post, u, rfl, by rw [foldlM_cons, ht]; exact hpre, hy⟩
    · rintro ⟨_ | ⟨y, pre⟩, z, post, u, heq, hpre, hz⟩
      · obtain ⟨rfl, rfl⟩ := List.cons.inj heq
        cases hpre
        exact .inl hz
      · obtain ⟨rfl, rfl⟩ := List.cons.inj heq
        rw [foldlM_cons] at hpre
        obtain ⟨t, ht, hpre⟩ := bind_eq_ok.1 hpre
        exact .inr ⟨t, ht, ih.2 ⟨pre, z, post, u, rfl, hpre, hz⟩⟩

end Panics

/-! ## The length of the documents of a family -/

/-- The tokens of a frame; the number of patches is computed in a machine word. -/
def NcaFamilyConfig.frameTokens (patchSize boundaryTokens : ℕ) (family : NcaFamilyConfig) : ℕ :=
  (family.gridSize.getD ⟨0, 0⟩).min / patchSize * ((family.gridSize.getD ⟨0, 0⟩).min / patchSize) %
    2 ^ 64 + boundaryTokens

/-- A family whose document length the code can compute: fixed sizes, and a grid of whole patches. -/
structure NcaFamilyConfig.Countable (overflowChecks : Bool) (patchSize : ℕ)
    (family : NcaFamilyConfig) (grid steps : ℕ) : Prop where
  fixed : family.Fixed grid steps
  patchSize_pos : 0 < patchSize
  dvd : patchSize ∣ grid
  fits : overflowChecks = true → grid / patchSize * (grid / patchSize) ≤ usizeMax

/-- The documents of a family have a number of tokens. -/
def NcaFamilyConfig.TokensOf (overflowChecks : Bool) (patchSize boundaryTokens eosTokens : ℕ)
    (family : NcaFamilyConfig) (count : ℕ) : Prop :=
  ∃ grid steps, family.Countable overflowChecks patchSize grid steps ∧
    count = steps * family.frameTokens patchSize boundaryTokens + eosTokens ∧ count ≤ usizeMax

/-- A family on which the computation of the length panics. -/
def NcaFamilyConfig.CountPanics (overflowChecks : Bool) (patchSize : ℕ) (family : NcaFamilyConfig) :
    Prop :=
  ∃ grid steps, family.Fixed grid steps ∧ (patchSize = 0 ∨ patchSize ∣ grid ∧
    overflowChecks = true ∧ usizeMax < grid / patchSize * (grid / patchSize))

section Family

variable {overflowChecks : Bool} {patchSize boundaryTokens eosTokens : ℕ} {family : NcaFamilyConfig}
  {grid steps : ℕ}

theorem NcaFamilyConfig.Fixed.unique {grid' steps' : ℕ} (h : family.Fixed grid steps)
    (h' : family.Fixed grid' steps') : grid = grid' ∧ steps = steps' := by
  have hgrid := h.gridSize.symm.trans h'.gridSize
  have hsteps := h.steps.symm.trans h'.steps
  simp only [Option.some.injEq, UsizeRangeConfig.mk.injEq, and_self] at hgrid hsteps
  exact ⟨hgrid, hsteps⟩

theorem NcaFamilyConfig.TokensOf.unique {n m : ℕ}
    (h : family.TokensOf overflowChecks patchSize boundaryTokens eosTokens n)
    (h' : family.TokensOf overflowChecks patchSize boundaryTokens eosTokens m) : n = m := by
  obtain ⟨grid, steps, hcountable, rfl, -⟩ := h
  obtain ⟨grid', steps', hcountable', rfl, -⟩ := h'
  obtain ⟨-, rfl⟩ := hcountable.fixed.unique hcountable'.fixed
  rfl

theorem usizeResult_eq_ok {n c : ℕ} :
    usizeResult overflowChecks n = .ok c ↔ (overflowChecks = true → n ≤ usizeMax) ∧ c = n % 2 ^ 64 := by
  have hmax : ∀ {m : ℕ}, m ≤ usizeMax ↔ m < 2 ^ 64 := by
    intro m
    unfold usizeMax
    omega
  unfold usizeResult
  split_ifs with hle hchecks
  · rw [mod_eq_of_lt (hmax.1 hle)]
    simp [hle, eq_comm]
  · simp [hle, hchecks]
  · simp [hchecks, eq_comm]

theorem usizeResult_eq_error {n : ℕ} :
    (∃ panic, usizeResult overflowChecks n = .error panic) ↔
      overflowChecks = true ∧ usizeMax < n := by
  unfold usizeResult
  split_ifs with hle hchecks
  · simp [hle]
  · simp [hchecks, not_le.1 hle]
  · simp [hchecks]

/-- The square of a word, reduced to a word, is not one of the two greatest words. -/
theorem square_mod_add_two_lt (k : ℕ) : k * k % 2 ^ 64 + 2 ≤ usizeMax := by
  have hsquare : k * k % 4 = k % 4 * (k % 4) % 4 := mul_mod _ _ _
  have hfour : k % 4 < 4 := mod_lt _ (by decide)
  have hcases : k * k % 4 = 0 ∨ k * k % 4 = 1 := by
    rw [hsquare]
    interval_cases k % 4 <;> simp
  unfold usizeMax
  omega

theorem fixedRangeValue_eq_ok {range : Option UsizeRangeConfig} {label : String} {value : ℕ} :
    fixedRangeValue range label = .ok value ↔ range = some ⟨value, value⟩ := by
  cases range with
  | none => simp [fixedRangeValue]
  | some range =>
    obtain ⟨lower, upper⟩ := range
    simp only [fixedRangeValue, bind_eq_ok, reject_eq_ok, decide_eq_false_iff_not, not_not,
      Option.some.injEq, UsizeRangeConfig.mk.injEq]
    constructor
    · rintro ⟨-, rfl, ⟨⟩⟩
      exact ⟨rfl, rfl⟩
    · rintro ⟨rfl, rfl⟩
      exact ⟨(), rfl, rfl⟩

theorem not_panics_fixedRangeValue {range : Option UsizeRangeConfig} {label : String} :
    ¬ Panics (fixedRangeValue range label) := by
  cases range with
  | none => exact not_panics_error
  | some range =>
    rw [fixedRangeValue, panics_bind_iff]
    rintro (h | ⟨-, -, h⟩)
    · exact not_panics_reject h
    · exact not_panics_ok h

theorem patchesPerFrame_eq_ok {index patches : ℕ} :
    patchesPerFrame overflowChecks patchSize index grid = .ok patches ↔
      (0 < patchSize ∧ patchSize ∣ grid ∧
        (overflowChecks = true → grid / patchSize * (grid / patchSize) ≤ usizeMax)) ∧
      patches = grid / patchSize * (grid / patchSize) % 2 ^ 64 := by
  rcases Nat.eq_zero_or_pos patchSize with rfl | hpos
  · simp [patchesPerFrame, remainder, Except.mapError, bind, Except.bind]
  · simp only [patchesPerFrame, bind_eq_ok, mapError_eq_ok, remainder_of_pos hpos, Except.ok.injEq,
      reject_eq_ok, decide_eq_false_iff_not, not_not, usizeResult_eq_ok, exists_eq_left']
    rw [dvd_iff_mod_eq_zero]
    constructor
    · rintro ⟨-, hrest, hfits, rfl⟩
      exact ⟨⟨hpos, hrest, hfits⟩, rfl⟩
    · rintro ⟨⟨-, hrest, hfits⟩, rfl⟩
      exact ⟨(), hrest, hfits, rfl⟩

theorem panics_patchesPerFrame_iff {index : ℕ} :
    Panics (patchesPerFrame overflowChecks patchSize index grid) ↔
      patchSize = 0 ∨ patchSize ∣ grid ∧ overflowChecks = true ∧
        usizeMax < grid / patchSize * (grid / patchSize) := by
  rcases Nat.eq_zero_or_pos patchSize with rfl | hpos
  · simp [patchesPerFrame, remainder, Except.mapError, bind, Except.bind, Panics]
  · simp only [patchesPerFrame, panics_bind_iff, panics_mapError_iff, mapError_eq_ok,
      remainder_of_pos hpos, reduceCtorEq, exists_false, false_or, Except.ok.injEq,
      exists_eq_left', not_panics_reject, reject_eq_ok, decide_eq_false_iff_not, not_not,
      usizeResult_eq_error, hpos.ne', dvd_iff_mod_eq_zero]
    constructor
    · rintro ⟨-, hrest, h⟩
      exact ⟨hrest, h⟩
    · rintro ⟨hrest, h⟩
      exact ⟨(), hrest, h⟩

end Family

/-! ## The length of the documents of a corpus -/

variable {count : ℕ}

section Count

variable (overflowChecks : Bool) (patchSize : ℕ) (eosId : Option UInt32) (frameSpecialTokens : Bool)

/-- The length of the documents of one family. -/
def familyTokenCount (item : NcaFamilyConfig × ℕ) : Fallible String ℕ := do
  let (family, index) := item
  let grid ← fixedRangeValue family.gridSize s!"families[{index}].grid_size"
  let steps ← fixedRangeValue family.steps s!"families[{index}].steps"
  let patches ← patchesPerFrame overflowChecks patchSize index grid
  let frameTokenCount := saturatingAdd patches (frameSpecialTokens.toNat * 2)
  okOr ((checkedMul steps frameTokenCount).bind (checkedAdd · eosId.isSome.toNat))
    (.error "on-the-fly NCA token length overflow")

/-- One turn of the loop of `fixed_document_token_count`. -/
def countFamily (expected : Option ℕ) (item : NcaFamilyConfig × ℕ) : Fallible String (Option ℕ) := do
  let tokenCount ← familyTokenCount overflowChecks patchSize eosId frameSpecialTokens item
  match expected with
  | some previous => do
    reject (previous ≠ tokenCount)
      ("on-the-fly NCA training currently requires fixed document length across families " ++
        s!"(got {previous} and {tokenCount})")
    return expected
  | none => return some tokenCount

variable {overflowChecks patchSize eosId frameSpecialTokens} {item : NcaFamilyConfig × ℕ}
  {items : List (NcaFamilyConfig × ℕ)} {expected result : Option ℕ}

theorem fixedDocumentTokenCount_eq {config : NcaCorpusConfig} {vocabSize : ℕ}
    (h : config.tokenization = .patchTokenIds vocabSize eosId frameSpecialTokens) :
    fixedDocumentTokenCount overflowChecks config = (do
      let expected ← config.families.zipIdx.foldlM
        (countFamily overflowChecks config.serialization.patchSize eosId frameSpecialTokens) none
      okOr expected (.error "on-the-fly NCA training requires at least one family")) := by
  simp only [fixedDocumentTokenCount, h]
  refine congrArg (· >>= _) (congrArg (fun turn => List.foldlM turn none _) ?_)
  funext expected item
  simp only [countFamily, familyTokenCount, bind_assoc] <;> cases expected <;> rfl

theorem checkedCount_eq_some {steps frameTokens eosTokens : ℕ} :
    (checkedMul steps frameTokens).bind (checkedAdd · eosTokens) = some count ↔
      count = steps * frameTokens + eosTokens ∧ count ≤ usizeMax := by
  unfold checkedMul checkedAdd
  constructor
  · intro h
    obtain ⟨product, hproduct, h⟩ := Option.bind_eq_some_iff.1 h
    split_ifs at hproduct h
    obtain rfl := Option.some.inj hproduct
    obtain rfl := Option.some.inj h
    exact ⟨rfl, by assumption⟩
  · rintro ⟨rfl, hle⟩
    rw [if_pos (by omega), Option.bind_some, if_pos hle]

theorem familyTokenCount_eq_ok :
    familyTokenCount overflowChecks patchSize eosId frameSpecialTokens item = .ok count ↔
      item.1.TokensOf overflowChecks patchSize (frameSpecialTokens.toNat * 2) eosId.isSome.toNat
        count := by
  have hsaturating : ∀ k, saturatingAdd (k * k % 2 ^ 64) (frameSpecialTokens.toNat * 2) =
      k * k % 2 ^ 64 + frameSpecialTokens.toNat * 2 := fun k => by
    have := square_mod_add_two_lt k
    have := Bool.toNat_le frameSpecialTokens
    exact saturatingAdd_of_le (by omega)
  simp only [familyTokenCount, bind_eq_ok, fixedRangeValue_eq_ok, patchesPerFrame_eq_ok, okOr_eq_ok]
  constructor
  · rintro ⟨grid, hgrid, steps, hsteps, _, ⟨⟨hpos, hdvd, hfits⟩, rfl⟩, h⟩
    rw [hsaturating] at h
    refine ⟨grid, steps, ⟨⟨hgrid, hsteps⟩, hpos, hdvd, hfits⟩, ?_⟩
    rw [NcaFamilyConfig.frameTokens, hgrid, Option.getD_some]
    exact checkedCount_eq_some.1 h
  · rintro ⟨grid, steps, ⟨⟨hgrid, hsteps⟩, hpos, hdvd, hfits⟩, h⟩
    rw [NcaFamilyConfig.frameTokens, hgrid, Option.getD_some] at h
    refine ⟨grid, hgrid, steps, hsteps, _, ⟨⟨hpos, hdvd, hfits⟩, rfl⟩, ?_⟩
    rw [hsaturating]
    exact checkedCount_eq_some.2 h

theorem panics_familyTokenCount_iff :
    Panics (familyTokenCount overflowChecks patchSize eosId frameSpecialTokens item) ↔
      item.1.CountPanics overflowChecks patchSize := by
  simp only [familyTokenCount, panics_bind_iff, not_panics_fixedRangeValue, fixedRangeValue_eq_ok,
    panics_patchesPerFrame_iff, not_panics_okOr, and_false, exists_false, or_false, false_or]
  constructor
  · rintro ⟨grid, hgrid, steps, hsteps, h⟩
    exact ⟨grid, steps, ⟨hgrid, hsteps⟩, h⟩
  · rintro ⟨grid, steps, ⟨hgrid, hsteps⟩, h⟩
    exact ⟨grid, hgrid, steps, hsteps, h⟩

theorem countFamily_eq_ok :
    countFamily overflowChecks patchSize eosId frameSpecialTokens expected item = .ok result ↔
      ∃ count, item.1.TokensOf overflowChecks patchSize (frameSpecialTokens.toNat * 2)
        eosId.isSome.toNat count ∧ (∀ previous ∈ expected, previous = count) ∧
          result = some count := by
  simp only [countFamily, bind_eq_ok, familyTokenCount_eq_ok]
  refine exists_congr fun count => and_congr_right fun _ => ?_
  cases expected with
  | none => simp [pure, Except.pure, eq_comm]
  | some previous =>
    simp only [bind_eq_ok, reject_eq_ok, decide_eq_false_iff_not, not_not]
    constructor
    · rintro ⟨-, rfl, ⟨⟩⟩
      exact ⟨by simp, rfl⟩
    · rintro ⟨hprevious, rfl⟩
      obtain rfl := hprevious previous rfl
      exact ⟨(), rfl, rfl⟩

theorem panics_countFamily_iff :
    Panics (countFamily overflowChecks patchSize eosId frameSpecialTokens expected item) ↔
      item.1.CountPanics overflowChecks patchSize := by
  rw [countFamily, panics_bind_iff, panics_familyTokenCount_iff]
  refine or_iff_left ?_
  rintro ⟨count, -, h⟩
  cases expected with
  | none => exact not_panics_ok h
  | some previous =>
    rw [panics_bind_iff] at h
    rcases h with h | ⟨-, -, h⟩
    · exact not_panics_reject h
    · exact not_panics_ok h

/-- The loop counts the same length for all families. -/
theorem foldlM_countFamily_eq_ok :
    items.foldlM (countFamily overflowChecks patchSize eosId frameSpecialTokens) expected =
        .ok result ↔
      (items = [] ∧ result = expected) ∨ items ≠ [] ∧ ∃ count, result = some count ∧
        (∀ previous ∈ expected, previous = count) ∧
        ∀ item ∈ items, item.1.TokensOf overflowChecks patchSize (frameSpecialTokens.toNat * 2)
          eosId.isSome.toNat count := by
  induction items generalizing expected with
  | nil => simp [pure, Except.pure, eq_comm]
  | cons item items ih =>
    rw [foldlM_cons]
    simp only [bind_eq_ok, countFamily_eq_ok, ih, reduceCtorEq, false_and, false_or, ne_eq,
      not_false_eq_true, true_and, forall_mem_cons]
    constructor
    · rintro ⟨_, ⟨count, hcount, hexpected, rfl⟩, ⟨rfl, rfl⟩ | ⟨-, count', rfl, hsame, hitems⟩⟩
      · exact ⟨count, rfl, hexpected, hcount, by simp⟩
      · obtain rfl := hsame count rfl
        exact ⟨count, rfl, hexpected, hcount, hitems⟩
    · rintro ⟨count, rfl, hexpected, hcount, hitems⟩
      refine ⟨_, ⟨count, hcount, hexpected, rfl⟩, ?_⟩
      by_cases hnil : items = []
      · exact .inl ⟨hnil, rfl⟩
      · exact .inr ⟨hnil, count, rfl, by simp, hitems⟩

end Count

variable {config : NcaCorpusConfig}

section Corpus

variable {overflowChecks : Bool} {vocabSize : ℕ} {eosId : Option UInt32} {frameSpecialTokens : Bool}

/-- The documents of all families have a number of tokens. -/
def NcaCorpusConfig.TokensOf (overflowChecks : Bool) (eosId : Option UInt32)
    (frameSpecialTokens : Bool) (config : NcaCorpusConfig) (count : ℕ) : Prop :=
  config.families ≠ [] ∧ ∀ family ∈ config.families,
    family.TokensOf overflowChecks config.serialization.patchSize (frameSpecialTokens.toNat * 2)
      eosId.isSome.toNat count

/-- The first family whose length is not like that of the families before it makes the computation
panic. -/
def NcaCorpusConfig.CountPanics (overflowChecks : Bool) (eosId : Option UInt32)
    (frameSpecialTokens : Bool) (config : NcaCorpusConfig) : Prop :=
  ∃ pre family post count, config.families = pre ++ family :: post ∧
    (∀ other ∈ pre, other.TokensOf overflowChecks config.serialization.patchSize
      (frameSpecialTokens.toNat * 2) eosId.isSome.toNat count) ∧
    family.CountPanics overflowChecks config.serialization.patchSize

theorem forall_mem_zipIdx {families : List NcaFamilyConfig} {start : ℕ}
    {P : NcaFamilyConfig → Prop} :
    (∀ item ∈ families.zipIdx start, P item.1) ↔ ∀ family ∈ families, P family := by
  rw [← forall_mem_map, zipIdx_map_fst]

theorem fixedDocumentTokenCount_eq_ok
    (h : config.tokenization = .patchTokenIds vocabSize eosId frameSpecialTokens) :
    fixedDocumentTokenCount overflowChecks config = .ok count ↔
      config.TokensOf overflowChecks eosId frameSpecialTokens count := by
  have hnil : config.families.zipIdx = [] ↔ config.families = [] := zipIdx_eq_nil_iff
  simp only [fixedDocumentTokenCount_eq h, bind_eq_ok, foldlM_countFamily_eq_ok, okOr_eq_ok,
    NcaCorpusConfig.TokensOf, ne_eq, hnil]
  constructor
  · rintro ⟨_, ⟨-, rfl⟩ | ⟨hne, count', rfl, -, hcount⟩, hresult⟩
    · cases hresult
    · obtain rfl := Option.some.inj hresult
      exact ⟨hne, forall_mem_zipIdx.1 hcount⟩
  · rintro ⟨hne, hcount⟩
    exact ⟨_, .inr ⟨hne, count, rfl, by simp, forall_mem_zipIdx.2 hcount⟩, rfl⟩

theorem panics_fixedDocumentTokenCount_iff
    (h : config.tokenization = .patchTokenIds vocabSize eosId frameSpecialTokens) :
    Panics (fixedDocumentTokenCount overflowChecks config) ↔
      config.CountPanics overflowChecks eosId frameSpecialTokens := by
  simp only [fixedDocumentTokenCount_eq h, panics_bind_iff, not_panics_okOr, and_false, exists_false,
    or_false, panics_foldlM_iff, panics_countFamily_iff, foldlM_countFamily_eq_ok]
  constructor
  · rintro ⟨pre, item, post, result, heq, hpre, hitem⟩
    have hfamilies : config.families = pre.map Prod.fst ++ item.1 :: post.map Prod.fst := by
      rw [← zipIdx_map_fst 0 config.families, heq, map_append, map_cons]
    rcases hpre with ⟨rfl, -⟩ | ⟨-, count, -, -, hcount⟩
    · exact ⟨[], item.1, _, 0, hfamilies, by simp, hitem⟩
    · exact ⟨_, item.1, _, count, hfamilies, by simpa using hcount, hitem⟩
  · rintro ⟨pre, family, post, count, heq, hpre, hfamily⟩
    refine ⟨pre.zipIdx, (family, pre.length), post.zipIdx (pre.length + 1),
      if pre = [] then none else some count, ?_, ?_, hfamily⟩
    · rw [heq, zipIdx_append, zipIdx_cons, zero_add]
    · by_cases hnil : pre = []
      · exact .inl ⟨by rw [hnil, zipIdx_nil], if_pos hnil⟩
      · exact .inr ⟨fun h => hnil (zipIdx_eq_nil_iff.1 h), count, if_neg hnil, by simp,
          forall_mem_zipIdx.2 hpre⟩

end Corpus

/-! ## The common payload -/

theorem gcdUsize_eq_gcd (lhs rhs : ℕ) : gcdUsize lhs rhs = lhs.gcd rhs := by
  fun_induction gcdUsize lhs rhs with
  | case1 lhs => exact (Nat.gcd_zero_right lhs).symm
  | case2 lhs rhs hrhs ih => rw [ih, Nat.gcd_comm rhs, ← Nat.gcd_rec, Nat.gcd_comm]

theorem lcmUsize_eq_some {lhs rhs multiple : ℕ} (h : lcmUsize lhs rhs = some multiple) :
    multiple = lhs.lcm rhs := by
  unfold lcmUsize at h
  split_ifs at h with hzero
  · obtain rfl := Option.some.inj h
    rcases hzero with rfl | rfl
    · exact (Nat.lcm_zero_left rhs).symm
    · exact (Nat.lcm_zero_right lhs).symm
  · unfold checkedMul at h
    split_ifs at h
    obtain rfl := Option.some.inj h
    rw [gcdUsize_eq_gcd, Nat.lcm, Nat.div_mul_right_comm (Nat.gcd_dvd_left lhs rhs)]

/-- The alignment is a multiple of the tokens of every frame. -/
theorem dvd_of_foldlM_lcmUsize {counts : List ℕ} {start alignment : ℕ}
    (h : counts.foldlM lcmUsize start = some alignment) :
    start ∣ alignment ∧ ∀ count ∈ counts, count ∣ alignment := by
  induction counts generalizing start with
  | nil =>
    obtain rfl := Option.some.inj h
    exact ⟨dvd_rfl, by simp⟩
  | cons count counts ih =>
    rw [foldlM_cons] at h
    obtain ⟨multiple, hmultiple, h⟩ := Option.bind_eq_some_iff.1 h
    obtain ⟨hdvd, hcounts⟩ := ih h
    rw [lcmUsize_eq_some hmultiple] at hdvd
    exact ⟨(dvd_lcm_left _ _).trans hdvd,
      forall_mem_cons.2 ⟨(dvd_lcm_right _ _).trans hdvd, hcounts⟩⟩

section Payload

variable {overflowChecks : Bool} {eosId : Option UInt32} {frameSpecialTokens : Bool} {minTokens : ℕ}

/-- The tokens of the frames of the families. -/
def NcaCorpusConfig.frameTokens (frameSpecialTokens : Bool) (config : NcaCorpusConfig) : List ℕ :=
  config.families.map
    (NcaFamilyConfig.frameTokens config.serialization.patchSize (frameSpecialTokens.toNat * 2))

/-- The least common multiple of the frames, unless it overflows. -/
def NcaCorpusConfig.alignment (frameSpecialTokens : Bool) (config : NcaCorpusConfig) : Option ℕ :=
  (config.frameTokens frameSpecialTokens).foldlM lcmUsize 1

/-- One turn of the loop over the families. -/
def alignFamily (overflowChecks : Bool) (patchSize : ℕ) (frameSpecialTokens : Bool)
    (state : List ℕ × ℕ) (item : NcaFamilyConfig × ℕ) : Fallible String (List ℕ × ℕ) := do
  let (counts, alignment) := state
  let (family, index) := item
  let grid ← fixedRangeValue family.gridSize s!"families[{index}].grid_size"
  let patches ← patchesPerFrame overflowChecks patchSize index grid
  let frameTokens ←
    (usizeResult overflowChecks (patches + frameSpecialTokens.toNat * 2)).mapError .panic
  let alignment ← okOr (lcmUsize alignment frameTokens)
    (.error "on-the-fly NCA payload alignment overflow")
  return (counts ++ [frameTokens], alignment)

theorem alignFamily_eq {patchSize grid steps : ℕ} {state : List ℕ × ℕ}
    {item : NcaFamilyConfig × ℕ} (h : item.1.Countable overflowChecks patchSize grid steps) :
    alignFamily overflowChecks patchSize frameSpecialTokens state item = (do
      let alignment ← okOr
        (lcmUsize state.2 (item.1.frameTokens patchSize (frameSpecialTokens.toNat * 2)))
        (.error "on-the-fly NCA payload alignment overflow")
      return (state.1 ++ [item.1.frameTokens patchSize (frameSpecialTokens.toNat * 2)],
        alignment)) := by
  have hpatches : ∀ index, patchesPerFrame overflowChecks patchSize index grid =
      .ok (grid / patchSize * (grid / patchSize) % 2 ^ 64) := fun index =>
    patchesPerFrame_eq_ok.2 ⟨⟨h.patchSize_pos, h.dvd, h.fits⟩, rfl⟩
  have hfits : grid / patchSize * (grid / patchSize) % 2 ^ 64 + frameSpecialTokens.toNat * 2 ≤
      usizeMax := by
    have := square_mod_add_two_lt (grid / patchSize)
    have := Bool.toNat_le frameSpecialTokens
    omega
  obtain ⟨counts, alignment⟩ := state
  obtain ⟨family, index⟩ := item
  have hgrid : family.gridSize = some ⟨grid, grid⟩ := h.fixed.gridSize
  have hvalue : ∀ label, fixedRangeValue (some ⟨grid, grid⟩) label = .ok grid := fun label =>
    fixedRangeValue_eq_ok.2 rfl
  rw [alignFamily]
  simp only [hvalue, hpatches, usizeResult_of_le hfits,
    NcaFamilyConfig.frameTokens, hgrid, Option.getD_some, Except.mapError, bind, Except.bind]

theorem foldlM_alignFamily {patchSize : ℕ} {items : List (NcaFamilyConfig × ℕ)}
    {state : List ℕ × ℕ}
    (h : ∀ item ∈ items, ∃ grid steps, item.1.Countable overflowChecks patchSize grid steps) :
    items.foldlM (alignFamily overflowChecks patchSize frameSpecialTokens) state =
      okOr (((items.map fun item => item.1.frameTokens patchSize (frameSpecialTokens.toNat * 2)).foldlM
        lcmUsize state.2).map fun alignment => (state.1 ++ items.map fun item =>
          item.1.frameTokens patchSize (frameSpecialTokens.toNat * 2), alignment))
        (.error "on-the-fly NCA payload alignment overflow") := by
  induction items generalizing state with
  | nil => simp [okOr, pure, Except.pure]
  | cons item items ih =>
    obtain ⟨⟨grid, steps, hitem⟩, hitems⟩ := forall_mem_cons.1 h
    rw [foldlM_cons, alignFamily_eq hitem, map_cons, foldlM_cons]
    cases hlcm : lcmUsize state.2
        (item.1.frameTokens patchSize (frameSpecialTokens.toNat * 2)) with
    | none => rfl
    | some multiple =>
      refine (ih hitems).trans ?_
      simp only [append_assoc, singleton_append, bind, Option.bind]

theorem frameTokenCounts_eq (h : config.TokensOf overflowChecks eosId frameSpecialTokens count) :
    frameTokenCounts overflowChecks config frameSpecialTokens =
      okOr ((config.alignment frameSpecialTokens).map fun alignment =>
        (config.frameTokens frameSpecialTokens, alignment))
        (.error "on-the-fly NCA payload alignment overflow") := by
  have hcountable : ∀ item ∈ config.families.zipIdx, ∃ grid steps,
      item.1.Countable overflowChecks config.serialization.patchSize grid steps := by
    refine (forall_mem_zipIdx (P := fun family => ∃ grid steps,
      family.Countable overflowChecks config.serialization.patchSize grid steps)).2 ?_
    intro family hfamily
    obtain ⟨grid, steps, hfamily, -⟩ := h.2 family hfamily
    exact ⟨grid, steps, hfamily⟩
  have hmap : (config.families.zipIdx.map fun item => item.1.frameTokens
      config.serialization.patchSize (frameSpecialTokens.toNat * 2)) =
        config.frameTokens frameSpecialTokens := by
    rw [NcaCorpusConfig.frameTokens, ← zipIdx_map_fst 0 config.families, map_map, zipIdx_map_fst]
    rfl
  have hloop : config.families.zipIdx.foldlM
      (alignFamily overflowChecks config.serialization.patchSize frameSpecialTokens) ([], 1) = _ :=
    foldlM_alignFamily hcountable
  refine Eq.trans ?_ (hloop.trans ?_)
  · rfl
  · rw [hmap, nil_append]
    rfl

/-- The length of a payload that has room for the tokens and consists of whole frames. -/
def commonPayload (minTokens eosTokens alignment : ℕ) : ℕ :=
  (minTokens + 1 - eosTokens + alignment - 1) / alignment * alignment

/-- The configuration with the steps that a payload takes. -/
def NcaCorpusConfig.withPayload (frameSpecialTokens : Bool) (config : NcaCorpusConfig)
    (payload : ℕ) : NcaCorpusConfig :=
  { config with
    families := config.families.map fun family =>
      let frameTokens :=
        family.frameTokens config.serialization.patchSize (frameSpecialTokens.toNat * 2)
      { family with steps := some ⟨payload / frameTokens, payload / frameTokens⟩ } }

theorem mapM_stepsForPayload {patchSize boundaryTokens payload : ℕ}
    {families : List NcaFamilyConfig}
    (h : ∀ family ∈ families, family.frameTokens patchSize boundaryTokens ≠ 0) :
    ((families.zip (families.map (NcaFamilyConfig.frameTokens patchSize boundaryTokens))).mapM
      fun (family, frameTokens) => do
        let steps ← stepsForPayload payload frameTokens
        return { family with steps := some steps } : Fallible String (List NcaFamilyConfig)) =
      .ok (families.map fun family => { family with
        steps := some ⟨payload / family.frameTokens patchSize boundaryTokens,
          payload / family.frameTokens patchSize boundaryTokens⟩ }) := by
  have hzip : families.zip (families.map (NcaFamilyConfig.frameTokens patchSize boundaryTokens)) =
      families.map fun family => (family, family.frameTokens patchSize boundaryTokens) :=
    map_prod_left_eq_zip.symm
  rw [hzip]
  refine (mapM_eq_ok (g := fun item : NcaFamilyConfig × ℕ => { item.1 with
    steps := some ⟨payload / item.2, payload / item.2⟩ }) ?_).trans (by rw [map_map]; rfl)
  intro item hitem
  obtain ⟨family, hfamily, rfl⟩ := mem_map.1 hitem
  simp only [stepsForPayload, if_neg (h family hfamily)]
  rfl

section Raise

variable (h : config.TokensOf overflowChecks eosId frameSpecialTokens count)

include h

theorem raiseSteps_eq (hmin : minTokens < usizeMax) :
    raiseSteps overflowChecks config eosId frameSpecialTokens minTokens =
      match config.alignment frameSpecialTokens with
      | none => .error (.error "on-the-fly NCA payload alignment overflow")
      | some alignment =>
        if alignment = 0 then .error (.panic .divisionByZero)
        else if commonPayload minTokens eosId.isSome.toNat alignment ≤ usizeMax then
          .ok (config.withPayload frameSpecialTokens
            (commonPayload minTokens eosId.isSome.toNat alignment))
        else .error (.error "on-the-fly NCA target payload length overflow") := by
  have hadd : checkedAdd minTokens 1 = some (minTokens + 1) := if_pos hmin
  have heos : eosId.isSome.toNat ≤ minTokens + 1 := by
    have := Bool.toNat_le eosId.isSome
    omega
  rw [raiseSteps, frameTokenCounts_eq h, hadd]
  simp only [heos, if_true, okOr, bind, Except.bind]
  cases halignment : config.alignment frameSpecialTokens with
  | none => rfl
  | some alignment =>
    simp only [Option.map_some]
    rcases Nat.eq_zero_or_pos alignment with rfl | hpos
    · simp only [divCeil, if_true, Except.mapError]
    · have hframes : ∀ family ∈ config.families, family.frameTokens config.serialization.patchSize
          (frameSpecialTokens.toNat * 2) ≠ 0 := fun family hfamily hzero => by
        have hdvd := (dvd_of_foldlM_lcmUsize halignment).2 0
          (hzero ▸ mem_map_of_mem hfamily)
        exact hpos.ne' (eq_zero_of_zero_dvd hdvd)
      have hpayload : checkedMul ((minTokens + 1 - eosId.isSome.toNat + alignment - 1) / alignment)
          alignment = if commonPayload minTokens eosId.isSome.toNat alignment ≤ usizeMax then
            some (commonPayload minTokens eosId.isSome.toNat alignment) else none := rfl
      simp only [divCeil, hpos.ne', if_false, Except.mapError, hpayload]
      by_cases hfits : commonPayload minTokens eosId.isSome.toNat alignment ≤ usizeMax
      · rw [if_pos hfits, if_pos hfits]
        exact congrArg (fun families => families >>= fun families =>
          (.ok { config with families } : Fallible String NcaCorpusConfig))
            (mapM_stepsForPayload hframes)
      · rw [if_neg hfits, if_neg hfits]

theorem raiseSteps_eq_ok {adjusted : NcaCorpusConfig} :
    raiseSteps overflowChecks config eosId frameSpecialTokens minTokens = .ok adjusted ↔
      minTokens < usizeMax ∧ ∃ alignment, config.alignment frameSpecialTokens = some alignment ∧
        alignment ≠ 0 ∧ commonPayload minTokens eosId.isSome.toNat alignment ≤ usizeMax ∧
        adjusted = config.withPayload frameSpecialTokens
          (commonPayload minTokens eosId.isSome.toNat alignment) := by
  by_cases hmin : minTokens < usizeMax
  · rw [raiseSteps_eq h hmin]
    cases config.alignment frameSpecialTokens with
    | none => simp
    | some alignment =>
      simp only
      split_ifs with hzero hfits
      · simp [hzero]
      · simp [hmin, hzero, hfits, eq_comm]
      · simp [hfits]
  · have hadd : checkedAdd minTokens 1 = none := if_neg (by omega)
    simp [raiseSteps, hadd, okOr, bind, Except.bind, hmin]

theorem panics_raiseSteps_iff :
    Panics (raiseSteps overflowChecks config eosId frameSpecialTokens minTokens) ↔
      minTokens < usizeMax ∧ config.alignment frameSpecialTokens = some 0 := by
  by_cases hmin : minTokens < usizeMax
  · rw [raiseSteps_eq h hmin]
    cases config.alignment frameSpecialTokens with
    | none => simp [Panics]
    | some alignment =>
      simp only
      split_ifs with hzero hfits
      · simp [Panics, hzero, hmin]
      · simp [Panics, hzero]
      · simp [Panics, hzero]
  · have hadd : checkedAdd minTokens 1 = none := if_neg (by omega)
    simp [raiseSteps, hadd, okOr, bind, Except.bind, hmin, Panics]

end Raise

end Payload

/-! ## The adjusted configuration -/

section Adjusted

variable {overflowChecks : Bool} {adjusted : NcaCorpusConfig} {minLogicalDocumentTokens : Option ℕ}

/-- The configuration that the corpus is made from. -/
inductive Adjusted (overflowChecks : Bool) (config : NcaCorpusConfig) :
    Option ℕ → NcaCorpusConfig → Prop
  | unasked {request : Option ℕ} (h : ∀ minTokens ∈ request, minTokens = 0) :
    Adjusted overflowChecks config request config
  | long {vocabSize : ℕ} {eosId : Option UInt32} {frameSpecialTokens : Bool} {minTokens count : ℕ}
    (htokenization : config.tokenization = .patchTokenIds vocabSize eosId frameSpecialTokens)
    (hpos : 0 < minTokens)
    (hcount : config.TokensOf overflowChecks eosId frameSpecialTokens count)
    (hlong : minTokens ≤ count - 1) : Adjusted overflowChecks config (some minTokens) config
  | raised {vocabSize : ℕ} {eosId : Option UInt32} {frameSpecialTokens : Bool}
    {minTokens count alignment : ℕ}
    (htokenization : config.tokenization = .patchTokenIds vocabSize eosId frameSpecialTokens)
    (hpos : 0 < minTokens)
    (hcount : config.TokensOf overflowChecks eosId frameSpecialTokens count)
    (hshort : count - 1 < minTokens) (hmax : minTokens < usizeMax)
    (halignment : config.alignment frameSpecialTokens = some alignment) (hne : alignment ≠ 0)
    (hpayload : commonPayload minTokens eosId.isSome.toNat alignment ≤ usizeMax) :
    Adjusted overflowChecks config (some minTokens) (config.withPayload frameSpecialTokens
      (commonPayload minTokens eosId.isSome.toNat alignment))

/-- The adjustment panics: it runs before the configuration is validated. -/
inductive AdjustPanics (overflowChecks : Bool) (config : NcaCorpusConfig) : Option ℕ → Prop
  | count {vocabSize : ℕ} {eosId : Option UInt32} {frameSpecialTokens : Bool} {minTokens : ℕ}
    (htokenization : config.tokenization = .patchTokenIds vocabSize eosId frameSpecialTokens)
    (hpos : 0 < minTokens) (h : config.CountPanics overflowChecks eosId frameSpecialTokens) :
    AdjustPanics overflowChecks config (some minTokens)
  | alignment {vocabSize : ℕ} {eosId : Option UInt32} {frameSpecialTokens : Bool}
    {minTokens count : ℕ}
    (htokenization : config.tokenization = .patchTokenIds vocabSize eosId frameSpecialTokens)
    (hpos : 0 < minTokens)
    (hcount : config.TokensOf overflowChecks eosId frameSpecialTokens count)
    (hshort : count - 1 < minTokens) (hmax : minTokens < usizeMax)
    (halignment : config.alignment frameSpecialTokens = some 0) :
    AdjustPanics overflowChecks config (some minTokens)

theorem filter_pos_eq_none : minLogicalDocumentTokens.filter (0 < ·) = none ↔
    ∀ minTokens ∈ minLogicalDocumentTokens, minTokens = 0 := by
  rw [Option.filter_eq_none_iff]
  simp

theorem adapt_of_unasked (h : ∀ minTokens ∈ minLogicalDocumentTokens, minTokens = 0) :
    adaptConfigForMinLogicalDocumentTokens overflowChecks config minLogicalDocumentTokens =
      .ok config := by
  rw [adaptConfigForMinLogicalDocumentTokens, filter_pos_eq_none.2 h]

/-- The adjustment for a length that is asked for. -/
theorem adapt_of_pos {minTokens : ℕ} (hpos : 0 < minTokens) {vocabSize : ℕ}
    {eosId : Option UInt32} {frameSpecialTokens : Bool}
    (htokenization : config.tokenization = .patchTokenIds vocabSize eosId frameSpecialTokens) :
    adaptConfigForMinLogicalDocumentTokens overflowChecks config (some minTokens) = (do
      let count ← fixedDocumentTokenCount overflowChecks config
      if minTokens ≤ count - 1 then return config
      else raiseSteps overflowChecks config eosId frameSpecialTokens minTokens) := by
  have hfilter : (some minTokens).filter (0 < ·) = some minTokens := by simp [hpos]
  rw [adaptConfigForMinLogicalDocumentTokens, hfilter]
  simp only [htokenization]

theorem adapt_of_other {minTokens : ℕ} (hpos : 0 < minTokens)
    (htokenization : ∀ vocabSize eosId frameSpecialTokens,
      config.tokenization ≠ .patchTokenIds vocabSize eosId frameSpecialTokens) :
    adaptConfigForMinLogicalDocumentTokens overflowChecks config (some minTokens) =
      .error (.error
        "on-the-fly NCA training currently requires tokenization.type = `patch_token_ids`") := by
  have hfilter : (some minTokens).filter (0 < ·) = some minTokens := by simp [hpos]
  rw [adaptConfigForMinLogicalDocumentTokens, hfilter]
  cases hconfig : config.tokenization with
  | patchTokenIds vocabSize eosId frameSpecialTokens => exact absurd hconfig (htokenization _ _ _)
  | gpt2ByteCompatible => simp only [fixedDocumentTokenCount, hconfig, bind, Except.bind]
  | rustBpe => simp only [fixedDocumentTokenCount, hconfig, bind, Except.bind]

theorem NcaCorpusConfig.TokensOf.unique {eosId : Option UInt32} {frameSpecialTokens : Bool} {n m : ℕ}
    (h : config.TokensOf overflowChecks eosId frameSpecialTokens n)
    (h' : config.TokensOf overflowChecks eosId frameSpecialTokens m) : n = m := by
  obtain ⟨family, hfamily⟩ := exists_mem_of_ne_nil _ h.1
  exact (h.2 family hfamily).unique (h'.2 family hfamily)

theorem adapt_eq_ok :
    adaptConfigForMinLogicalDocumentTokens overflowChecks config minLogicalDocumentTokens =
        .ok adjusted ↔ Adjusted overflowChecks config minLogicalDocumentTokens adjusted := by
  constructor
  · intro h
    by_cases hasked : ∀ minTokens ∈ minLogicalDocumentTokens, minTokens = 0
    · rw [adapt_of_unasked hasked] at h
      obtain rfl := Except.ok.inj h
      exact .unasked hasked
    · push Not at hasked
      obtain ⟨minTokens, hmem, hne⟩ := hasked
      obtain rfl : minLogicalDocumentTokens = some minTokens := hmem
      have hpos := pos_of_ne_zero hne
      cases htokenization : config.tokenization with
      | patchTokenIds vocabSize eosId frameSpecialTokens =>
        rw [adapt_of_pos hpos htokenization] at h
        obtain ⟨count, hcount, h⟩ := bind_eq_ok.1 h
        have hcount := (fixedDocumentTokenCount_eq_ok htokenization).1 hcount
        split_ifs at h with hlong
        · obtain rfl := Except.ok.inj h
          exact .long htokenization hpos hcount hlong
        · obtain ⟨hmax, alignment, halignment, hne, hpayload, rfl⟩ := (raiseSteps_eq_ok hcount).1 h
          exact .raised htokenization hpos hcount (not_le.1 hlong) hmax halignment hne hpayload
      | gpt2ByteCompatible | rustBpe =>
        rw [adapt_of_other hpos (by simp [htokenization])] at h
        cases h
  · rintro (h | ⟨htokenization, hpos, hcount, hlong⟩ |
      ⟨htokenization, hpos, hcount, hshort, hmax, halignment, hne, hpayload⟩)
    · exact adapt_of_unasked h
    · rw [adapt_of_pos hpos htokenization]
      refine bind_eq_ok.2 ⟨_, (fixedDocumentTokenCount_eq_ok htokenization).2 hcount, ?_⟩
      rw [if_pos hlong]
      rfl
    · rw [adapt_of_pos hpos htokenization]
      refine bind_eq_ok.2 ⟨_, (fixedDocumentTokenCount_eq_ok htokenization).2 hcount, ?_⟩
      rw [if_neg hshort.not_ge]
      exact (raiseSteps_eq_ok hcount).2 ⟨hmax, _, halignment, hne, hpayload, rfl⟩

theorem panics_adapt_iff :
    Panics (adaptConfigForMinLogicalDocumentTokens overflowChecks config minLogicalDocumentTokens) ↔
      AdjustPanics overflowChecks config minLogicalDocumentTokens := by
  constructor
  · intro h
    by_cases hasked : ∀ minTokens ∈ minLogicalDocumentTokens, minTokens = 0
    · rw [adapt_of_unasked hasked] at h
      exact absurd h not_panics_ok
    · push Not at hasked
      obtain ⟨minTokens, hmem, hne⟩ := hasked
      obtain rfl : minLogicalDocumentTokens = some minTokens := hmem
      have hpos := pos_of_ne_zero hne
      cases htokenization : config.tokenization with
      | patchTokenIds vocabSize eosId frameSpecialTokens =>
        rw [adapt_of_pos hpos htokenization, panics_bind_iff,
          panics_fixedDocumentTokenCount_iff htokenization] at h
        rcases h with h | ⟨count, hcount, h⟩
        · exact .count htokenization hpos h
        · have hcount := (fixedDocumentTokenCount_eq_ok htokenization).1 hcount
          split_ifs at h with hlong
          · exact absurd h not_panics_ok
          · obtain ⟨hmax, halignment⟩ := (panics_raiseSteps_iff hcount).1 h
            exact .alignment htokenization hpos hcount (not_le.1 hlong) hmax halignment
      | gpt2ByteCompatible | rustBpe =>
        rw [adapt_of_other hpos (by simp [htokenization])] at h
        exact absurd h not_panics_error
  · rintro (⟨htokenization, hpos, h⟩ | ⟨htokenization, hpos, hcount, hshort, hmax, halignment⟩)
    · rw [adapt_of_pos hpos htokenization, panics_bind_iff]
      exact .inl ((panics_fixedDocumentTokenCount_iff htokenization).2 h)
    · rw [adapt_of_pos hpos htokenization, panics_bind_iff]
      refine .inr ⟨_, (fixedDocumentTokenCount_eq_ok htokenization).2 hcount, ?_⟩
      rw [if_neg hshort.not_ge]
      exact (panics_raiseSteps_iff hcount).2 ⟨hmax, halignment⟩

end Adjusted

end BurnDragon.Nca
