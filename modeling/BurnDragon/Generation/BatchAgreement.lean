import BurnDragon.Generation.EqualPosition

/-!
# Batched greedy decoding and plain generation

A row of a batch returns what plain generation returns after its prompt (`ReturnsContinuations`) when
it was fed with the mask of the whole prompt. The batch with equal prompts always does this. The ragged
batch computes a mask for every segment and for every single token, and `SummaryMasksAgree` says that
these are the bits of the mask of the whole prompt, whatever blocks the batch takes. The blocks depend
on when rows stop, so this is asked for all ways in which rows may stop (`StopCounts`).
-/

namespace BurnDragon.Generation

open Layout Transition List

variable {State F Rng : Type}

/-! ## Plain generation of one row -/

section Plain

variable (backend : Backend F Rng) (model : DragonModel State F) (strategy : ContextStrategy)
  (stopOnToken : Option ℤ)

/-- Greedy decoding at temperature 1 with a budget. -/
def rowSettings (budget : ℕ) : GenerationSettings F :=
  ⟨some budget, backend.one, some 1, strategy, stopOnToken⟩

/-- A batch returned for each row exactly what plain generation returns after the prompt of that row. -/
def ReturnsContinuations (promptTokens : List (List ℤ)) (maxNewTokens : List ℕ)
    (result : Except String (List (List ℤ))) : Prop :=
  ∃ generated, result = .ok generated ∧ generated.length = promptTokens.length ∧
    ∀ r < promptTokens.length, ∀ plain,
      GenerateTokensReturns backend model (promptTokens.getD r [])
          (rowSettings backend strategy stopOnToken (maxNewTokens.getD r 0)) plain ↔
        plain = .ok (promptTokens.getD r [] ++ generated.getD r [])

variable {backend model strategy stopOnToken}

/-- Plain generation of a row, by the history of its prompt. -/
theorem generateTokensReturns_row (hmodel : model.Lawful) (hbackend : backend.Lawful)
    {promptTokens : List ℤ} (hne : promptTokens ≠ []) {budget n : ℕ}
    (hcut : Cut (some budget) (fun i => stopOnToken =
      some (sequence (emit backend model) (promptHistory model promptTokens) i)) n)
    {plain : Except String (List ℤ)} :
    GenerateTokensReturns backend model promptTokens
        (rowSettings backend strategy stopOnToken budget) plain ↔
      plain = .ok (promptTokens ++
        (List.range n).map (sequence (emit backend model) (promptHistory model promptTokens))) := by
  have hprefill : prefillState model promptTokens =
      .ok ((rowRun model (promptHistory model promptTokens)).1,
        (rowRun model (promptHistory model promptTokens)).2) := prefillState_eq hmodel hne
  have htoken : greedyToken backend model backend.one strategy
      (greedyStart model strategy (rowRun model (promptHistory model promptTokens)).1
        (rowRun model (promptHistory model promptTokens)).2) =
      sequence (emit backend model) (promptHistory model promptTokens) := by
    funext k
    rw [greedyStart, trimToWindow_eq hmodel]
    exact greedyToken_eq hmodel hbackend strategy _ k
  rw [generateTokensReturns_greedy hprefill rfl]
  simp only [rowSettings, greedyTokens, htoken]
  constructor
  · rintro ⟨n', hcut', rfl⟩
    rw [hcut'.unique hcut]
  · rintro rfl
    exact ⟨n, hcut, rfl⟩

/-- A row that was fed with the mask of its prompt has the history of the prompt. -/
theorem RowHistory.eq_promptHistory {emit : History → ℤ} {promptTokens : List (List ℤ)} {r : ℕ}
    {h : History}
    (hh : RowHistory emit (promptTokens.getD r [])
      (SerialBit model.summaryMemoryWriteTriggerTokenIds promptTokens r) h)
    (hlen : h.length = (promptTokens.getD r []).length) :
    h = promptHistory model (promptTokens.getD r []) := by
  have htokens := hh.map_fst hlen
  have hbits : h.map Prod.snd =
      summaryBits model.summaryMemoryWriteTriggerTokenIds (promptTokens.getD r []) := by
    refine ext_getElem? fun e => ?_
    rcases Nat.lt_or_ge e h.length with hlt | hge
    · rw [getElem?_map, getElem?_eq_getElem hlt]
      exact (hh.bit_ok (getElem?_eq_getElem hlt) (hlen ▸ hlt)).symm
    · rw [getElem?_eq_none (by rwa [length_map]),
        getElem?_eq_none (by rwa [length_summaryBits, ← hlen])]
  rw [promptHistory, ← hbits]
  conv_rhs => rw [← htokens]
  exact (zip_unzip h).symm.trans (by rw [unzip_eq_map])

/-- A batch whose rows were fed with the masks of their prompts returns their continuations. -/
theorem AllDone.returnsContinuations (hmodel : model.Lawful) (hbackend : backend.Lawful)
    {promptTokens : List (List ℤ)} (hprompts : ∀ prompt ∈ promptTokens, prompt ≠ [])
    {maxNewTokens : List ℕ} {fin : ℕ → ℕ} {result : Except String (List (List ℤ))}
    (hends : EndsAt backend model promptTokens maxNewTokens stopOnToken
      (SerialBit model.summaryMemoryWriteTriggerTokenIds promptTokens) fin)
    (h : AllDone backend model promptTokens maxNewTokens
      (SerialBit model.summaryMemoryWriteTriggerTokenIds promptTokens) fin result) :
    ReturnsContinuations backend model strategy stopOnToken promptTokens maxNewTokens result := by
  obtain ⟨generated, rfl, hlen, hdone⟩ := h
  refine ⟨generated, rfl, hlen, fun r hr plain => ?_⟩
  have hne : promptTokens.getD r [] ≠ [] := by
    rw [getD_eq_getElem?_getD, getElem?_eq_getElem hr]
    exact hprompts _ (getElem_mem hr)
  rcases hdone r hr with ⟨hbudget, htokens⟩ | ⟨hbudget, h, hh, hhlen, htokens⟩
  · rw [hbudget, htokens]
    exact generateTokensReturns_row hmodel hbackend hne
      ⟨fun m _ => Nat.zero_le m, fun i hi => absurd hi (Nat.not_lt_zero _), .inl rfl⟩
  · have hcut := hends.cut r h hbudget hh hhlen
    rw [hh.eq_promptHistory hhlen] at hcut htokens
    rw [htokens]
    exact generateTokensReturns_row hmodel hbackend hne hcut

end Plain

/-! ## The masks of the ragged batch -/

section Masks

variable (triggers : Option (List ℕ)) (promptTokens : List (List ℤ)) (maxNewTokens : List ℕ)
  (stopOnToken : Option ℤ) (deviceBufferTokens : ℕ)

/-- Possible numbers of tokens after which rows with a prompt stop. An argmax is never negative. -/
structure StopCounts (stopCount : List ℤ → Option ℕ) : Prop where
  pos : ∀ prompt k, stopCount prompt = some k → 0 < k
  stops : ∀ prompt k, stopCount prompt = some k → ∃ stop : ℕ, stopOnToken = some (stop : ℤ)

/-- How many tokens a row generates. -/
def rowEnd (stopCount : List ℤ → Option ℕ) (r : ℕ) : ℕ :=
  (stopCount (promptTokens.getD r [])).elim (maxNewTokens.getD r 0) (min (maxNewTokens.getD r 0))

/-- Every summary bit that the ragged batch may feed is the bit of the mask of the whole prompt. -/
def SummaryMasksAgree : Prop :=
  ∀ stopCount, StopCounts stopOnToken stopCount → ∀ r e bit,
    Feeds triggers promptTokens maxNewTokens (max deviceBufferTokens 1)
      (rowEnd promptTokens maxNewTokens stopCount) r e bit →
    SerialBit triggers promptTokens r e bit

/-- Batched greedy decoding is plain greedy decoding of every row, for every model with these
triggers. -/
def BatchedEqualsPlain : Prop :=
  ∀ (State F Rng : Type) (backend : Backend F Rng) (model : DragonModel State F)
    (strategy : ContextStrategy), backend.Lawful → model.Lawful →
    model.summaryMemoryWriteTriggerTokenIds = triggers →
    (∃ result, RaggedReturns backend model promptTokens maxNewTokens strategy stopOnToken
        deviceBufferTokens result ∧
      ReturnsContinuations backend model strategy stopOnToken promptTokens maxNewTokens result) ∧
    ((∀ prompt ∈ promptTokens, prompt.length = (promptTokens.headD []).length) →
      ∃ result, EqualPositionReturns backend model promptTokens maxNewTokens strategy stopOnToken
          deviceBufferTokens result ∧
        ReturnsContinuations backend model strategy stopOnToken promptTokens maxNewTokens result)

variable {triggers promptTokens maxNewTokens stopOnToken deviceBufferTokens}

theorem rowEnd_pos {stopCount : List ℤ → Option ℕ} (hcounts : StopCounts stopOnToken stopCount)
    {r : ℕ} (hbudget : 0 < maxNewTokens.getD r 0) :
    0 < rowEnd promptTokens maxNewTokens stopCount r := by
  rw [rowEnd]
  cases hcount : stopCount (promptTokens.getD r []) with
  | none => exact hbudget
  | some k => exact lt_min hbudget (hcounts.pos _ k hcount)

/-- The end of a row, when its prompt tells after how many tokens it stops. -/
theorem endsAt_rowEnd {backend : Backend F Rng} {model : DragonModel State F}
    {bitOk : ℕ → ℕ → ℤ → Prop} {stopCount : List ℤ → Option ℕ}
    (hcounts : StopCounts stopOnToken stopCount)
    (hfirst : ∀ r h, 0 < maxNewTokens.getD r 0 →
      RowHistory (emit backend model) (promptTokens.getD r []) (bitOk r) h →
      h.length = (promptTokens.getD r []).length →
      (∀ k, stopCount (promptTokens.getD r []) = some k → ∃ i, k = i + 1 ∧
        stopOnToken = some (sequence (emit backend model) h i) ∧
        ∀ j < i, stopOnToken ≠ some (sequence (emit backend model) h j)) ∧
      (stopCount (promptTokens.getD r []) = none →
        ∀ i, stopOnToken ≠ some (sequence (emit backend model) h i))) :
    EndsAt backend model promptTokens maxNewTokens stopOnToken bitOk
      (rowEnd promptTokens maxNewTokens stopCount) where
  pos r hbudget := rowEnd_pos hcounts hbudget
  le r := by
    rw [rowEnd]
    cases stopCount (promptTokens.getD r []) with
    | none => exact le_rfl
    | some k => exact Nat.min_le_left _ _
  cut r h hbudget hh hlen := by
    obtain ⟨hsome, hnone⟩ := hfirst r h hbudget hh hlen
    exact Cut.of_first _ _ hsome hnone

open Classical in
/-- After how many tokens a model stops after a prompt. -/
noncomputable def modelStopCount (backend : Backend F Rng) (model : DragonModel State F)
    (stopOnToken : Option ℤ) (prompt : List ℤ) : Option ℕ :=
  if h : ∃ i, stopOnToken = some (sequence (emit backend model) (promptHistory model prompt) i) then
    some (Nat.find h + 1)
  else none

variable (promptTokens maxNewTokens stopOnToken) in
theorem endsAt_modelStopCount {backend : Backend F Rng} (model : DragonModel State F)
    (hbackend : backend.Lawful) :
    StopCounts stopOnToken (modelStopCount backend model stopOnToken) ∧
      EndsAt backend model promptTokens maxNewTokens stopOnToken
        (SerialBit model.summaryMemoryWriteTriggerTokenIds promptTokens)
        (rowEnd promptTokens maxNewTokens (modelStopCount backend model stopOnToken)) := by
  have hcounts : StopCounts stopOnToken (modelStopCount backend model stopOnToken) := by
    refine ⟨fun prompt k hk => ?_, fun prompt k hk => ?_⟩ <;> rw [modelStopCount] at hk <;>
      split_ifs at hk with h
    · exact Option.some.inj hk ▸ Nat.succ_pos _
    · obtain ⟨i, hi⟩ := h
      exact ⟨_, hi.trans (congrArg some (Int.toNat_of_nonneg (hbackend.argmax_nonneg _)).symm)⟩
  refine ⟨hcounts, endsAt_rowEnd hcounts fun r h _ hh hlen => ?_⟩
  rw [hh.eq_promptHistory hlen, modelStopCount]
  constructor
  · intro k hk
    split_ifs at hk with h
    exact ⟨Nat.find h, (Option.some.inj hk).symm, Nat.find_spec h, fun j hj => Nat.find_min h hj⟩
  · intro hnone
    split_ifs at hnone with h
    exact not_exists.1 h

/-- **When the masks agree, batched greedy decoding is plain decoding.** -/
theorem batchedEqualsPlain_of_masksAgree (hprompts : ∀ prompt ∈ promptTokens, prompt ≠ [])
    (hlen : promptTokens.length = maxNewTokens.length)
    (hmasks : SummaryMasksAgree triggers promptTokens maxNewTokens stopOnToken deviceBufferTokens) :
    BatchedEqualsPlain triggers promptTokens maxNewTokens stopOnToken deviceBufferTokens := by
  rintro State F Rng backend model strategy hbackend hmodel rfl
  obtain ⟨hcounts, hends⟩ := endsAt_modelStopCount promptTokens maxNewTokens stopOnToken model hbackend
  constructor
  · obtain ⟨result, hreturns, hdone⟩ :=
      raggedReturns_rows strategy hmodel (hmasks _ hcounts) hends hprompts hlen
    exact ⟨result, hreturns, hdone.returnsContinuations hmodel hbackend hprompts hends⟩
  · intro hequal
    by_cases hnil : promptTokens = []
    · subst hnil
      exact ⟨.ok [], ⟨0, by simp [generateGreedyBatchEqualPosition, hlen]⟩, [], rfl, rfl,
        fun r hr => by cases hr⟩
    have hpos : 0 < (promptTokens.headD []).length := by
      obtain ⟨first, rest, rfl⟩ := exists_cons_of_ne_nil hnil
      exact length_pos_iff.2 (hprompts first mem_cons_self)
    obtain ⟨result, hreturns, hdone⟩ :=
      equalPositionReturns_rows strategy hmodel hequal hpos hlen hends
    exact ⟨result, hreturns, hdone.returnsContinuations hmodel hbackend hprompts hends⟩

end Masks

end BurnDragon.Generation
