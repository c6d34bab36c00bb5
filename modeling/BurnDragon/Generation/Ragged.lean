import BurnDragon.Generation.Schedule

/-!
# Runs of the ragged batch

`BatchAt` is the invariant of the outer loop of the ragged batch. It is kept by a segment (`BatchAt.segment`) and by a buffer with its flush
(`BatchAt.buffer`), and the position goes up. So the batch returns for every row the tokens of a row
history, up to the row's end (`raggedReturns_rows`).
-/

namespace BurnDragon.Generation

open Layout Transition List Option

variable {State F Rng : Type}

/-! ## A segment -/

section Segment

variable {backend : Backend F Rng} {model : DragonModel State F} {promptTokens : List (List ℤ)}
  {bitOk : ℕ → ℕ → ℤ → Prop} {active : List ℕ} {x : ℕ} {hist : ℕ → History}

theorem length_slice {α : Type} {start len : ℕ} {buf : List α} (h : start + len ≤ buf.length) :
    (slice start len buf).length = len := by
  rw [slice, length_take, length_drop]
  omega

variable (model promptTokens) in
/-- What a segment feeds to a row. -/
def segmentFed (active : List ℕ) (x r : ℕ) : History :=
  let tokens := slice x (nextBoundary promptTokens active - x) (promptTokens.getD r [])
  tokens.zip (summaryBits model.summaryMemoryWriteTriggerTokenIds tokens)

/-- A segment moves every active row to the next end of a prompt. -/
theorem StateAt.segment (hmodel : model.Lawful)
    {s : BatchLoop State (Option (List (List F)))} (hactive : s.activeRows = active)
    (hne : active ≠ []) (hall : AllInPrompt promptTokens x active)
    (h : StateAt backend model promptTokens bitOk s.state active x hist)
    (hbits : ∀ r ∈ active, ∀ i, x + i < nextBoundary promptTokens active → bitOk r (x + i)
      ((summaryBits model.summaryMemoryWriteTriggerTokenIds
        (slice x (nextBoundary promptTokens active - x) (promptTokens.getD r []))).getD i 0)) :
    ∃ last, prefillSegment model promptTokens s =
        { s with state := (prefillSegment model promptTokens s).state, lastLogits := some last } ∧
      RowsAt backend model promptTokens bitOk (prefillSegment model promptTokens s).state last active
        (nextBoundary promptTokens active) fun r => hist r ++ segmentFed model promptTokens active x r := by
  have hlt := lt_nextBoundary hne hall
  obtain ⟨t, ht⟩ : ∃ t, nextBoundary promptTokens active - x = t := ⟨_, rfl⟩
  have hslice : ∀ r ∈ active, (slice x t (promptTokens.getD r [])).length = t := fun r hr => by
    have := nextBoundary_le promptTokens hr
    exact length_slice (by omega)
  obtain ⟨rows, hrows⟩ : ∃ rows, (active.map fun r => slice x t (promptTokens.getD r [])) = rows :=
    ⟨_, rfl⟩
  have hrect : Rect rows t := by
    intro row hrow
    rw [← hrows] at hrow
    obtain ⟨r, hr, rfl⟩ := mem_map.1 hrow
    exact hslice r hr
  have hlen : rows.length = active.length := by rw [← hrows, length_map]
  have hsegment : prefillSegment model promptTokens s =
      let forward := model.forwardWithStateImpl rows
        (some (rows.map (summaryBits model.summaryMemoryWriteTriggerTokenIds))) s.state
      { s with state := forward.2, lastLogits := some (lastLogits forward.1) } := by
    have hforward := forwardMasked_eq hmodel hrect s.state
    have hdata := ofData_flatten hrect
    have hboundary : ((active.map fun row => (promptTokens.getD row []).length).min?).getD 0 - x =
        t := ht
    rw [hlen] at hforward hdata
    simp only [prefillSegment, hactive, h.position, hboundary, flatMap_def, hrows, hdata, hforward]
  rw [hsegment]
  refine ⟨_, rfl, ?_⟩
  have hmaskRect : Rect (rows.map (summaryBits model.summaryMemoryWriteTriggerTokenIds)) t := by
    intro row hrow
    obtain ⟨tokens, htokens, rfl⟩ := mem_map.1 hrow
    rw [length_summaryBits, hrect tokens htokens]
  have hfed : ∀ (j r : ℕ), active[j]? = some r →
      RowIs model (model.forwardWithStateImpl rows
          (some (rows.map (summaryBits model.summaryMemoryWriteTriggerTokenIds))) s.state).2 j
          (hist r ++ segmentFed model promptTokens active x r) ∧
        (lastLogits (model.forwardWithStateImpl rows
          (some (rows.map (summaryBits model.summaryMemoryWriteTriggerTokenIds))) s.state).1)[j]? =
          some (rowRun model (hist r ++ segmentFed model promptTokens active x r)).2 := by
    intro j r hj
    have hrow : rows[j]? = some (slice x t (promptTokens.getD r [])) := by
      rw [← hrows, getElem?_map, hj, map_some]
    rw [segmentFed, ht]
    exact (h.row j r hj).forward hmodel (by omega) hrect hmaskRect hrow
      (by rw [getElem?_map, hrow, map_some])
  exact {
    position := by
      rw [hmodel.position_forward (ne_nil_of_length_pos
        (hlen ▸ length_pos_iff.2 hne)) hrect, h.position]
      omega
    length_last := by simp only [lastLogits, length_map, (hmodel.shape hrect).1, hlen]
    history := fun r hr => by
      have hr' := h.length r hr
      rw [segmentFed, ht]
      refine (h.history r hr).append_prompt (fun i hi => ?_) (fun i bit hi => ?_)
      · rw [hslice r hr] at hi
        rw [hr', slice, getElem?_take_of_lt hi, getElem?_drop]
      · obtain ⟨hi', -⟩ := List.getElem?_eq_some_iff.1 hi
        rw [length_summaryBits, hslice r hr] at hi'
        have := hbits r hr i (by omega)
        rwa [ht, getD_eq_getElem?_getD, hi, getD_some, ← hr'] at this
    length := fun r hr => by
      rw [length_append, h.length r hr, segmentFed, ht, length_zip, length_summaryBits, hslice r hr]
      omega
    row := fun j r hj => (hfed j r hj).1
    logits := fun j r hj => (hfed j r hj).2 }

end Segment

/-! ## The outer loop -/

section Loop

variable (backend : Backend F Rng) (model : DragonModel State F) (promptTokens : List (List ℤ))
  (maxNewTokens : List ℕ) (stopOnToken : Option ℤ) (deviceBufferTokens : ℕ)
  (bitOk : ℕ → ℕ → ℤ → Prop) (fin : ℕ → ℕ)

/-- The invariant of the outer loop. -/
structure BatchAt (active : List ℕ) (x : ℕ) (hist : ℕ → History)
    (s : BatchLoop State (Option (List (List F)))) : Prop where
  schedule : Schedule promptTokens maxNewTokens deviceBufferTokens fin x active
  activeRows : s.activeRows = active
  rows : StateAt backend model promptTokens bitOk s.state active x hist
  last : ∀ last, s.lastLogits = some last →
    RowsAt backend model promptTokens bitOk s.state last active x hist
  started : s.lastLogits = none → x = 0
  generated : GeneratedAt backend model promptTokens maxNewTokens bitOk fin active x hist s.generated

variable {backend model promptTokens maxNewTokens stopOnToken deviceBufferTokens bitOk fin}
  {active : List ℕ} {x : ℕ} {hist : ℕ → History} {s : BatchLoop State (Option (List (List F)))}
  {strategy : ContextStrategy}

theorem all_iff_allInPrompt (position : ℕ) (activeRows : List ℕ) :
    (activeRows.all fun row => decide (position < (promptTokens.getD row []).length)) = true ↔
      AllInPrompt promptTokens position activeRows := by
  simp [AllInPrompt]

variable (stopOnToken strategy) in
/-- A segment pass keeps the invariant. -/
theorem BatchAt.segment (hmodel : model.Lawful)
    (hfeeds : ∀ r e bit, Feeds model.summaryMemoryWriteTriggerTokenIds promptTokens maxNewTokens
      deviceBufferTokens fin r e bit → bitOk r e bit)
    (h : BatchAt backend model promptTokens maxNewTokens deviceBufferTokens bitOk fin active x hist s)
    (hne : active ≠ []) (hall : AllInPrompt promptTokens x active) :
    raggedPass backend model promptTokens maxNewTokens strategy stopOnToken deviceBufferTokens s =
        .go (prefillSegment model promptTokens s) ∧
      BatchAt backend model promptTokens maxNewTokens deviceBufferTokens bitOk fin active
        (nextBoundary promptTokens active)
        (fun r => hist r ++ segmentFed model promptTokens active x r)
        (prefillSegment model promptTokens s) := by
  have hempty : s.activeRows.isEmpty = false := by simpa [h.activeRows] using hne
  have hallBool : (s.activeRows.all fun row =>
      decide (model.position s.state < (promptTokens.getD row []).length)) = true := by
    rwa [all_iff_allInPrompt, h.rows.position, h.activeRows]
  obtain ⟨last, hsegment, hrows⟩ := h.rows.segment hmodel h.activeRows hne hall
    fun r hr i hi => hfeeds _ _ _ (.segment h.schedule hne hall hr hi)
  refine ⟨by simp only [raggedPass, hempty, hallBool]; rfl, ?_⟩
  rw [hsegment]
  refine ⟨h.schedule.tail (.segment hne hall), h.activeRows, hrows.toStateAt,
    fun last' hlast => some.inj hlast ▸ hrows, (fun hnone => by cases hnone),
    ⟨h.generated.nodup, h.generated.budget, h.generated.length, fun r hr => ?_, fun r hr => ?_,
      h.generated.done⟩⟩
  · -- no row has generated anything yet
    have hold := h.generated.tokens r hr
    have hlen := hrows.length r hr
    rw [drop_eq_nil_of_le (by rw [h.rows.length r hr]; exact (hall r hr).le)] at hold
    rw [drop_eq_nil_of_le (by rw [hlen]; exact nextBoundary_le promptTokens hr)]
    exact hold
  · have hunfinished := h.generated.unfinished r hr
    have hle := nextBoundary_le promptTokens hr
    simp only [generatedCount] at hunfinished ⊢
    omega

/-- What the flush of a buffer accepts of an active row. -/
theorem BatchAt.accept
    (hends : EndsAt backend model promptTokens maxNewTokens stopOnToken bitOk fin)
    (h : BatchAt backend model promptTokens maxNewTokens deviceBufferTokens bitOk fin active x hist s)
    {b : Buffer State F}
    (hb : BufferAt backend model promptTokens bitOk active x deviceBufferTokens hist b) {j r : ℕ}
    (hj : active[j]? = some r) :
    ∃ stopped, acceptGenerated stopOnToken
        (maxNewTokens.getD r 0 - generatedCount promptTokens r x)
        ((b.generatedMasks.map fun column => column.getD j false).zip
          (slice (j * deviceBufferTokens) deviceBufferTokens (catColumns active.length b.pending)))
          0 =
      ((List.range' (generatedCount promptTokens r x)
        (min (generatedCount promptTokens r (x + deviceBufferTokens)) (fin r) -
          generatedCount promptTokens r x)).map (rowSequence backend model promptTokens r
            (feed backend model promptTokens r (hist r) deviceBufferTokens)), stopped) ∧
      ((stopped = false ∧ min (generatedCount promptTokens r (x + deviceBufferTokens)) (fin r) <
          maxNewTokens.getD r 0) ↔
        generatedCount promptTokens r (x + deviceBufferTokens) < fin r) := by
  have hr := mem_of_getElem? hj
  obtain ⟨hjlt, -⟩ := List.getElem?_eq_some_iff.1 hj
  have hslice := slice_catColumns b.pending hjlt
  rw [hb.length_pending, hb.pending j r hj] at hslice
  rw [hslice, hb.masks j r hj]
  refine acceptGenerated_row (hb.rows.history r hr) (hb.rows.length r hr)
    (h.generated.unfinished r hr) (hends.le r) fun hle => ?_
  exact hends.cut r _ (h.generated.budget r hr).2 ((hb.rows.history r hr).take _)
    (by rw [length_take, Nat.min_eq_left hle])

variable (strategy) in
/-- A buffer pass keeps the invariant, or it returns the finished rows. -/
theorem BatchAt.buffer (hmodel : model.Lawful)
    (hfeeds : ∀ r e bit, Feeds model.summaryMemoryWriteTriggerTokenIds promptTokens maxNewTokens
      deviceBufferTokens fin r e bit → bitOk r e bit)
    (hends : EndsAt backend model promptTokens maxNewTokens stopOnToken bitOk fin)
    (hprompts : ∀ prompt ∈ promptTokens, prompt ≠ [])
    (h : BatchAt backend model promptTokens maxNewTokens deviceBufferTokens bitOk fin active x hist s)
    (hne : active ≠ []) (hall : ¬AllInPrompt promptTokens x active) :
    (∃ result, raggedPass backend model promptTokens maxNewTokens strategy stopOnToken
        deviceBufferTokens s = .leave result ∧
      AllDone backend model promptTokens maxNewTokens bitOk fin result) ∨
    ∃ s' active' hist', raggedPass backend model promptTokens maxNewTokens strategy stopOnToken
        deviceBufferTokens s = .go s' ∧
      BatchAt backend model promptTokens maxNewTokens deviceBufferTokens bitOk fin active'
        (x + deviceBufferTokens) hist' s' := by
  have hempty : active.isEmpty = false := by simpa using hne
  have hallBool : (active.all fun row =>
      decide (model.position s.state < (promptTokens.getD row []).length)) = false := by
    rw [Bool.eq_false_iff, Ne, all_iff_allInPrompt, h.rows.position]
    exact hall
  cases hlast : s.lastLogits with
  | none =>
    -- before the first segment every row is inside its prompt
    refine absurd (fun r hr => ?_) hall
    obtain ⟨hr', -⟩ := h.generated.budget r hr
    rw [h.started hlast, getD_eq_getElem?_getD, getElem?_eq_getElem hr', getD_some]
    exact length_pos_iff.2 (hprompts _ (getElem_mem hr'))
  | some last =>
    have hb := bufferAt_iterate hmodel hne (h.last last hlast)
      (fun r hr i hi hlt => hfeeds _ _ _ (.step h.schedule hne hall hr hi hlt)) strategy
    generalize hbuffer : (raggedStep backend model promptTokens active strategy)^[deviceBufferTokens]
      ⟨s.state, last, [], []⟩ = b at hb
    obtain ⟨generated, hflush, hgenerated⟩ := h.generated.flush hends hb.rows.history hb.rows.length
      (fun r hr => by rw [← h.rows.length r hr]; exact take_feed ..)
      (fun batchRow remaining => acceptGenerated stopOnToken remaining
        ((b.generatedMasks.map fun column => column.getD batchRow false).zip
          (slice (batchRow * deviceBufferTokens) deviceBufferTokens
            (catColumns active.length b.pending))) 0)
      (fun j r hj => h.accept hends hb hj)
    have hschedule : Schedule promptTokens maxNewTokens deviceBufferTokens fin (x + deviceBufferTokens)
        (active.filter (staysActive promptTokens fin (x + deviceBufferTokens))) :=
      h.schedule.tail (.buffer hne hall)
    have hgo : ∀ state' last', RowsAt backend model promptTokens bitOk state' last'
          (active.filter (staysActive promptTokens fin (x + deviceBufferTokens)))
          (x + deviceBufferTokens)
          (fun r => feed backend model promptTokens r (hist r) deviceBufferTokens) →
        BatchAt backend model promptTokens maxNewTokens deviceBufferTokens bitOk fin
          (active.filter (staysActive promptTokens fin (x + deviceBufferTokens)))
          (x + deviceBufferTokens)
          (fun r => feed backend model promptTokens r (hist r) deviceBufferTokens)
          ⟨generated, active.filter (staysActive promptTokens fin (x + deviceBufferTokens)), state',
            some last'⟩ := fun state' last' hrows =>
      ⟨hschedule, rfl, hrows.toStateAt, fun last'' hlast => some.inj hlast ▸ hrows,
        (fun hnone => by cases hnone), hgenerated⟩
    simp only [raggedPass, hempty, hallBool, hlast, h.activeRows, hbuffer, hflush,
      Bool.false_eq_true, if_false]
    generalize staysActive promptTokens fin (x + deviceBufferTokens) = keep at hgo hgenerated
    rcases surviving_cases keep active with ⟨hnone, hgone⟩ | ⟨hsome, hfewer⟩ | ⟨hsome, hall', hsame⟩
    · refine .inl ⟨_, if_pos hnone, generated, rfl, hgenerated.length,
        fun r hr => hgenerated.done r hr ?_⟩
      rw [hgone]
      exact not_mem_nil
    · exact .inr ⟨_, _, _, (if_neg (Bool.eq_false_iff.1 hsome)).trans (if_pos hfewer),
        hgo _ _ (hb.rows.select hmodel keep)⟩
    · exact .inr ⟨_, _, _, (if_neg (Bool.eq_false_iff.1 hsome)).trans (if_neg hall'),
        hgo _ _ (hsame.symm ▸ hb.rows)⟩

variable (deviceBufferTokens) in
/-- The invariant before the first pass. -/
theorem batchAt_start (hmodel : model.Lawful) (hlen : promptTokens.length = maxNewTokens.length)
    (hends : EndsAt backend model promptTokens maxNewTokens stopOnToken bitOk fin) :
    BatchAt backend model promptTokens maxNewTokens deviceBufferTokens bitOk fin
      (budgetedRows maxNewTokens) 0 (fun _ => [])
      ⟨List.replicate promptTokens.length [], budgetedRows maxNewTokens, model.initState, none⟩ where
  schedule := .refl
  activeRows := rfl
  rows := ⟨hmodel.position_init, fun _ _ => .nil, fun _ _ => rfl, fun j _ _ => rowIs_init hmodel j⟩
  last last hlast := by cases hlast
  started _ := rfl
  generated := {
    nodup := nodup_budgetedRows
    budget := fun r hr => by
      have hpos := mem_budgetedRows.1 hr
      refine ⟨?_, hpos⟩
      by_contra hge
      rw [getD_eq_getElem?_getD, getElem?_eq_none (by omega)] at hpos
      exact absurd hpos (Nat.lt_irrefl 0)
    length := length_replicate
    tokens := fun r hr => by
      rw [drop_nil, getD_eq_getElem?_getD, getElem?_replicate]
      split <;> rfl
    unfinished := fun r hr => by
      rw [generatedCount, Nat.zero_sub]
      exact hends.pos r (mem_budgetedRows.1 hr)
    done := fun r _ hr => by
      refine .inl ⟨Nat.eq_zero_of_not_pos fun hpos => hr (mem_budgetedRows.2 hpos), ?_⟩
      rw [getD_eq_getElem?_getD, getElem?_replicate]
      split <;> rfl }

variable (backend model promptTokens maxNewTokens deviceBufferTokens bitOk fin) in
/-- The invariant at some position. -/
def BatchReached (s : BatchLoop State (Option (List (List F)))) : Prop :=
  ∃ active x hist, BatchAt backend model promptTokens maxNewTokens deviceBufferTokens bitOk fin active
    x hist s

variable (strategy) in
/-- A pass returns the finished rows, or it moves to a later position. -/
theorem BatchReached.pass (hmodel : model.Lawful)
    (hfeeds : ∀ r e bit, Feeds model.summaryMemoryWriteTriggerTokenIds promptTokens maxNewTokens
      deviceBufferTokens fin r e bit → bitOk r e bit)
    (hends : EndsAt backend model promptTokens maxNewTokens stopOnToken bitOk fin)
    (hprompts : ∀ prompt ∈ promptTokens, prompt ≠ []) (hbuffer : 0 < deviceBufferTokens)
    (h : BatchReached backend model promptTokens maxNewTokens deviceBufferTokens bitOk fin s) :
    (∃ result, raggedPass backend model promptTokens maxNewTokens strategy stopOnToken
        deviceBufferTokens s = .leave result ∧
      AllDone backend model promptTokens maxNewTokens bitOk fin result) ∨
    ∃ s', raggedPass backend model promptTokens maxNewTokens strategy stopOnToken deviceBufferTokens
        s = .go s' ∧
      BatchReached backend model promptTokens maxNewTokens deviceBufferTokens bitOk fin s' ∧
      (promptTokens.map List.length).sum + maxNewTokens.sum - model.position s'.state <
        (promptTokens.map List.length).sum + maxNewTokens.sum - model.position s.state := by
  obtain ⟨active, x, hist, h⟩ := h
  by_cases hne : active = []
  · refine .inl ⟨.ok s.generated, ?_, s.generated, rfl, h.generated.length,
      fun r hr => h.generated.done r hr (by simp [hne])⟩
    simp [raggedPass, h.activeRows, hne]
  have hlt := h.generated.position_lt hends hne
  have hx := h.rows.position
  by_cases hall : AllInPrompt promptTokens x active
  · obtain ⟨hgo, hu⟩ := h.segment stopOnToken strategy hmodel hfeeds hne hall
    have hboundary := lt_nextBoundary hne hall
    have hx' := hu.rows.position
    exact .inr ⟨_, hgo, ⟨_, _, _, hu⟩, by omega⟩
  · rcases h.buffer strategy hmodel hfeeds hends hprompts hne hall with
      hleave | ⟨s', active', hist', hgo, hu⟩
    · exact .inl hleave
    · have hx' := hu.rows.position
      exact .inr ⟨s', hgo, ⟨_, _, _, hu⟩, by omega⟩

variable (strategy) in
/-- **A ragged batch returns**, and every row of the result is the generated part of a row history, up
to the row's end. -/
theorem raggedReturns_rows (hmodel : model.Lawful)
    (hfeeds : ∀ r e bit, Feeds model.summaryMemoryWriteTriggerTokenIds promptTokens maxNewTokens
      (max deviceBufferTokens 1) fin r e bit → bitOk r e bit)
    (hends : EndsAt backend model promptTokens maxNewTokens stopOnToken bitOk fin)
    (hprompts : ∀ prompt ∈ promptTokens, prompt ≠ [])
    (hlen : promptTokens.length = maxNewTokens.length) :
    ∃ result, RaggedReturns backend model promptTokens maxNewTokens strategy stopOnToken
        deviceBufferTokens result ∧
      AllDone backend model promptTokens maxNewTokens bitOk fin result := by
  have hempty : promptTokens.any List.isEmpty = false := by
    simpa [List.isEmpty_iff] using hprompts
  have hstart := batchAt_start (max deviceBufferTokens 1) hmodel hlen hends
  by_cases hnil : promptTokens = []
  · subst hnil
    exact ⟨.ok [], ⟨0, by simp [generateGreedyBatchRagged, hlen]⟩, [], rfl, rfl,
      fun r hr => by cases hr⟩
  by_cases hactive : budgetedRows maxNewTokens = []
  · refine ⟨_, ⟨0, ?_⟩, List.replicate promptTokens.length [], rfl, length_replicate,
      fun r hr => hstart.generated.done r hr (by simp [hactive])⟩
    simp [generateGreedyBatchRagged, hlen, hempty, hactive, hnil]
  obtain ⟨result, ⟨fuel, hrun⟩, hdone⟩ := Loop.exists_returns_of_pass
    (I := BatchReached backend model promptTokens maxNewTokens (max deviceBufferTokens 1) bitOk fin)
    (fun t => (promptTokens.map List.length).sum + maxNewTokens.sum - model.position t.state)
    ⟨_, _, _, hstart⟩ fun t ht =>
      ht.pass strategy hmodel hfeeds hends hprompts (by omega)
  refine ⟨result, ⟨fuel, ?_⟩, hdone⟩
  have hnilBool : promptTokens.isEmpty = false := by simpa [List.isEmpty_iff] using hnil
  have hactiveBool : (budgetedRows maxNewTokens).isEmpty = false := by
    simpa [List.isEmpty_iff] using hactive
  simp only [generateGreedyBatchRagged, hlen, ne_eq, not_true_eq_false, if_false, hnilBool, hempty,
    hactiveBool, Bool.false_eq_true]
  rw [← hlen]
  exact hrun

end Loop

end BurnDragon.Generation
