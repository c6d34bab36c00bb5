import BurnDragon.Generation.Ragged

/-!
# Runs of the batch with equal prompts

When all prompts have one length, every active row is past its prompt after the prefill. A buffered
step then does what the ragged one does (`equalStep_eq`), so a pass is a buffer of the ragged batch with
its own number of steps and its own reading of the flush (`EqualAt.pass`). The rows are fed with the
mask of their whole prompt, so the returned tokens are the greedy ones (`equalPositionReturns_rows`).
-/

namespace BurnDragon.Generation

open Layout Transition List

variable {State F Rng : Type}

section EqualPosition

variable (backend : Backend F Rng) (model : DragonModel State F) (promptTokens : List (List ℤ))
  (maxNewTokens : List ℕ) (stopOnToken : Option ℤ) (bitOk : ℕ → ℕ → ℤ → Prop) (fin : ℕ → ℕ)

/-- The invariant of the outer loop. -/
structure EqualAt (active : List ℕ) (x : ℕ) (hist : ℕ → History)
    (s : BatchLoop State (List (List F))) : Prop where
  activeRows : s.activeRows = active
  past : ∀ r ∈ active, (promptTokens.getD r []).length ≤ x
  rows : RowsAt backend model promptTokens bitOk s.state s.lastLogits active x hist
  generated : GeneratedAt backend model promptTokens maxNewTokens bitOk fin active x hist s.generated

variable {backend model promptTokens maxNewTokens stopOnToken bitOk fin} {active : List ℕ} {x : ℕ}
  {hist : ℕ → History} {strategy : ContextStrategy}

/-! ## A buffer -/

/-- Past the prompts, a buffered step is the ragged one. -/
theorem equalStep_eq (hmodel : model.Lawful) {b : Buffer State F} (masks : List (List Bool))
    (h : RowsAt backend model promptTokens bitOk b.state b.lastLogits active x hist)
    (hpast : ∀ r ∈ active, (promptTokens.getD r []).length ≤ x) :
    equalStep backend model strategy { b with generatedMasks := masks } =
      { raggedStep backend model promptTokens active strategy b with generatedMasks := masks } := by
  obtain ⟨tokens, htokens⟩ : ∃ tokens, b.lastLogits.map backend.argmax = tokens := ⟨_, rfl⟩
  have hlen : tokens.length = active.length := by rw [← htokens, length_map, h.length_last]
  have hmask : promptMask promptTokens active (model.position b.state) =
      active.map fun _ => false := by
    rw [h.position, promptMask]
    exact map_congr_left fun r hr => by simpa using hpast r hr
  have hfed : maskWhere (b.lastLogits.map backend.argmax) (active.map fun _ => false)
      (promptValues promptTokens active (model.position b.state)) = tokens := by
    rw [htokens]
    refine ext_getElem (by simp [maskWhere, promptValues, hlen]) fun i hi hi' => ?_
    simp [maskWhere]
  have hzero : (List.zipWith (stepBit model.summaryMemoryWriteTriggerTokenIds)
      (active.map fun _ => false) (promptValues promptTokens active (model.position b.state))).map
        (fun bit => [bit]) =
      (tokens.map fun token => [token]).map fun row => row.map fun _ => 0 := by
    refine ext_getElem (by simp [promptValues, hlen]) fun i hi hi' => ?_
    simp
  rw [raggedStep_eq hmodel strategy b hmask rfl hfed hlen, hzero, hmodel.zero_mask]
  simp only [equalStep, htokens, trimToWindow_eq hmodel]
  rfl

variable (strategy) in
/-- The steps of a buffer past the prompts. -/
theorem equalStep_iterate (hmodel : model.Lawful) {state : State} {last : List (List F)}
    (hne : active ≠ []) (h : RowsAt backend model promptTokens bitOk state last active x hist)
    (hpast : ∀ r ∈ active, (promptTokens.getD r []).length ≤ x) (t : ℕ) :
    (equalStep backend model strategy)^[t] ⟨state, last, [], []⟩ =
      { (raggedStep backend model promptTokens active strategy)^[t] ⟨state, last, [], []⟩ with
        generatedMasks := [] } := by
  induction t with
  | zero => rfl
  | succ t ih =>
    have hb := bufferAt_iterate (t := t) hmodel hne h
      (fun r hr i _ hlt => absurd (hpast r hr) (by omega)) strategy
    rw [Function.iterate_succ_apply', Function.iterate_succ_apply', ih]
    exact equalStep_eq hmodel [] hb.rows fun r hr => (hpast r hr).trans (Nat.le_add_right x t)

variable {s : BatchLoop State (List (List F))}

/-- What the flush of a buffer accepts of an active row. -/
theorem EqualAt.accept
    (hends : EndsAt backend model promptTokens maxNewTokens stopOnToken bitOk fin)
    (h : EqualAt backend model promptTokens maxNewTokens bitOk fin active x hist s)
    {b : Buffer State F} {t : ℕ} (hb : BufferAt backend model promptTokens bitOk active x t hist b)
    {j r : ℕ} (hj : active[j]? = some r) :
    ∃ stopped, acceptUntilStop stopOnToken
        ((slice (j * t) t (catColumns active.length b.pending)).take
          (maxNewTokens.getD r 0 - generatedCount promptTokens r x)) =
      ((List.range' (generatedCount promptTokens r x)
        (min (generatedCount promptTokens r (x + t)) (fin r) - generatedCount promptTokens r x)).map
          (rowSequence backend model promptTokens r
            (feed backend model promptTokens r (hist r) t)), stopped) ∧
      ((stopped = false ∧
          min (generatedCount promptTokens r (x + t)) (fin r) < maxNewTokens.getD r 0) ↔
        generatedCount promptTokens r (x + t) < fin r) := by
  have hr := mem_of_getElem? hj
  have hpast := h.past r hr
  obtain ⟨hjlt, -⟩ := List.getElem?_eq_some_iff.1 hj
  have hlen := hb.rows.length r hr
  have hslice := slice_catColumns b.pending hjlt
  have hplace : x = (promptTokens.getD r []).length + generatedCount promptTokens r x := by
    rw [generatedCount]
    omega
  have htokens : ((feed backend model promptTokens r (hist r) t).drop x).map Prod.fst =
      (List.range' (generatedCount promptTokens r x) (generatedCount promptTokens r (x + t) -
        generatedCount promptTokens r x)).map (rowSequence backend model promptTokens r
          (feed backend model promptTokens r (hist r) t)) := by
    conv_lhs => rw [hplace, ← drop_drop, map_drop, (hb.rows.history r hr).generated, hlen,
      ← map_drop, drop_range]
    rfl
  rw [hb.length_pending, hb.pending j r hj, htokens] at hslice
  rw [hslice]
  refine acceptUntilStop_seq ?_ (h.generated.unfinished r hr) ?_
  · exact hends.cut r _ (h.generated.budget r hr).2 ((hb.rows.history r hr).take _)
      (by rw [length_take, hlen]; omega)
  · simp only [generatedCount]
    omega

/-! ## The outer loop -/

variable {deviceBufferTokens : ℕ}

variable (strategy) in
/-- A pass returns the finished rows, or it moves to a later position. -/
theorem EqualAt.pass (hmodel : model.Lawful)
    (hends : EndsAt backend model promptTokens maxNewTokens stopOnToken bitOk fin)
    (h : EqualAt backend model promptTokens maxNewTokens bitOk fin active x hist s)
    (hbuffer : 0 < deviceBufferTokens) :
    (∃ result, equalPass backend model maxNewTokens strategy stopOnToken deviceBufferTokens s =
        .leave result ∧ AllDone backend model promptTokens maxNewTokens bitOk fin result) ∨
    ∃ s' active' t hist', equalPass backend model maxNewTokens strategy stopOnToken
        deviceBufferTokens s = .go s' ∧ 0 < t ∧ active ≠ [] ∧
      EqualAt backend model promptTokens maxNewTokens bitOk fin active' (x + t) hist' s' := by
  by_cases hne : active = []
  · refine .inl ⟨.ok s.generated, ?_, s.generated, rfl, h.generated.length,
      fun r hr => h.generated.done r hr (by simp [hne])⟩
    simp [equalPass, h.activeRows, hne]
  have hempty : active.isEmpty = false := by simpa using hne
  obtain ⟨t, ht⟩ : ∃ t, min (((active.map fun row =>
      maxNewTokens.getD row 0 - (s.generated.getD row []).length).max?).getD 0)
        deviceBufferTokens = t := ⟨_, rfl⟩
  have hpos : 0 < t := by
    -- an active row has generated less than its budget
    obtain ⟨r, hr⟩ := exists_mem_of_ne_nil active hne
    have hunfinished := h.generated.unfinished r hr
    have hle := hends.le r
    have htokens := congrArg List.length (h.generated.tokens r hr)
    rw [length_map, length_drop, h.rows.length r hr] at htokens
    have hmem : maxNewTokens.getD r 0 - (s.generated.getD r []).length ∈ active.map fun row =>
      maxNewTokens.getD row 0 - (s.generated.getD row []).length := mem_map_of_mem hr
    cases hmax : (active.map fun row =>
        maxNewTokens.getD row 0 - (s.generated.getD row []).length).max? with
    | none => rw [max?_eq_none_iff.1 hmax] at hmem; cases hmem
    | some m =>
      have hm := (max?_eq_some_iff.1 hmax).2 _ hmem
      rw [hmax, Option.getD_some] at ht
      rw [generatedCount] at hunfinished
      omega
  have hb := bufferAt_iterate (t := t) hmodel hne h.rows
    (fun r hr i _ hlt => absurd (h.past r hr) (by omega)) strategy
  have hiterate := equalStep_iterate strategy hmodel hne h.rows h.past t
  generalize (raggedStep backend model promptTokens active strategy)^[t]
    ⟨s.state, s.lastLogits, [], []⟩ = b at hb hiterate
  obtain ⟨generated, hflush, hgenerated⟩ := h.generated.flush hends hb.rows.history hb.rows.length
    (fun r hr => by rw [← h.rows.length r hr]; exact take_feed ..)
    (fun batchRow remaining => acceptUntilStop stopOnToken
      ((slice (batchRow * t) t (catColumns active.length b.pending)).take remaining))
    (fun j r hj => h.accept hends hb hj)
  have hgo : ∀ state' last', RowsAt backend model promptTokens bitOk state' last'
        (active.filter (staysActive promptTokens fin (x + t))) (x + t)
        (fun r => feed backend model promptTokens r (hist r) t) →
      EqualAt backend model promptTokens maxNewTokens bitOk fin
        (active.filter (staysActive promptTokens fin (x + t))) (x + t)
        (fun r => feed backend model promptTokens r (hist r) t)
        ⟨generated, active.filter (staysActive promptTokens fin (x + t)), state', last'⟩ :=
    fun state' last' hrows =>
      ⟨rfl, fun r hr => (h.past r (mem_of_mem_filter hr)).trans (Nat.le_add_right x t), hrows,
        hgenerated⟩
  simp only [equalPass, h.activeRows, hempty, ht, hpos.ne', hiterate, hflush, Bool.false_eq_true,
    if_false]
  generalize staysActive promptTokens fin (x + t) = keep at hgo hgenerated
  rcases surviving_cases keep active with ⟨hnone, hgone⟩ | ⟨hsome, hfewer⟩ | ⟨hsome, hall, hsame⟩
  · refine .inl ⟨_, if_pos hnone, generated, rfl, hgenerated.length,
      fun r hr => hgenerated.done r hr ?_⟩
    rw [hgone]
    exact not_mem_nil
  · exact .inr ⟨_, _, t, _, (if_neg (Bool.eq_false_iff.1 hsome)).trans (if_pos hfewer), hpos, hne,
      hgo _ _ (hb.rows.select hmodel keep)⟩
  · exact .inr ⟨_, _, t, _, (if_neg (Bool.eq_false_iff.1 hsome)).trans (if_neg hall), hpos, hne,
      hgo _ _ (hsame.symm ▸ hb.rows)⟩

variable (backend model promptTokens maxNewTokens bitOk fin) in
/-- The invariant at some position. -/
def EqualReached (s : BatchLoop State (List (List F))) : Prop :=
  ∃ active x hist, EqualAt backend model promptTokens maxNewTokens bitOk fin active x hist s

variable (strategy) in
theorem EqualReached.pass (hmodel : model.Lawful)
    (hends : EndsAt backend model promptTokens maxNewTokens stopOnToken bitOk fin)
    (hbuffer : 0 < deviceBufferTokens)
    (h : EqualReached backend model promptTokens maxNewTokens bitOk fin s) :
    (∃ result, equalPass backend model maxNewTokens strategy stopOnToken deviceBufferTokens s =
        .leave result ∧ AllDone backend model promptTokens maxNewTokens bitOk fin result) ∨
    ∃ s', equalPass backend model maxNewTokens strategy stopOnToken deviceBufferTokens s = .go s' ∧
      EqualReached backend model promptTokens maxNewTokens bitOk fin s' ∧
      (promptTokens.map List.length).sum + maxNewTokens.sum - model.position s'.state <
        (promptTokens.map List.length).sum + maxNewTokens.sum - model.position s.state := by
  obtain ⟨active, x, hist, h⟩ := h
  rcases h.pass strategy hmodel hends hbuffer with
    hleave | ⟨u, active', steps, hist', hgo, hsteps, hne, hu⟩
  · exact .inl hleave
  · have hlt := h.generated.position_lt hends hne
    have hx := h.rows.position
    have hx' := hu.rows.position
    exact .inr ⟨u, hgo, ⟨_, _, _, hu⟩, by omega⟩

/-- The prefill of prompts of one length. -/
theorem equalAt_start (hmodel : model.Lawful) {promptLen : ℕ}
    (hprompts : ∀ prompt ∈ promptTokens, prompt.length = promptLen) (hpos : 0 < promptLen)
    (hlen : promptTokens.length = maxNewTokens.length) (hne : budgetedRows maxNewTokens ≠ [])
    (hends : EndsAt backend model promptTokens maxNewTokens stopOnToken
      (SerialBit model.summaryMemoryWriteTriggerTokenIds promptTokens) fin) :
    ∃ logits state, model.forwardMasked
        ((budgetedRows maxNewTokens).flatMap fun row => promptTokens.getD row [])
        (budgetedRows maxNewTokens).length promptLen
        (ofData (budgetedRows maxNewTokens).length promptLen
          ((budgetedRows maxNewTokens).flatMap fun row => promptTokens.getD row [])) model.initState =
        (logits, state) ∧
      EqualReached backend model promptTokens maxNewTokens (SerialBit model.summaryMemoryWriteTriggerTokenIds promptTokens) fin
        ⟨List.replicate promptTokens.length [], budgetedRows maxNewTokens, state,
          lastLogits logits⟩ := by
  obtain ⟨active, hactive⟩ : ∃ active, budgetedRows maxNewTokens = active := ⟨_, rfl⟩
  have hstart := (batchAt_start 1 hmodel hlen hends)
  rw [hactive] at hstart hne ⊢
  have hlength : ∀ r ∈ active, (promptTokens.getD r []).length = promptLen := fun r hr => by
    obtain ⟨hr', -⟩ := hstart.generated.budget r hr
    rw [getD_eq_getElem?_getD, getElem?_eq_getElem hr', Option.getD_some]
    exact hprompts _ (getElem_mem hr')
  have hall : AllInPrompt promptTokens 0 active := fun r hr => by rwa [hlength r hr]
  have hboundary : nextBoundary promptTokens active = promptLen := by
    rw [nextBoundary, map_congr_left hlength, map_const', min?_replicate_of_pos
      (length_pos_iff.2 hne)]
    rfl
  have hslice : ∀ r ∈ active, slice 0 (nextBoundary promptTokens active - 0)
      (promptTokens.getD r []) = promptTokens.getD r [] := fun r hr => by
    rw [hboundary, Nat.sub_zero, slice, drop_zero, take_of_length_le (hlength r hr).le]
  obtain ⟨last, hsegment, hrows⟩ := hstart.rows.segment hmodel hstart.activeRows hne hall
    fun r hr i hi => by
      rw [hslice r hr, Nat.zero_add, SerialBit]
      refine getElem?_eq_getD ?_ 0
      rw [length_summaryBits, hlength r hr]
      omega
  have hvalues : (active.flatMap fun row => slice 0 promptLen (promptTokens.getD row [])) =
      active.flatMap fun row => promptTokens.getD row [] := by
    rw [hboundary, Nat.sub_zero] at hslice
    rw [flatMap_def, flatMap_def, map_congr_left hslice]
  obtain ⟨forward, hforward⟩ : ∃ forward, model.forwardMasked
      (active.flatMap fun row => promptTokens.getD row []) active.length promptLen
      (ofData active.length promptLen (active.flatMap fun row => promptTokens.getD row []))
      model.initState = forward := ⟨_, rfl⟩
  have hprefill : prefillSegment model promptTokens
      ⟨List.replicate promptTokens.length [], active, model.initState, none⟩ =
      ⟨List.replicate promptTokens.length [], active, forward.2, some (lastLogits forward.1)⟩ := by
    have hmin : ((active.map fun row => (promptTokens.getD row []).length).min?).getD 0 =
        promptLen := hboundary
    simp only [prefillSegment, hmodel.position_init, hmin, Nat.sub_zero, hvalues, hforward]
  rw [hprefill] at hsegment hrows
  obtain rfl : lastLogits forward.1 = last := by simpa using congrArg BatchLoop.lastLogits hsegment
  rw [hboundary] at hrows
  refine ⟨forward.1, forward.2, hforward, active, promptLen, _, rfl,
    fun r hr => (hlength r hr).le, hrows, ?_⟩
  exact ⟨hstart.generated.nodup, hstart.generated.budget, hstart.generated.length,
    fun r hr => by
      rw [drop_eq_nil_of_le (by rw [hrows.length r hr, hlength r hr])]
      simpa using hstart.generated.tokens r hr,
    fun r hr => by
      rw [generatedCount, hlength r hr, Nat.sub_self]
      exact hends.pos r (hstart.generated.budget r hr).2,
    hstart.generated.done⟩

variable (strategy) in
/-- **A batch of prompts of one length returns**, and every row of the result is the continuation of
the prompt that was fed with its own mask, up to the row's end. -/
theorem equalPositionReturns_rows (hmodel : model.Lawful) {promptLen : ℕ}
    (hprompts : ∀ prompt ∈ promptTokens, prompt.length = promptLen) (hpos : 0 < promptLen)
    (hlen : promptTokens.length = maxNewTokens.length)
    (hends : EndsAt backend model promptTokens maxNewTokens stopOnToken (SerialBit
      model.summaryMemoryWriteTriggerTokenIds promptTokens) fin) :
    ∃ result, EqualPositionReturns backend model promptTokens maxNewTokens strategy stopOnToken
        deviceBufferTokens result ∧
      AllDone backend model promptTokens maxNewTokens (SerialBit model.summaryMemoryWriteTriggerTokenIds promptTokens) fin result := by
  by_cases hnil : promptTokens = []
  · subst hnil
    exact ⟨.ok [], ⟨0, by simp [generateGreedyBatchEqualPosition, hlen]⟩, [], rfl, rfl,
      fun r hr => by cases hr⟩
  have hnilBool : promptTokens.isEmpty = false := by simpa [List.isEmpty_iff] using hnil
  have hhead : (promptTokens.headD []).length = promptLen := by
    obtain ⟨first, rest, rfl⟩ := exists_cons_of_ne_nil hnil
    exact hprompts first mem_cons_self
  have hany : (promptTokens.any fun prompt => decide (prompt.length ≠ promptLen)) = false := by
    simpa using hprompts
  by_cases hactive : budgetedRows maxNewTokens = []
  · have hstart := batchAt_start 1 hmodel hlen hends
    refine ⟨_, ⟨0, ?_⟩, List.replicate promptTokens.length [], rfl, length_replicate,
      fun r hr => hstart.generated.done r hr (by simp [hactive])⟩
    simp only [generateGreedyBatchEqualPosition, hlen, ne_eq, not_true_eq_false, if_false, hnilBool,
      hhead, hpos.ne', hany, hactive, isEmpty_nil, if_true, Bool.false_eq_true, or_self]
  obtain ⟨logits, state, hforward, hstart⟩ := equalAt_start hmodel hprompts hpos hlen hactive hends
  have hbuffer : 0 < max deviceBufferTokens 1 := by omega
  obtain ⟨result, ⟨fuel, hrun⟩, hdone⟩ := Loop.exists_returns_of_pass
    (fun t => (promptTokens.map List.length).sum + maxNewTokens.sum - model.position t.state)
    hstart fun t ht => EqualReached.pass strategy hmodel hends hbuffer ht
  refine ⟨result, ⟨fuel, ?_⟩, hdone⟩
  have hactiveBool : (budgetedRows maxNewTokens).isEmpty = false := by
    simpa [List.isEmpty_iff] using hactive
  simp only [generateGreedyBatchEqualPosition, hlen, ne_eq, not_true_eq_false, if_false, hnilBool,
    hhead, hpos.ne', hany, hactiveBool, Bool.false_eq_true, or_self, hforward,
    trimToWindow_eq hmodel]
  rw [← hlen]
  exact hrun

end EqualPosition

end BurnDragon.Generation
