import BurnDragon.Generation.Batched

/-!
# Rows of a batch

`DragonModel.Lawful` says what batched decoding assumes of the model: rows do not see each other, a
segment is the same as its tokens one by one, `select_batch` selects rows, an all-zero summary mask is
the same as none, the position counts the tokens and `trim` does nothing.

A row is then determined by its history, the list of its tokens with their summary bits: `rowRun`
gives the state and the last logits after a history, and a batch forward extends the history of every
row (`RowIs.forward`). Plain greedy generation feeds the prompt with the mask of the whole prompt, and
then its own tokens with the bit zero (`greedyToken_eq_emit`).
-/

namespace BurnDragon.Generation

open Layout Transition List

variable {State F Rng : Type}

/-! ## Assumptions -/

/-- What decoding relies on. Row `i` of a state is `selectBatch state [i]`. -/
structure DragonModel.Lawful (model : DragonModel State F) : Prop where
  position_init : model.position model.initState = 0
  position_forward : ∀ {tokens mask state t}, tokens ≠ [] → Rect tokens t →
    model.position (model.forwardWithStateImpl tokens mask state).2 = model.position state + t
  position_select : ∀ {state indices},
    model.position (model.selectBatch state indices) = model.position state
  trim_eq : ∀ {state window}, model.trim state window = state
  select_init : ∀ {indices}, model.selectBatch model.initState indices = model.initState
  select_select : ∀ {state : State} {indices : List ℕ} {i j : ℕ}, indices[j]? = some i →
    model.selectBatch (model.selectBatch state indices) [j] = model.selectBatch state [i]
  shape : ∀ {tokens mask state t}, Rect tokens t →
    (model.forwardWithStateImpl tokens mask state).1.length = tokens.length ∧
      Rect (model.forwardWithStateImpl tokens mask state).1 t
  separable : ∀ {tokens tokens' mask mask' : List (List ℤ)} {state state' : State} {t i i' : ℕ}
      {row bits : List ℤ}, Rect tokens t → Rect tokens' t → Rect mask t → Rect mask' t →
    tokens[i]? = some row → tokens'[i']? = some row → mask[i]? = some bits → mask'[i']? = some bits →
    model.selectBatch state [i] = model.selectBatch state' [i'] →
    (model.forwardWithStateImpl tokens (some mask) state).1[i]? =
        (model.forwardWithStateImpl tokens' (some mask') state').1[i']? ∧
      model.selectBatch (model.forwardWithStateImpl tokens (some mask) state).2 [i] =
        model.selectBatch (model.forwardWithStateImpl tokens' (some mask') state').2 [i']
  segment : ∀ {xs ys bits bits' : List ℤ} {state : State}, xs ≠ [] → ys ≠ [] →
    bits.length = xs.length → bits'.length = ys.length →
    model.forwardWithStateImpl [xs ++ ys] (some [bits ++ bits']) state =
      ([(model.forwardWithStateImpl [xs] (some [bits]) state).1.headD [] ++
          (model.forwardWithStateImpl [ys] (some [bits'])
            (model.forwardWithStateImpl [xs] (some [bits]) state).2).1.headD []],
        (model.forwardWithStateImpl [ys] (some [bits'])
          (model.forwardWithStateImpl [xs] (some [bits]) state).2).2)
  zero_mask : ∀ {tokens state},
    model.forwardWithStateImpl tokens (some (tokens.map fun row => row.map fun _ => 0)) state =
      model.forwardWithStateImpl tokens none state

/-- What decoding relies on in the backend: dividing by the temperature 1 changes nothing, and an
argmax is an index. -/
structure Backend.Lawful (backend : Backend F Rng) : Prop where
  div_one : ∀ x, backend.divScalar x backend.one = x
  argmax_nonneg : ∀ row, 0 ≤ backend.argmax row

/-! ## One row -/

/-- A row's tokens with their summary bits. -/
abbrev History := List (ℤ × ℤ)

section Row

variable (model : DragonModel State F)

/-- One token of a row that is on its own. -/
def rowStep (s : State × List F) (a : ℤ × ℤ) : State × List F :=
  let (logits, state) := model.forwardWithStateImpl [[a.1]] (some [[a.2]]) s.1
  (state, (lastLogits logits).headD [])

/-- State and last logits of a row after a history. -/
def rowRun (h : History) : State × List F := h.foldl (rowStep model) (model.initState, [])

@[simp] theorem rowRun_nil : rowRun model [] = (model.initState, []) := rfl

theorem rowRun_append (h h' : History) :
    rowRun model (h ++ h') = h'.foldl (rowStep model) (rowRun model h) :=
  foldl_append

theorem rowRun_concat (h : History) (a : ℤ × ℤ) :
    rowRun model (h ++ [a]) = rowStep model (rowRun model h) a :=
  rowRun_append model h [a]

variable {model}

/-- The logits of a batch, one list for each row, when every row has `t` positions. -/
theorem getElem?_lastLogits {logits : List (List (List F))} {t i : ℕ} (hrect : Rect logits t)
    {row : List (List F)} (hrow : logits[i]? = some row) :
    (lastLogits logits)[i]? = some (row.getD (t - 1) []) := by
  have htime : timeDim logits = t := by
    cases logits with
    | nil => simp at hrow
    | cons first rest => exact hrect first mem_cons_self
  rw [lastLogits, getElem?_map, hrow, htime, Option.map_some]

/-- The logits of a single row. -/
theorem lastLogits_singleton (row : List (List F)) :
    lastLogits [row] = [row.getD (row.length - 1) []] := rfl

/-- The forward of a single row gives the logits of that row, one list for each token. -/
theorem forward_singleton (hmodel : model.Lawful) (xs : List ℤ) (mask : Option (List (List ℤ)))
    (state : State) : ∃ row, (model.forwardWithStateImpl [xs] mask state).1 = [row] ∧
      row.length = xs.length := by
  obtain ⟨hone, hrect⟩ := @DragonModel.Lawful.shape _ _ _ hmodel [xs] mask state xs.length
    (by simp [Rect])
  obtain ⟨row, hrow⟩ := length_eq_one_iff.1 hone
  exact ⟨row, hrow, hrect row (hrow ▸ mem_singleton_self row)⟩

/-- A segment of a single row is its tokens one by one. -/
theorem forward_eq_foldl (hmodel : model.Lawful) {xs bits : List ℤ} (hne : xs ≠ [])
    (hlen : bits.length = xs.length) (s : State × List F) :
    ((model.forwardWithStateImpl [xs] (some [bits]) s.1).2,
        (lastLogits (model.forwardWithStateImpl [xs] (some [bits]) s.1).1).headD []) =
      (xs.zip bits).foldl (rowStep model) s := by
  induction xs generalizing bits s with
  | nil => exact absurd rfl hne
  | cons x xs ih =>
    obtain ⟨b, bits, rfl⟩ : ∃ b bs, bits = b :: bs := by
      cases bits with
      | nil => simp at hlen
      | cons b bs => exact ⟨b, bs, rfl⟩
    have hlen' : bits.length = xs.length := by simpa using hlen
    cases xs with
    | nil =>
      obtain rfl : bits = [] := eq_nil_of_length_eq_zero hlen'
      rfl
    | cons y ys =>
      have hsegment := @DragonModel.Lawful.segment _ _ _ hmodel [x] (y :: ys) [b] bits s.1
        (by simp) (by simp) rfl hlen'
      rw [zip_cons_cons, foldl_cons, ← ih (by simp) hlen' (rowStep model s (x, b))]
      obtain ⟨first, hfirst, hone⟩ := forward_singleton hmodel [x] (some [[b]]) s.1
      obtain ⟨rest, hrest, hlast⟩ := forward_singleton hmodel (y :: ys) (some [bits])
        (rowStep model s (x, b)).1
      have hstate : (rowStep model s (x, b)).1 =
          (model.forwardWithStateImpl [[x]] (some [[b]]) s.1).2 := rfl
      rw [singleton_append, singleton_append, ← hstate] at hsegment
      rw [hsegment, hfirst, hrest]
      simp only [headD_cons, lastLogits_singleton, Prod.mk.injEq, true_and, length_append,
        hone, hlast, length_cons]
      rw [getD_eq_getElem?_getD, getElem?_append_right (by simp [hone]),
        getD_eq_getElem?_getD]
      simp [hone]

/-! ## Rows of a batch -/

/-- Row `i` of a state is the row with this history. -/
def RowIs (model : DragonModel State F) (state : State) (i : ℕ) (h : History) : Prop :=
  model.selectBatch state [i] = model.selectBatch (rowRun model h).1 [0]

/-- A forward extends the history of every row. -/
theorem RowIs.forward (hmodel : model.Lawful) {tokens mask : List (List ℤ)} {state : State}
    {t i : ℕ} {row bits : List ℤ} {h : History} (hrow : RowIs model state i h) (ht : 0 < t)
    (htokens : Rect tokens t) (hmask : Rect mask t) (hi : tokens[i]? = some row)
    (hbits : mask[i]? = some bits) :
    RowIs model (model.forwardWithStateImpl tokens (some mask) state).2 i (h ++ row.zip bits) ∧
      (lastLogits (model.forwardWithStateImpl tokens (some mask) state).1)[i]? =
        some (rowRun model (h ++ row.zip bits)).2 := by
  have hlen : row.length = t := htokens row (mem_of_getElem? hi)
  have hlen' : bits.length = t := hmask bits (mem_of_getElem? hbits)
  have hfold := forward_eq_foldl hmodel (ne_nil_of_length_pos (hlen ▸ ht))
    (hlen'.trans hlen.symm) (rowRun model h)
  rw [← rowRun_append] at hfold
  obtain ⟨hlogits, hstate⟩ := @DragonModel.Lawful.separable _ _ _ hmodel tokens [row] mask [bits]
    state (rowRun model h).1 t i 0 row bits htokens (by simpa [Rect] using hlen) hmask
    (by simpa [Rect] using hlen') hi rfl hbits rfl hrow
  obtain ⟨last, hlast, hlastLen⟩ := forward_singleton hmodel row (some [bits]) (rowRun model h).1
  refine ⟨hstate.trans (by rw [← hfold]), ?_⟩
  have hget : (model.forwardWithStateImpl tokens (some mask) state).1[i]? = some last := by
    rw [hlogits, hlast]
    rfl
  rw [getElem?_lastLogits (@DragonModel.Lawful.shape _ _ _ hmodel _ _ _ _ htokens).2 hget, ← hfold,
    hlast, lastLogits_singleton, hlastLen, hlen]
  rfl

/-- Selecting rows selects their histories. -/
theorem RowIs.select (hmodel : model.Lawful) {state : State} {indices : List ℕ} {i j : ℕ}
    {h : History} (hrow : RowIs model state i h) (hj : indices[j]? = some i) :
    RowIs model (model.selectBatch state indices) j h :=
  (hmodel.select_select hj).trans hrow

/-- Every row of the initial state has the empty history. -/
theorem rowIs_init (hmodel : model.Lawful) (i : ℕ) : RowIs model model.initState i [] := by
  rw [RowIs, rowRun_nil, hmodel.select_init, hmodel.select_init]

end Row

/-! ## Summary masks of whole rows -/

theorem length_summaryEventMaskFromTokens (tokens : List ℤ) (triggerTokenIds : List ℕ) :
    (summaryEventMaskFromTokens tokens triggerTokenIds).length = tokens.length := by
  rw [summaryEventMaskFromTokens]
  split
  · exact length_replicate
  · have hfold : ∀ (stops : List ℕ) (P : ℕ → Prop) [DecidablePred P] (mask : List ℤ),
        (stops.foldl (fun mask stop => if P stop then mask.set stop 1 else mask) mask).length =
          mask.length := by
      intro stops P _
      induction stops with
      | nil => exact fun _ => rfl
      | cons stop stops ih =>
        intro mask
        rw [foldl_cons, ih]
        split <;> simp
    rw [hfold, length_replicate]

/-- Without a trigger the mask is zero. -/
theorem summaryEventMaskFromTokens_of_nil {triggerTokenIds : List ℕ}
    (h : triggerTokenIds.length = 0) (tokens : List ℤ) :
    summaryEventMaskFromTokens tokens triggerTokenIds = List.replicate tokens.length 0 := by
  rw [summaryEventMaskFromTokens, if_pos (.inr (.inl h))]

/-- The mask of a batch is the mask of every row. -/
theorem summaryEventMaskFromFlatBatch_flatten {rows : List (List ℤ)} {t : ℕ} (hrect : Rect rows t)
    (triggerTokenIds : List ℕ) :
    summaryEventMaskFromFlatBatch rows.flatten rows.length t triggerTokenIds =
      (rows.map (summaryEventMaskFromTokens · triggerTokenIds)).flatten := by
  have hzero : List.replicate rows.flatten.length (0 : ℤ) =
      (List.replicate rows.length (List.replicate t 0)).flatten := by
    rw [length_flatten_eq hrect, flatten_replicate_replicate]
  have hrow : ∀ r, (h : r < rows.length) → slice (r * t) t rows.flatten = rows[r] := fun r hr =>
    slice_flatten hrect (getElem?_eq_getElem hr)
  rw [summaryEventMaskFromFlatBatch]
  split
  · rename_i h
    rw [hzero]
    congr 1
    refine ext_getElem (by simp) fun i hi hi' => ?_
    have hlen : ∀ row ∈ rows, summaryEventMaskFromTokens row triggerTokenIds =
        List.replicate t 0 := by
      intro row hmem
      rcases h with h | h | h
      · simp [eq_nil_of_length_eq_zero h] at hmem
      · have hnil : summaryEventMaskFromTokens row triggerTokenIds = [] :=
          eq_nil_of_length_eq_zero
            ((length_summaryEventMaskFromTokens ..).trans ((hrect row hmem).trans h))
        rw [hnil, h, replicate_zero]
      · rw [summaryEventMaskFromTokens_of_nil h, hrect row hmem]
    rw [getElem_replicate, getElem_map, hlen _ (getElem_mem _)]
  · simp only
    rw [hzero, foldl_copyFromSlice (fun r hr => ?_) (length_replicate ..) ?_]
    · congr 1
      refine ext_getElem (by simp) fun i hi hi' => ?_
      simp only [getElem_map, getElem_range]
      rw [hrow]
    · intro row hmem
      rw [eq_of_mem_replicate hmem, length_replicate]
    · rw [length_summaryEventMaskFromTokens, hrow r hr, hrect _ (getElem_mem _)]

/-- The summary bits of a segment that is masked on its own. -/
def summaryBits (triggers : Option (List ℕ)) (tokens : List ℤ) : List ℤ :=
  match triggers with
  | some triggerTokenIds => summaryEventMaskFromTokens tokens triggerTokenIds
  | none => tokens.map fun _ => 0

@[simp] theorem length_summaryBits (triggers : Option (List ℕ)) (tokens : List ℤ) :
    (summaryBits triggers tokens).length = tokens.length := by
  cases triggers with
  | none => simp [summaryBits]
  | some triggerTokenIds => exact length_summaryEventMaskFromTokens tokens triggerTokenIds

/-- With or without a trigger, a forward of whole rows feeds every row with its own bits. -/
theorem forwardMasked_eq {model : DragonModel State F} (hmodel : model.Lawful)
    {rows : List (List ℤ)} {t : ℕ} (hrect : Rect rows t) (state : State) :
    model.forwardMasked rows.flatten rows.length t rows state =
      model.forwardWithStateImpl rows
        (some (rows.map (summaryBits model.summaryMemoryWriteTriggerTokenIds))) state := by
  cases htriggers : model.summaryMemoryWriteTriggerTokenIds with
  | none =>
    simp only [DragonModel.forwardMasked, htriggers, summaryEventMaskTensor, Option.map_none, summaryBits]
    exact hmodel.zero_mask.symm
  | some triggerTokenIds =>
    have hmask : Rect (rows.map (summaryEventMaskFromTokens · triggerTokenIds)) t := by
      intro row hrow
      obtain ⟨tokens, htokens, rfl⟩ := mem_map.1 hrow
      rw [length_summaryEventMaskFromTokens, hrect tokens htokens]
    have hdata := ofData_flatten hmask
    rw [length_map] at hdata
    simp only [DragonModel.forwardMasked, htriggers, summaryEventMaskTensor, Option.map_some,
      summaryEventMaskFromFlatBatch_flatten hrect, hdata]
    rfl

/-! ## Plain generation by histories -/

section Serial

variable (backend : Backend F Rng) (model : DragonModel State F)

/-- The greedy token after a history. -/
def emit (h : History) : ℤ := backend.argmax (rowRun model h).2

/-- A history with `k` greedy tokens after it. -/
def extend (emit : History → ℤ) (h : History) : ℕ → History
  | 0 => h
  | k + 1 => extend emit h k ++ [(emit (extend emit h k), 0)]

@[simp] theorem length_extend (emit : History → ℤ) (h : History) (k : ℕ) :
    (extend emit h k).length = h.length + k := by
  induction k with
  | zero => rfl
  | succ k ih => rw [extend, length_append, ih, length_singleton, Nat.add_assoc]

/-- A row after its prompt, fed with the mask of the whole prompt. -/
def promptHistory (promptTokens : List ℤ) : History :=
  promptTokens.zip (summaryBits model.summaryMemoryWriteTriggerTokenIds promptTokens)

variable {backend model}

theorem prefillState_eq (hmodel : model.Lawful) {promptTokens : List ℤ} (hne : promptTokens ≠ []) :
    prefillState model promptTokens = .ok (rowRun model (promptHistory model promptTokens)) := by
  have hpos : promptTokens.length ≠ 0 := fun h => hne (eq_nil_of_length_eq_zero h)
  have hrect : Rect [promptTokens] promptTokens.length := by simp [Rect]
  have hdata : ofData 1 promptTokens.length promptTokens = [promptTokens] := by
    simpa using ofData_flatten hrect
  have hforward := forwardMasked_eq hmodel hrect model.initState
  rw [flatten_singleton, length_singleton] at hforward
  have hfold := forward_eq_foldl hmodel hne
    (length_summaryBits model.summaryMemoryWriteTriggerTokenIds promptTokens) (model.initState, [])
  obtain ⟨row, hrow, hlen⟩ := forward_singleton hmodel promptTokens
    (some [summaryBits model.summaryMemoryWriteTriggerTokenIds promptTokens]) model.initState
  have htime : timeDim (model.forwardWithStateImpl [promptTokens]
      (some [summaryBits model.summaryMemoryWriteTriggerTokenIds promptTokens]) model.initState).1 =
      promptTokens.length := by
    rw [hrow]
    exact hlen
  simp only [prefillState, hpos, if_false, hdata, map_cons, map_nil] at hforward ⊢
  rw [hforward]
  simp only [htime, ne_eq, not_true_eq_false, if_false]
  exact congrArg Except.ok hfold

theorem trimToWindow_eq (hmodel : model.Lawful) (strategy : ContextStrategy) (state : State) :
    trimToWindow model strategy state = state := by
  cases strategy with
  | infinite => rfl
  | sliding window => simp [trimToWindow, hmodel.trim_eq]

theorem greedyNext_eq (hbackend : backend.Lawful) (last : List F) :
    greedyNext backend backend.one last = backend.argmax last := by
  rw [greedyNext]
  congr 1
  exact (map_congr_left fun x _ => hbackend.div_one x).trans (map_id _)

/-- Greedy decoding follows the extended history. -/
theorem greedyState_eq (hmodel : model.Lawful) (hbackend : backend.Lawful)
    (strategy : ContextStrategy) (h : History) (k : ℕ) :
    greedyState backend model backend.one strategy (rowRun model h) k =
      rowRun model (extend (emit backend model) h k) := by
  induction k with
  | zero => rfl
  | succ k ih =>
    have hzero := @DragonModel.Lawful.zero_mask _ _ _ hmodel
      [[emit backend model (extend (emit backend model) h k)]]
      (rowRun model (extend (emit backend model) h k)).1
    rw [greedyState_succ, ih, extend, rowRun_concat, greedyStep, greedyNext_eq hbackend, rowStep,
      ← emit, DragonModel.forwardWithState, ← hzero]
    simp only [trimToWindow_eq hmodel, map_cons, map_nil]

theorem greedyToken_eq (hmodel : model.Lawful) (hbackend : backend.Lawful)
    (strategy : ContextStrategy) (h : History) (k : ℕ) :
    greedyToken backend model backend.one strategy (rowRun model h) k =
      emit backend model (extend (emit backend model) h k) := by
  rw [greedyToken, greedyState_eq hmodel hbackend, greedyNext_eq hbackend, emit]

end Serial

end BurnDragon.Generation
