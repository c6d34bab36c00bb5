import BurnDragon.Generation.Flush

/-!
# Row histories

A row of the batch feeds its prompt, with summary bits that the batch chooses, and then its own tokens
with the bit zero (`RowHistory`). The active rows of a state are row histories of one position
(`StateAt`, `RowsAt`). A buffer of steps extends each of them (`bufferAt_iterate`), a flush adds what
is generated below the end of each row (`GeneratedAt.flush`), and the surviving rows are selected
(`RowsAt.select`).
-/

namespace BurnDragon.Generation

open Layout Transition List Nat

variable {State F Rng : Type}

theorem getElem?_eq_getD {α : Type} {l : List α} {i : ℕ} (h : i < l.length) (d : α) :
    l[i]? = some (l.getD i d) := by
  rw [getD_eq_getElem?_getD, getElem?_eq_getElem h]
  rfl

/-! ## Histories of a row -/

section History

variable (emit : History → ℤ) (prompt : List ℤ) (bitOk : ℕ → ℤ → Prop)

/-- The histories of a row: prompt tokens with allowed bits, then generated tokens. -/
inductive RowHistory : History → Prop
  | nil : RowHistory []
  | prompt {h : History} {token bit : ℤ} : RowHistory h → prompt[h.length]? = some token →
    bitOk h.length bit → RowHistory (h ++ [(token, bit)])
  | decode {h : History} : RowHistory h → prompt.length ≤ h.length →
    RowHistory (h ++ [(emit h, 0)])

variable {emit prompt bitOk} {h : History}

theorem RowHistory.take (hh : RowHistory emit prompt bitOk h) (k : ℕ) :
    RowHistory emit prompt bitOk (h.take k) := by
  induction hh with
  | nil => simpa using .nil
  | @prompt h token bit hh htoken hbit ih =>
    rcases lt_or_ge h.length k with hlt | hge
    · rw [take_of_length_le (by simpa using succ_le_of_lt hlt)]
      exact .prompt hh htoken hbit
    · rwa [take_append_of_le_length hge]
  | @decode h hh hlen ih =>
    rcases lt_or_ge h.length k with hlt | hge
    · rw [take_of_length_le (by simpa using succ_le_of_lt hlt)]
      exact .decode hh hlen
    · rwa [take_append_of_le_length hge]

/-- Feeding a part of the prompt extends a row history, when its bits are allowed. -/
theorem RowHistory.append_prompt {xs bits : List ℤ} (hh : RowHistory emit prompt bitOk h)
    (hxs : ∀ i < xs.length, prompt[h.length + i]? = xs[i]?)
    (hbits : ∀ (i : ℕ) (bit : ℤ), bits[i]? = some bit → bitOk (h.length + i) bit) :
    RowHistory emit prompt bitOk (h ++ xs.zip bits) := by
  induction xs generalizing h bits with
  | nil => simpa using hh
  | cons a xs ih =>
    cases bits with
    | nil => simpa using hh
    | cons b bits =>
      have hnext : RowHistory emit prompt bitOk (h ++ [(a, b)]) :=
        .prompt hh (by simpa using hxs 0 (by simp)) (by simpa using hbits 0 b rfl)
      have hlen : (h ++ [(a, b)]).length = h.length + 1 := by simp
      have happend : RowHistory emit prompt bitOk (h ++ [(a, b)] ++ xs.zip bits) := by
        refine ih hnext (fun i hi => ?_) (fun i bit hi => ?_)
        · rw [hlen, add_assoc, add_comm 1 i]
          simpa using hxs (i + 1) (by simpa using hi)
        · rw [hlen, add_assoc, add_comm 1 i]
          exact hbits (i + 1) bit (by simpa using hi)
      rwa [append_assoc] at happend

section

variable (hh : RowHistory emit prompt bitOk h)
include hh

/-- What comes after the prompt is the greedy extension. -/
theorem RowHistory.eq_extend (hlen : prompt.length ≤ h.length) :
    h = extend emit (h.take prompt.length) (h.length - prompt.length) := by
  induction hh with
  | nil =>
    obtain hzero : prompt.length = 0 := by simpa using hlen
    simp [hzero, extend]
  | @prompt h token bit hh htoken hbit ih =>
    obtain ⟨hlt, -⟩ := List.getElem?_eq_some_iff.1 htoken
    rw [length_append, length_singleton] at hlen ⊢
    have hzero : h.length + 1 - prompt.length = 0 := by omega
    rw [hzero, extend, take_of_length_le (by simpa using succ_le_of_lt hlt)]
  | @decode h hh hlen' ih =>
    rw [length_append, length_singleton, take_append_of_le_length hlen']
    have hsucc : h.length + 1 - prompt.length = h.length - prompt.length + 1 := by omega
    rw [hsucc, extend, ← ih hlen']

/-- The tokens of the prompt part. -/
theorem RowHistory.map_fst_take :
    (h.take prompt.length).map Prod.fst = prompt.take h.length := by
  induction hh with
  | nil => simp
  | @prompt h token bit hh htoken hbit ih =>
    obtain ⟨hlt, rfl⟩ := List.getElem?_eq_some_iff.1 htoken
    rw [take_of_length_le hlt.le] at ih
    rw [take_of_length_le (by simpa using succ_le_of_lt hlt), map_append, ih, length_append,
      length_singleton, take_succ_eq_append_getElem hlt]
    rfl
  | @decode h hh hlen ih =>
    rw [take_append_of_le_length hlen, ih, take_of_length_le hlen,
      take_of_length_le (by simp; omega)]

theorem RowHistory.map_fst (hlen : h.length = prompt.length) :
    h.map Prod.fst = prompt := by
  have htokens := hh.map_fst_take
  rwa [← hlen, take_length, hlen, take_length] at htokens

/-- The allowed bits of the prompt part. -/
theorem RowHistory.bit_ok {e : ℕ} {token bit : ℤ} (he : h[e]? = some (token, bit))
    (hprompt : e < prompt.length) : bitOk e bit := by
  induction hh with
  | nil => simp at he
  | @prompt h token' bit' hh htoken hbit ih =>
    rcases lt_trichotomy e h.length with hlt | rfl | hgt
    · rw [getElem?_append_left hlt] at he
      exact ih he
    · rw [getElem?_concat_length, Option.some.injEq, Prod.mk.injEq] at he
      exact he.2 ▸ hbit
    · rw [getElem?_eq_none (by simp; omega)] at he
      cases he
  | @decode h hh hlen ih =>
    rw [getElem?_append_left (by omega)] at he
    exact ih he

end

variable (emit) in
/-- The tokens generated after a prompt history. -/
def sequence (h : History) (i : ℕ) : ℤ := emit (extend emit h i)

theorem drop_extend (h : History) (k : ℕ) :
    ((extend emit h k).drop h.length).map Prod.fst = (List.range k).map (sequence emit h) := by
  induction k with
  | zero => simp [extend]
  | succ k ih =>
    rw [extend, drop_append_of_le_length (by simp), map_append, ih, range_succ, map_append]
    rfl

/-- The generated tokens of a history. -/
theorem RowHistory.generated (hh : RowHistory emit prompt bitOk h) :
    (h.drop prompt.length).map Prod.fst =
      (List.range (h.length - prompt.length)).map (sequence emit (h.take prompt.length)) := by
  rcases lt_or_ge h.length prompt.length with hlt | hge
  · rw [drop_eq_nil_of_le hlt.le, Nat.sub_eq_zero_of_le hlt.le]
    rfl
  · have hlen : (h.take prompt.length).length = prompt.length := by
      rw [length_take, min_eq_left hge]
    conv_lhs => rw [hh.eq_extend hge]
    conv_lhs => enter [2, 1]; rw [← hlen]
    exact drop_extend _ _

end History

/-! ## The rows of a state -/

/-- The bit that the mask of the whole prompt of row `r` has at `e`. -/
def SerialBit (triggers : Option (List ℕ)) (promptTokens : List (List ℤ)) (r e : ℕ) (bit : ℤ) :
    Prop :=
  (summaryBits triggers (promptTokens.getD r []))[e]? = some bit

/-- The bit of a buffered step. -/
def stepBit (triggers : Option (List ℕ)) (isPrompt : Bool) (token : ℤ) : ℤ :=
  match triggers with
  | some triggerIds => stepSummaryBit triggerIds isPrompt token
  | none => 0

@[simp] theorem stepBit_false (triggers : Option (List ℕ)) (token : ℤ) :
    stepBit triggers false token = 0 := by
  cases triggers <;> rfl

section Rows

variable (backend : Backend F Rng) (model : DragonModel State F) (promptTokens : List (List ℤ))
  (bitOk : ℕ → ℕ → ℤ → Prop)

/-- The active rows of a state are row histories of position `x`. -/
structure StateAt (state : State) (active : List ℕ) (x : ℕ) (hist : ℕ → History) : Prop where
  position : model.position state = x
  history : ∀ r ∈ active,
    RowHistory (emit backend model) (promptTokens.getD r []) (bitOk r) (hist r)
  length : ∀ r ∈ active, (hist r).length = x
  row : ∀ (j r : ℕ), active[j]? = some r → RowIs model state j (hist r)

/-- The same with the last logits of the rows. -/
structure RowsAt (state : State) (last : List (List F)) (active : List ℕ) (x : ℕ)
    (hist : ℕ → History) : Prop
    extends StateAt backend model promptTokens bitOk state active x hist where
  length_last : last.length = active.length
  logits : ∀ (j r : ℕ), active[j]? = some r → last[j]? = some (rowRun model (hist r)).2

/-- What a buffered step feeds to a row. -/
def nextFed (r : ℕ) (h : History) : ℤ × ℤ :=
  let prompt := promptTokens.getD r []
  let isPrompt := decide (h.length < prompt.length)
  (if isPrompt then prompt.getD h.length 0 else emit backend model h,
    stepBit model.summaryMemoryWriteTriggerTokenIds isPrompt (prompt.getD h.length 0))

variable {backend model promptTokens bitOk} {active : List ℕ} {x : ℕ} {hist : ℕ → History}

variable {r : ℕ} {h : History}

theorem nextFed_eq_decode (hlen : (promptTokens.getD r []).length ≤ h.length) :
    nextFed backend model promptTokens r h = (emit backend model h, 0) := by
  have hnot : decide (h.length < (promptTokens.getD r []).length) = false := by simpa using hlen
  rw [nextFed, hnot, stepBit_false]
  rfl

/-- A buffered step extends a row history, when the bit it feeds is allowed. -/
theorem RowHistory.nextFed
    (hh : RowHistory (emit backend model) (promptTokens.getD r []) (bitOk r) h)
    (hbit : h.length < (promptTokens.getD r []).length → bitOk r h.length (stepBit
      model.summaryMemoryWriteTriggerTokenIds true ((promptTokens.getD r []).getD h.length 0))) :
    RowHistory (emit backend model) (promptTokens.getD r []) (bitOk r)
      (h ++ [nextFed backend model promptTokens r h]) := by
  rcases lt_or_ge h.length (promptTokens.getD r []).length with hlt | hge
  · have htrue : decide (h.length < (promptTokens.getD r []).length) = true := by simpa using hlt
    rw [Generation.nextFed, htrue]
    exact .prompt hh (getElem?_eq_getD hlt 0) (hbit hlt)
  · rw [nextFed_eq_decode hge]
    exact .decode hh hge

/-- A buffered step as one masked forward. -/
theorem raggedStep_eq (hmodel : model.Lawful) (strategy : ContextStrategy) (b : Buffer State F)
    {mask : List Bool} {values tokens : List ℤ}
    (hmask : promptMask promptTokens active (model.position b.state) = mask)
    (hvalues : promptValues promptTokens active (model.position b.state) = values)
    (htokens : maskWhere (b.lastLogits.map backend.argmax) mask values = tokens)
    (hlen : tokens.length = active.length) :
    raggedStep backend model promptTokens active strategy b =
      let forward := model.forwardWithStateImpl (tokens.map fun token => [token])
        (some ((List.zipWith (stepBit model.summaryMemoryWriteTriggerTokenIds) mask values).map
          fun bit => [bit])) b.state
      ⟨forward.2, lastLogits forward.1, b.pending ++ [tokens],
        b.generatedMasks ++ [mask.map fun isPrompt => !isPrompt]⟩ := by
  subst hmask hvalues htokens
  cases htriggers : model.summaryMemoryWriteTriggerTokenIds with
  | some triggerIds =>
    simp only [raggedStep, htriggers, trimToWindow_eq hmodel, stepBit]
    rfl
  | none =>
    have hzero : (List.zipWith (stepBit none) (promptMask promptTokens active
        (model.position b.state)) (promptValues promptTokens active (model.position b.state))).map
        (fun bit => [bit]) = ((maskWhere (b.lastLogits.map backend.argmax) (promptMask promptTokens
          active (model.position b.state)) (promptValues promptTokens active
          (model.position b.state))).map fun token => [token]).map fun row => row.map fun _ => 0 := by
      refine ext_getElem (by simpa [promptMask, promptValues] using hlen.symm) ?_
      intro i hi hi'
      simp [stepBit]
    rw [hzero]
    simp only [raggedStep, htriggers, trimToWindow_eq hmodel, hmodel.zero_mask]
    rfl

variable (promptTokens) in
/-- What a buffered step feeds to the batch row of an active row. -/
theorem getElem?_fed {last : List (List F)} {j : ℕ} (hj : active[j]? = some r) (hlen : h.length = x)
    (hlast : last[j]? = some (rowRun model h).2) :
    (maskWhere (last.map backend.argmax) (promptMask promptTokens active x)
        (promptValues promptTokens active x))[j]? =
          some (nextFed backend model promptTokens r h).1 ∧
      (List.zipWith (stepBit model.summaryMemoryWriteTriggerTokenIds)
        (promptMask promptTokens active x) (promptValues promptTokens active x))[j]? =
          some (nextFed backend model promptTokens r h).2 := by
  subst hlen
  have hmask : (promptMask promptTokens active h.length)[j]? =
      some (decide (h.length < (promptTokens.getD r []).length)) := by
    rw [promptMask, getElem?_map, hj, Option.map_some]
  have hvalues : (promptValues promptTokens active h.length)[j]? =
      some ((promptTokens.getD r []).getD h.length 0) := by
    rw [promptValues, getElem?_map, hj, Option.map_some]
  constructor
  · simp only [maskWhere, List.zip, getElem?_zipWith, getElem?_map, hlast, hmask, hvalues,
      Option.map_some]
    rfl
  · simp only [getElem?_zipWith, hmask, hvalues]
    rfl

/-- One buffered step on the state: every row history grows by what is fed to it. -/
theorem RowsAt.raggedStep (hmodel : model.Lawful) {b : Buffer State F} (hne : active ≠ [])
    (h : RowsAt backend model promptTokens bitOk b.state b.lastLogits active x hist)
    (hbits : ∀ r ∈ active, x < (promptTokens.getD r []).length → bitOk r x
      (stepBit model.summaryMemoryWriteTriggerTokenIds true ((promptTokens.getD r []).getD x 0)))
    (strategy : ContextStrategy) :
    RowsAt backend model promptTokens bitOk
      (raggedStep backend model promptTokens active strategy b).state
      (raggedStep backend model promptTokens active strategy b).lastLogits active (x + 1)
      (fun r => hist r ++ [nextFed backend model promptTokens r (hist r)]) := by
  obtain ⟨tokens, htokens⟩ : ∃ tokens, maskWhere (b.lastLogits.map backend.argmax)
      (promptMask promptTokens active x) (promptValues promptTokens active x) = tokens := ⟨_, rfl⟩
  have hlen : tokens.length = active.length := by
    rw [← htokens]
    simp [maskWhere, promptMask, promptValues, h.length_last]
  have hrect : Rect (tokens.map fun token => [token]) 1 := by
    intro row hrow
    obtain ⟨token, -, rfl⟩ := mem_map.1 hrow
    rfl
  have hmaskRect : Rect ((List.zipWith (stepBit model.summaryMemoryWriteTriggerTokenIds)
      (promptMask promptTokens active x) (promptValues promptTokens active x)).map
        fun bit => [bit]) 1 := by
    intro row hrow
    obtain ⟨bit, -, rfl⟩ := mem_map.1 hrow
    rfl
  have hpos : 0 < tokens.length := hlen ▸ length_pos_iff.2 hne
  rw [raggedStep_eq hmodel strategy b (by rw [h.position]) (by rw [h.position]) htokens hlen]
  have hfed : ∀ (j r : ℕ), active[j]? = some r →
      RowIs model (model.forwardWithStateImpl (tokens.map fun token => [token])
          (some ((List.zipWith (stepBit model.summaryMemoryWriteTriggerTokenIds)
            (promptMask promptTokens active x) (promptValues promptTokens active x)).map
              fun bit => [bit])) b.state).2 j
          (hist r ++ [nextFed backend model promptTokens r (hist r)]) ∧
        (lastLogits (model.forwardWithStateImpl (tokens.map fun token => [token])
          (some ((List.zipWith (stepBit model.summaryMemoryWriteTriggerTokenIds)
            (promptMask promptTokens active x) (promptValues promptTokens active x)).map
              fun bit => [bit])) b.state).1)[j]? =
          some (rowRun model (hist r ++ [nextFed backend model promptTokens r (hist r)])).2 := by
    intro j r hj
    obtain ⟨htoken, hbit⟩ := getElem?_fed promptTokens hj
      (h.length r (mem_of_getElem? hj)) (h.logits j r hj)
    rw [htokens] at htoken
    have hinput := getElem?_map (f := fun token => [token]) (l := tokens) (i := j)
    have hmask := getElem?_map (f := fun bit => [bit]) (i := j)
      (l := List.zipWith (stepBit model.summaryMemoryWriteTriggerTokenIds)
        (promptMask promptTokens active x) (promptValues promptTokens active x))
    rw [htoken, Option.map_some] at hinput
    rw [hbit, Option.map_some] at hmask
    exact (h.row j r hj).forward hmodel one_pos hrect hmaskRect hinput hmask
  exact {
    position := by
      rw [hmodel.position_forward (ne_nil_of_length_pos (by simpa using hpos)) hrect, h.position]
    length_last := by
      simp only [lastLogits, length_map, (hmodel.shape hrect).1, hlen]
    history := fun r hr => (h.history r hr).nextFed fun hlt => by
      rw [h.length r hr] at hlt ⊢
      exact hbits r hr hlt
    length := fun r hr => by rw [length_append, h.length r hr, length_singleton]
    row := fun j r hj => (hfed j r hj).1
    logits := fun j r hj => (hfed j r hj).2 }

/-! ## A buffer of steps -/

variable (backend model promptTokens) in
/-- A row history after `t` more buffered steps. -/
def feed (r : ℕ) (h : History) (t : ℕ) : History :=
  (fun h => h ++ [nextFed backend model promptTokens r h])^[t] h

theorem feed_succ (r : ℕ) (h : History) (t : ℕ) :
    feed backend model promptTokens r h (t + 1) = feed backend model promptTokens r h t ++
      [nextFed backend model promptTokens r (feed backend model promptTokens r h t)] :=
  Function.iterate_succ_apply' ..

@[simp] theorem length_feed (r : ℕ) (h : History) (t : ℕ) :
    (feed backend model promptTokens r h t).length = h.length + t := by
  induction t with
  | zero => rfl
  | succ t ih => rw [feed_succ, length_append, ih, length_singleton, add_assoc]

theorem take_feed (r : ℕ) (h : History) (t : ℕ) :
    (feed backend model promptTokens r h t).take h.length = h := by
  induction t with
  | zero => exact take_length
  | succ t ih => rw [feed_succ, take_append_of_le_length (by simp), ih]

/-- The buffer after `t` steps. -/
structure BufferAt (backend : Backend F Rng) (model : DragonModel State F)
    (promptTokens : List (List ℤ)) (bitOk : ℕ → ℕ → ℤ → Prop) (active : List ℕ) (x t : ℕ)
    (hist : ℕ → History) (b : Buffer State F) : Prop where
  rows : RowsAt backend model promptTokens bitOk b.state b.lastLogits active (x + t)
    fun r => feed backend model promptTokens r (hist r) t
  length_pending : b.pending.length = t
  pending : ∀ (j r : ℕ), active[j]? = some r → b.pending.map (fun column => column.getD j 0) =
    ((feed backend model promptTokens r (hist r) t).drop x).map Prod.fst
  masks : ∀ (j r : ℕ), active[j]? = some r →
    b.generatedMasks.map (fun column => column.getD j false) =
      (List.range t).map fun i => decide ((promptTokens.getD r []).length ≤ x + i)

/-- The buffer after the steps of one pass. -/
theorem bufferAt_iterate (hmodel : model.Lawful) {state : State} {last : List (List F)}
    (hne : active ≠ [])
    (h : RowsAt backend model promptTokens bitOk state last active x hist) {t : ℕ}
    (hbits : ∀ r ∈ active, ∀ i < t, x + i < (promptTokens.getD r []).length → bitOk r (x + i)
      (stepBit model.summaryMemoryWriteTriggerTokenIds true
        ((promptTokens.getD r []).getD (x + i) 0)))
    (strategy : ContextStrategy) :
    BufferAt backend model promptTokens bitOk active x t hist
      ((raggedStep backend model promptTokens active strategy)^[t] ⟨state, last, [], []⟩) := by
  induction t with
  | zero =>
    refine ⟨h, rfl, fun j r hj => ?_, fun j r _ => rfl⟩
    exact (congrArg (List.map Prod.fst)
      (drop_eq_nil_of_le (h.length r (mem_of_getElem? hj)).le)).symm
  | succ t ih =>
    have hb := ih fun r hr i hi => hbits r hr i (by omega)
    rw [Function.iterate_succ_apply']
    generalize (raggedStep backend model promptTokens active strategy)^[t] ⟨state, last, [], []⟩ = b
      at hb
    have hrows := hb.rows.raggedStep hmodel hne (fun r hr => hbits r hr t (by omega)) strategy
    have hpending : (raggedStep backend model promptTokens active strategy b).pending =
        b.pending ++ [maskWhere (b.lastLogits.map backend.argmax)
          (promptMask promptTokens active (x + t)) (promptValues promptTokens active (x + t))] := by
      rw [← hb.rows.position]
      rfl
    have hmasks : (raggedStep backend model promptTokens active strategy b).generatedMasks =
        b.generatedMasks ++ [(promptMask promptTokens active (x + t)).map fun isPrompt =>
          !isPrompt] := by
      rw [← hb.rows.position]
      rfl
    refine ⟨by simpa only [feed_succ, add_assoc] using hrows, ?_, fun j r hj => ?_,
      fun j r hj => ?_⟩
    · rw [hpending, length_append, hb.length_pending, length_singleton]
    · have hr := mem_of_getElem? hj
      have hlen := hb.rows.length r hr
      obtain ⟨htoken, -⟩ := getElem?_fed promptTokens hj hlen (hb.rows.logits j r hj)
      rw [hpending, map_append, hb.pending j r hj, feed_succ,
        drop_append_of_le_length (by rw [hlen]; omega), map_append, map_cons,
        map_nil, getD_eq_getElem?_getD, htoken]
      rfl
    · have hmask : ((promptMask promptTokens active (x + t)).map fun isPrompt => !isPrompt).getD j
          false = decide ((promptTokens.getD r []).length ≤ x + t) := by
        rw [getD_eq_getElem?_getD, promptMask, map_map, getElem?_map, hj]
        simp [← decide_not]
      rw [hmasks, map_append, hb.masks j r hj, range_succ, map_append, map_cons, map_nil, hmask]
      rfl

/-! ## What a row adds at a flush -/

/-- The buffered tokens that the model generated. -/
theorem filter_zip_generated (n x : ℕ) (l : List ℤ) :
    ((((List.range l.length).map fun i => decide (n ≤ x + i)).zip l).filter Prod.fst).map Prod.snd =
      l.drop (n - x) := by
  induction l generalizing x with
  | nil => simp
  | cons a l ih =>
    have hshift : (List.range l.length).map (fun i => decide (n ≤ x + (i + 1))) =
        (List.range l.length).map fun i => decide (n ≤ x + 1 + i) :=
      map_congr_left fun i _ => by rw [decide_eq_decide]; omega
    rw [length_cons, range_succ_eq_map, map_cons, map_map, zip_cons_cons, filter_cons]
    simp only [Function.comp_def, succ_eq_add_one, hshift, add_zero, decide_eq_true_eq]
    by_cases hn : n ≤ x
    · have hzero : n - (x + 1) = 0 := by omega
      rw [if_pos hn, map_cons, ih (x + 1), hzero, Nat.sub_eq_zero_of_le hn]
      rfl
    · have hsucc : n - x = n - (x + 1) + 1 := by omega
      rw [if_neg hn, ih (x + 1), hsucc, drop_succ_cons]

/-- The generated tokens before a position do not depend on what is fed later. -/
theorem map_sequence_take (emit : History → ℤ) {n : ℕ} :
    (List.range (x - n)).map (sequence emit ((h.take x).take n)) =
      (List.range (x - n)).map (sequence emit (h.take n)) := by
  rcases lt_or_ge x n with hlt | hge
  · rw [Nat.sub_eq_zero_of_le hlt.le]
    rfl
  · rw [take_take, min_eq_left hge]

theorem drop_range (c c' : ℕ) : (List.range c').drop c = List.range' c (c' - c) := by
  rw [range_eq_range', drop_range']
  simp

theorem range_append_range' {c d : ℕ} (h : c ≤ d) :
    List.range c ++ List.range' c (d - c) = List.range d := by
  have hsplit := take_append_drop c (List.range d)
  rwa [take_range, min_eq_left h, drop_range] at hsplit

/-- What a flush accepts of a row: the generated tokens below the row's end. -/
theorem acceptGenerated_row {emit : History → ℤ} {prompt : List ℤ} {bitOk : ℕ → ℤ → Prop}
    (hh : RowHistory emit prompt bitOk h) {t budget fin : ℕ} {stopOnToken : Option ℤ}
    (hlen : h.length = x + t) (hc : x - prompt.length < fin) (hfin : fin ≤ budget)
    (hcut : prompt.length ≤ h.length → Cut (some budget) (fun i => stopOnToken = some (sequence emit
      (h.take prompt.length) i)) fin) :
    ∃ stopped, acceptGenerated stopOnToken (budget - (x - prompt.length))
        (((List.range t).map fun i => decide (prompt.length ≤ x + i)).zip
          ((h.drop x).map Prod.fst)) 0 =
        ((List.range' (x - prompt.length)
          (min (x + t - prompt.length) fin - (x - prompt.length))).map
            (sequence emit (h.take prompt.length)), stopped) ∧
      ((stopped = false ∧ min (x + t - prompt.length) fin < budget) ↔
        x + t - prompt.length < fin) := by
  have ht : ((h.drop x).map Prod.fst).length = t := by simp [hlen]
  have htokens : ((h.drop x).map Prod.fst).drop (prompt.length - x) =
      (List.range' (x - prompt.length) (x + t - prompt.length - (x - prompt.length))).map
        (sequence emit (h.take prompt.length)) := by
    have hplace : x + (prompt.length - x) = prompt.length + (x - prompt.length) := by omega
    rw [← map_drop, drop_drop, hplace, ← drop_drop, map_drop, hh.generated, hlen,
      ← map_drop, drop_range]
  have hfilter := filter_zip_generated prompt.length x ((h.drop x).map Prod.fst)
  rw [ht, htokens] at hfilter
  rw [acceptGenerated_eq, hfilter, Nat.sub_zero]
  rcases lt_or_ge h.length prompt.length with hlt | hge
  · have hnone : x + t - prompt.length - (x - prompt.length) = 0 := by omega
    have hnone' : min (x + t - prompt.length) fin - (x - prompt.length) = 0 := by omega
    refine ⟨false, ?_, fun _ => by omega, fun _ => ⟨rfl, by omega⟩⟩
    rw [hnone, hnone']
    simp [acceptUntilStop]
  · exact acceptUntilStop_seq (hcut hge) hc (by omega)

end Rows

/-! ## Flushing row histories -/

section Generated

variable (backend : Backend F Rng) (model : DragonModel State F) (promptTokens : List (List ℤ))
  (maxNewTokens : List ℕ) (stopOnToken : Option ℤ) (bitOk : ℕ → ℕ → ℤ → Prop) (fin : ℕ → ℕ)

/-- Every row with a budget ends after `fin` generated tokens, whatever allowed bits it was fed. -/
structure EndsAt : Prop where
  pos : ∀ r, 0 < maxNewTokens.getD r 0 → 0 < fin r
  le : ∀ r, fin r ≤ maxNewTokens.getD r 0
  cut : ∀ r h, 0 < maxNewTokens.getD r 0 →
    RowHistory (emit backend model) (promptTokens.getD r []) (bitOk r) h →
    h.length = (promptTokens.getD r []).length →
    Cut (some (maxNewTokens.getD r 0))
      (fun i => stopOnToken = some (sequence (emit backend model) h i)) (fin r)

/-- The tokens of a finished row. -/
def RowDone (r : ℕ) (tokens : List ℤ) : Prop :=
  (maxNewTokens.getD r 0 = 0 ∧ tokens = []) ∨
    (0 < maxNewTokens.getD r 0 ∧ ∃ h,
      RowHistory (emit backend model) (promptTokens.getD r []) (bitOk r) h ∧
      h.length = (promptTokens.getD r []).length ∧
      tokens = (List.range (fin r)).map (sequence (emit backend model) h))

/-- A batch returned the finished tokens of every row. -/
def AllDone (result : Except String (List (List ℤ))) : Prop :=
  ∃ generated, result = .ok generated ∧ generated.length = promptTokens.length ∧
    ∀ r < promptTokens.length,
      RowDone backend model promptTokens maxNewTokens bitOk fin r (generated.getD r [])

/-- The sequence of tokens that a row generates after its prompt. -/
def rowSequence (r : ℕ) (h : History) : ℕ → ℤ :=
  sequence (emit backend model) (h.take (promptTokens.getD r []).length)

/-- How many tokens a row has generated at a position. -/
def generatedCount (r position : ℕ) : ℕ := position - (promptTokens.getD r []).length

/-- A row goes on after a flush at this position. -/
def staysActive (position r : ℕ) : Bool := decide (generatedCount promptTokens r position < fin r)

/-- The tokens generated up to a position: active rows have what their history says, and all other
rows are done. -/
structure GeneratedAt (active : List ℕ) (x : ℕ) (hist : ℕ → History) (generated : List (List ℤ)) :
    Prop where
  nodup : active.Nodup
  budget : ∀ r ∈ active, r < promptTokens.length ∧ 0 < maxNewTokens.getD r 0
  length : generated.length = promptTokens.length
  tokens : ∀ r ∈ active, generated.getD r [] =
    ((hist r).drop (promptTokens.getD r []).length).map Prod.fst
  unfinished : ∀ r ∈ active, generatedCount promptTokens r x < fin r
  done : ∀ r < promptTokens.length, r ∉ active →
    RowDone backend model promptTokens maxNewTokens bitOk fin r (generated.getD r [])

variable {backend model promptTokens maxNewTokens stopOnToken bitOk fin} {active : List ℕ} {x t : ℕ}
  {hist hist' : ℕ → History} {generated : List (List ℤ)}

/-- The generated tokens of an active row, by any history that extends its own. -/
theorem GeneratedAt.eq_map
    (h : GeneratedAt backend model promptTokens maxNewTokens bitOk fin active x hist generated)
    {r : ℕ} (hr : r ∈ active) {h' : History}
    (hh : RowHistory (emit backend model) (promptTokens.getD r []) (bitOk r) h')
    (hlen : x ≤ h'.length) (htake : h'.take x = hist r) : generated.getD r [] =
      (List.range (generatedCount promptTokens r x)).map
        (rowSequence backend model promptTokens r h') := by
  have hsame := map_sequence_take (emit backend model) (n := (promptTokens.getD r []).length)
    (h := h') (x := x)
  rw [h.tokens r hr, ← htake, (hh.take x).generated, length_take, min_eq_left hlen]
  exact hsame

section

variable (hends : EndsAt backend model promptTokens maxNewTokens stopOnToken bitOk fin)
  (h : GeneratedAt backend model promptTokens maxNewTokens bitOk fin active x hist generated)
include hends h

/-- An active row bounds the position by its prompt and its budget. -/
theorem GeneratedAt.position_lt (hne : active ≠ []) :
    x < (promptTokens.map List.length).sum + maxNewTokens.sum := by
  obtain ⟨r, hr⟩ := exists_mem_of_ne_nil active hne
  obtain ⟨hr', hbudget⟩ := h.budget r hr
  have hunfinished := h.unfinished r hr
  rw [generatedCount] at hunfinished
  have hle := hends.le r
  have hprompt : (promptTokens.getD r []).length ≤ (promptTokens.map List.length).sum := by
    rw [getD_eq_getElem?_getD, getElem?_eq_getElem hr', Option.getD_some]
    exact single_le_sum (fun _ _ => zero_le _) _
      (mem_map_of_mem (getElem_mem hr'))
  have hmax : maxNewTokens.getD r 0 ≤ maxNewTokens.sum := by
    rw [getD_eq_getElem?_getD] at hbudget ⊢
    cases hget : maxNewTokens[r]? with
    | none => exact zero_le _
    | some budget =>
      exact single_le_sum (fun _ _ => zero_le _) _ (mem_of_getElem? hget)
  omega

/-- A flush, when every active row accepts its generated tokens below its end. -/
theorem GeneratedAt.flush
    (hhist : ∀ r ∈ active, RowHistory (emit backend model) (promptTokens.getD r []) (bitOk r) (hist'
      r)) (hlen : ∀ r ∈ active, (hist' r).length = x + t)
    (htake : ∀ r ∈ active, (hist' r).take x = hist r) (accept : ℕ → ℕ → List ℤ × Bool)
    (haccept : ∀ (j r : ℕ), active[j]? = some r → ∃ stopped, accept j (maxNewTokens.getD r 0 -
      generatedCount promptTokens r x) = ((List.range' (generatedCount promptTokens r x) (min
      (generatedCount promptTokens r (x + t)) (fin r) - generatedCount promptTokens r x)).map
      (rowSequence backend model promptTokens r (hist' r)), stopped) ∧ ((stopped = false ∧ min
      (generatedCount promptTokens r (x + t)) (fin r) < maxNewTokens.getD r 0) ↔ generatedCount
      promptTokens r (x + t) < fin r)) :
    ∃ generated', flushRows maxNewTokens accept generated active =
        ⟨generated', (active.zipIdx.filter fun row => staysActive promptTokens fin (x + t) row.1).map
          Prod.snd, active.filter (staysActive promptTokens fin (x + t))⟩ ∧
      GeneratedAt backend model promptTokens maxNewTokens bitOk fin
        (active.filter (staysActive promptTokens fin (x + t))) (x + t) hist' generated' := by
  have hold : ∀ r ∈ active, generated.getD r [] =
      (List.range (generatedCount promptTokens r x)).map
        (rowSequence backend model promptTokens r (hist' r)) := fun r hr =>
    h.eq_map hr (hhist r hr) (by rw [hlen r hr]; omega) (htake r hr)
  have hcount : ∀ r ∈ active, generatedCount promptTokens r x ≤
      min (generatedCount promptTokens r (x + t)) (fin r) := fun r hr => by
    have hunfinished := h.unfinished r hr
    simp only [generatedCount] at hunfinished ⊢
    omega
  have hflush := flushRows_eq
    (fun r => (List.range' (generatedCount promptTokens r x)
      (min (generatedCount promptTokens r (x + t)) (fin r) - generatedCount promptTokens r x)).map
        (rowSequence backend model promptTokens r (hist' r)))
    (staysActive promptTokens fin (x + t)) h.nodup (by
      intro j r hj
      have hr := mem_of_getElem? hj
      obtain ⟨stopped, hrow, hiff⟩ := haccept j r hj
      rw [hold r hr, length_map, length_range, length_append, length_map,
        length_map, length_range, length_range', Nat.add_sub_cancel' (hcount r hr)]
      refine ⟨h.length ▸ (h.budget r hr).1, stopped, hrow, ?_⟩
      rw [Bool.eq_iff_iff]
      simpa [staysActive] using hiff)
  have hnew : ∀ r ∈ active, (generated.mapIdx fun r g => if r ∈ active then g ++
      (List.range' (generatedCount promptTokens r x)
        (min (generatedCount promptTokens r (x + t)) (fin r) - generatedCount promptTokens r x)).map
        (rowSequence backend model promptTokens r (hist' r)) else g).getD r [] =
      (List.range (min (generatedCount promptTokens r (x + t)) (fin r))).map
        (rowSequence backend model promptTokens r (hist' r)) := by
    intro r hr
    have hrlt : r < generated.length := h.length ▸ (h.budget r hr).1
    have hgen := hold r hr
    rw [getD_eq_getElem?_getD, getElem?_eq_getElem hrlt, Option.getD_some] at hgen
    rw [getD_eq_getElem?_getD, getElem?_mapIdx, getElem?_eq_getElem hrlt, Option.map_some,
      Option.getD_some, if_pos hr, hgen, ← map_append, range_append_range' (hcount r hr)]
  refine ⟨_, hflush, h.nodup.filter _, fun r hr => h.budget r (mem_of_mem_filter hr),
    by simpa using h.length, fun r hr => ?_, fun r hr => ?_, fun r hr hgone => ?_⟩
  · obtain ⟨hmem, hstays⟩ := mem_filter.1 hr
    have hlt : generatedCount promptTokens r (x + t) < fin r := by simpa [staysActive] using hstays
    rw [hnew r hmem, min_eq_left hlt.le, (hhist r hmem).generated, hlen r hmem]
    rfl
  · simpa [staysActive] using (mem_filter.1 hr).2
  · by_cases hmem : r ∈ active
    · have hge : fin r ≤ generatedCount promptTokens r (x + t) := by
        by_contra hlt
        exact hgone (mem_filter.2 ⟨hmem, by simpa [staysActive] using hlt⟩)
      have hbudget := (h.budget r hmem).2
      have hpos := hends.pos r hbudget
      refine .inr ⟨hbudget, _, (hhist r hmem).take (promptTokens.getD r []).length, ?_, ?_⟩
      · rw [generatedCount] at hge
        rw [length_take, hlen r hmem]
        omega
      · rw [hnew r hmem, min_eq_right hge]
        rfl
    · have hsame : (generated.mapIdx fun r g => if r ∈ active then g ++
          (List.range' (generatedCount promptTokens r x)
            (min (generatedCount promptTokens r (x + t)) (fin r) -
              generatedCount promptTokens r x)).map
            (rowSequence backend model promptTokens r (hist' r)) else g).getD r [] =
          generated.getD r [] := by
        rw [getD_eq_getElem?_getD, getElem?_mapIdx, getD_eq_getElem?_getD]
        cases generated[r]? <;> simp [hmem]
      rw [hsame]
      exact h.done r hr hmem

end

/-- Selecting the surviving rows. -/
theorem StateAt.select (hmodel : model.Lawful) {state : State} (keep : ℕ → Bool)
    (h : StateAt backend model promptTokens bitOk state active x hist) :
    StateAt backend model promptTokens bitOk (model.selectBatch state
      ((active.zipIdx.filter fun row => keep row.1).map Prod.snd)) (active.filter keep) x hist where
  position := hmodel.position_select.trans h.position
  history r hr := h.history r (mem_of_mem_filter hr)
  length r hr := h.length r (mem_of_mem_filter hr)
  row j r hj := by
    obtain ⟨i, hi, hr⟩ := getElem?_surviving hj
    exact (h.row i r hr).select hmodel hi

theorem RowsAt.select (hmodel : model.Lawful) {state : State} {last : List (List F)} (keep : ℕ → Bool)
    (h : RowsAt backend model promptTokens bitOk state last active x hist) :
    RowsAt backend model promptTokens bitOk (model.selectBatch state
        ((active.zipIdx.filter fun row => keep row.1).map Prod.snd))
      (((active.zipIdx.filter fun row => keep row.1).map Prod.snd).map fun row => last.getD row [])
      (active.filter keep) x hist where
  toStateAt := h.toStateAt.select hmodel keep
  length_last := by rw [length_map, length_surviving]
  logits j r hj := by
    obtain ⟨i, hi, hr⟩ := getElem?_surviving hj
    rw [getElem?_map, hi, Option.map_some, getD_eq_getElem?_getD, h.logits i r hr, Option.getD_some]

theorem mem_budgetedRows {r : ℕ} :
    r ∈ budgetedRows maxNewTokens ↔ 0 < maxNewTokens.getD r 0 := by
  simp only [budgetedRows, mem_filterMap, Prod.exists, mem_zipIdx_iff_getElem?,
    Option.ite_none_right_eq_some, Option.some.injEq, gt_iff_lt, getD_eq_getElem?_getD]
  constructor
  · rintro ⟨budget, r', hget, hpos, rfl⟩
    rwa [hget]
  · intro hpos
    cases hget : maxNewTokens[r]? with
    | none => simp [hget] at hpos
    | some budget => exact ⟨budget, r, hget, by simpa [hget] using hpos, rfl⟩

theorem nodup_budgetedRows : (budgetedRows maxNewTokens).Nodup := by
  have hfilter : ∀ l : List (ℕ × ℕ),
      (l.filterMap fun entry => if entry.1 > 0 then some entry.2 else none) =
        (l.filter fun entry => decide (entry.1 > 0)).map Prod.snd := by
    intro l
    induction l with
    | nil => rfl
    | cons entry l ih => by_cases hpos : entry.1 > 0 <;> simp [hpos, ih]
  have hplaces : (maxNewTokens.zipIdx.map Prod.snd).Nodup := by
    rw [zipIdx_map_snd]
    exact nodup_range'
  rw [show budgetedRows maxNewTokens = _ from hfilter _]
  exact (filter_sublist.map Prod.snd).nodup hplaces

end Generated

end BurnDragon.Generation
