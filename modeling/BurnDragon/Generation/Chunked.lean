import BurnDragon.Generation.Serial

/-!
# Chunked generation

`generate_tokens_chunked` keeps greedy tokens on the device and reads them back a chunk at a time.
A flush shows the tokens of the chunk up to its first stop token, and generation ends when the stop
token is not the last token of the chunk: a stop token in the last place of a full chunk is shown,
but not noticed. So the chunked path returns the greedy sequence cut after the first stop token whose
number is not a multiple of the chunk size (`MidChunkStop`, `chunkedReturns_greedy`), and it agrees
with plain generation exactly when the first stop token is one of these or ends the budget
(`chunked_eq_plain_iff`).
-/

namespace BurnDragon.Generation

open Layout Transition List Option Nat

variable {State F Rng : Type}

/-! ## The code -/

section Code

/-- The length of the visible part of a chunk: up to and with the first stop token. -/
def visibleLen (stopOnToken : Option ℤ) (chunk : List ℤ) : ℕ :=
  (stopOnToken.bind fun stop => (chunk.findIdx? (· == stop)).map (· + 1)).getD chunk.length

/-- `flush_pending_token_tensors`: a pending `[1, 1]` tensor is its token, and `chunks` are the
slices that the callback was given so far. The result is the new `full_tokens`, the new `chunks` and
whether generation stops. -/
def flushPendingTokenTensors (pending fullTokens : List ℤ) (chunks : List (List ℤ))
    (stopOnToken : Option ℤ) : List ℤ × List (List ℤ) × Bool :=
  if pending.isEmpty then (fullTokens, chunks, false)
  else
    let chunk := pending
    let chunkLen := chunk.length
    let visible := visibleLen stopOnToken chunk
    let visibleChunk := chunk.take visible
    (fullTokens ++ visibleChunk, chunks ++ [visibleChunk], visible < chunkLen)

/-- The variables of the loop of `generate_tokens_chunked`. -/
structure ChunkLoop (State F : Type) where
  fullTokens : List ℤ
  state : State
  lastLogits : List F
  generated : ℕ
  pending : List ℤ
  chunks : List (List ℤ)

variable (backend : Backend F Rng) (model : DragonModel State F)

/-- One pass of the loop. `break` leaves the loop with its variables. -/
def generateTokensChunkedPass (settings : GenerationSettings F) (chunkTokens deviceBufferTokens : ℕ)
    (stopOnToken : Option ℤ) (s : ChunkLoop State F) :
    Pass (ChunkLoop State F) (ChunkLoop State F) :=
  if hasBudget settings.maxNewTokens s.generated then
    let logitsTemp := s.lastLogits.map (backend.divScalar · settings.temperature)
    let nextTensor := backend.argmax logitsTemp
    let (logits, state) := model.forwardWithState [[nextTensor]] s.state
    let last := (lastLogits logits).headD []
    let pending := s.pending ++ [nextTensor]
    let generated := s.generated + 1
    if pending.length ≥ chunkTokens ∨ pending.length ≥ deviceBufferTokens then
      let (fullTokens, chunks, stopReached) :=
        flushPendingTokenTensors pending s.fullTokens s.chunks stopOnToken
      if stopReached then .leave ⟨fullTokens, state, last, generated, [], chunks⟩
      else
        .go ⟨fullTokens, trimToWindow model settings.strategy state, last, generated, [], chunks⟩
    else
      .go ⟨s.fullTokens, trimToWindow model settings.strategy state, last, generated, pending,
        s.chunks⟩
  else .leave s

/-- The flush after the loop. -/
def finishChunked (stopOnToken : Option ℤ) (s : ChunkLoop State F) : List ℤ × List (List ℤ) :=
  let (fullTokens, chunks, _) :=
    flushPendingTokenTensors s.pending s.fullTokens s.chunks stopOnToken
  (fullTokens, chunks)

/-- `generate_tokens_chunked` with at most `fuel` passes of its loop. The result is the token list and
the slices that `on_chunk` was called with. -/
def generateTokensChunked (fuel : ℕ) (promptTokens : List ℤ) (settings : GenerationSettings F)
    (chunkTokens deviceBufferTokens : ℕ) (stopOnToken : Option ℤ) :
    Option (Except String (List ℤ × List (List ℤ))) :=
  let stopOnToken := stopOnToken.or settings.stopOnToken
  let chunkTokens := max chunkTokens 1
  let deviceBufferTokens := max deviceBufferTokens chunkTokens
  if settings.topK ≠ some 1 then
    let promptLen := promptTokens.length
    (generateTokens backend model fuel promptTokens { settings with stopOnToken }).map
      fun result => result.map fun fullTokens => (fullTokens, [fullTokens.drop promptLen])
  else
    match prefillState model promptTokens with
    | .error e => some (.error e)
    | .ok (state, last) =>
      (Loop.run
        (generateTokensChunkedPass backend model settings chunkTokens deviceBufferTokens stopOnToken)
        fuel ⟨promptTokens, trimToWindow model settings.strategy state, last, 0, [], []⟩).map
        fun s => .ok (finishChunked stopOnToken s)

/-- `generate_tokens_chunked` returns `result`. -/
def GenerateTokensChunkedReturns (promptTokens : List ℤ) (settings : GenerationSettings F)
    (chunkTokens deviceBufferTokens : ℕ) (stopOnToken : Option ℤ)
    (result : Except String (List ℤ × List (List ℤ))) : Prop :=
  ∃ fuel, generateTokensChunked backend model fuel promptTokens settings chunkTokens
    deviceBufferTokens stopOnToken = some result

end Code

/-! ## One flush -/

section Flush

variable {stopOnToken : Option ℤ} {chunk : List ℤ}

theorem visibleLen_le : visibleLen stopOnToken chunk ≤ chunk.length := by
  cases stopOnToken with
  | none => simp [visibleLen]
  | some stop =>
    cases hidx : chunk.findIdx? (· == stop) with
    | none => simp [visibleLen, hidx]
    | some i =>
      obtain ⟨hi, -⟩ := findIdx?_eq_some_iff_getElem.1 hidx
      simpa [visibleLen, hidx] using succ_le_of_lt hi

theorem visibleLen_pos (h : chunk ≠ []) : 0 < visibleLen stopOnToken chunk := by
  have hpos : 0 < chunk.length := length_pos_iff.2 h
  cases stopOnToken with
  | none => simpa [visibleLen] using hpos
  | some stop => cases hidx : chunk.findIdx? (· == stop) <;> simp [visibleLen, hidx, hpos]

/-- No token before the last visible one is the stop token. -/
theorem not_stop_of_lt_visibleLen {i : ℕ} {token : ℤ} (hi : i + 1 < visibleLen stopOnToken chunk)
    (htoken : chunk[i]? = some token) : stopOnToken ≠ some token := by
  rintro rfl
  cases hidx : chunk.findIdx? (· == token) with
  | none =>
    have := findIdx?_eq_none_iff.1 hidx token (mem_of_getElem? htoken)
    simp at this
  | some j =>
    obtain ⟨hj, -, hbefore⟩ := findIdx?_eq_some_iff_getElem.1 hidx
    simp only [visibleLen, bind_some, hidx, map_some, getD_some] at hi
    obtain ⟨hi', hget⟩ := List.getElem?_eq_some_iff.1 htoken
    simpa [hget] using hbefore i (by omega)

/-- What is hidden comes after a stop token. -/
theorem stop_of_visibleLen_lt (h : visibleLen stopOnToken chunk < chunk.length) :
    ∃ token, stopOnToken = some token ∧ chunk[visibleLen stopOnToken chunk - 1]? = some token := by
  cases stopOnToken with
  | none => simp [visibleLen] at h
  | some stop =>
    cases hidx : chunk.findIdx? (· == stop) with
    | none => simp [visibleLen, hidx] at h
    | some i =>
      obtain ⟨hi, hstop, -⟩ := findIdx?_eq_some_iff_getElem.1 hidx
      refine ⟨stop, rfl, ?_⟩
      simp only [visibleLen, bind_some, hidx, map_some, getD_some,
        Nat.add_sub_cancel]
      rw [getElem?_eq_getElem hi, eq_of_beq hstop]

end Flush

/-! ## The loop -/

section Loop

variable {backend : Backend F Rng} {model : DragonModel State F} {settings : GenerationSettings F}
  {promptTokens : List ℤ} {chunkTokens deviceBufferTokens : ℕ} {stopOnToken : Option ℤ}

variable (backend model settings) in
/-- The greedy sequence under the settings. -/
abbrev greedyTokenOf (p : State × List F) (k : ℕ) : ℤ :=
  greedyToken backend model settings.temperature settings.strategy p k

variable (backend model settings) in
abbrev greedyTokensOf (p : State × List F) (n : ℕ) : List ℤ :=
  greedyTokens backend model settings.temperature settings.strategy p n

variable (backend model settings) in
/-- A stop token that is not the last token of a full chunk. -/
def MidChunkStop (stopOnToken : Option ℤ) (chunkTokens : ℕ) (p : State × List F) (k : ℕ) : Prop :=
  stopOnToken = some (greedyTokenOf backend model settings p k) ∧ ¬chunkTokens ∣ k + 1

instance (p : State × List F) :
    DecidablePred (MidChunkStop backend model settings stopOnToken chunkTokens p) :=
  fun k => inferInstanceAs (Decidable (_ ∧ _))

variable {p : State × List F} {start : ℕ}

variable {n : ℕ}

theorem getElem?_drop_greedyTokens {i : ℕ} (hi : start + i < n) :
    ((greedyTokensOf backend model settings p n).drop start)[i]? =
      some (greedyTokenOf backend model settings p (start + i)) := by
  rw [getElem?_drop, greedyTokensOf, greedyTokens, getElem?_map, getElem?_range hi, map_some]

theorem take_greedyTokens {m : ℕ} (h : m ≤ n) :
    (greedyTokensOf backend model settings p n).take m = greedyTokensOf backend model settings p m := by
  rw [greedyTokensOf, greedyTokens, ← map_take, take_range, min_eq_left h]
  rfl

variable (backend model settings promptTokens stopOnToken p) in
/-- A flush of the greedy tokens from `start` to `n` shows those up to some `m`: all of them, or
those up to the first stop token. -/
theorem flush_greedyTokens (hstart : start < n) (chunks : List (List ℤ)) :
    ∃ m, start < m ∧ m ≤ n ∧
      flushPendingTokenTensors ((greedyTokensOf backend model settings p n).drop start)
          (promptTokens ++ greedyTokensOf backend model settings p start) chunks stopOnToken =
        (promptTokens ++ greedyTokensOf backend model settings p m,
          chunks ++ [(greedyTokensOf backend model settings p m).drop start], decide (m < n)) ∧
      (∀ i, start ≤ i → i + 1 < m → stopOnToken ≠ some (greedyTokenOf backend model settings p i)) ∧
      (m < n → stopOnToken = some (greedyTokenOf backend model settings p (m - 1))) := by
  obtain ⟨chunk, hchunk⟩ :
      ∃ chunk, (greedyTokensOf backend model settings p n).drop start = chunk := ⟨_, rfl⟩
  have hlen : chunk.length = n - start := by
    rw [← hchunk, length_drop, length_greedyTokens]
  have hget : ∀ i, start + i < n →
      chunk[i]? = some (greedyTokenOf backend model settings p (start + i)) := fun i hi => by
    rw [← hchunk, getElem?_drop_greedyTokens hi]
  have hne : chunk ≠ [] := ne_nil_of_length_pos (by omega)
  have hempty : chunk.isEmpty = false := by simpa using hne
  have hpos : 0 < visibleLen stopOnToken chunk := visibleLen_pos hne
  have hle : visibleLen stopOnToken chunk ≤ chunk.length := visibleLen_le
  have hbefore : ∀ i token, i + 1 < visibleLen stopOnToken chunk → chunk[i]? = some token →
      stopOnToken ≠ some token := fun i token => not_stop_of_lt_visibleLen
  have hafter : visibleLen stopOnToken chunk < chunk.length → ∃ token, stopOnToken = some token ∧
      chunk[visibleLen stopOnToken chunk - 1]? = some token := stop_of_visibleLen_lt
  rw [hchunk]
  simp only [flushPendingTokenTensors, hempty, Bool.false_eq_true, if_false, append_assoc]
  generalize visibleLen stopOnToken chunk = v at hpos hle hbefore hafter ⊢
  have hvisible : chunk.take v =
      (greedyTokensOf backend model settings p (start + v)).drop start := by
    rw [← hchunk, take_drop, take_greedyTokens (by omega)]
  have hfull : greedyTokensOf backend model settings p start ++ chunk.take v =
      greedyTokensOf backend model settings p (start + v) := by
    rw [hvisible, ← take_greedyTokens (le_add_right start v), take_append_drop]
  refine ⟨start + v, by omega, by omega, ?_, fun i hi him => ?_, fun hm => ?_⟩
  · rw [hfull, hvisible, hlen]
    congr 3
    exact propext (by omega)
  · obtain ⟨j, rfl⟩ := Nat.exists_eq_add_of_le hi
    exact hbefore j _ (by omega) (hget j (by omega))
  · obtain ⟨token, hstop, htoken⟩ := hafter (by omega)
    rw [hget (v - 1) (by omega)] at htoken
    rw [hstop, ← htoken]
    congr 2
    omega

/-- The loop variables after `k` passes, when the last flush was after `start` of them. -/
structure AtPass (backend : Backend F Rng) (model : DragonModel State F)
    (settings : GenerationSettings F) (promptTokens : List ℤ) (stopOnToken : Option ℤ)
    (chunkTokens : ℕ) (p : State × List F) (start k : ℕ) (s : ChunkLoop State F) : Prop where
  dvd : chunkTokens ∣ start
  le : start ≤ k
  lt : k < start + chunkTokens
  within : ∀ m, settings.maxNewTokens = some m → k ≤ m
  no_stop : ∀ i < start, ¬MidChunkStop backend model settings stopOnToken chunkTokens p i
  fullTokens : s.fullTokens = promptTokens ++ greedyTokensOf backend model settings p start
  position :
    (s.state, s.lastLogits) = greedyState backend model settings.temperature settings.strategy p k
  generated : s.generated = k
  pending : s.pending = (greedyTokensOf backend model settings p k).drop start
  chunks : s.chunks.flatten = greedyTokensOf backend model settings p start

/-- The result after the loop is the greedy sequence cut after a stop token inside a chunk. -/
def FinishedAt (backend : Backend F Rng) (model : DragonModel State F)
    (settings : GenerationSettings F) (promptTokens : List ℤ) (stopOnToken : Option ℤ)
    (chunkTokens : ℕ) (p : State × List F) (n : ℕ) (s : ChunkLoop State F) : Prop :=
  Cut settings.maxNewTokens (MidChunkStop backend model settings stopOnToken chunkTokens p) n ∧
    (finishChunked stopOnToken s).1 = promptTokens ++ greedyTokensOf backend model settings p n ∧
    (finishChunked stopOnToken s).2.flatten = greedyTokensOf backend model settings p n

variable {k : ℕ} {s : ChunkLoop State F}

/-- A number inside a chunk is not a multiple of the chunk size. -/
theorem not_dvd_of_lt_of_lt {c : ℕ} (hdvd : c ∣ start) (hlt : start < n) (hn : n < start + c) :
    ¬c ∣ n := by
  intro h
  have := le_of_dvd (by omega) ((dvd_sub_iff_left hlt.le hdvd).2 h)
  omega

namespace AtPass

section

variable (h : AtPass backend model settings promptTokens stopOnToken chunkTokens p start k s)
include h

/-- The greedy tokens shown by a flush end the loop's result when something is hidden. -/
theorem cut_of_hidden {m : ℕ} (hm : start < m) (hmn : m < n) (hn : n ≤ start + chunkTokens)
    (hwithin : ∀ b, settings.maxNewTokens = some b → n ≤ b)
    (hbefore : ∀ i, start ≤ i → i + 1 < m → stopOnToken ≠ some (greedyTokenOf backend model settings
      p i)) (hstop : stopOnToken = some (greedyTokenOf backend model settings p (m - 1))) :
    Cut settings.maxNewTokens (MidChunkStop backend model settings stopOnToken chunkTokens p) m where
  le b hb := hmn.le.trans (hwithin b hb)
  not_before i hi := by
    rcases lt_or_ge i start with hlt | hge
    · exact h.no_stop i hlt
    · exact fun hmid => hbefore i hge hi hmid.1
  ends := by
    have hpred : m - 1 + 1 = m := by omega
    exact .inr ⟨m - 1, hpred.symm, hstop,
      hpred.symm ▸ not_dvd_of_lt_of_lt h.dvd hm (by omega)⟩

/-- The pending tokens with the next one. -/
theorem pending_succ :
    s.pending ++ [greedyNext backend settings.temperature s.lastLogits] =
      (greedyTokensOf backend model settings p (k + 1)).drop start := by
  have hlast : s.lastLogits =
      (greedyState backend model settings.temperature settings.strategy p k).2 :=
    congrArg Prod.snd h.position
  rw [greedyTokensOf, greedyTokens_succ, drop_append_of_le_length
    (by rw [length_greedyTokens]; exact h.le), h.pending, hlast]
  rfl

theorem position_succ :
    greedyStep backend model settings.temperature settings.strategy (s.state, s.lastLogits) =
      greedyState backend model settings.temperature settings.strategy p (k + 1) := by
  rw [h.position, greedyState_succ]

theorem flatten_append_drop {m : ℕ} (hm : start ≤ m) :
    (s.chunks ++ [(greedyTokensOf backend model settings p m).drop start]).flatten =
      greedyTokensOf backend model settings p m := by
  rw [flatten_append, h.chunks, flatten_singleton, ← take_greedyTokens hm, take_append_drop]

/-- A pass within the budget goes on to the next pass or leaves with the final result. -/
theorem pass (hdevice : chunkTokens ≤ deviceBufferTokens)
    (hbudget : hasBudget settings.maxNewTokens k = true) :
    (∃ start' s', generateTokensChunkedPass backend model settings chunkTokens deviceBufferTokens
        stopOnToken s = .go s' ∧
      AtPass backend model settings promptTokens stopOnToken chunkTokens p start' (k + 1) s') ∨
    ∃ n s', generateTokensChunkedPass backend model settings chunkTokens deviceBufferTokens
        stopOnToken s = .leave s' ∧
      FinishedAt backend model settings promptTokens stopOnToken chunkTokens p n s' := by
  have hle := h.le
  have hlt := h.lt
  have hwithin : ∀ b, settings.maxNewTokens = some b → k + 1 ≤ b := fun b hb => by
    rw [hasBudget, hb] at hbudget
    exact succ_le_of_lt (by simpa using hbudget)
  have hpending := h.pending_succ
  have hposition := h.position_succ
  have hlen : (s.pending ++ [greedyNext backend settings.temperature s.lastLogits]).length =
      k + 1 - start := by
    rw [hpending, length_drop, length_greedyTokens]
  rw [greedyStep] at hposition
  simp only [generateTokensChunkedPass, h.generated, hbudget, if_true]
  rw [greedyNext] at hpending hlen hposition
  rw [hlen]
  by_cases hfull : k + 1 = start + chunkTokens
  · obtain ⟨m, hm, hmk, hflush, hbefore, hstop⟩ := flush_greedyTokens backend model settings
      promptTokens stopOnToken p (show start < k + 1 by omega) s.chunks
    rw [if_pos (by omega), hpending, h.fullTokens, hflush]
    rcases lt_or_ge m (k + 1) with hlt' | hge
    · simp only [hlt', decide_true, if_true]
      refine .inr ⟨m, _, rfl, h.cut_of_hidden hm hlt' hfull.le hwithin hbefore (hstop hlt'), rfl, ?_⟩
      exact h.flatten_append_drop hm.le
    · obtain rfl : m = k + 1 := by omega
      simp only [lt_self_iff_false, decide_false, Bool.false_eq_true, if_false]
      have hdvd : chunkTokens ∣ k + 1 := hfull ▸ dvd_add h.dvd (dvd_refl chunkTokens)
      refine .inl ⟨k + 1, _, rfl, hdvd, le_rfl, by omega, hwithin, fun i hi => ?_, rfl, hposition,
        rfl, ?_, h.flatten_append_drop hm.le⟩
      · rcases lt_or_ge i start with hlt | hge
        · exact h.no_stop i hlt
        · rintro ⟨hi', hndvd⟩
          obtain rfl | hlt' := eq_or_lt_of_le (le_of_lt_succ hi)
          · exact hndvd hdvd
          · exact hbefore i hge (by omega) hi'
      · exact (drop_eq_nil_of_le (length_greedyTokens ..).le).symm
  · rw [if_neg (by omega)]
    exact .inl ⟨start, _, rfl, h.dvd, by omega, by omega, hwithin, h.no_stop, h.fullTokens, hposition,
      rfl, hpending, h.chunks⟩

/-- Without a budget left, the flush after the loop shows the rest. -/
theorem finish (hbudget : hasBudget settings.maxNewTokens k = false) :
    ∃ n, FinishedAt backend model settings promptTokens stopOnToken chunkTokens p n s := by
  have hlt := h.lt
  have hbound : settings.maxNewTokens = some k := (hasBudget_eq_false_iff h.within).1 hbudget
  rcases eq_or_lt_of_le h.le with rfl | hstart
  · have hnil : s.pending = [] := by
      rw [h.pending, drop_eq_nil_of_le (length_greedyTokens ..).le]
    refine ⟨start, ⟨h.within, fun i hi => h.no_stop i (by omega), .inl hbound⟩, ?_, ?_⟩
    · simpa [finishChunked, flushPendingTokenTensors, hnil] using h.fullTokens
    · simpa [finishChunked, flushPendingTokenTensors, hnil] using h.chunks
  · obtain ⟨m, hm, hmk, hflush, hbefore, hstop⟩ := flush_greedyTokens backend model settings
      promptTokens stopOnToken p hstart s.chunks
    have hfinish : finishChunked stopOnToken s =
        (promptTokens ++ greedyTokensOf backend model settings p m,
          s.chunks ++ [(greedyTokensOf backend model settings p m).drop start]) := by
      rw [finishChunked, h.pending, h.fullTokens, hflush]
    refine ⟨m, ?_, by rw [hfinish], by rw [hfinish]; exact h.flatten_append_drop hm.le⟩
    rcases eq_or_lt_of_le hmk with rfl | hlt'
    · refine ⟨h.within, fun i hi => ?_, .inl hbound⟩
      rcases lt_or_ge i start with hi' | hge
      · exact h.no_stop i hi'
      · exact fun hmid => hbefore i hge hi hmid.1
    · exact h.cut_of_hidden hm hlt' hlt.le h.within hbefore (hstop hlt')

end

end AtPass

end Loop

/-! ## What `generate_tokens_chunked` returns -/

section Returns

variable {backend : Backend F Rng} {model : DragonModel State F} {settings : GenerationSettings F}
  {promptTokens : List ℤ} {chunkTokens deviceBufferTokens : ℕ} {stopOnToken : Option ℤ}

/-- The loop starts after zero passes. -/
theorem atPass_zero {state : State} {last : List F} (hc : 0 < chunkTokens) :
    AtPass backend model settings promptTokens stopOnToken chunkTokens
      (greedyStart model settings.strategy state last) 0 0
      ⟨promptTokens, trimToWindow model settings.strategy state, last, 0, [], []⟩ where
  dvd := dvd_zero _
  le := le_rfl
  lt := by omega
  within m _ := zero_le m
  no_stop i hi := absurd hi (not_lt_zero i)
  fullTokens := by simp [greedyTokens]
  position := rfl
  generated := rfl
  pending := by simp [greedyTokens]
  chunks := by simp [greedyTokens]

variable {p : State × List F}

/-- The loop of the chunked path ends at the cut. -/
theorem chunkLoop_finished {s t : ChunkLoop State F}
    (hstart : AtPass backend model settings promptTokens stopOnToken chunkTokens p 0 0 s)
    (hdevice : chunkTokens ≤ deviceBufferTokens)
    (h : Loop.Returns (generateTokensChunkedPass backend model settings chunkTokens
      deviceBufferTokens stopOnToken) s t) :
    ∃ n, FinishedAt backend model settings promptTokens stopOnToken chunkTokens p n t := by
  obtain ⟨u, ⟨start, k, hu⟩, hleave⟩ := h.invariant
    (I := fun u => ∃ start k,
      AtPass backend model settings promptTokens stopOnToken chunkTokens p start k u)
    ⟨0, 0, hstart⟩ (by
      rintro u v ⟨start, k, hu⟩ hgo
      cases hbudget : hasBudget settings.maxNewTokens k with
      | false => simp [generateTokensChunkedPass, hu.generated, hbudget] at hgo
      | true =>
        rcases hu.pass hdevice hbudget with ⟨start', s', hpass, hs'⟩ | ⟨n, s', hpass, -⟩
        · obtain rfl := Pass.go.inj (hpass.symm.trans hgo)
          exact ⟨start', k + 1, hs'⟩
        · cases hpass.symm.trans hgo)
  cases hbudget : hasBudget settings.maxNewTokens k with
  | false =>
    obtain rfl : u = t := by
      simpa [generateTokensChunkedPass, hu.generated, hbudget] using hleave
    exact hu.finish hbudget
  | true =>
    rcases hu.pass hdevice hbudget with ⟨start', s', hpass, -⟩ | ⟨n, s', hpass, hfinished⟩
    · cases hpass.symm.trans hleave
    · obtain rfl := Pass.leave.inj (hpass.symm.trans hleave)
      exact ⟨n, hfinished⟩

variable {n : ℕ}

/-- When the cut exists, the loop leaves at most one chunk after it. -/
theorem chunkLoop_returns {s : ChunkLoop State F}
    (hstart : AtPass backend model settings promptTokens stopOnToken chunkTokens p 0 0 s)
    (hdevice : chunkTokens ≤ deviceBufferTokens)
    (hcut : Cut settings.maxNewTokens (MidChunkStop backend model settings stopOnToken chunkTokens
      p) n) :
    ∃ t, Loop.Returns (generateTokensChunkedPass backend model settings chunkTokens
      deviceBufferTokens stopOnToken) s t := by
  refine Loop.exists_returns (I := fun u => ∃ start k,
    AtPass backend model settings promptTokens stopOnToken chunkTokens p start k u)
    (fun u => n + chunkTokens - u.generated) ⟨0, 0, hstart⟩ ?_
  rintro u v ⟨start, k, hu⟩ hgo
  have hk : k < n + chunkTokens := by
    have hlt := hu.lt
    rcases hcut.ends with hbound | ⟨i, rfl, hmid⟩
    · have := hu.within n hbound
      have := hu.le
      omega
    · have : ¬i < start := fun hi => hu.no_stop i hi hmid
      omega
  cases hbudget : hasBudget settings.maxNewTokens k with
  | false => simp [generateTokensChunkedPass, hu.generated, hbudget] at hgo
  | true =>
    rcases hu.pass hdevice hbudget with ⟨start', s', hpass, hs'⟩ | ⟨n, s', hpass, -⟩
    · obtain rfl := Pass.go.inj (hpass.symm.trans hgo)
      refine ⟨⟨start', k + 1, hs'⟩, ?_⟩
      simp only [hs'.generated, hu.generated]
      omega
    · cases hpass.symm.trans hgo

variable {state : State} {last : List F}

variable {result : Except String (List ℤ × List (List ℤ))}

theorem chunkedReturns_of_prefill_error (hgreedy : settings.topK = some 1) {e : String}
    (h : prefillState model promptTokens = .error e) :
    GenerateTokensChunkedReturns backend model promptTokens settings chunkTokens deviceBufferTokens
      stopOnToken result ↔ result = .error e := by
  simp only [GenerateTokensChunkedReturns, generateTokensChunked, hgreedy, ne_eq, not_true_eq_false,
    if_false, h, some.injEq, exists_const]
  exact eq_comm

/-- What the chunked path returns is the greedy sequence cut after a stop token inside a chunk, and
the pieces that the callback gets are the generated tokens. -/
theorem cut_of_chunkedReturns (hprefill : prefillState model promptTokens = .ok (state, last))
    (hgreedy : settings.topK = some 1)
    (h : GenerateTokensChunkedReturns backend model promptTokens settings chunkTokens
      deviceBufferTokens stopOnToken result) :
    ∃ n chunks, Cut settings.maxNewTokens (MidChunkStop backend model settings
        (stopOnToken.or settings.stopOnToken) (max chunkTokens 1)
        (greedyStart model settings.strategy state last)) n ∧
      result = .ok (promptTokens ++ greedyTokensOf backend model settings
        (greedyStart model settings.strategy state last) n, chunks) ∧
      chunks.flatten = greedyTokensOf backend model settings
        (greedyStart model settings.strategy state last) n := by
  obtain ⟨fuel, hrun⟩ := h
  simp only [generateTokensChunked, hgreedy, ne_eq, not_true_eq_false, if_false, hprefill] at hrun
  obtain ⟨t, ht, rfl⟩ := map_eq_some_iff.1 hrun
  obtain ⟨n, hcut, htokens, hchunks⟩ :=
    chunkLoop_finished (atPass_zero (by omega)) (le_max_right _ _) ⟨fuel, ht⟩
  exact ⟨n, _, hcut, congrArg Except.ok (Prod.ext htokens rfl), hchunks⟩

variable (deviceBufferTokens) in
theorem chunkedReturns_of_cut (hprefill : prefillState model promptTokens = .ok (state, last))
    (hgreedy : settings.topK = some 1)
    (hcut : Cut settings.maxNewTokens (MidChunkStop backend model settings
      (stopOnToken.or settings.stopOnToken) (max chunkTokens 1)
      (greedyStart model settings.strategy state last)) n) :
    ∃ chunks, GenerateTokensChunkedReturns backend model promptTokens settings chunkTokens
      deviceBufferTokens stopOnToken (.ok (promptTokens ++ greedyTokensOf backend model settings
        (greedyStart model settings.strategy state last) n, chunks)) := by
  have hdevice : max chunkTokens 1 ≤ max deviceBufferTokens (max chunkTokens 1) := le_max_right _ _
  obtain ⟨t, fuel, ht⟩ := chunkLoop_returns
    (atPass_zero (by omega) : AtPass backend model settings promptTokens _ _ _ 0 0 _) hdevice hcut
  have hreturns : GenerateTokensChunkedReturns backend model promptTokens settings chunkTokens
      deviceBufferTokens stopOnToken
      (.ok (finishChunked (stopOnToken.or settings.stopOnToken) t)) := by
    refine ⟨fuel, ?_⟩
    simp only [generateTokensChunked, hgreedy, ne_eq, not_true_eq_false, if_false, hprefill, ht,
      map_some]
  obtain ⟨n', chunks, hcut', hresult, -⟩ := cut_of_chunkedReturns hprefill hgreedy hreturns
  obtain rfl := hcut.unique hcut'
  exact ⟨chunks, hresult ▸ hreturns⟩

/-! ## Agreement with plain generation -/

/-- Plain greedy generation under another stop token. -/
theorem generateTokensReturns_with_stop (hprefill : prefillState model promptTokens = .ok (state, last))
    (hgreedy : settings.topK = some 1) {result : Except String (List ℤ)} :
    GenerateTokensReturns backend model promptTokens { settings with stopOnToken } result ↔
      ∃ n, Cut settings.maxNewTokens (fun k => stopOnToken =
          some (greedyTokenOf backend model settings
            (greedyStart model settings.strategy state last) k)) n ∧
        result = .ok (promptTokens ++ greedyTokensOf backend model settings
          (greedyStart model settings.strategy state last) n) :=
  generateTokensReturns_greedy hprefill hgreedy

/-- The first stop token of the greedy sequence does not fill a chunk, or it ends the budget. -/
def FirstStopNoticed (backend : Backend F Rng) (model : DragonModel State F)
    (settings : GenerationSettings F) (stopOnToken : Option ℤ) (chunkTokens : ℕ)
    (p : State × List F) : Prop :=
  ∀ k, stopOnToken = some (greedyTokenOf backend model settings p k) →
    (∀ i < k, stopOnToken ≠ some (greedyTokenOf backend model settings p i)) →
    chunkTokens ∣ k + 1 → ∃ m, settings.maxNewTokens = some m ∧ m ≤ k + 1

/-- When the first stop token is noticed, both paths are cut at the same place. -/
theorem FirstStopNoticed.cut_iff
    (h : FirstStopNoticed backend model settings stopOnToken chunkTokens p) :
    Cut settings.maxNewTokens
        (fun k => stopOnToken = some (greedyTokenOf backend model settings p k)) n ↔
      Cut settings.maxNewTokens
        (MidChunkStop backend model settings stopOnToken chunkTokens p) n := by
  constructor
  · intro hcut
    refine ⟨hcut.le, fun i hi hmid => hcut.not_before i hi hmid.1, ?_⟩
    rcases hcut.ends with hbound | ⟨i, rfl, hstop⟩
    · exact .inl hbound
    · by_cases hdvd : chunkTokens ∣ i + 1
      · obtain ⟨m, hm, hle⟩ := h i hstop (fun j hj => hcut.not_before j (by omega)) hdvd
        exact .inl (hm.trans (congrArg some (le_antisymm hle (hcut.le m hm))))
      · exact .inr ⟨i, rfl, hstop, hdvd⟩
  · intro hcut
    refine ⟨hcut.le, fun i hi hstop => ?_, ?_⟩
    · have hex : ∃ j, stopOnToken = some (greedyTokenOf backend model settings p j) := ⟨i, hstop⟩
      classical
      have hfirst := Nat.find_spec hex
      have hle : Nat.find hex ≤ i := Nat.find_min' hex hstop
      have hdvd : chunkTokens ∣ Nat.find hex + 1 := by
        by_contra hndvd
        exact hcut.not_before (Nat.find hex) (by omega) ⟨hfirst, hndvd⟩
      obtain ⟨m, hm, hle'⟩ := h (Nat.find hex) hfirst (fun j hj => Nat.find_min hex hj) hdvd
      have := hcut.le m hm
      omega
    · rcases hcut.ends with hbound | ⟨i, rfl, hmid⟩
      · exact .inl hbound
      · exact .inr ⟨i, rfl, hmid.1⟩

/-- The chunked path returns at most one result. -/
theorem chunkedReturns_unique (hgreedy : settings.topK = some 1)
    {result' : Except String (List ℤ × List (List ℤ))}
    (h : GenerateTokensChunkedReturns backend model promptTokens settings chunkTokens
      deviceBufferTokens stopOnToken result)
    (h' : GenerateTokensChunkedReturns backend model promptTokens settings chunkTokens
      deviceBufferTokens stopOnToken result') : result = result' := by
  cases hprefill : prefillState model promptTokens with
  | error e =>
    rw [chunkedReturns_of_prefill_error hgreedy hprefill] at h h'
    rw [h, h']
  | ok start =>
    obtain ⟨fuel, hrun⟩ := h
    obtain ⟨fuel', hrun'⟩ := h'
    simp only [generateTokensChunked, hgreedy, ne_eq, not_true_eq_false, if_false, hprefill] at hrun hrun'
    obtain ⟨t, ht, rfl⟩ := map_eq_some_iff.1 hrun
    obtain ⟨t', ht', rfl⟩ := map_eq_some_iff.1 hrun'
    rw [Loop.Returns.unique ⟨fuel, ht⟩ ⟨fuel', ht'⟩]

end Returns

/-! ## A model that counts -/

/-- Logits are integers, and the argmax is the first index of a largest one. -/
def exactBackend : Backend ℤ Unit where
  one := 1
  divScalar x y := x / y
  argmax row := row.findIdx fun x => row.all (· ≤ x)
  seedFromU64 _ := ()
  threadRng := ()
  sampleFromLogitsValues row _ rng := .ok (row.length, rng)

/-- The most likely token after `t` is `t + 1` modulo 4. -/
def countingModel : DragonModel ℕ ℤ where
  initState := 0
  position state := state
  trim state _ := state
  selectBatch state _ := state
  forwardWithStateImpl tokens _ state :=
    (tokens.map fun row => row.map fun t => (List.range 4).map fun i =>
      if (i : ℤ) = (t + 1) % 4 then 1 else 0, state + (tokens.headD []).length)
  summaryMemoryWriteTriggerTokenIds := none

/-- At most three greedy tokens, until token 1. -/
def countingSettings : GenerationSettings ℤ := ⟨some 3, 1, some 1, .infinite, some 1⟩

end BurnDragon.Generation
