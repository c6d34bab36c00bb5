import BurnDragon.Generation.Model
import BurnDragon.Transition.Loop

/-!
# Plain generation

`generate_tokens` fills the recurrent state from the prompt, then samples one token a pass and feeds
it back, until the budget is used or the stop token comes out. It may run for ever when there is no
budget, so it is a relation between its arguments and its result (`GenerateTokensReturns`).

With `top_k = 1` a pass is a function of the state and the last logits (`Position.next`), so one
sequence of tokens, `greedyToken`, says what every greedy decoder should produce
(`generateTokensReturns_greedy`).
-/

namespace BurnDragon.Generation

open Layout Transition

variable {State F Rng : Type}

/-! ## The code -/

section Code

variable (backend : Backend F Rng) (model : DragonModel State F)

def prefillState (promptTokens : List ℤ) : Except String (State × List F) :=
  let promptLen := promptTokens.length
  if promptLen = 0 then .error "prompt must contain at least one token"
  else
    let promptTensor := ofData 1 promptLen promptTokens
    let (logits, state) :=
      model.forwardMasked promptTokens 1 promptLen promptTensor model.initState
    let time := timeDim logits
    if time ≠ promptLen then
      .error s!"prefill produced mismatched length: expected {promptLen}, got {time}"
    else .ok (state, (lastLogits logits).headD [])

/-- `sample_argmax_token`: the argmax of a `[vocab]` tensor is a tensor with one element. -/
def sampleArgmaxToken (logitsTemp : List F) : Except String ℤ :=
  let values := [backend.argmax logitsTemp]
  match values.head? with
  | some token => .ok token
  | none => .error "argmax output is empty"

/-- `sample_next_token_with_rng`. The generator is handed on. -/
def sampleNextTokenWithRng (state : State) (last : List F) (temperature : F) (topK : Option ℕ)
    (rng : Rng) : Except String (ℤ × List F × State × Rng) := do
  let logitsTemp := last.map (backend.divScalar · temperature)
  let (next, rng) ←
    if topK = some 1 then do
      let token ← sampleArgmaxToken backend logitsTemp
      pure (token, rng)
    else backend.sampleFromLogitsValues logitsTemp topK rng
  let (logits, state) := model.forwardWithState [[next]] state
  pure (next, (lastLogits logits).headD [], state, rng)

/-- The variables of the loop of `generate_tokens_with_optional_seed`. -/
structure TokenLoop (State F Rng : Type) where
  fullTokens : List ℤ
  state : State
  lastLogits : List F
  generated : ℕ
  rng : Rng

def generateTokensPass (settings : GenerationSettings F) (s : TokenLoop State F Rng) :
    Pass (TokenLoop State F Rng) (Except String (List ℤ)) :=
  if hasBudget settings.maxNewTokens s.generated then
    match sampleNextTokenWithRng backend model s.state s.lastLogits settings.temperature
        settings.topK s.rng with
    | .error e => .leave (.error e)
    | .ok (next, logits, state, rng) =>
      let fullTokens := s.fullTokens ++ [next]
      if settings.stopOnToken = some next then .leave (.ok fullTokens)
      else .go ⟨fullTokens, trimToWindow model settings.strategy state, logits, s.generated + 1, rng⟩
  else .leave (.ok s.fullTokens)

/-- `generate_tokens_with_optional_seed` with at most `fuel` passes of its loop. -/
def generateTokensWithOptionalSeed (fuel : ℕ) (promptTokens : List ℤ)
    (settings : GenerationSettings F) (seed : Option ℕ) : Option (Except String (List ℤ)) :=
  match prefillState model promptTokens with
  | .error e => some (.error e)
  | .ok (state, last) =>
    let rng := (seed.map backend.seedFromU64).getD backend.threadRng
    Loop.run (generateTokensPass backend model settings) fuel
      ⟨promptTokens, trimToWindow model settings.strategy state, last, 0, rng⟩

def generateTokens (fuel : ℕ) (promptTokens : List ℤ) (settings : GenerationSettings F) :
    Option (Except String (List ℤ)) :=
  generateTokensWithOptionalSeed backend model fuel promptTokens settings none

/-- `generate_tokens` returns `result`. -/
def GenerateTokensReturns (promptTokens : List ℤ) (settings : GenerationSettings F)
    (result : Except String (List ℤ)) : Prop :=
  ∃ fuel, generateTokens backend model fuel promptTokens settings = some result

end Code

/-! ## The greedy sequence -/

section Greedy

variable (backend : Backend F Rng) (model : DragonModel State F) (temperature : F)
  (strategy : ContextStrategy)

/-- The token that the argmax of the logits gives. -/
def greedyNext (last : List F) : ℤ := backend.argmax (last.map (backend.divScalar · temperature))

/-- State and last logits after one greedy token. -/
def greedyStep (p : State × List F) : State × List F :=
  let (logits, state) := model.forwardWithState [[greedyNext backend temperature p.2]] p.1
  (trimToWindow model strategy state, (lastLogits logits).headD [])

/-- Where greedy decoding starts: the prefilled state, trimmed. -/
def greedyStart (state : State) (last : List F) : State × List F :=
  (trimToWindow model strategy state, last)

/-- State and last logits after `k` greedy tokens. -/
def greedyState (p : State × List F) (k : ℕ) : State × List F :=
  (greedyStep backend model temperature strategy)^[k] p

/-- The `k`-th token of the greedy sequence, whatever stops it. -/
def greedyToken (p : State × List F) (k : ℕ) : ℤ :=
  greedyNext backend temperature (greedyState backend model temperature strategy p k).2

/-- The first `n` tokens of the greedy sequence. -/
def greedyTokens (p : State × List F) (n : ℕ) : List ℤ :=
  (List.range n).map (greedyToken backend model temperature strategy p)

variable {p : State × List F} {n : ℕ}

@[simp] theorem length_greedyTokens :
    (greedyTokens backend model temperature strategy p n).length = n := by
  simp [greedyTokens]

theorem greedyTokens_succ : greedyTokens backend model temperature strategy p (n + 1) =
    greedyTokens backend model temperature strategy p n ++
      [greedyToken backend model temperature strategy p n] := by
  simp [greedyTokens, List.range_succ]

theorem greedyState_succ : greedyState backend model temperature strategy p (n + 1) =
    greedyStep backend model temperature strategy
      (greedyState backend model temperature strategy p n) :=
  Function.iterate_succ_apply' ..

end Greedy

/-! ## What `generate_tokens` returns -/

section Returns

variable {backend : Backend F Rng} {model : DragonModel State F} {settings : GenerationSettings F}
  {promptTokens : List ℤ} {result : Except String (List ℤ)}

theorem generateTokensReturns_of_prefill_error {e : String}
    (h : prefillState model promptTokens = .error e) :
    GenerateTokensReturns backend model promptTokens settings result ↔ result = .error e := by
  simp only [GenerateTokensReturns, generateTokens, generateTokensWithOptionalSeed, h,
    Option.some.injEq, exists_const]
  exact eq_comm

theorem hasBudget_eq_false_iff {maxNewTokens : Option ℕ} {k : ℕ}
    (h : ∀ m, maxNewTokens = some m → k ≤ m) :
    hasBudget maxNewTokens k = false ↔ maxNewTokens = some k := by
  cases maxNewTokens with
  | none => simp [hasBudget]
  | some m =>
    have := h m rfl
    simp only [hasBudget, Option.all_some, decide_eq_false_iff_not, Option.some.injEq]
    omega

/-- The loop variables after `k` greedy passes. -/
def greedyLoop (backend : Backend F Rng) (model : DragonModel State F)
    (settings : GenerationSettings F) (promptTokens : List ℤ) (p : State × List F) (k : ℕ) :
    TokenLoop State F Rng where
  fullTokens :=
    promptTokens ++ greedyTokens backend model settings.temperature settings.strategy p k
  state := (greedyState backend model settings.temperature settings.strategy p k).1
  lastLogits := (greedyState backend model settings.temperature settings.strategy p k).2
  generated := k
  rng := backend.threadRng

/-- One greedy pass within the budget. -/
theorem generateTokensPass_greedyLoop (hgreedy : settings.topK = some 1) {p : State × List F}
    {k : ℕ} (hbudget : hasBudget settings.maxNewTokens k = true) :
    generateTokensPass backend model settings (greedyLoop backend model settings promptTokens p k) =
      if settings.stopOnToken =
          some (greedyToken backend model settings.temperature settings.strategy p k) then
        .leave (.ok (promptTokens ++
          greedyTokens backend model settings.temperature settings.strategy p (k + 1)))
      else .go (greedyLoop backend model settings promptTokens p (k + 1)) := by
  simp only [generateTokensPass, greedyLoop, hbudget, if_true, sampleNextTokenWithRng, hgreedy,
    sampleArgmaxToken, greedyTokens_succ, greedyState_succ, List.append_assoc]
  rfl

/-- **Greedy generation** returns the prompt and the greedy sequence, cut at the budget or just after
the first stop token. -/
theorem generateTokensReturns_greedy {state : State} {last : List F}
    (hprefill : prefillState model promptTokens = .ok (state, last))
    (hgreedy : settings.topK = some 1) :
    GenerateTokensReturns backend model promptTokens settings result ↔
      ∃ n, Cut settings.maxNewTokens
          (fun k => settings.stopOnToken = some (greedyToken backend model settings.temperature
            settings.strategy (greedyStart model settings.strategy state last) k)) n ∧
        result = .ok (promptTokens ++ greedyTokens backend model settings.temperature
          settings.strategy (greedyStart model settings.strategy state last) n) := by
  rw [← Loop.returns_iff_cut (generateTokensPass backend model settings) settings.maxNewTokens
    (fun k => settings.stopOnToken = some (greedyToken backend model settings.temperature
      settings.strategy (greedyStart model settings.strategy state last) k))
    (greedyLoop backend model settings promptTokens
      (greedyStart model settings.strategy state last))
    (fun k => .ok (promptTokens ++ greedyTokens backend model settings.temperature
      settings.strategy (greedyStart model settings.strategy state last) k)) (by
    intro k hle
    cases hbudget : hasBudget settings.maxNewTokens k with
    | false =>
      rw [if_pos ((hasBudget_eq_false_iff hle).1 hbudget)]
      simp [generateTokensPass, greedyLoop, hbudget]
    | true =>
      have hne : settings.maxNewTokens ≠ some k := fun h => by
        rw [← hasBudget_eq_false_iff hle, hbudget] at h
        cases h
      rw [if_neg hne, generateTokensPass_greedyLoop hgreedy hbudget])]
  simp only [GenerateTokensReturns, generateTokens, generateTokensWithOptionalSeed, hprefill,
    Loop.Returns, greedyLoop, greedyTokens, greedyState, greedyStart, List.range_zero,
    List.map_nil, List.append_nil, Function.iterate_zero, id_eq, Option.map_none, Option.getD_none]

end Returns

end BurnDragon.Generation
