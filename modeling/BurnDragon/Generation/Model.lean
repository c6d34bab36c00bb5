import BurnDragon.Layout.RowMajor

/-!
# The language model as generation sees it

`generation.rs` decodes with a `DragonModel` and its recurrent `ModelState`. Neither is part of this
development: `DragonModel` lists the operations that decoding uses. A `[batch, time]` tensor of tokens
is a list of rows, a `[batch, time, vocab]` tensor of logits a list of rows of positions.

What decoding relies on is stated in `DragonModel.Lawful`. A state holds one recurrent state for each
batch row and one position for all of them; `selectBatch state [i]` is the state of row `i` on its
own.
-/

namespace BurnDragon.Generation

open Layout

/-! ## Summary events -/

/-- `summary_event_mask_from_tokens`. -/
def summaryEventMaskFromTokens (tokens : List ℤ) (triggerTokenIds : List ℕ) : List ℤ :=
  let mask := List.replicate tokens.length 0
  if tokens.length = 0 ∨ triggerTokenIds.length = 0 ∨ tokens.length < triggerTokenIds.length then mask
  else
    let trigger : List ℤ := triggerTokenIds.map Int.ofNat
    let triggerLen := trigger.length
    (List.range' (triggerLen - 1) (tokens.length - (triggerLen - 1))).foldl
      (fun mask stop =>
        if slice (stop + 1 - triggerLen) triggerLen tokens = trigger then mask.set stop 1 else mask)
      mask

/-- `summary_event_mask_from_flat_batch`. -/
def summaryEventMaskFromFlatBatch (inputs : List ℤ) (batchSize blockSize : ℕ)
    (triggerTokenIds : List ℕ) : List ℤ :=
  let mask := List.replicate inputs.length 0
  if batchSize = 0 ∨ blockSize = 0 ∨ triggerTokenIds.length = 0 then mask
  else
    (List.range batchSize).foldl
      (fun mask batchIdx =>
        let start := batchIdx * blockSize
        let batchMask :=
          summaryEventMaskFromTokens (slice start blockSize inputs) triggerTokenIds
        copyFromSlice start batchMask mask)
      mask

/-- `summary_event_mask_tensor`. -/
def summaryEventMaskTensor (inputs : List ℤ) (batchSize blockSize : ℕ)
    (triggerTokenIds : Option (List ℕ)) : Option (List (List ℤ)) :=
  triggerTokenIds.map fun triggerTokenIds =>
    ofData batchSize blockSize
      (summaryEventMaskFromFlatBatch inputs batchSize blockSize triggerTokenIds)

/-! ## The model -/

/-- What decoding uses of a model, its state and its logits. -/
structure DragonModel (State F : Type) where
  initState : State
  /-- `state.position` -/
  position : State → ℕ
  /-- `state.trim(window)` -/
  trim : State → ℕ → State
  /-- `state.select_batch(indices)` -/
  selectBatch : State → List ℕ → State
  /-- `forward_with_state_impl`: tokens and an optional summary event mask -/
  forwardWithStateImpl :
    List (List ℤ) → Option (List (List ℤ)) → State → List (List (List F)) × State
  summaryMemoryWriteTriggerTokenIds : Option (List ℕ)

namespace DragonModel

variable {State F : Type} (model : DragonModel State F)

def forwardWithState (tokens : List (List ℤ)) (state : State) : List (List (List F)) × State :=
  model.forwardWithStateImpl tokens none state

def forwardWithStateAndSummaryEventMask (tokens mask : List (List ℤ)) (state : State) :
    List (List (List F)) × State :=
  model.forwardWithStateImpl tokens (some mask) state

/-- The forward of whole rows with their summary mask, which every prefill does: `values` are the rows
of `input` one after the other. -/
def forwardMasked (values : List ℤ) (batch time : ℕ) (input : List (List ℤ)) (state : State) :
    List (List (List F)) × State :=
  match summaryEventMaskTensor values batch time model.summaryMemoryWriteTriggerTokenIds with
  | some mask => model.forwardWithStateAndSummaryEventMask input mask state
  | none => model.forwardWithState input state

end DragonModel

/-- What decoding uses of the tensor backend and of the random number generators. -/
structure Backend (F Rng : Type) where
  one : F
  divScalar : F → F → F
  argmax : List F → ℤ
  seedFromU64 : ℕ → Rng
  /-- the state of `thread_rng()` when generation starts -/
  threadRng : Rng
  /-- `sample_from_logits_values_with_rng`, which samples from the softmax in `f32` -/
  sampleFromLogitsValues : List F → Option ℕ → Rng → Except String (ℤ × Rng)

section Logits

variable {F : Type}

/-- The `time` of a `[batch, time, vocab]` tensor. -/
def timeDim (logits : List (List (List F))) : ℕ := (logits.headD []).length

/-- `logits.slice([0..batch, (time - 1)..time, 0..vocab]).reshape([batch, vocab])`. -/
def lastLogits (logits : List (List (List F))) : List (List F) :=
  logits.map fun row => row.getD (timeDim logits - 1) []

end Logits

/-! ## Settings -/

inductive ContextStrategy
  | infinite
  | sliding (window : ℕ)
  deriving DecidableEq, Repr

/-- The trimming that every decoding loop does after a forward. -/
def trimToWindow {State F : Type} (model : DragonModel State F) (strategy : ContextStrategy)
    (state : State) : State :=
  match strategy with
  | .infinite => state
  | .sliding window =>
    if window > 0 ∧ model.position state > window then model.trim state window else state

structure GenerationSettings (F : Type) where
  maxNewTokens : Option ℕ
  temperature : F
  topK : Option ℕ
  strategy : ContextStrategy
  stopOnToken : Option ℤ

/-- `max_new_tokens.is_none_or(|max| generated < max)`. -/
def hasBudget (maxNewTokens : Option ℕ) (generated : ℕ) : Bool :=
  maxNewTokens.all fun max => generated < max

end BurnDragon.Generation
