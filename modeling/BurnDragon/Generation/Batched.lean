import BurnDragon.Generation.Serial

/-!
# Batched greedy generation

`generate_greedy_batch_ragged` and `generate_greedy_batch_equal_position` decode many prompts at one
shared recurrent position. The ragged path moves whole prompt segments while every active row is inside
its prompt. Otherwise it takes `device_buffer_tokens` steps, in which a row feeds its next prompt token
or its argmax, reads the buffer back, drops what comes after a stop token or a budget, and goes on with
the rows that are not finished.
-/

namespace BurnDragon.Generation

open Layout Transition

variable {State F Rng : Type}

/-! ## One buffer -/

/-- What a ragged flush accepts of one row, and whether the stop token is among it. A pair is a
buffered token with the mark of whether the model generated it. -/
def acceptGenerated (stopOnToken : Option ℤ) (remaining : ℕ) :
    List (Bool × ℤ) → ℕ → List ℤ × Bool
  | [], _ => ([], false)
  | (isGenerated, token) :: rest, accepted =>
    if !isGenerated || decide (accepted ≥ remaining) then
      acceptGenerated stopOnToken remaining rest accepted
    else if stopOnToken = some token then ([token], true)
    else
      let (tokens, stopped) := acceptGenerated stopOnToken remaining rest (accepted + 1)
      (token :: tokens, stopped)

/-- The tokens up to and with the stop token, and whether it is there. -/
def acceptUntilStop (stopOnToken : Option ℤ) : List ℤ → List ℤ × Bool
  | [] => ([], false)
  | token :: rest =>
    if stopOnToken = some token then ([token], true)
    else
      let (tokens, stopped) := acceptUntilStop stopOnToken rest
      (token :: tokens, stopped)

/-- The variables of the loop over the active rows after a flush. -/
structure FlushLoop where
  generated : List (List ℤ)
  survivingBatchRows : List ℕ
  survivingOriginalRows : List ℕ

/-- One row of a flush: `accept batchRow remaining` is what the row adds and whether it stopped. -/
def flushRow (maxNewTokens : List ℕ) (accept : ℕ → ℕ → List ℤ × Bool) (s : FlushLoop)
    (row : ℕ × ℕ) : FlushLoop :=
  let (originalRow, batchRow) := row
  let remaining := maxNewTokens.getD originalRow 0 - (s.generated.getD originalRow []).length
  let (tokens, stopped) := accept batchRow remaining
  let generated := s.generated.modify originalRow (· ++ tokens)
  if !stopped && decide ((generated.getD originalRow []).length < maxNewTokens.getD originalRow 0)
  then ⟨generated, s.survivingBatchRows ++ [batchRow], s.survivingOriginalRows ++ [originalRow]⟩
  else { s with generated }

def flushRows (maxNewTokens : List ℕ) (accept : ℕ → ℕ → List ℤ × Bool)
    (generated : List (List ℤ)) (activeRows : List ℕ) : FlushLoop :=
  activeRows.zipIdx.foldl (flushRow maxNewTokens accept) ⟨generated, [], []⟩

/-- `Tensor::cat(pending, 1).into_vec()` of `[rows, 1]` tensors, given as columns. -/
def catColumns (rows : ℕ) (pending : List (List ℤ)) : List ℤ :=
  (List.range rows).flatMap fun row => pending.map fun column => column.getD row 0

/-- The variables of an outer loop. -/
structure BatchLoop (State Last : Type) where
  generated : List (List ℤ)
  activeRows : List ℕ
  state : State
  lastLogits : Last

section Code

variable (backend : Backend F Rng) (model : DragonModel State F)

/-! ## Ragged prompts -/

/-- The segment up to the next end of an active prompt. -/
def prefillSegment (promptTokens : List (List ℤ)) (s : BatchLoop State (Option (List (List F)))) :
    BatchLoop State (Option (List (List F))) :=
  let position := model.position s.state
  let nextBoundary :=
    ((s.activeRows.map fun row => (promptTokens.getD row []).length).min?).getD 0
  let segmentLen := nextBoundary - position
  let activeCount := s.activeRows.length
  let values := s.activeRows.flatMap fun row => slice position segmentLen (promptTokens.getD row [])
  let input := ofData activeCount segmentLen values
  let (logits, state) := model.forwardMasked values activeCount segmentLen input s.state
  { s with state, lastLogits := some (lastLogits logits) }

/-- The variables of the buffering loop. Both `pending` and `generatedMasks` hold one column over the
active rows for each step. -/
structure Buffer (State F : Type) where
  state : State
  lastLogits : List (List F)
  pending : List (List ℤ)
  generatedMasks : List (List Bool)

/-- `is_prompt && token >= 0 && trigger_ids.contains(&(token as u32))`. -/
def stepSummaryBit (triggerIds : List ℕ) (isPrompt : Bool) (token : ℤ) : ℤ :=
  if isPrompt && decide (token ≥ 0) && triggerIds.contains (token.toNat % 2 ^ 32) then 1 else 0

/-- The active rows that are inside their prompt. -/
def promptMask (promptTokens : List (List ℤ)) (activeRows : List ℕ) (position : ℕ) : List Bool :=
  activeRows.map fun row => decide (position < (promptTokens.getD row []).length)

/-- The prompt tokens at a position, or zero. -/
def promptValues (promptTokens : List (List ℤ)) (activeRows : List ℕ) (position : ℕ) : List ℤ :=
  activeRows.map fun row => (promptTokens.getD row []).getD position 0

/-- `argmax.mask_where(prompt_mask, prompt)`. -/
def maskWhere (argmax : List ℤ) (mask : List Bool) (values : List ℤ) : List ℤ :=
  List.zipWith (fun arg prompt => if prompt.1 then prompt.2 else arg) argmax (mask.zip values)

def raggedStep (promptTokens : List (List ℤ)) (activeRows : List ℕ) (strategy : ContextStrategy)
    (b : Buffer State F) : Buffer State F :=
  let position := model.position b.state
  let promptMask := promptMask promptTokens activeRows position
  let promptValues := promptValues promptTokens activeRows position
  let argmax := b.lastLogits.map backend.argmax
  let nextTokens := maskWhere argmax promptMask promptValues
  let input := nextTokens.map fun token => [token]
  let (logits, state) :=
    match model.summaryMemoryWriteTriggerTokenIds with
    | some triggerIds =>
      let summaryMask := List.zipWith (stepSummaryBit triggerIds) promptMask promptValues
      model.forwardWithStateAndSummaryEventMask input (summaryMask.map fun bit => [bit]) b.state
    | none => model.forwardWithState input b.state
  ⟨trimToWindow model strategy state, lastLogits logits, b.pending ++ [nextTokens],
    b.generatedMasks ++ [promptMask.map fun isPrompt => !isPrompt]⟩

/-- One pass of the outer loop of `generate_greedy_batch_ragged`. -/
def raggedPass (promptTokens : List (List ℤ)) (maxNewTokens : List ℕ) (strategy : ContextStrategy)
    (stopOnToken : Option ℤ) (deviceBufferTokens : ℕ) (s : BatchLoop State (Option (List (List F)))) :
    Pass (BatchLoop State (Option (List (List F)))) (Except String (List (List ℤ))) :=
  if s.activeRows.isEmpty then .leave (.ok s.generated)
  else if s.activeRows.all fun row => model.position s.state < (promptTokens.getD row []).length then
    .go (prefillSegment model promptTokens s)
  else
    match s.lastLogits with
    | none => .leave (.error "ragged generation must prefill before decoding")
    | some last =>
      let activeCount := s.activeRows.length
      let buffer := (raggedStep backend model promptTokens s.activeRows strategy)^[deviceBufferTokens]
        ⟨s.state, last, [], []⟩
      let bufferedTokens := catColumns activeCount buffer.pending
      let accept := fun batchRow remaining =>
        let rowTokens := slice (batchRow * deviceBufferTokens) deviceBufferTokens bufferedTokens
        let rowMasks := buffer.generatedMasks.map fun column => column.getD batchRow false
        acceptGenerated stopOnToken remaining (rowMasks.zip rowTokens) 0
      let flushed := flushRows maxNewTokens accept s.generated s.activeRows
      if flushed.survivingBatchRows.isEmpty then .leave (.ok flushed.generated)
      else if flushed.survivingBatchRows.length < activeCount then
        .go ⟨flushed.generated, flushed.survivingOriginalRows,
          model.selectBatch buffer.state flushed.survivingBatchRows,
          some (flushed.survivingBatchRows.map fun row => buffer.lastLogits.getD row [])⟩
      else
        .go ⟨flushed.generated, flushed.survivingOriginalRows, buffer.state, some buffer.lastLogits⟩

/-- The rows with a budget. -/
def budgetedRows (maxNewTokens : List ℕ) : List ℕ :=
  maxNewTokens.zipIdx.filterMap fun (budget, row) => if budget > 0 then some row else none

/-- `generate_greedy_batch_ragged` with at most `fuel` passes of its outer loop. -/
def generateGreedyBatchRagged (fuel : ℕ) (promptTokens : List (List ℤ)) (maxNewTokens : List ℕ)
    (strategy : ContextStrategy) (stopOnToken : Option ℤ) (deviceBufferTokens : ℕ) :
    Option (Except String (List (List ℤ))) :=
  if promptTokens.length ≠ maxNewTokens.length then
    some (.error "batched greedy generation requires one token budget per prompt")
  else if promptTokens.isEmpty then some (.ok [])
  else if promptTokens.any List.isEmpty then
    some (.error "batched greedy generation requires non-empty prompts")
  else
    let generated := List.replicate promptTokens.length []
    let activeRows := budgetedRows maxNewTokens
    if activeRows.isEmpty then some (.ok generated)
    else
      Loop.run (raggedPass backend model promptTokens maxNewTokens strategy stopOnToken
        (max deviceBufferTokens 1)) fuel ⟨generated, activeRows, model.initState, none⟩

/-- `generate_greedy_batch_ragged` returns `result`. -/
def RaggedReturns (promptTokens : List (List ℤ)) (maxNewTokens : List ℕ)
    (strategy : ContextStrategy) (stopOnToken : Option ℤ) (deviceBufferTokens : ℕ)
    (result : Except String (List (List ℤ))) : Prop :=
  ∃ fuel, generateGreedyBatchRagged backend model fuel promptTokens maxNewTokens strategy stopOnToken
    deviceBufferTokens = some result

/-! ## Prompts of one length -/

def equalStep (strategy : ContextStrategy) (b : Buffer State F) : Buffer State F :=
  let nextTokens := b.lastLogits.map backend.argmax
  let (logits, state) := model.forwardWithState (nextTokens.map fun token => [token]) b.state
  ⟨trimToWindow model strategy state, lastLogits logits, b.pending ++ [nextTokens],
    b.generatedMasks⟩

/-- One pass of the outer loop of `generate_greedy_batch_equal_position`. -/
def equalPass (maxNewTokens : List ℕ) (strategy : ContextStrategy) (stopOnToken : Option ℤ)
    (deviceBufferTokens : ℕ) (s : BatchLoop State (List (List F))) :
    Pass (BatchLoop State (List (List F))) (Except String (List (List ℤ))) :=
  if s.activeRows.isEmpty then .leave (.ok s.generated)
  else
    let bufferedSteps := min (((s.activeRows.map fun row =>
      maxNewTokens.getD row 0 - (s.generated.getD row []).length).max?).getD 0) deviceBufferTokens
    if bufferedSteps = 0 then .leave (.ok s.generated)
    else
      let activeCount := s.activeRows.length
      let buffer := (equalStep backend model strategy)^[bufferedSteps] ⟨s.state, s.lastLogits, [], []⟩
      let bufferedTokens := catColumns activeCount buffer.pending
      let accept := fun batchRow remaining =>
        let rowTokens := slice (batchRow * bufferedSteps) bufferedSteps bufferedTokens
        acceptUntilStop stopOnToken (rowTokens.take remaining)
      let flushed := flushRows maxNewTokens accept s.generated s.activeRows
      if flushed.survivingBatchRows.isEmpty then .leave (.ok flushed.generated)
      else if flushed.survivingBatchRows.length < activeCount then
        .go ⟨flushed.generated, flushed.survivingOriginalRows,
          model.selectBatch buffer.state flushed.survivingBatchRows,
          flushed.survivingBatchRows.map fun row => buffer.lastLogits.getD row []⟩
      else
        .go ⟨flushed.generated, flushed.survivingOriginalRows, buffer.state, buffer.lastLogits⟩

/-- `generate_greedy_batch_equal_position` with at most `fuel` passes of its outer loop. -/
def generateGreedyBatchEqualPosition (fuel : ℕ) (promptTokens : List (List ℤ))
    (maxNewTokens : List ℕ) (strategy : ContextStrategy) (stopOnToken : Option ℤ)
    (deviceBufferTokens : ℕ) : Option (Except String (List (List ℤ))) :=
  if promptTokens.length ≠ maxNewTokens.length then
    some (.error "batched greedy generation requires one token budget per prompt")
  else if promptTokens.isEmpty then some (.ok [])
  else
    let promptLen := (promptTokens.headD []).length
    if promptLen = 0 ∨ promptTokens.any fun prompt => prompt.length ≠ promptLen then
      some (.error
        "batched greedy generation requires non-empty prompts with equal token lengths")
    else
      let generated := List.replicate promptTokens.length []
      let activeRows := budgetedRows maxNewTokens
      if activeRows.isEmpty then some (.ok generated)
      else
        let activePromptValues := activeRows.flatMap fun row => promptTokens.getD row []
        let activeCount := activeRows.length
        let promptTensor := ofData activeCount promptLen activePromptValues
        let (logits, state) :=
          model.forwardMasked activePromptValues activeCount promptLen promptTensor model.initState
        Loop.run (equalPass backend model maxNewTokens strategy stopOnToken (max deviceBufferTokens 1))
          fuel ⟨generated, activeRows, trimToWindow model strategy state, lastLogits logits⟩

/-- `generate_greedy_batch_equal_position` returns `result`. -/
def EqualPositionReturns (promptTokens : List (List ℤ)) (maxNewTokens : List ℕ)
    (strategy : ContextStrategy) (stopOnToken : Option ℤ) (deviceBufferTokens : ℕ)
    (result : Except String (List (List ℤ))) : Prop :=
  ∃ fuel, generateGreedyBatchEqualPosition backend model fuel promptTokens maxNewTokens strategy
    stopOnToken deviceBufferTokens = some result

end Code

end BurnDragon.Generation
