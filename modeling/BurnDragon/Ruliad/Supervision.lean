import BurnDragon.Layout.Shares
import BurnDragon.Rust.Ascii
import BurnDragon.Rust.Machine

/-!
# Token supervision

The loss masks of `supervision.rs`. A scan over a window of tokens gives each target a weight; in the
mode that balances trace and answer it writes the weights of the answer's targets as negative numbers,
which `balanceTraceAnswerMass` turns into the answer's shares of the trace's mass.

* No weight of a mask is negative in the end (`ruliadTokenLossMask_nonneg`).
* The balanced answer weighs as much as the trace, up to one for each of its targets
  (`balanced_mass`).

Positions in a window, segments of an action and the sums of the weights do not leave the range of
their machine types.
-/

namespace BurnDragon.Ruliad

open Rust Layout List

def symbolicAnswerToken : ℕ := 264

def symbolicDocumentEndToken : ℕ := 265

inductive RuliadTokenSupervisionMode
  | fullDocument
  | answerWindow
  | answerCompletion
  | answerValues
  | traceAndAnswer
  | mixed
  deriving DecidableEq

structure RuliadTokenSupervisionConfig where
  mode : RuliadTokenSupervisionMode
  maskHighEntropySpans : Bool
  balanceTraceAnswerMass : Bool
  answerCloseMarkerStride : ℕ
  answerCloseMarkerWeight : ℤ
  answerSchemaTokenWeight : ℤ
  answerSchemaStartTokenWeight : ℤ
  answerValueTokenWeight : ℤ
  deriving DecidableEq

namespace RuliadTokenSupervisionConfig

def default : RuliadTokenSupervisionConfig where
  mode := .fullDocument
  maskHighEntropySpans := false
  balanceTraceAnswerMass := false
  answerCloseMarkerStride := 1
  answerCloseMarkerWeight := 1
  answerSchemaTokenWeight := 1
  answerSchemaStartTokenWeight := 1
  answerValueTokenWeight := 1

def usesAnswerTargetMask (supervision : RuliadTokenSupervisionConfig) : Bool :=
  match supervision.mode with
  | .answerCompletion | .answerValues | .traceAndAnswer | .mixed => true
  | .fullDocument | .answerWindow => false

def usesTraceAnswerTargetMask (supervision : RuliadTokenSupervisionConfig) : Bool :=
  supervision.mode = .traceAndAnswer

/-- Answer weights are written as negative numbers. -/
def tagsAnswers (supervision : RuliadTokenSupervisionConfig) : Bool :=
  supervision.balanceTraceAnswerMass && supervision.mode = .traceAndAnswer

end RuliadTokenSupervisionConfig

/-! ## Bytes -/

def tokenByte (token : ℕ) : Option UInt8 := if token ≤ 255 then some token.toUInt8 else none

def isAnswerValueByte (b : UInt8) : Bool :=
  isAsciiAlphanumeric b || b == byte '-' || b == byte '+' || b == byte '.'

def isAnswerSchemaByte (b : UInt8) : Bool :=
  isAsciiAlphanumeric b || b == byte '_' || b == byte '=' || b == byte ';' || b == byte ',' ||
    b == byte '|'

def isAnswerKeyStartByte (b : UInt8) : Bool := isAsciiAlphabetic b || b == byte '_'

/-- `semantic_proof_action_at`: a goal, a separator and the kind of a source begin at the position. -/
def semanticProofActionAt (window : List ℕ) (start : ℕ) : Bool :=
  let byteAt := fun index : ℕ => window[index]?.bind tokenByte
  let digits := ((window.drop (start + 1)).takeWhile fun token =>
    (tokenByte token).any isAsciiDigit).length
  let index := start + 1 + digits
  byteAt start = some (byte 'g') && digits ≠ 0 && byteAt index = some (byte '|') &&
    (byteAt (index + 1) = some (byte 'a') || byteAt (index + 1) = some (byte 'l')) &&
    byteAt (index + 2) = some (byte ':')

def semanticActionValuePosition : ℕ → ℕ → Bool
  | 0, offset => offset ≥ 1
  | 1, offset => offset ≥ 2
  | 2, _ => true
  | 3, _ => true
  | _ + 4, _ => false

/-! ## The scan -/

/-- The local variables of `answer_target_loss_mask`. -/
structure AnswerScan where
  inAnswer : Bool
  inCloseMarker : Bool
  inAnswerValue : Bool
  semanticAction : Bool
  semanticActionSegment : ℕ
  semanticActionSegmentOffset : ℕ
  answerHash : UInt64
  any : Bool
  schemaKeyStartPending : Bool
  deriving DecidableEq

def AnswerScan.initial : AnswerScan where
  inAnswer := false
  inCloseMarker := false
  inAnswerValue := false
  semanticAction := false
  semanticActionSegment := 0
  semanticActionSegmentOffset := 0
  answerHash := 0
  any := false
  schemaKeyStartPending := false

namespace AnswerScan

/-- The updates that an input token makes: it may open an answer and a value. -/
def readInput (window : List ℕ) (t input : ℕ) (scan : AnswerScan) : AnswerScan :=
  let scan := if input = symbolicAnswerToken ∨
      input = ':'.toNat ∧ t > 0 ∧ window[t - 1]? = some '!'.toNat then
    { scan with
      inAnswer := true
      inAnswerValue := false
      semanticAction := semanticProofActionAt window (t + 1)
      semanticActionSegment := 0
      semanticActionSegmentOffset := 0
      schemaKeyStartPending := true }
  else scan
  if scan.inAnswer && !scan.inCloseMarker && tokenByte input = some (byte '=') then
    { scan with inAnswerValue := true, schemaKeyStartPending := false }
  else scan

/-- The target begins the marker that closes a document. -/
def closeMarkerStart (window : List ℕ) (t target : ℕ) : Bool :=
  target = symbolicDocumentEndToken ||
    target = '['.toNat && window[t + 2]? = some '/'.toNat

/-- The target ends the marker that closes a document. -/
def closeMarkerEnd (scan : AnswerScan) (target : ℕ) : Bool :=
  target = symbolicDocumentEndToken || scan.inCloseMarker && target = ']'.toNat

def superviseCloseMarker (supervision : RuliadTokenSupervisionConfig) (scan : AnswerScan) : Bool :=
  supervision.answerCloseMarkerStride > 0 && (supervision.answerCloseMarkerStride = 1 ||
    scan.answerHash.toNat % supervision.answerCloseMarkerStride = 0)

/-- `clamp(1, 16)`. -/
def clampWeight (weight : ℤ) : ℤ := max 1 (min weight 16)

def valueTarget (scan : AnswerScan) (closeMarkerTarget : Bool) (target : ℕ) : Bool :=
  let semanticValueTarget := scan.semanticAction &&
    semanticActionValuePosition scan.semanticActionSegment scan.semanticActionSegmentOffset
  !closeMarkerTarget && (scan.inAnswerValue || semanticValueTarget) &&
    (tokenByte target).any isAnswerValueByte

def schemaTarget (scan : AnswerScan) (closeMarkerTarget : Bool) (target : ℕ) : Bool :=
  !closeMarkerTarget && !scan.valueTarget closeMarkerTarget target &&
    (tokenByte target).any isAnswerSchemaByte

def schemaStartTarget (scan : AnswerScan) (closeMarkerTarget : Bool) (target : ℕ) : Bool :=
  scan.schemaTarget closeMarkerTarget target && scan.schemaKeyStartPending &&
    (tokenByte target).any isAnswerKeyStartByte

/-- The weight of a target of an answer. -/
def targetWeight (supervision : RuliadTokenSupervisionConfig) (scan : AnswerScan)
    (closeMarkerTarget : Bool) (target : ℕ) : ℤ :=
  if supervision.mode = .answerValues ∧ ¬ scan.valueTarget closeMarkerTarget target then
    0
  else if closeMarkerTarget then
    clampWeight supervision.answerCloseMarkerWeight
  else if scan.schemaStartTarget closeMarkerTarget target then
    max (clampWeight supervision.answerSchemaStartTokenWeight)
      (clampWeight supervision.answerSchemaTokenWeight)
  else if scan.valueTarget closeMarkerTarget target then
    clampWeight supervision.answerValueTokenWeight
  else if scan.schemaTarget closeMarkerTarget target then
    clampWeight supervision.answerSchemaTokenWeight
  else
    1

/-- The updates that a supervised target makes. -/
def readTarget (scan : AnswerScan) (startsClose : Bool) (target : ℕ) : AnswerScan :=
  if startsClose then
    { scan with inCloseMarker := true }
  else if scan.inCloseMarker then
    scan
  else
    let startsSchema := scan.schemaStartTarget false target
    let targetByte := tokenByte target
    let scan := { scan with
      answerHash := scan.answerHash * 1099511628211 + (UInt64.ofNat target + 1) }
    let scan := if targetByte = some (byte ';') ∨ targetByte = some 10 ∨ targetByte = some 13 ∨
        targetByte = some (byte '|') then
      { scan with inAnswerValue := false, schemaKeyStartPending := true }
    else if startsSchema then
      { scan with schemaKeyStartPending := false }
    else scan
    if scan.semanticAction then
      if targetByte = some (byte '|') then
        { scan with
          semanticActionSegment := scan.semanticActionSegment + 1
          semanticActionSegmentOffset := 0 }
      else
        { scan with semanticActionSegmentOffset := scan.semanticActionSegmentOffset + 1 }
    else scan

/-- The branch for a target of an answer: the new variables and the weight, if one is written. -/
def superviseTarget (window : List ℕ) (supervision : RuliadTokenSupervisionConfig) (t target : ℕ)
    (scan : AnswerScan) : AnswerScan × Option ℤ :=
  let startsClose := closeMarkerStart window t target
  if startsClose && !superviseCloseMarker supervision scan then
    ({ scan with inAnswer := false, inCloseMarker := false, inAnswerValue := false }, none)
  else
    let closeMarkerTarget := startsClose || scan.inCloseMarker
    let weight := scan.targetWeight supervision closeMarkerTarget target
    let tagged := if supervision.tagsAnswers && decide (weight > 0) then -weight else weight
    let scan := { scan with any := scan.any || decide (tagged ≠ 0) }
    (scan.readTarget startsClose target, some tagged)

/-- One pass of the loop of `answer_target_loss_mask`. -/
def step (window : List ℕ) (supervision : RuliadTokenSupervisionConfig) (t input target : ℕ)
    (scan : AnswerScan) : AnswerScan × Option ℤ :=
  let scan := scan.readInput window t input
  let endsClose := scan.closeMarkerEnd target
  let (scan, weight) := if scan.inAnswer && decide (target ≠ symbolicAnswerToken) then
    scan.superviseTarget window supervision t target
  else (scan, none)
  let scan := if endsClose then
    { scan with
      inAnswer := false
      inCloseMarker := false
      inAnswerValue := false
      semanticAction := false
      semanticActionSegment := 0
      semanticActionSegmentOffset := 0
      schemaKeyStartPending := false }
  else scan
  let scan := if target = symbolicAnswerToken then
    { scan with
      inAnswer := true
      inCloseMarker := false
      inAnswerValue := false
      semanticAction := semanticProofActionAt window (t + 2)
      semanticActionSegment := 0
      semanticActionSegmentOffset := 0
      schemaKeyStartPending := true
      answerHash := 0 }
  else scan
  (scan, weight)

end AnswerScan

/-- The loop of `answer_target_loss_mask` over the positions from `t` on: the mask from there on, in
which a position that no weight is written to keeps the base weight, and whether any is not 0. -/
def answerLoop (window : List ℕ) (supervision : RuliadTokenSupervisionConfig) (baseWeight : ℤ) :
    ℕ → ℕ → AnswerScan → Run (Bool × List ℤ)
  | _, 0, scan => return (scan.any, [])
  | t, remaining + 1, scan => do
    let input ← index window t
    let target ← index window (t + 1)
    let (scan, weight) := scan.step window supervision t input target
    let (any, mask) ← answerLoop window supervision baseWeight (t + 1) remaining scan
    return (any, weight.getD baseWeight :: mask)

/-- `answer_target_loss_mask`. -/
def answerTargetLossMask (window : List ℕ) (mask : List ℤ)
    (supervision : RuliadTokenSupervisionConfig) (baseWeight : ℤ) : Run (Bool × List ℤ) :=
  answerLoop window supervision baseWeight 0 mask.length .initial

/-! ## High entropy -/

/-- Set the slots before the tokens from `start` to `stop` to 0. -/
def clearTargets (start stop : ℕ) (mask : List ℤ) : List ℤ :=
  mask.mapIdx fun i weight => if start ≤ i + 1 ∧ i + 1 < stop then 0 else weight

/-- The loop of `mask_high_entropy_targets` over the tokens from the given index on. -/
def maskSpans (index : ℕ) (tokens : List ℕ) (mask : List ℤ) : List ℤ :=
  match tokens with
  | [] => mask
  | token :: rest =>
    let hex := fun token => (tokenByte token).any isAsciiHexdigit
    if hex token then
      let stop := index + 1 + (rest.takeWhile hex).length
      maskSpans stop (rest.dropWhile hex)
        (if stop - index ≥ 8 then clearTargets index stop mask else mask)
    else
      maskSpans (index + 1) rest mask
  termination_by tokens.length
  decreasing_by
    · exact Nat.lt_succ_of_le (List.dropWhile_suffix _).length_le
    · exact Nat.lt_succ_self _

/-- `mask_high_entropy_targets`. -/
def maskHighEntropyTargets (window : List ℕ) (mask : List ℤ) : List ℤ := maskSpans 0 window mask

/-! ## Balancing -/

def i64Max : ℤ := 2 ^ 63 - 1

/-- The saturation of `i128`. -/
def saturate128 (x : ℤ) : ℤ := max (-2 ^ 127) (min x (2 ^ 127 - 1))

def traceMass (mask : List ℤ) : ℤ := (mask.filter (· > 0)).sum

/-- The weights of the answer's targets, without their tags. -/
def answerWeights (mask : List ℤ) : List ℤ := (mask.filter (· < 0)).map fun weight => saturate128 (-weight)

/-- The new weight of a target of the answer. -/
def balancedWeight (traceMass answerMass weight : ℤ) : ℤ :=
  let roleWeight := saturate128 (-weight)
  let balanced := if traceMass = 0 then
    roleWeight
  else
    max 1 ((saturate128 (saturate128 (roleWeight * traceMass) + answerMass.tdiv 2)).tdiv answerMass)
  if balanced < -2 ^ 63 ∨ i64Max < balanced then i64Max else balanced

/-- `balance_trace_answer_mass`. The mass of the answer that is divided by is not 0. -/
def balanceTraceAnswerMass (mask : List ℤ) : List ℤ :=
  let answerMass := (answerWeights mask).sum
  if answerMass = 0 then
    mask
  else
    mask.map fun weight => if weight < 0 then balancedWeight (traceMass mask) answerMass weight else weight

/-! ## The mask -/

/-- The mask that the mode of the supervision makes. -/
def modeLossMask (window : List ℕ) (mask : List ℤ) (supervision : RuliadTokenSupervisionConfig) :
    Run (Bool × List ℤ) :=
  if supervision.usesTraceAnswerTargetMask then
    answerTargetLossMask window mask supervision 1
  else if supervision.usesAnswerTargetMask then
    answerTargetLossMask window mask supervision 0
  else
    return (!mask.isEmpty, List.replicate mask.length 1)

/-- `ruliad_token_loss_mask` before the masses are balanced. -/
def unbalancedLossMask (window : List ℕ) (mask : List ℤ)
    (supervision : RuliadTokenSupervisionConfig) : Run (Bool × List ℤ) := do
  let (any, mask) ← modeLossMask window mask supervision
  if supervision.maskHighEntropySpans then
    let mask := maskHighEntropyTargets window mask
    return (mask.any (· ≠ 0), mask)
  else
    return (any, mask)

/-- `ruliad_token_loss_mask`: whether a target is supervised, and the mask. -/
def ruliadTokenLossMask (window : List ℕ) (mask : List ℤ)
    (supervision : RuliadTokenSupervisionConfig) : Run (Bool × List ℤ) :=
  if window.length < mask.length + 1 then
    return (false, List.replicate mask.length 0)
  else do
    let (any, mask) ← unbalancedLossMask window mask supervision
    if supervision.tagsAnswers then
      let mask := balanceTraceAnswerMass mask
      return (mask.any (· ≠ 0), mask)
    else
      return (any, mask)

/-! ## Weights of the scan -/

variable {window : List ℕ} {supervision : RuliadTokenSupervisionConfig}

namespace AnswerScan

variable {scan : AnswerScan} {t input target : ℕ} {closeMarkerTarget : Bool} {weight : ℤ}

theorem clampWeight_mem (weight : ℤ) : 1 ≤ clampWeight weight ∧ clampWeight weight ≤ 16 := by
  rw [clampWeight]
  omega

theorem targetWeight_mem (supervision : RuliadTokenSupervisionConfig) (scan : AnswerScan)
    (closeMarkerTarget : Bool) (target : ℕ) : 0 ≤ scan.targetWeight supervision closeMarkerTarget target ∧
    scan.targetWeight supervision closeMarkerTarget target ≤ 16 ∧
    (supervision.mode ≠ .answerValues →
      1 ≤ scan.targetWeight supervision closeMarkerTarget target) := by
  have hclamp := clampWeight_mem
  rw [targetWeight]
  split_ifs with hvalues
  · exact ⟨le_rfl, by decide, fun hmode => absurd hvalues.1 hmode⟩
  · have := hclamp supervision.answerCloseMarkerWeight
    omega
  · have := hclamp supervision.answerSchemaStartTokenWeight
    have := hclamp supervision.answerSchemaTokenWeight
    omega
  · have := hclamp supervision.answerValueTokenWeight
    omega
  · have := hclamp supervision.answerSchemaTokenWeight
    omega
  · omega

/-- The weights that the scan writes: tags of answers, or weights. -/
def Written (supervision : RuliadTokenSupervisionConfig) (weight : ℤ) : Prop :=
  if supervision.tagsAnswers then -16 ≤ weight ∧ weight ≤ -1 else 0 ≤ weight ∧ weight ≤ 16

theorem written_of_superviseTarget
    (h : (superviseTarget window supervision t target scan).2 = some weight) :
    Written supervision weight := by
  obtain ⟨hnonneg, hle, hpos⟩ := targetWeight_mem supervision scan
    (closeMarkerStart window t target || scan.inCloseMarker) target
  rw [superviseTarget] at h
  simp only at h
  split_ifs at h with hskip htag
  · obtain ⟨htags, hweight⟩ := Bool.and_eq_true_iff.1 htag
    have hone := of_decide_eq_true hweight
    rw [Written, if_pos htags, ← Option.some.inj h]
    omega
  · rw [Written, ← Option.some.inj h]
    split_ifs with htags
    · -- In the mode with tags every weight is positive.
      have hmode : supervision.mode = .traceAndAnswer :=
        of_decide_eq_true (Bool.and_eq_true_iff.1 htags).2
      have hone := hpos (by rw [hmode]; decide)
      exact absurd (Bool.and_eq_true_iff.2 ⟨htags, decide_eq_true hone⟩) htag
    · exact ⟨hnonneg, hle⟩

theorem written_of_step (h : (scan.step window supervision t input target).2 = some weight) :
    Written supervision weight := by
  rw [step] at h
  simp only at h
  split_ifs at h
  all_goals exact written_of_superviseTarget h

end AnswerScan

/-! ## Masks -/

variable {mask : List ℤ}

section Masks

/-- The loop stays within a window that is longer than the mask, and writes a weight or leaves the
base weight at each position. -/
theorem answerLoop_spec (supervision : RuliadTokenSupervisionConfig) (baseWeight : ℤ) (remaining : ℕ) {t : ℕ} (scan : AnswerScan)
    (h : t + remaining + 1 ≤ window.length) :
    ∃ any mask, answerLoop window supervision baseWeight t remaining scan = .ok (any, mask) ∧
      mask.length = remaining ∧
      ∀ weight ∈ mask, weight = baseWeight ∨ AnswerScan.Written supervision weight := by
  induction remaining generalizing t scan with
  | zero => exact ⟨scan.any, [], rfl, rfl, by simp⟩
  | succ remaining ih =>
    obtain ⟨any, mask, hrest, hlength, hmask⟩ := ih (t := t + 1)
      (scan.step window supervision t window[t] window[t + 1]).1 (by omega)
    refine ⟨any, (scan.step window supervision t window[t] window[t + 1]).2.getD baseWeight :: mask,
      ?_, by rw [length_cons, hlength], forall_mem_cons.2 ⟨?_, hmask⟩⟩
    · rw [answerLoop, index_of_lt (by omega : t < window.length),
        index_of_lt (by omega : t + 1 < window.length)]
      simp only [bind, Except.bind, hrest, pure, Except.pure]
    · cases hweight : (scan.step window supervision t window[t] window[t + 1]).2 with
      | none => exact .inl rfl
      | some weight => exact .inr (AnswerScan.written_of_step hweight)

theorem length_clearTargets (start stop : ℕ) (mask : List ℤ) :
    (clearTargets start stop mask).length = mask.length := length_mapIdx

theorem mem_clearTargets {start stop : ℕ} {weight : ℤ} (h : weight ∈ clearTargets start stop mask) :
    weight = 0 ∨ weight ∈ mask := by
  obtain ⟨i, hi, rfl⟩ := mem_mapIdx.1 h
  split_ifs
  · exact .inl rfl
  · exact .inr (getElem_mem hi)

/-- Masking spans sets some weights to 0. -/
theorem maskSpans_spec (index : ℕ) (tokens : List ℕ) (mask : List ℤ) :
    (maskSpans index tokens mask).length = mask.length ∧
      ∀ weight ∈ maskSpans index tokens mask, weight = 0 ∨ weight ∈ mask := by
  induction index, tokens, mask using maskSpans.induct with
  | case1 index mask =>
    rw [maskSpans]
    exact ⟨rfl, fun weight h => .inr h⟩
  | case2 index mask token rest hex htoken stop ih =>
    rw [maskSpans, if_pos htoken]
    refine ⟨ih.1.trans ?_, fun weight h => ?_⟩
    · split_ifs
      · exact length_clearTargets ..
      · rfl
    · rcases ih.2 weight h with h | h
      · exact .inl h
      · split_ifs at h
        · exact mem_clearTargets h
        · exact .inr h
  | case3 index mask token rest hex htoken ih =>
    rw [maskSpans, if_neg htoken]
    exact ih

/-- The weights before the balance. -/
def Unbalanced (supervision : RuliadTokenSupervisionConfig) (weight : ℤ) : Prop :=
  weight = 0 ∨ weight = 1 ∨ AnswerScan.Written supervision weight

theorem modeLossMask_spec (supervision : RuliadTokenSupervisionConfig)
    (h : mask.length + 1 ≤ window.length) :
    ∃ any made, modeLossMask window mask supervision = .ok (any, made) ∧
      made.length = mask.length ∧ ∀ weight ∈ made, Unbalanced supervision weight := by
  have hanswer : ∀ baseWeight, baseWeight = 0 ∨ baseWeight = 1 → ∃ any made,
      answerTargetLossMask window mask supervision baseWeight = .ok (any, made) ∧
      made.length = mask.length ∧ ∀ weight ∈ made, Unbalanced supervision weight := by
    intro baseWeight hbase
    obtain ⟨any, made, hmask, hlength, hwritten⟩ := answerLoop_spec supervision baseWeight
      mask.length .initial (by omega : 0 + mask.length + 1 ≤ window.length)
    refine ⟨any, made, hmask, hlength, fun weight hweight => ?_⟩
    rcases hwritten weight hweight with rfl | hwritten
    · exact hbase.imp_right .inl
    · exact .inr (.inr hwritten)
  rw [modeLossMask]
  split_ifs
  · exact hanswer 1 (.inr rfl)
  · exact hanswer 0 (.inl rfl)
  · exact ⟨_, _, rfl, length_replicate, fun weight hweight =>
      .inr (.inl (eq_of_mem_replicate hweight))⟩

/-- On a window that is longer than the mask, a mask of the same length is made. -/
theorem unbalancedLossMask_spec (supervision : RuliadTokenSupervisionConfig)
    (h : mask.length + 1 ≤ window.length) :
    ∃ any unbalanced, unbalancedLossMask window mask supervision = .ok (any, unbalanced) ∧
      unbalanced.length = mask.length ∧ ∀ weight ∈ unbalanced, Unbalanced supervision weight := by
  obtain ⟨any, made, hmade, hlength, hweights⟩ := modeLossMask_spec supervision h
  obtain ⟨hsame, hmem⟩ := maskSpans_spec 0 window made
  rw [unbalancedLossMask, hmade]
  simp only [bind, Except.bind]
  split_ifs
  · refine ⟨_, _, rfl, hsame.trans hlength, fun weight hweight => ?_⟩
    exact (hmem weight hweight).elim .inl (hweights weight)
  · exact ⟨_, _, rfl, hlength, hweights⟩

/-! ### Balancing -/

theorem one_le_saturate128 {weight : ℤ} (h : weight < 0) : 1 ≤ saturate128 (-weight) := by
  rw [saturate128]
  omega

theorem one_le_of_mem_answerWeights {weight : ℤ} (h : weight ∈ answerWeights mask) : 1 ≤ weight := by
  obtain ⟨tag, htag, rfl⟩ := mem_map.1 h
  exact one_le_saturate128 (of_decide_eq_true (mem_filter.1 htag).2)

/-- A balanced weight is at least 1. -/
theorem one_le_balancedWeight {traceMass answerMass weight : ℤ} (h : weight < 0) :
    1 ≤ balancedWeight traceMass answerMass weight := by
  have hrole := one_le_saturate128 h
  simp only [balancedWeight]
  split_ifs with htrace hrange hrange
  · rw [i64Max]
    omega
  · exact hrole
  · rw [i64Max]
    omega
  · exact le_max_left _ _

/-- Without answer mass there is no tag. -/
theorem nonneg_of_answerMass (h : (answerWeights mask).sum = 0) : ∀ weight ∈ mask, 0 ≤ weight := by
  intro weight hweight
  by_contra hneg
  have hmem : saturate128 (-weight) ∈ answerWeights mask :=
    mem_map_of_mem (mem_filter.2 ⟨hweight, decide_eq_true (not_le.1 hneg)⟩)
  have hpos : 0 < (answerWeights mask).sum :=
    sum_pos _ (fun x hx => one_le_of_mem_answerWeights hx) (ne_nil_of_mem hmem)
  omega

theorem length_balanceTraceAnswerMass (mask : List ℤ) :
    (balanceTraceAnswerMass mask).length = mask.length := by
  simp only [balanceTraceAnswerMass]
  split_ifs
  · rfl
  · exact length_map ..

/-- No tag is left, and the weights that are none stay. -/
theorem balanceTraceAnswerMass_nonneg : ∀ weight ∈ balanceTraceAnswerMass mask, 0 ≤ weight := by
  simp only [balanceTraceAnswerMass]
  split_ifs with hmass
  · exact nonneg_of_answerMass hmass
  · intro weight hweight
    obtain ⟨tag, -, rfl⟩ := mem_map.1 hweight
    split_ifs with htag
    · exact zero_le_one.trans (one_le_balancedWeight htag)
    · exact not_lt.1 htag

end Masks

/-- **No negative weight leaves**: a mask is always made, of the length of the one given, and all its
weights are at least 0. -/
theorem ruliadTokenLossMask_nonneg (window : List ℕ) (mask : List ℤ)
    (supervision : RuliadTokenSupervisionConfig) :
    ∃ any weights, ruliadTokenLossMask window mask supervision = .ok (any, weights) ∧
      weights.length = mask.length ∧ ∀ weight ∈ weights, 0 ≤ weight := by
  rw [ruliadTokenLossMask]
  split_ifs with hwindow htags
  · exact ⟨_, _, rfl, List.length_replicate, fun weight hweight =>
      (List.eq_of_mem_replicate hweight).ge⟩
  · obtain ⟨any, unbalanced, hmask, hlength, -⟩ := unbalancedLossMask_spec supervision
      (not_lt.1 hwindow)
    refine ⟨_, _, by rw [hmask]; rfl, (length_balanceTraceAnswerMass unbalanced).trans hlength, ?_⟩
    exact balanceTraceAnswerMass_nonneg
  · obtain ⟨any, unbalanced, hmask, hlength, hweights⟩ := unbalancedLossMask_spec supervision
      (not_lt.1 hwindow)
    refine ⟨any, unbalanced, by rw [hmask]; rfl, hlength, fun weight hweight => ?_⟩
    rcases hweights weight hweight with rfl | rfl | hwritten
    · exact le_rfl
    · exact zero_le_one
    · rw [AnswerScan.Written, if_neg htags] at hwritten
      exact hwritten.1

/-! ## The balance -/

/-- The sum of the weights at the positions where the tags pass the test. -/
def massWhere (test : ℤ → Bool) (tags weights : List ℤ) : ℤ :=
  (((tags.zip weights).filter fun pair => test pair.1).map (·.2)).sum

section Balance

theorem saturate128_of_mem {x : ℤ} (hlow : -2 ^ 127 ≤ x) (hhigh : x < 2 ^ 127) : saturate128 x = x := by
  rw [saturate128]
  omega

/-- A tag within the machine is balanced to its rounded share. -/
theorem balancedWeight_eq {traceMass answerMass weight : ℤ} (htrace : 0 < traceMass)
    (htraceMax : traceMass ≤ 2 ^ 60) (hweight : -16 ≤ weight) (htag : weight < 0)
    (hanswer : -weight ≤ answerMass) (hanswerMax : answerMass ≤ 2 ^ 64) :
    balancedWeight traceMass answerMass weight = roundedShare traceMass answerMass (-weight) := by
  have hrole : saturate128 (-weight) = -weight := saturate128_of_mem (by omega) (by omega)
  have hexact : 0 < -weight * traceMass := mul_pos (by omega) htrace
  have hexactMax : -weight * traceMass ≤ 16 * 2 ^ 60 :=
    mul_le_mul (by omega) htraceMax htrace.le (by norm_num)
  have hproduct : saturate128 (-weight * traceMass) = -weight * traceMass :=
    saturate128_of_mem (by omega) (by omega)
  have hround : saturate128 (-weight * traceMass + answerMass / 2) =
      -weight * traceMass + answerMass / 2 := saturate128_of_mem (by omega) (by omega)
  have hshare := roundedShare_le htrace.le (by omega : 0 < answerMass) hanswer
  have hone := one_le_roundedShare traceMass answerMass (-weight)
  simp only [balancedWeight, hrole, hproduct, Int.tdiv_eq_ediv_of_nonneg (by omega : 0 ≤ answerMass),
    hround, if_neg htrace.ne', Int.tdiv_eq_ediv_of_nonneg
      (by omega : 0 ≤ -weight * traceMass + answerMass / 2)]
  rw [roundedShare] at hshare hone
  rw [if_neg (by rw [i64Max]; omega), roundedShare]

/-- The masses of a mask whose tags are changed by `f`. -/
theorem massWhere_map {f : ℤ → ℤ} (mask : List ℤ) :
    massWhere (0 < ·) mask (mask.map fun weight => if weight < 0 then f weight else weight) =
      traceMass mask ∧
    massWhere (· < 0) mask (mask.map fun weight => if weight < 0 then f weight else weight) =
      ((mask.filter (· < 0)).map f).sum := by
  induction mask with
  | nil => exact ⟨rfl, rfl⟩
  | cons weight mask ih =>
    simp only [massWhere, traceMass, map_cons, zip_cons_cons, filter_cons] at ih ⊢
    rcases lt_trichotomy weight 0 with h | rfl | h
    · simp [h, h.not_gt, ih]
    · simp [ih]
    · simp [h, h.not_gt, ih]

theorem traceMass_le {n : ℕ} (hlength : mask.length ≤ n) (hweights : ∀ weight ∈ mask, weight ≤ 1) :
    traceMass mask ≤ n := by
  have hfilter : (mask.filter (· > 0)).sum ≤ (mask.filter (· > 0)).length • (1 : ℤ) :=
    sum_le_card_nsmul _ _ fun weight hweight => hweights weight (mem_filter.1 hweight).1
  have hle := length_filter_le (fun weight : ℤ => decide (weight > 0)) mask
  rw [nsmul_one] at hfilter
  rw [traceMass]
  exact hfilter.trans (by exact_mod_cast hle.trans hlength)

/-- The weights of tags, as they are added up. -/
theorem answerWeights_eq (hweights : ∀ weight ∈ mask, weight < 0 → -16 ≤ weight) :
    answerWeights mask = (mask.filter (· < 0)).map fun weight => -weight := by
  refine map_congr_left fun weight hweight => ?_
  obtain ⟨hmem, htag⟩ := mem_filter.1 hweight
  have hlow := hweights weight hmem (of_decide_eq_true htag)
  have := of_decide_eq_true htag
  exact saturate128_of_mem (by omega) (by omega)

theorem answerMass_le {n : ℕ} (hlength : mask.length ≤ n)
    (hweights : ∀ weight ∈ mask, weight < 0 → -16 ≤ weight) :
    (answerWeights mask).sum ≤ n * 16 := by
  have hsum : (answerWeights mask).sum ≤ (answerWeights mask).length • (16 : ℤ) := by
    refine sum_le_card_nsmul _ _ fun weight hweight => ?_
    rw [answerWeights_eq hweights] at hweight
    obtain ⟨tag, htag, rfl⟩ := mem_map.1 hweight
    obtain ⟨hmem, hneg⟩ := mem_filter.1 htag
    have := hweights tag hmem (of_decide_eq_true hneg)
    omega
  have hle : (answerWeights mask).length ≤ n := by
    rw [answerWeights, length_map]
    exact (length_filter_le _ _).trans hlength
  rw [nsmul_eq_mul] at hsum
  have : ((answerWeights mask).length : ℤ) ≤ n := by exact_mod_cast hle
  omega

end Balance

/-- **The balance**: trace weights stay, answer weights become at least 1, and the two masses differ
by at most one for each target of the answer. -/
theorem balanced_mass {window : List ℕ} {mask unbalanced : List ℤ}
    {supervision : RuliadTokenSupervisionConfig} {any : Bool}
    (h : unbalancedLossMask window mask supervision = .ok (any, unbalanced))
    (hwindow : mask.length + 1 ≤ window.length) (hmask : mask.length ≤ 2 ^ 60)
    (htrace : 0 < traceMass unbalanced) (hanswer : 0 < unbalanced.countP (· < 0)) :
    (balanceTraceAnswerMass unbalanced).length = unbalanced.length ∧
    (∀ (i : ℕ) (weight : ℤ), unbalanced[i]? = some weight → 0 ≤ weight →
      (balanceTraceAnswerMass unbalanced)[i]? = some weight) ∧
    (∀ (i : ℕ) (weight : ℤ), unbalanced[i]? = some weight → weight < 0 →
      ∃ balanced, (balanceTraceAnswerMass unbalanced)[i]? = some balanced ∧ 1 ≤ balanced) ∧
    |massWhere (0 < ·) unbalanced (balanceTraceAnswerMass unbalanced) -
      massWhere (· < 0) unbalanced (balanceTraceAnswerMass unbalanced)| ≤
      unbalanced.countP (· < 0) := by
  obtain ⟨any', unbalanced', hok, hlength, hweights⟩ := unbalancedLossMask_spec supervision hwindow
  obtain ⟨rfl, rfl⟩ := Prod.mk.inj (Except.ok.inj (h.symm.trans hok))
  -- There are tags, so the weights are tags or at most 1.
  obtain ⟨tag, htag, hneg⟩ := List.countP_pos_iff.1 hanswer
  have hbounds : ∀ weight ∈ unbalanced, -16 ≤ weight ∧ weight ≤ 1 := by
    have htags : supervision.tagsAnswers = true := by
      by_contra htags
      have hneg := of_decide_eq_true hneg
      rcases hweights tag htag with rfl | rfl | hwritten
      · omega
      · omega
      · rw [AnswerScan.Written, if_neg htags] at hwritten
        omega
    intro weight hweight
    rcases hweights weight hweight with rfl | rfl | hwritten
    · omega
    · omega
    · rw [AnswerScan.Written, if_pos htags] at hwritten
      omega
  have hlow : ∀ weight ∈ unbalanced, weight < 0 → -16 ≤ weight := fun weight hweight _ =>
    (hbounds weight hweight).1
  have htraceMax : traceMass unbalanced ≤ 2 ^ 60 := by
    have := traceMass_le (hlength.trans_le hmask) fun weight hweight => (hbounds weight hweight).2
    exact_mod_cast this
  have hanswerMax : (answerWeights unbalanced).sum ≤ 2 ^ 64 := by
    have := answerMass_le (hlength.trans_le hmask) hlow
    norm_num at this ⊢
    exact this
  set weights := answerWeights unbalanced with hset
  have hpos : ∀ weight ∈ weights, 0 < weight := fun weight hweight =>
    Int.lt_of_lt_of_le Int.zero_lt_one (one_le_of_mem_answerWeights hweight)
  have hne : weights ≠ [] := by
    rw [hset, answerWeights, ne_eq, List.map_eq_nil_iff]
    exact List.ne_nil_of_mem (List.mem_filter.2 ⟨htag, hneg⟩)
  have hbalanced : balanceTraceAnswerMass unbalanced = unbalanced.map fun weight =>
      if weight < 0 then balancedWeight (traceMass unbalanced) weights.sum weight else weight := by
    simp only [balanceTraceAnswerMass]
    rw [if_neg (List.sum_pos _ hpos hne).ne']
  have hshares : ((unbalanced.filter (· < 0)).map
      (balancedWeight (traceMass unbalanced) weights.sum)).sum =
      (weights.map (roundedShare (traceMass unbalanced) weights.sum)).sum := by
    rw [hset, answerWeights_eq hlow, List.map_map, ← answerWeights_eq hlow, ← hset]
    refine congrArg List.sum (List.map_congr_left fun weight hweight => ?_)
    obtain ⟨hmem, hneg⟩ := List.mem_filter.1 hweight
    have hmemWeights : -weight ∈ weights := by
      rw [hset, answerWeights_eq hlow]
      exact List.mem_map_of_mem hweight
    exact balancedWeight_eq htrace htraceMax (hbounds weight hmem).1 (of_decide_eq_true hneg)
      (List.single_le_sum (fun x hx => (hpos x hx).le) _ hmemWeights) hanswerMax
  refine ⟨length_balanceTraceAnswerMass unbalanced, fun i weight hi hnonneg => ?_,
    fun i weight hi hneg => ?_, ?_⟩
  · rw [hbalanced, List.getElem?_map, hi, Option.map_some, if_neg (not_lt.2 hnonneg)]
  · refine ⟨_, by rw [hbalanced, List.getElem?_map, hi, Option.map_some, if_pos hneg], ?_⟩
    exact one_le_balancedWeight hneg
  · obtain ⟨htraceSame, hanswerSame⟩ := massWhere_map unbalanced
      (f := balancedWeight (traceMass unbalanced) weights.sum)
    have hlengthWeights : weights.length = unbalanced.countP (· < 0) := by
      rw [hset, answerWeights, List.length_map, List.countP_eq_length_filter]
    rw [hbalanced, htraceSame, hanswerSame, hshares, abs_sub_comm, ← hlengthWeights]
    exact abs_sum_roundedShare_sub_le htrace hne hpos

/-- A trace of seven targets and an answer of four. -/
theorem balanced_mass_shortAnswer :
    |massWhere (0 < ·) [1, 1, 1, 1, 1, 1, 1, -1, -1, -1, -3]
        (balanceTraceAnswerMass [1, 1, 1, 1, 1, 1, 1, -1, -1, -1, -3]) -
      massWhere (· < 0) [1, 1, 1, 1, 1, 1, 1, -1, -1, -1, -3]
        (balanceTraceAnswerMass [1, 1, 1, 1, 1, 1, 1, -1, -1, -1, -3])| ≤ 4 := by
  have hmask : unbalancedLossMask ("trace !:ok=1".toList.map Char.toNat) (List.replicate 11 0)
      { RuliadTokenSupervisionConfig.default with
        mode := .traceAndAnswer
        balanceTraceAnswerMass := true
        answerValueTokenWeight := 3 } =
      .ok (true, [1, 1, 1, 1, 1, 1, 1, -1, -1, -1, -3]) := by rfl
  exact (balanced_mass hmask (by decide) (by decide) (by decide) (by decide)).2.2.2

end BurnDragon.Ruliad
