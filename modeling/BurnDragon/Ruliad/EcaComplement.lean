import BurnDragon.Ruliad.Family
import BurnDragon.Ruliad.Oracles

/-!
# The complement of a cellular automaton

Exchanging the two symbols in every cell turns the runs of a rule into the runs of its complement. The
exchange inverts the three bits of a neighbourhood, so it reads the lookup table of the rule backwards,
and `complement_rule` stores the inverted table in that order (`complementRule_bit`). The generator of
simulation specs writes down such a pair of runs.
-/

namespace BurnDragon.Ruliad.Eca

open Rust List

/-! ## Rules -/

theorem complementRule_lt : ∀ rule < 256, complementRule rule < 256 := by decide +kernel

/-- The table of the complement is the inverted table, read backwards. -/
theorem complementRule_bit : ∀ rule < 256, ∀ neighborhood < 8,
    (complementRule rule >>> neighborhood) &&& 1 = 1 - ((rule >>> (7 - neighborhood)) &&& 1) := by
  decide +kernel

/-- **The complement is an involution.** -/
theorem complementRule_complementRule : ∀ rule < 256, complementRule (complementRule rule) = rule := by
  decide +kernel

/-! ## Cells -/

section Cell

variable {rule i : ℕ} {state : List ℕ}

/-- The three bits around a cell, as the index into the table of a rule. -/
def neighborhood (state : List ℕ) (i : ℕ) : ℕ :=
  let width := state.length
  ((state.getD ((i + width - 1) % width) 0 &&& 1) <<< 2) ||| ((state.getD i 0 &&& 1) <<< 1) |||
    (state.getD ((i + 1) % width) 0 &&& 1)

theorem stepCell_eq (hi : i < state.length) :
    stepCell rule state i = .ok ((rule >>> neighborhood state i) &&& 1) := by
  have hpos : 0 < state.length := by omega
  have hindex : ∀ j < state.length, index state j = .ok (state.getD j 0) := fun j hj => by
    rw [index_of_lt hj, getD_eq_getElem?_getD, getElem?_eq_getElem hj, Option.getD_some]
  simp only [stepCell, remainder_of_pos hpos, hindex _ (Nat.mod_lt _ hpos), hindex _ hi, bind,
    Except.bind, neighborhood]
  rfl

theorem bit_lt (value : ℕ) : value &&& 1 < 2 := by
  rw [Nat.and_one_is_mod]
  omega

@[simp] theorem length_complementState : (complementState state).length = state.length := by
  simp [complementState]

/-- The complement inverts every cell. -/
theorem complementState_bit (hi : i < state.length) :
    (complementState state).getD i 0 &&& 1 = 1 - (state.getD i 0 &&& 1) := by
  have hbit := bit_lt state[i]
  simp only [complementState, getD_eq_getElem?_getD, getElem?_map,
    getElem?_eq_getElem hi, Option.map_some, Option.getD_some]
  rw [Nat.and_one_is_mod (1 - _), Nat.mod_eq_of_lt (by omega)]

/-- Inverting the three bits counts the table backwards. -/
theorem neighborhood_complementState (hi : i < state.length) :
    neighborhood (complementState state) i = 7 - neighborhood state i ∧ neighborhood state i < 8 := by
  have hpos : 0 < state.length := by omega
  have hinvert : ∀ left < 2, ∀ center < 2, ∀ right < 2,
      ((1 - left) <<< 2 ||| (1 - center) <<< 1 ||| (1 - right)) =
        7 - (left <<< 2 ||| center <<< 1 ||| right) ∧
      (left <<< 2 ||| center <<< 1 ||| right) < 8 := by decide
  simp only [neighborhood, length_complementState, complementState_bit (Nat.mod_lt _ hpos),
    complementState_bit hi]
  exact hinvert _ (bit_lt _) _ (bit_lt _) _ (bit_lt _)

end Cell

/-! ## Runs -/

section Run

variable {rule : ℕ}

/-- A state of bits. -/
def Binary (state : List ℕ) : Prop := ∀ value ∈ state, value < 2

theorem binary_complementState (state : List ℕ) : Binary (complementState state) := by
  intro value hvalue
  obtain ⟨_, -, rfl⟩ := mem_map.1 hvalue
  omega

/-- The next state, cell by cell. -/
theorem step_eq (rule : ℕ) (state : List ℕ) : step rule state =
    .ok ((List.range state.length).map fun i => (rule >>> neighborhood state i) &&& 1) := by
  unfold step
  split_ifs with hzero
  · simp [hzero]
  · exact mapM_eq_ok fun i hi => stepCell_eq (mem_range.1 hi)

/-- **One step.** Complementing the next state is the step of the complement. -/
theorem step_complement (hrule : rule < 256) (state : List ℕ) :
    step (complementRule rule) (complementState state) = (step rule state).map complementState := by
  rw [step_eq, step_eq, length_complementState, Except.map, complementState.eq_def (List.map _ _),
    map_map]
  refine congrArg Except.ok (map_congr_left fun i hi => ?_)
  obtain ⟨hbackwards, hlt⟩ := neighborhood_complementState (mem_range.1 hi)
  rw [hbackwards, complementRule_bit rule hrule _ (by omega),
    show 7 - (7 - neighborhood state i) = neighborhood state i by omega, Function.comp_apply,
    Nat.and_one_is_mod _, Nat.and_one_is_mod _, Nat.mod_mod]

theorem framesAfter_complement (hrule : rule < 256) (steps : ℕ) (frame : List ℕ) :
    framesAfter (complementRule rule) steps (complementState frame) =
      (framesAfter rule steps frame).map (·.map complementState) := by
  induction steps generalizing frame with
  | zero => rfl
  | succ steps ih =>
    obtain ⟨next, hnext⟩ := step_returns rule frame
    have hnext' : step (complementRule rule) (complementState frame) =
        .ok (complementState next) := by rw [step_complement hrule, hnext]; rfl
    rw [framesAfter, framesAfter, hnext, hnext']
    simp only [bind, Except.bind, ih]
    cases framesAfter rule steps next <;> rfl

/-- **Complement conjugation.** The complemented trace of a rule is the trace of its complement from
the complemented state. -/
theorem trace_complement (hrule : rule < 256) (initial : List ℕ) (steps : ℕ) :
    trace (complementRule rule) (complementState initial) steps =
      (trace rule initial steps).map (·.map complementState) := by
  rw [trace, trace, framesAfter_complement hrule]
  cases withCapacity 24 (saturatingAdd steps 1) with
  | error panic => rfl
  | ok => cases framesAfter rule steps initial <;> rfl

theorem binary_framesAfter {steps : ℕ} {frame : List ℕ} {frames : List (List ℕ)}
    (h : framesAfter rule steps frame = .ok frames) : ∀ state ∈ frames, Binary state := by
  induction steps generalizing frame frames with
  | zero =>
    obtain rfl : [] = frames := Except.ok.inj h
    simp
  | succ steps ih =>
    obtain ⟨next, hnext, h⟩ := bind_eq_ok.1 h
    obtain ⟨rest, hrest, h⟩ := bind_eq_ok.1 h
    obtain rfl := Except.ok.inj h
    obtain rfl := Except.ok.inj ((step_eq rule frame).symm.trans hnext)
    refine forall_mem_cons.2 ⟨fun value hvalue => ?_, ih hrest⟩
    obtain ⟨i, -, rfl⟩ := mem_map.1 hvalue
    exact bit_lt _

theorem binary_trace {steps : ℕ} {initial : List ℕ} {frames : List (List ℕ)}
    (hinitial : Binary initial) (h : trace rule initial steps = .ok frames) :
    ∀ state ∈ frames, Binary state := by
  obtain ⟨_, -, h⟩ := bind_eq_ok.1 h
  obtain ⟨rest, hrest, h⟩ := bind_eq_ok.1 h
  obtain rfl := Except.ok.inj h
  exact forall_mem_cons.2 ⟨hinitial, binary_framesAfter hrest⟩

end Run

/-! ## Texts -/

/-- `format_state`. -/
def formatState (state : List ℕ) : String :=
  String.ofList (state.map fun value => if value &&& 1 = 0 then '0' else '1')

theorem parseState_formatState {state : List ℕ} (h : Binary state) :
    parseState (formatState state) = state := by
  rw [parseState, formatState, String.toList_ofList, filterMap_map]
  induction state with
  | nil => rfl
  | cons value state ih =>
    obtain ⟨hvalue, hstate⟩ := forall_mem_cons.1 h
    have hparse : ∀ value < 2, ((fun c : Char => if c = '0' then some 0 else
        if c = '1' then some 1 else none) ∘ fun value : ℕ => if value &&& 1 = 0 then '0' else '1')
        value = some value := by decide
    rw [filterMap_cons, hparse value hvalue, ih hstate]

theorem parseTrace_formatState {frames : List (List ℕ)} (h : ∀ state ∈ frames, Binary state) :
    parseTrace (frames.map formatState) = frames := by
  rw [parseTrace, map_map]
  exact (map_congr_left fun state hstate => parseState_formatState (h state hstate)).trans
    (map_id frames)

/-! ## Simulation specs -/

/-- `random_state`. -/
def randomState (width : ℕ) : Draw (List ℕ) :=
  Draw.times (do return if ← Draw.nextBool then 1 else 0) width

/-- The spec of a rule and an initial state. -/
def simulationSpec (sourceRule width steps : ℕ) (sourceInitial : List ℕ) : Run SimulationSpec := do
  let targetRule := complementRule sourceRule
  let targetInitial := complementState sourceInitial
  let sourceTrace ← trace sourceRule sourceInitial steps
  let targetTrace ← trace targetRule targetInitial steps
  return {
    sourceRule := sourceRule
    targetRule := targetRule
    width := width
    steps := steps
    sourceInitial := formatState sourceInitial
    targetInitial := formatState targetInitial
    sourceTrace := sourceTrace.map formatState
    targetTrace := targetTrace.map formatState
    mappedSourceTrace := (sourceTrace.map complementState).map formatState
    task := .verifySimulation }

section Generate

variable (overflowChecks : Bool)

/-- The counts of `trace_transition_rate`: the changed bytes and all bytes. -/
def transitionCounts (trace : List String) : ℕ × ℕ :=
  let pairs := (trace.zip trace.tail).flatMap fun (left, right) =>
    left.toUTF8.toList.zip right.toUTF8.toList
  ((pairs.filter fun (a, b) => a ≠ b).length, pairs.length)

/-- `is_degenerate_spec` of a simulation. `rateBelow` divides and compares the `f32` numbers. -/
def isDegenerate (rateBelow : ℕ → ℕ → Bool) (spec : SimulationSpec) : Bool :=
  let low := fun trace =>
    let (changed, total) := transitionCounts trace
    total = 0 || rateBelow changed total
  spec.steps > 1 && (low spec.sourceTrace || low spec.targetTrace)

/-- One round of the loop of `generate_simulation_spec`. -/
def simulationTry (family : RuliadFamilyConfig) : Draw SimulationSpec := do
  let width ← Draw.rangeOr overflowChecks family.width 16 32
  let steps ← Draw.rangeOr overflowChecks family.steps 4 8
  let sourceRule ← Draw.nextU8
  let sourceInitial ← randomState width
  StateT.lift (simulationSpec sourceRule width steps sourceInitial)

/-- The loop of `generate_simulation_spec`, with the rounds that are left. -/
def simulationTries (rateBelow : ℕ → ℕ → Bool) (family : RuliadFamilyConfig) :
    ℕ → Option SimulationSpec → TryDraw SimulationSpec
  | 0, fallback => TryDraw.okOr fallback "failed to generate simulation ruliad sample"
  | rounds + 1, _ => do
    let spec ← simulationTry overflowChecks family
    if !isDegenerate rateBelow spec then
      return spec
    else
      simulationTries rateBelow family rounds (some spec)

/-- `generate_simulation_spec`. -/
def generateSimulationSpec (rateBelow : ℕ → ℕ → Bool) (family : RuliadFamilyConfig) :
    TryDraw SimulationSpec :=
  simulationTries overflowChecks rateBelow family 128 none

end Generate

/-- **The spec of a run and its complement passes the verifier.** -/
theorem verifySimulation_simulationSpec {sourceRule steps : ℕ} {sourceInitial : List ℕ}
    {spec : SimulationSpec} (hrule : sourceRule < 256) (hinitial : Binary sourceInitial)
    (h : simulationSpec sourceRule sourceInitial.length steps sourceInitial = .ok spec) :
    verifySimulation spec = .ok true := by
  obtain ⟨sourceTrace, hsource, h⟩ := bind_eq_ok.1 h
  obtain ⟨targetTrace, htarget, h⟩ := bind_eq_ok.1 h
  obtain rfl := Except.ok.inj h
  have hconjugate := trace_complement hrule sourceInitial steps
  rw [htarget, hsource] at hconjugate
  obtain rfl : targetTrace = sourceTrace.map complementState := Except.ok.inj hconjugate
  have hcomplement := binary_complementState sourceInitial
  have hsourceText := parseTrace_formatState (binary_trace hinitial hsource)
  have htargetText := parseTrace_formatState (binary_trace hcomplement htarget)
  simp only [verifySimulation, parseState_formatState hinitial,
    parseState_formatState hcomplement, hsource, htarget, hsourceText, htargetText, bind,
    Except.bind, pure, Except.pure, decide_true, Bool.and_self]

section Generated

variable {overflowChecks : Bool} {rateBelow : ℕ → ℕ → Bool} {family : RuliadFamilyConfig}

theorem randomState_yields (width : ℕ) :
    Draw.Yields (randomState width) fun state => state.length = width ∧ Binary state := by
  refine Draw.Yields.times (Draw.Yields.bind Draw.Yields.nextBool fun b _ => ?_) width
  refine Draw.Yields.pure ?_
  split_ifs <;> omega

theorem simulationTry_ensures : Draw.Ensures (simulationTry overflowChecks family)
    fun spec => verifySimulation spec = .ok true := by
  refine .bind (.any _) fun width _ => .bind (.any _) fun steps _ => ?_
  refine .bind (.of_yields Draw.Yields.nextU8) fun sourceRule hrule => ?_
  refine .bind (.of_yields (randomState_yields width)) fun sourceInitial hinitial => ?_
  obtain ⟨rfl, hbinary⟩ := hinitial
  exact .lift fun spec hspec => verifySimulation_simulationSpec hrule hbinary hspec

/-- Whichever round ends the loop, its spec passes the verifier. -/
theorem simulationTries_ensures (rounds : ℕ) {fallback : Option SimulationSpec}
    (hfallback : ∀ spec, fallback = some spec → verifySimulation spec = .ok true) :
    TryDraw.Ensures (simulationTries overflowChecks rateBelow family rounds fallback)
      fun spec => verifySimulation spec = .ok true := by
  induction rounds generalizing fallback with
  | zero => exact .okOr hfallback
  | succ rounds ih =>
    refine .draw_bind simulationTry_ensures fun spec hspec => ?_
    split_ifs
    · exact .pure hspec
    · exact ih fun spec' h => Option.some.inj h ▸ hspec

section

variable (hwidth : ∀ r ∈ family.width, r.min ≤ r.max ∧ r.max - r.min < usizeMax)
  (hsteps : ∀ r ∈ family.steps, r.min ≤ r.max ∧ 24 * (r.max + 1) ≤ isizeMax)
include hwidth hsteps

/-- The rounds return where the ranges of the family fit. -/
theorem simulationTry_yields :
    Draw.Yields (simulationTry overflowChecks family)
      fun spec => verifySimulation spec = .ok true := by
  have hisize : isizeMax < usizeMax := by decide
  refine .bind (P := fun _ => True) (.rangeOr (by decide) hwidth fun _ _ => trivial) ?_
  intro width _
  refine .bind (P := fun steps => 24 * (steps + 1) ≤ isizeMax) (.rangeOr (by decide) ?_ ?_) ?_
  · intro r hr
    have := hsteps r hr
    omega
  · rintro n (hn | ⟨r, hr, hn⟩)
    · exact le_trans (Nat.mul_le_mul_left 24 (Nat.succ_le_succ hn)) (by decide)
    · have := (hsteps r hr).2
      omega
  intro steps hfits
  refine .bind Draw.Yields.nextU8 fun sourceRule hrule => ?_
  refine .bind (randomState_yields width) fun sourceInitial hinitial => ?_
  obtain ⟨rfl, hbinary⟩ := hinitial
  obtain ⟨source, hsource⟩ := (trace_returns_iff sourceRule sourceInitial).2 hfits
  obtain ⟨target, htarget⟩ :=
    (trace_returns_iff (complementRule sourceRule) (complementState sourceInitial)).2 hfits
  have hspec : ∃ spec, simulationSpec sourceRule sourceInitial.length steps sourceInitial =
      .ok spec := ⟨_, bind_eq_ok.2 ⟨source, hsource, bind_eq_ok.2 ⟨target, htarget, rfl⟩⟩⟩
  obtain ⟨spec, hspec⟩ := hspec
  exact .lift hspec (verifySimulation_simulationSpec hrule hbinary hspec)

theorem simulationTries_succeeds (rounds : ℕ) {fallback : Option SimulationSpec}
    (hrounds : rounds = 0 → ∃ spec, fallback = some spec ∧ verifySimulation spec = .ok true) :
    TryDraw.Succeeds (simulationTries overflowChecks rateBelow family rounds fallback)
      fun spec => verifySimulation spec = .ok true := by
  induction rounds generalizing fallback with
  | zero =>
    obtain ⟨spec, hspec, hverify⟩ := hrounds rfl
    exact .okOr hspec hverify
  | succ rounds ih =>
    refine .bind (.draw (simulationTry_yields hwidth hsteps)) fun spec hspec => ?_
    split_ifs
    · exact .pure hspec
    · exact ih fun _ => ⟨spec, rfl, hspec⟩

end

/-- **Complement conjugation and the specs made from it.** The last part says that the generator does
return where the ranges of the family can be counted and the traces allocated. -/
theorem complement_conjugates (overflowChecks : Bool) (rateBelow : ℕ → ℕ → Bool) :
    (∀ rule < 256, ∀ initial steps,
      trace (complementRule rule) (complementState initial) steps =
        (trace rule initial steps).map (·.map complementState)) ∧
    (∀ rule < 256, complementRule rule < 256 ∧ complementRule (complementRule rule) = rule) ∧
    ∀ family : RuliadFamilyConfig,
      TryDraw.Ensures (generateSimulationSpec overflowChecks rateBelow family)
        (fun spec => verifySimulation spec = .ok true) ∧
      ((∀ r ∈ family.width, r.min ≤ r.max ∧ r.max - r.min < usizeMax) →
        (∀ r ∈ family.steps, r.min ≤ r.max ∧ 24 * (r.max + 1) ≤ isizeMax) →
        TryDraw.Succeeds (generateSimulationSpec overflowChecks rateBelow family)
          (fun spec => verifySimulation spec = .ok true)) := by
  refine ⟨fun rule hrule initial steps => trace_complement hrule initial steps,
    fun rule hrule => ⟨complementRule_lt rule hrule, complementRule_complementRule rule hrule⟩,
    fun family => ⟨simulationTries_ensures 128 (by simp), fun hwidth hsteps => ?_⟩⟩
  exact simulationTries_succeeds hwidth hsteps 128 (by simp)

end Generated

end BurnDragon.Ruliad.Eca
