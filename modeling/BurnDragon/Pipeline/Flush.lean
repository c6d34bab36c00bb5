import BurnDragon.Pipeline.Timetable

/-!
# The flush of a GPipe plan

Under the schedule `Gpipe` a stage takes a backward whenever it has no forward to run. The forwards
run in groups of as many microbatches as there are stages, a group through all chunks before the
next (`forwardTime`). The last stage is left without a forward before all are done exactly if a
last group is not full and follows a full one, and the stages have more than one chunk
(`flushes_iff`).
-/

namespace BurnDragon.Pipeline

open Rust Scheduling Transition Nat

/-- On every physical stage all forwards come before all backwards. -/
def Flushes (events : List PipelineScheduleEvent) : Prop :=
  ∀ event ∈ events, ∀ event' ∈ events, event.physicalStageId = event'.physicalStageId →
    event.kind = .forward → event'.kind = .backward → event.tick < event'.tick

/-! ## The ticks of the forwards -/

/-- The tick of a forward, as long as no stage takes a backward. -/
def forwardTime (stageCount chunks m w : ℕ) : ℕ :=
  m / stageCount * (stageCount * chunks) + m % stageCount + w

/-- The forwards at their ticks and the backwards at the horizon, but for the first backward of the
last stage, which is given its own tick. -/
def flushTime (stageCount chunks horizon firstBackward : ℕ) : Task → ℕ
  | (.forward, m, w) => forwardTime stageCount chunks m w
  | (.backward, m, w) =>
    if m = 0 ∧ w + 1 = stageCount * chunks then firstBackward else horizon

variable {stageCount chunks microbatches t m w : ℕ}

section Slots

/-- A tick of a physical stage as a group, a chunk and a place in the group. -/
theorem exists_slot (hstages : 0 < stageCount) (hchunks : 0 < chunks) {p : ℕ} (hp : p ≤ t) :
    ∃ g k r, k < chunks ∧ r < stageCount ∧
      t = g * (stageCount * chunks) + k * stageCount + r + p := by
  refine ⟨(t - p) / (stageCount * chunks), (t - p) % (stageCount * chunks) / stageCount,
    (t - p) % (stageCount * chunks) % stageCount, ?_, mod_lt _ hstages, ?_⟩
  · exact Nat.div_lt_of_lt_mul (Nat.mod_lt _ (Nat.mul_pos hstages hchunks))
  · have hgroup := div_add_mod (t - p) (stageCount * chunks)
    have hplace := div_add_mod ((t - p) % (stageCount * chunks)) stageCount
    rw [mul_comm (stageCount * chunks)] at hgroup
    rw [mul_comm stageCount] at hplace
    omega

variable {g k r : ℕ}

/-- The forward in a slot. -/
theorem forwardTime_slot {p : ℕ} (hstages : 0 < stageCount) (hr : r < stageCount) :
    forwardTime stageCount chunks (g * stageCount + r) (k * stageCount + p) =
      g * (stageCount * chunks) + k * stageCount + r + p := by
  rw [forwardTime, add_comm (g * stageCount), add_mul_div_right _ _ hstages,
    add_mul_mod_self_right, div_eq_of_lt hr, mod_eq_of_lt hr, zero_add]
  omega

/-- Every forward is in a slot. -/
theorem exists_task_slot (hstages : 0 < stageCount) (hw : w < stageCount * chunks) :
    ∃ g k r, k < chunks ∧ r < stageCount ∧ m = g * stageCount + r ∧
      w = k * stageCount + w % stageCount ∧
      forwardTime stageCount chunks m w =
        g * (stageCount * chunks) + k * stageCount + r + w % stageCount := by
  have hm : m = m / stageCount * stageCount + m % stageCount := (div_add_mod' m stageCount).symm
  have hw' : w = w / stageCount * stageCount + w % stageCount :=
    (div_add_mod' w stageCount).symm
  refine ⟨m / stageCount, w / stageCount, m % stageCount, Nat.div_lt_of_lt_mul hw,
    mod_lt _ hstages, hm, hw', ?_⟩
  rw [forwardTime]
  omega

/-- A chunk and a place are below the length of a group. -/
theorem chunk_lt (hk : k < chunks) (hr : r < stageCount) :
    k * stageCount + r < stageCount * chunks := by
  have hle : (k + 1) * stageCount ≤ chunks * stageCount := mul_le_mul_right _ hk
  rw [succ_mul, mul_comm chunks] at hle
  omega

/-- Of two numbers the one with the later block is not the smaller. -/
theorem block_le {d g' x x' : ℕ} (hx : x' < d) (h : g * d + x ≤ g' * d + x') : g ≤ g' := by
  by_contra hlt
  have hle : (g' + 1) * d ≤ g * d := mul_le_mul_right _ (not_le.mp hlt)
  rw [succ_mul] at hle
  omega

/-- Two slots at one tick of a stage are the same. -/
theorem slot_inj {g' k' r' : ℕ} (hk : k < chunks) (hr : r < stageCount) (hk' : k' < chunks)
    (hr' : r' < stageCount)
    (h : g * (stageCount * chunks) + k * stageCount + r = g' * (stageCount * chunks) + k' *
      stageCount + r') : g = g' ∧ k = k' ∧ r = r' := by
  have hlt := chunk_lt hk hr
  have hlt' := chunk_lt hk' hr'
  have hle : g * (stageCount * chunks) + (k * stageCount + r) ≤
      g' * (stageCount * chunks) + (k' * stageCount + r') := by omega
  have hge : g' * (stageCount * chunks) + (k' * stageCount + r') ≤
      g * (stageCount * chunks) + (k * stageCount + r) := by omega
  obtain rfl : g = g' := le_antisymm (block_le hlt' hle) (block_le hlt hge)
  have hchunk : k * stageCount + r = k' * stageCount + r' := by omega
  obtain rfl : k = k' := le_antisymm (block_le hr' hchunk.le) (block_le hr hchunk.ge)
  exact ⟨rfl, rfl, by omega⟩

theorem forwardTime_inj (hstages : 0 < stageCount) {m' w' : ℕ} (hw : w < stageCount * chunks)
    (hw' : w' < stageCount * chunks) (hstage : w % stageCount = w' % stageCount)
    (h : forwardTime stageCount chunks m w = forwardTime stageCount chunks m' w') :
    m = m' ∧ w = w' := by
  obtain ⟨g, k, r, hk, hr, hm, hwk, htime⟩ := exists_task_slot (m := m) hstages hw
  obtain ⟨g', k', r', hk', hr', hm', hwk', htime'⟩ := exists_task_slot (m := m') hstages hw'
  have hslots : g * (stageCount * chunks) + k * stageCount + r =
      g' * (stageCount * chunks) + k' * stageCount + r' := by omega
  obtain ⟨rfl, rfl, rfl⟩ := slot_inj hk hr hk' hr' hslots
  exact ⟨hm.trans hm'.symm, by omega⟩

/-- The first chunk of a microbatch comes after all that the first stage has before it. -/
theorem prefers_of_le_first (hstages : 0 < stageCount) {m' : ℕ} (hw : w < stageCount * chunks)
    (hstage : w % stageCount = 0)
    (h : forwardTime stageCount chunks m w ≤ forwardTime stageCount chunks m' 0) :
    m < m' ∨ m = m' ∧ w ≤ 0 := by
  obtain ⟨g, k, r, hk, hr, hm, hwk, htime⟩ := exists_task_slot (m := m) hstages hw
  have hpos : 0 < stageCount * chunks := zero_lt_of_lt hw
  obtain ⟨g', k', r', hk', hr', hm', hwk', htime'⟩ := exists_task_slot (m := m') hstages hpos
  have hg : g ≤ g' := block_le (chunk_lt hk' hr') (by omega : g * (stageCount * chunks) +
    (k * stageCount + r) ≤ g' * (stageCount * chunks) + (k' * stageCount + r'))
  rcases hg.eq_or_lt with rfl | hlt
  · omega
  · have hle : (g + 1) * stageCount ≤ g' * stageCount := mul_le_mul_right _ hlt
    rw [succ_mul] at hle
    omega

/-- The first stage has a forward in every tick up to the last first chunk. -/
theorem exists_first_forward (hstages : 0 < stageCount) (hchunks : 0 < chunks)
    (hm : m < microbatches) (h : t ≤ forwardTime stageCount chunks m 0) :
    ∃ m' < microbatches, ∃ w' < stageCount * chunks, w' % stageCount = 0 ∧
      forwardTime stageCount chunks m' w' = t := by
  obtain ⟨g, k, r, hk, hr, ht⟩ := exists_slot hstages hchunks (zero_le t)
  obtain ⟨g', k', r', hk', hr', hm', hwk', htime'⟩ :=
    exists_task_slot (m := m) hstages (mul_pos hstages hchunks)
  have hg : g ≤ g' := block_le (chunk_lt hk' hr') (by omega : g * (stageCount * chunks) +
    (k * stageCount + r) ≤ g' * (stageCount * chunks) + (k' * stageCount + r'))
  have hmicrobatch : g * stageCount + r < microbatches := by
    rcases hg.eq_or_lt with rfl | hlt
    · omega
    · have hle : (g + 1) * stageCount ≤ g' * stageCount := mul_le_mul_right _ hlt
      rw [succ_mul] at hle
      omega
  refine ⟨_, hmicrobatch, k * stageCount + 0, chunk_lt hk hstages, ?_, ?_⟩
  · rw [add_zero, mul_mod_left]
  · rw [forwardTime_slot hstages hr]
    omega

end Slots

/-! ## Timetables -/

variable {horizon : ℕ}

section Timetables

variable {firstBackward : ℕ}

theorem forwardTime_pred (stageCount chunks m : ℕ) (hw : 0 < w) :
    forwardTime stageCount chunks m (w - 1) + 1 = forwardTime stageCount chunks m w := by
  rw [forwardTime, forwardTime]
  omega

theorem le_forwardTime (stageCount chunks m w : ℕ) : w ≤ forwardTime stageCount chunks m w :=
  le_add_left _ _

/-- The last chunk runs on the last stage. -/
theorem pred_mul_mod (hstages : 0 < stageCount) (hchunks : 0 < chunks) :
    (stageCount * chunks - 1) % stageCount = stageCount - 1 := by
  obtain ⟨chunks, rfl⟩ : ∃ n, chunks = n + 1 := ⟨chunks - 1, by omega⟩
  have hsplit : stageCount * (chunks + 1) - 1 = stageCount * chunks + (stageCount - 1) := by
    rw [mul_succ]
    omega
  rw [hsplit, mul_add_mod, mod_eq_of_lt (by omega)]

/-- Only the first backward of the last stage may come before the horizon. -/
theorem flushTime_backward_lt (hhorizon : horizon ≤ firstBackward + 1) (ht : t ≤ horizon)
    (h : flushTime stageCount chunks horizon firstBackward (.backward, m, w) < t) :
    m = 0 ∧ w + 1 = stageCount * chunks ∧ t = horizon ∧ firstBackward < horizon := by
  rw [flushTime] at h
  split at h
  · next hfirst => exact ⟨hfirst.1, hfirst.2, by omega, by omega⟩
  · omega

/-- The forwards at their ticks make a timetable up to a horizon, if the last stage has a forward in
every tick in which a backward could run, but for one in which it runs the first backward. -/
theorem timetable_flush (microbatches horizon firstBackward : ℕ) (hstages : 0 < stageCount)
    (hchunks : 0 < chunks) (hmicrobatches : 0 < microbatches)
    (hhorizon : horizon ≤ firstBackward + 1)
    (hlast : ∀ t < horizon, t ≠ firstBackward → stageCount * chunks - 1 < t →
      ∃ m < microbatches, ∃ w < stageCount * chunks, w % stageCount = stageCount - 1 ∧
        forwardTime stageCount chunks m w = t)
    (hfirst : firstBackward < horizon → 1 < stageCount ∧ stageCount * chunks - 1 < firstBackward ∧
      ∀ m < microbatches, ∀ w < stageCount * chunks, w % stageCount = stageCount - 1 →
        forwardTime stageCount chunks m w ≠ firstBackward) :
    Timetable (pipelineGraph microbatches (stageCount * chunks) stageCount) (prefers .gpipe)
      (flushTime stageCount chunks horizon firstBackward) horizon where
  needs_lt := by
    rintro ⟨kind, m, w⟩ ha hlt b hneeds
    obtain ⟨hm, hw⟩ := mem_tasks.mp ha
    cases kind with
    | forward =>
      obtain ⟨hpos, rfl⟩ := hneeds
      have hpred := forwardTime_pred stageCount chunks m hpos
      simp only [flushTime]
      omega
    | backward =>
      obtain ⟨rfl, hlastStage, -, hbefore⟩ := flushTime_backward_lt hhorizon le_rfl hlt
      rcases hneeds with rfl | ⟨hnext, rfl⟩
      · have hzero : forwardTime stageCount chunks 0 w = w := by simp [forwardTime]
        simp only [flushTime, hzero, hlastStage, and_self, if_true]
        have hlate := (hfirst hbefore).2.1
        omega
      · omega
  preferred := by
    rintro ⟨kind, m, w⟩ ha ⟨kind', m', w'⟩ hb hmachine hlt hle hneeds
    obtain ⟨hm, hw⟩ := mem_tasks.mp ha
    obtain ⟨hm', hw'⟩ := mem_tasks.mp hb
    have hstage : w % stageCount = w' % stageCount := hmachine
    cases kind with
    | forward =>
      cases kind' with
      | forward =>
        simp only [flushTime] at hle
        simp only [prefers]
        rcases Nat.eq_zero_or_pos w' with rfl | hpos
        · exact prefers_of_le_first hstages hw (hstage.trans (zero_mod _)) hle
        · have hbefore := hneeds (.forward, m', w' - 1) ⟨hpos, rfl⟩
          have hpred := forwardTime_pred stageCount chunks m' hpos
          simp only [flushTime] at hbefore
          have htime : forwardTime stageCount chunks m w = forwardTime stageCount chunks m' w' := by
            omega
          obtain ⟨rfl, rfl⟩ := forwardTime_inj hstages hw hw' hstage htime
          exact .inr ⟨rfl, le_rfl⟩
      | backward => rfl
    | backward =>
      obtain ⟨rfl, hlastStage, -, hbefore⟩ := flushTime_backward_lt hhorizon le_rfl hlt
      obtain ⟨hmany, -, hnone⟩ := hfirst hbefore
      have hw1 : w = stageCount * chunks - 1 := by omega
      have hplace : w' % stageCount = stageCount - 1 := by
        rw [← hstage, hw1, pred_mul_mod hstages hchunks]
      cases kind' with
      | forward =>
        exfalso
        have hpos : 0 < w' := by
          rcases Nat.eq_zero_or_pos w' with rfl | hpos
          · rw [zero_mod] at hplace
            omega
          · exact hpos
        have hready := hneeds (.forward, m', w' - 1) ⟨hpos, rfl⟩
        have hpred := forwardTime_pred stageCount chunks m' hpos
        simp only [flushTime, hlastStage, and_self, if_true] at hready hle
        exact hnone m' hm' w' hw' hplace (by omega)
      | backward =>
        simp only [prefers]
        omega
  busy := by
    rintro t ht ⟨kind, m, w⟩ hb hle hneeds
    obtain ⟨hm, hw⟩ := mem_tasks.mp hb
    cases kind with
    | forward =>
      simp only [flushTime] at hle
      rcases Nat.eq_zero_or_pos w with rfl | hpos
      · obtain ⟨m', hm', w', hw', hplace, htime⟩ := exists_first_forward hstages hchunks hm hle
        exact ⟨(.forward, m', w'), mem_tasks.mpr ⟨hm', hw'⟩,
          hplace.trans (zero_mod _).symm, htime⟩
      · have hbefore := hneeds (.forward, m, w - 1) ⟨hpos, rfl⟩
        have hpred := forwardTime_pred stageCount chunks m hpos
        simp only [flushTime] at hbefore
        exact ⟨(.forward, m, w), hb, rfl, by simp only [flushTime]; omega⟩
    | backward =>
      have hforward := hneeds (.forward, m, w) (.inl rfl)
      simp only [flushTime] at hforward
      have hlastStage : w + 1 = stageCount * chunks := by
        by_contra hne
        have hnext : w + 1 < stageCount * chunks := by omega
        obtain ⟨-, -, heq, -⟩ := flushTime_backward_lt hhorizon ht.le
          (hneeds (.backward, m, w + 1) (.inr ⟨hnext, rfl⟩))
        omega
      have hw1 : w = stageCount * chunks - 1 := by omega
      have hlate : stageCount * chunks - 1 < t := by
        have hge := le_forwardTime stageCount chunks m w
        omega
      by_cases hone : t = firstBackward
      · subst hone
        exact ⟨(.backward, 0, w), mem_tasks.mpr ⟨hmicrobatches, hw⟩, rfl, if_pos ⟨rfl, hlastStage⟩⟩
      · obtain ⟨m', hm', w', hw', hplace, htime⟩ := hlast t ht hone hlate
        refine ⟨(.forward, m', w'), mem_tasks.mpr ⟨hm', hw'⟩, ?_, htime⟩
        show w' % stageCount = w % stageCount
        rw [hplace, hw1, pred_mul_mod hstages hchunks]

section

variable (hstages : 0 < stageCount) (hchunks : 0 < chunks)
include hstages hchunks

/-- A slot of the last stage. -/
theorem exists_last_slot (ht : stageCount * chunks - 1 < t) :
    ∃ g k r, k < chunks ∧ r < stageCount ∧
      t = g * (stageCount * chunks) + k * stageCount + r + (stageCount - 1) ∧
      ∀ microbatches, g * stageCount + r < microbatches →
        ∃ m < microbatches, ∃ w < stageCount * chunks, w % stageCount = stageCount - 1 ∧
          forwardTime stageCount chunks m w = t := by
  have hle : stageCount ≤ stageCount * chunks := Nat.le_mul_of_pos_right _ hchunks
  obtain ⟨g, k, r, hk, hr, hslot⟩ := exists_slot hstages hchunks (by omega : stageCount - 1 ≤ t)
  refine ⟨g, k, r, hk, hr, hslot, fun microbatches hm => ⟨_, hm, k * stageCount + (stageCount - 1),
    chunk_lt hk (by omega), ?_, ?_⟩⟩
  · rw [add_comm, add_mul_mod_self_right, mod_eq_of_lt (by omega)]
  · rw [forwardTime_slot hstages hr, hslot]

/-- With one chunk, or with full groups, or with one group only, the last stage has a forward in
every tick from its first last chunk to its last one. -/
theorem exists_last_forward (hmicrobatches : 0 < microbatches)
    (hcond : chunks = 1 ∨ microbatches ≤ stageCount ∨ stageCount ∣ microbatches)
    (ht : stageCount * chunks - 1 < t)
    (ht' : t ≤ forwardTime stageCount chunks (microbatches - 1) (stageCount * chunks - 1)) :
    ∃ m < microbatches, ∃ w < stageCount * chunks, w % stageCount = stageCount - 1 ∧
      forwardTime stageCount chunks m w = t := by
  obtain ⟨g, k, r, hk, hr, hslot, hexists⟩ := exists_last_slot hstages hchunks ht
  refine hexists microbatches ?_
  have hlastSplit := div_add_mod' (microbatches - 1) stageCount
  have hlastMod := mod_lt (microbatches - 1) hstages
  have hpred : stageCount * chunks - 1 = (chunks - 1) * stageCount + (stageCount - 1) := by
    obtain ⟨n, rfl⟩ : ∃ n, chunks = n + 1 := ⟨chunks - 1, by omega⟩
    rw [Nat.mul_succ, Nat.add_sub_cancel, Nat.mul_comm n]
    omega
  rw [forwardTime, hpred] at ht'
  have hbound : (chunks - 1) * stageCount + (microbatches - 1) % stageCount < stageCount * chunks :=
    chunk_lt (by omega) hlastMod
  have hblock : g * (stageCount * chunks) + (k * stageCount + r) ≤
      (microbatches - 1) / stageCount * (stageCount * chunks) +
        ((chunks - 1) * stageCount + (microbatches - 1) % stageCount) := by omega
  rcases (block_le hbound hblock).eq_or_lt with hg | hlt
  · have hchunk : k * stageCount + r ≤
        (chunks - 1) * stageCount + (microbatches - 1) % stageCount := by
      rw [hg] at hblock
      omega
    have hplace : r ≤ (microbatches - 1) % stageCount := by
      rcases hcond with rfl | hone | ⟨n, rfl⟩
      · obtain rfl : k = 0 := by omega
        omega
      · -- only one group: a later tick is in the last chunk
        have hzero : (microbatches - 1) / stageCount = 0 := div_eq_of_lt (by omega)
        have hgroup : g * (stageCount * chunks) = 0 := by rw [hg, hzero, zero_mul]
        have hk' : chunks - 1 ≤ k := by
          refine block_le hr ?_ (d := stageCount) (x := 0)
          omega
        obtain rfl : k = chunks - 1 := by omega
        omega
      · -- full groups: the last microbatch is the last of its group
        obtain ⟨n, rfl⟩ : ∃ j, n = j + 1 := ⟨n - 1, by
          rcases Nat.eq_zero_or_pos n with rfl | hpos
          · omega
          · omega⟩
        rw [pred_mul_mod hstages (succ_pos n)]
        omega
    rw [hg]
    omega
  · have hle : (g + 1) * stageCount ≤ (microbatches - 1) / stageCount * stageCount :=
      mul_le_mul_right _ hlt
    rw [succ_mul] at hle
    omega

/-- A last group that is not full leaves the last stage without a forward in one tick. -/
theorem exists_last_forward_of_lt (ht : stageCount * chunks - 1 < t)
    (ht' : t < microbatches / stageCount * (stageCount * chunks) + (stageCount - 1) + microbatches %
      stageCount) :
    ∃ m < microbatches, ∃ w < stageCount * chunks, w % stageCount = stageCount - 1 ∧
      forwardTime stageCount chunks m w = t := by
  obtain ⟨g, k, r, hk, hr, hslot, hexists⟩ := exists_last_slot hstages hchunks ht
  refine hexists microbatches ?_
  have hsplit := div_add_mod' microbatches stageCount
  have hmod := mod_lt microbatches hstages
  have hbound : microbatches % stageCount < stageCount * chunks :=
    hmod.trans_le (Nat.le_mul_of_pos_right _ hchunks)
  have hblock : g * (stageCount * chunks) + (k * stageCount + r) ≤
      microbatches / stageCount * (stageCount * chunks) + microbatches % stageCount := by omega
  rcases (block_le hbound hblock).eq_or_lt with hg | hlt
  · have hchunk : k * stageCount + r < microbatches % stageCount := by
      rw [hg] at hslot
      omega
    rw [hg]
    omega
  · have hle : (g + 1) * stageCount ≤ microbatches / stageCount * stageCount :=
      mul_le_mul_right _ hlt
    rw [succ_mul] at hle
    omega

theorem forwardTime_ne_gap (hm : m < microbatches) (hw : w < stageCount * chunks)
    (hplace : w % stageCount = stageCount - 1) :
    forwardTime stageCount chunks m w ≠
      microbatches / stageCount * (stageCount * chunks) + (stageCount - 1) +
        microbatches % stageCount := by
  intro heq
  obtain ⟨g, k, r, hk, hr, hslot, -, htime⟩ := exists_task_slot (m := m) hstages hw
  have hsplit := div_add_mod' microbatches stageCount
  have hslots : g * (stageCount * chunks) + k * stageCount + r =
      microbatches / stageCount * (stageCount * chunks) + 0 * stageCount +
        microbatches % stageCount := by omega
  obtain ⟨rfl, -, rfl⟩ := slot_inj hk hr hchunks (mod_lt _ hstages) hslots
  omega

theorem forwardTime_le_last (hm : m < microbatches) (hw : w < stageCount * chunks) :
    forwardTime stageCount chunks m w ≤
      forwardTime stageCount chunks (microbatches - 1) (stageCount * chunks - 1) := by
  have hle : stageCount ≤ stageCount * chunks := Nat.le_mul_of_pos_right _ hchunks
  have hmod := mod_lt m hstages
  have hdiv : m / stageCount ≤ (microbatches - 1) / stageCount := Nat.div_le_div_right (by omega)
  have hsplit := div_add_mod' m stageCount
  have hsplit' := div_add_mod' (microbatches - 1) stageCount
  rw [forwardTime, forwardTime]
  rcases hdiv.eq_or_lt with heq | hlt
  · rw [heq] at hsplit ⊢
    omega
  · have hblock : (m / stageCount + 1) * (stageCount * chunks) ≤
        (microbatches - 1) / stageCount * (stageCount * chunks) := mul_le_mul_right _ hlt
    rw [succ_mul] at hblock
    omega

end

end Timetables

/-! ## The plan -/

section Plan

variable {virtualStages : ℕ} {time : Task → ℕ} {s : EventLoop}

section

variable (h : EventsAt microbatches virtualStages stageCount s)
include h

theorem EventsAt.exists_event (hfull : microbatches * virtualStages * 2 ≤ s.events.length)
    (kind : PipelineEventKind) {v : ℕ} (hm : m < microbatches) (hv : v < virtualStages) :
    ∃ event ∈ s.events, (event.tick, kind, m, v) ∈ s.events.map timed ∧ event.kind = kind ∧
      event.physicalStageId = v % stageCount := by
  have hcard : (pipelineGraph microbatches virtualStages stageCount).tasks.card ≤
      (s.events.map timed).length := by
    rw [card_tasks, List.length_map]
    exact hfull
  obtain ⟨k, hk⟩ := (h.schedule.done_iff hcard (kind, m, v)).mpr (mem_tasks.mpr ⟨hm, hv⟩)
  obtain ⟨event, hevent, heq⟩ := List.mem_map.mp hk
  obtain ⟨rfl, rfl, rfl, rfl⟩ : event.tick = k ∧ event.kind = kind ∧ event.microbatchId = m ∧
    event.virtualStageId = v := by simpa [timed] using heq
  exact ⟨event, hevent, hk, rfl, (h.placed event hevent).1⟩

/-- The events of a timetable in which forwards come before the horizon and backwards at it. -/
theorem EventsAt.flushes
    (hfollows : Follows (pipelineGraph microbatches virtualStages stageCount) time horizon s.tick
      (s.events.map timed))
    (hforward : ∀ m < microbatches, ∀ v < virtualStages, time (.forward, m, v) < horizon)
    (hbackward : ∀ m < microbatches, ∀ v < virtualStages, horizon ≤ time (.backward, m, v)) :
    Flushes s.events := by
  intro event hevent event' hevent' _ hkind hkind'
  have hmem : timed event ∈ s.events.map timed := List.mem_map_of_mem hevent
  have hmem' : timed event' ∈ s.events.map timed := List.mem_map_of_mem hevent'
  obtain ⟨hm, hv⟩ := mem_tasks.mp (h.schedule.mem _ hmem)
  obtain ⟨hm', hv'⟩ := mem_tasks.mp (h.schedule.mem _ hmem')
  have hearly : time (timed event).2 < horizon := by
    rw [timed, hkind]
    exact hforward _ hm _ hv
  have hlate : horizon ≤ time (timed event').2 := by
    rw [timed, hkind']
    exact hbackward _ hm' _ hv'
  have htick : event.tick = time (timed event).2 := hfollows.tick_eq h.schedule hmem hearly
  have hhorizon : horizon ≤ event'.tick := hfollows.horizon_le h.schedule hmem' hlate
  omega

/-- A backward of a timetable before the horizon and a forward of its stage after it. -/
theorem EventsAt.not_flushes (hfull : microbatches * virtualStages * 2 ≤ s.events.length)
    (hfollows : Follows (pipelineGraph microbatches virtualStages stageCount) time horizon s.tick
      (s.events.map timed)) (m v m' v' : ℕ) (hm : m < microbatches) (hv : v < virtualStages)
    (hm' : m' < microbatches) (hv' : v' < virtualStages) (hstage : v % stageCount = v' % stageCount)
    (hbackward : time (.backward, m, v) < horizon) (hforward : horizon ≤ time (.forward, m', v')) :
    ¬Flushes s.events := by
  obtain ⟨event, hevent, hmem, hkind, hplace⟩ := h.exists_event hfull .backward hm hv
  obtain ⟨event', hevent', hmem', hkind', hplace'⟩ := h.exists_event hfull .forward hm' hv'
  intro hflushes
  have hbefore := hflushes event' hevent' event hevent
    (hplace'.trans (hstage.symm.trans hplace.symm)) hkind' hkind
  have htick := hfollows.tick_eq h.schedule hmem hbackward
  have hhorizon := hfollows.horizon_le h.schedule hmem' hforward
  omega

end

/-- A plan with a last group that is not full does not flush. -/
theorem not_flushes_of_gap {nLayer : ℕ} {pipeline : ParallelPipelineConfig} {plan : PipelinePlan}
    (hplan : BuildPipelinePlanReturns nLayer pipeline (.ok plan))
    (hschedule : pipeline.schedule = .gpipe) (hmany : 2 ≤ pipeline.virtualStagesPerRank)
    (hgroups : pipeline.stageCount < pipeline.microbatches)
    (hrest : pipeline.microbatches % pipeline.stageCount ≠ 0) : ¬Flushes plan.events := by
  obtain ⟨⟨total, hcheck⟩, -, base, remainder, hloop⟩ := loop_of_plan hplan
  obtain ⟨hstages, hchunks, -, -⟩ := checkPipelinePlan_eq_ok hcheck
  obtain ⟨hle, hmicrobatches⟩ := checkPipelinePlan_bounds hcheck
  rw [hschedule] at hloop
  have hgroup : pipeline.stageCount * pipeline.virtualStagesPerRank ≤
      pipeline.microbatches / pipeline.stageCount *
        (pipeline.stageCount * pipeline.virtualStagesPerRank) :=
    Nat.le_mul_of_pos_left _ (Nat.div_pos hgroups.le hstages)
  have htwo : pipeline.stageCount * 2 ≤ pipeline.stageCount * pipeline.virtualStagesPerRank :=
    mul_le_mul_left _ hmany
  have hmod := mod_lt pipeline.microbatches hstages
  have hsplit := div_add_mod' pipeline.microbatches pipeline.stageCount
  -- the tick in which the last stage has no forward and runs its first backward
  set gap := pipeline.microbatches / pipeline.stageCount *
    (pipeline.stageCount * pipeline.virtualStagesPerRank) + (pipeline.stageCount - 1) +
      pipeline.microbatches % pipeline.stageCount with hgap
  have htime := timetable_flush pipeline.microbatches (gap + 1) gap hstages hchunks hmicrobatches
    le_rfl
    (fun t ht hne hlate => exists_last_forward_of_lt hstages hchunks hlate (by omega))
    fun _ => ⟨by omega, by omega, fun m hm w hw hplace =>
      forwardTime_ne_gap hstages hchunks hm hw hplace⟩
  obtain ⟨s, hs, hfollows, hfull, hevents⟩ := events_follow htime hstages hloop
  rw [← hevents]
  refine hs.not_flushes hfull hfollows 0 (pipeline.stageCount * pipeline.virtualStagesPerRank - 1)
    (pipeline.microbatches / pipeline.stageCount * pipeline.stageCount)
    (pipeline.stageCount + (pipeline.stageCount - 1)) hmicrobatches (by omega) (by omega)
    (by omega) ?_ ?_ ?_
  · rw [pred_mul_mod hstages hchunks, add_mod_left, mod_eq_of_lt (by omega)]
  · simp only [flushTime]
    rw [if_pos ⟨trivial, by omega⟩]
    exact lt_succ_self gap
  · simp only [flushTime, forwardTime]
    rw [Nat.mul_div_cancel _ hstages, Nat.mul_mod_left]
    omega

/-- A plan with full groups, with one group, or with one chunk flushes. -/
theorem flushes_of_full {nLayer : ℕ} {pipeline : ParallelPipelineConfig} {plan : PipelinePlan}
    (hplan : BuildPipelinePlanReturns nLayer pipeline (.ok plan))
    (hschedule : pipeline.schedule = .gpipe)
    (hcond : pipeline.virtualStagesPerRank = 1 ∨ pipeline.microbatches ≤ pipeline.stageCount ∨
      pipeline.stageCount ∣ pipeline.microbatches) : Flushes plan.events := by
  obtain ⟨⟨total, hcheck⟩, -, base, remainder, hloop⟩ := loop_of_plan hplan
  obtain ⟨hstages, hchunks, -, -⟩ := checkPipelinePlan_eq_ok hcheck
  obtain ⟨-, hmicrobatches⟩ := checkPipelinePlan_bounds hcheck
  rw [hschedule] at hloop
  set horizon := forwardTime pipeline.stageCount pipeline.virtualStagesPerRank
    (pipeline.microbatches - 1) (pipeline.stageCount * pipeline.virtualStagesPerRank - 1) + 1
    with hhorizon
  have htime := timetable_flush pipeline.microbatches horizon horizon hstages hchunks hmicrobatches
    (le_succ _)
    (fun t ht _ hlate => exists_last_forward hstages hchunks hmicrobatches hcond hlate (by omega))
    fun hlt => absurd hlt (lt_irrefl _)
  obtain ⟨s, hs, hfollows, -, hevents⟩ := events_follow htime hstages hloop
  rw [← hevents]
  refine hs.flushes hfollows (fun m hm v hv => ?_) fun m hm v hv => ?_
  · exact lt_succ_of_le (forwardTime_le_last hstages hchunks hm hv)
  · simp only [flushTime]
    split <;> exact le_rfl

/-- **The flush.** In the plan of an accepted configuration with the schedule `Gpipe` all forwards
of every stage come before its backwards exactly if the stages have one chunk, or there are no more
microbatches than stages, or the number of microbatches is a multiple of the number of stages. -/
theorem flushes_iff (nLayer : ℕ) (pipeline : ParallelPipelineConfig) (plan : PipelinePlan)
    (hplan : BuildPipelinePlanReturns nLayer pipeline (.ok plan))
    (hschedule : pipeline.schedule = .gpipe) :
    Flushes plan.events ↔ pipeline.virtualStagesPerRank = 1 ∨
      pipeline.microbatches ≤ pipeline.stageCount ∨
      pipeline.stageCount ∣ pipeline.microbatches := by
  refine ⟨fun hflushes => ?_, flushes_of_full hplan hschedule⟩
  obtain ⟨⟨total, hcheck⟩, -⟩ := loop_of_plan hplan
  obtain ⟨-, hchunks, -⟩ := checkPipelinePlan_eq_ok hcheck
  by_contra hcond
  simp only [not_or, not_le, Nat.dvd_iff_mod_eq_zero] at hcond
  exact not_flushes_of_gap hplan hschedule (by omega) hcond.2.1 hcond.2.2 hflushes

/-- Two stages with two chunks each and four microbatches. -/
def fullGroupsConfig : ParallelPipelineConfig := ⟨true, 2, 2, .gpipe, 4, .layerContiguous⟩

theorem flushes_iff_fullGroups :
    ∃ plan, BuildPipelinePlanReturns 4 fullGroupsConfig (.ok plan) ∧ Flushes plan.events := by
  have hcheck : checkPipelinePlan 4 fullGroupsConfig = .ok 4 := rfl
  obtain ⟨plan, -, hplan, -⟩ := exists_plan hcheck (by decide)
  exact ⟨plan, hplan, (flushes_iff 4 fullGroupsConfig plan hplan rfl).mpr (.inr (.inr ⟨2, rfl⟩))⟩

/-- Two stages with two chunks each and three microbatches: the second stage runs a backward while
the last microbatch is still in the first chunks. -/
def gapConfig : ParallelPipelineConfig := ⟨true, 2, 2, .gpipe, 3, .layerContiguous⟩

theorem not_flushes_three :
    ∃ plan, BuildPipelinePlanReturns 4 gapConfig (.ok plan) ∧ gapConfig.schedule = .gpipe ∧
      ¬Flushes plan.events := by
  have hcheck : checkPipelinePlan 4 gapConfig = .ok 4 := rfl
  obtain ⟨plan, -, hplan, -⟩ := exists_plan hcheck (by decide)
  exact ⟨plan, hplan, rfl, not_flushes_of_gap hplan rfl (by decide) (by decide) (by decide)⟩

end Plan

end BurnDragon.Pipeline
