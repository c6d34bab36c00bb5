import BurnDragon.Browser.StreamBatch
import BurnDragon.Layout.Cyclic

/-!
# Windows of a plan

`plan_windowed_stream_batches` gives every window a limited number of batches of the plan, from where
the window before stopped. The first batch of a window and the first of the plan start without state.
-/

namespace BurnDragon.Browser

open Rust Layout List

/-- A batch of the plan at an offset of a window. -/
def windowBatch (plan : List PlannedStreamBatch) (start offset : ℕ) : Option PlannedStreamBatch :=
  let planIndex := (start + offset) % plan.length
  plan[planIndex]?.map fun batch =>
    if offset = 0 || planIndex = 0 then { batch with resetStreamState := true } else batch

/-- `plan_windowed_stream_batches`. The product of the window and the limit is taken in 128 bits. -/
def planWindowedStreamBatches (records : List TokenWindowRecord) (batchSize : ℕ)
    (maxBatches : Option ℕ) (windowId : Option ℕ) : Except String (List PlannedStreamBatch) := do
  let plan ← planStreamAlignedBatches records batchSize
  let limit := min (maxBatches.getD plan.length) plan.length
  if limit = 0 || plan.isEmpty then return []
  if limit = plan.length then return plan
  let windowIndex := windowId.getD 1 - 1
  let start := windowIndex * limit % plan.length
  return (List.range limit).filterMap (windowBatch plan start)

/-! ## The plan -/

section Plan

variable {records : List TokenWindowRecord} {batchSize : ℕ} {plan : List PlannedStreamBatch}

/-- What every plan satisfies, also one of records without places. -/
structure Batched (records : List TokenWindowRecord) (plan : List PlannedStreamBatch) : Prop where
  once : (plan.flatMap PlannedStreamBatch.recordIndices).Perm (List.range records.length)
  nonempty : ∀ batch ∈ plan, batch.recordIndices ≠ []
  first : ∀ batch, plan[0]? = some batch → batch.resetStreamState = true

theorem batched_of_planned {places : List StreamPlace}
    (hplaces : records.map TokenWindowRecord.place = places.map some)
    (h : Planned (max batchSize 1) none [] (streamGroups places).entries plan) :
    Batched records plan := by
  have haligned := streamAligned_of_planned hplaces h
  refine ⟨haligned.once, fun batch hbatch hnil => ?_, fun batch hbatch => ?_⟩
  · obtain ⟨group, chunk, rows, hrows, -, hbatchPlaces⟩ := haligned.single batch hbatch
    rw [PlannedStreamBatch.places, hnil] at hbatchPlaces
    exact hrows (map_eq_nil_iff.1 hbatchPlaces.symm)
  · by_contra hkeeps
    obtain ⟨j, _, _, _, _, hj, -⟩ := haligned.keeps 0 batch hbatch (eq_false_of_ne_true hkeeps)
    omega

theorem batched_of_ok (h : planStreamAlignedBatches records batchSize = .ok plan) :
    Batched records plan := by
  unfold planStreamAlignedBatches at h
  dsimp only at h
  split at h
  · obtain rfl := Except.ok.inj h
    have hsize : 0 < max batchSize 1 := by omega
    refine ⟨?_, fun batch hbatch => ?_, fun batch hbatch => ?_⟩
    · rw [flatMap_map, flatMap_def]
      change ((chunks _ _).map id).flatten.Perm _
      rw [map_id, flatten_chunks hsize]
    · obtain ⟨indices, hindices, rfl⟩ := mem_map.1 hbatch
      exact ne_nil_of_mem_chunks hsize hindices
    · rw [getElem?_map] at hbatch
      obtain ⟨_, -, rfl⟩ := Option.map_eq_some_iff.1 hbatch
      rfl
  · rename_i places hmapM
    exact batched_of_planned (mapM_eq_some_iff.1 hmapM) (planned_of_planGroups h)

/-- The batches of a plan have different records. -/
theorem Batched.nodup (h : Batched records plan) :
    (plan.map PlannedStreamBatch.recordIndices).Nodup := by
  have hnodup := h.once.nodup_iff.2 nodup_range
  rw [flatMap_def, nodup_flatten] at hnodup
  refine hnodup.2.imp_of_mem fun {indices indices'} hmem _ hdisjoint heq => ?_
  obtain ⟨batch, hbatch, rfl⟩ := mem_map.1 hmem
  obtain ⟨i, hi⟩ := exists_mem_of_ne_nil _ (h.nonempty batch hbatch)
  exact hdisjoint hi (heq ▸ hi)

end Plan

/-! ## Windows -/

section Windows

variable {records : List TokenWindowRecord} {batchSize limit window start : ℕ}
  {plan selected : List PlannedStreamBatch}

/-- The records of the batch at a position of the plan. -/
def indicesAt (plan : List PlannedStreamBatch) (position : ℕ) : List ℕ :=
  (plan[position]?.map PlannedStreamBatch.recordIndices).getD []

/-- What a window selects: the batches from its start on, the first one without state. -/
structure WindowOf (plan : List PlannedStreamBatch) (start count : ℕ)
    (selected : List PlannedStreamBatch) : Prop where
  indices : selected.map PlannedStreamBatch.recordIndices =
    (cyclicFrom plan.length start count).map (indicesAt plan)
  follows : ∀ i batch, selected[i]? = some batch → batch.resetStreamState = false →
    ∃ j previous p, i = j + 1 ∧ selected[j]? = some previous ∧
      plan[p]?.map PlannedStreamBatch.recordIndices = some previous.recordIndices ∧
      plan[p + 1]? = some batch

theorem indicesAt_range (plan : List PlannedStreamBatch) :
    (List.range plan.length).map (indicesAt plan) = plan.map PlannedStreamBatch.recordIndices := by
  refine ext_getElem (by simp) fun i hi hi' => ?_
  rw [getElem_map, getElem_map, getElem_range, indicesAt, getElem?_eq_getElem (by simpa using hi)]
  rfl

/-- A window that takes the whole plan. -/
theorem windowOf_plan (hplan : Batched records plan) (rounds : ℕ) :
    WindowOf plan (rounds * plan.length) plan.length plan := by
  constructor
  · rw [← cyclicFrom_mod, Nat.mul_mod_left, cyclicFrom_length, rotate_zero, indicesAt_range]
  · intro i batch hbatch hkeeps
    cases i with
    | zero => exact absurd (hplan.first batch hbatch) (by simp [hkeeps])
    | succ i =>
      have hi : i < plan.length := by
        have := (List.getElem?_eq_some_iff.1 hbatch).1
        omega
      exact ⟨i, plan[i], i, rfl, getElem?_eq_getElem hi, by rw [getElem?_eq_getElem hi]; rfl,
        hbatch⟩

theorem exists_windowBatch (hne : plan ≠ []) (start offset : ℕ) :
    ∃ batch, windowBatch plan start offset = some batch := by
  have hlt := Nat.mod_lt (start + offset) (length_pos_iff.2 hne)
  exact ⟨_, by rw [windowBatch, getElem?_eq_getElem hlt]; rfl⟩

variable {batch : PlannedStreamBatch}

theorem indices_of_windowBatch {offset : ℕ} (h : windowBatch plan start offset = some batch) :
    plan[(start + offset) % plan.length]?.map PlannedStreamBatch.recordIndices =
      some batch.recordIndices := by
  obtain ⟨original, horiginal, rfl⟩ := Option.map_eq_some_iff.1 h
  rw [horiginal, Option.map_some]
  split_ifs <;> rfl

/-- A batch of a window that keeps the state is neither the first of the window nor of the plan. -/
theorem of_windowBatch_keeps {offset : ℕ} (h : windowBatch plan start offset = some batch)
    (hkeeps : batch.resetStreamState = false) :
    offset ≠ 0 ∧ (start + offset) % plan.length ≠ 0 ∧
      plan[(start + offset) % plan.length]? = some batch := by
  obtain ⟨original, horiginal, hbatch⟩ := Option.map_eq_some_iff.1 h
  split_ifs at hbatch with hreset
  · rw [← hbatch] at hkeeps
    cases hkeeps
  · rw [Bool.or_eq_true, decide_eq_true_eq, decide_eq_true_eq, not_or] at hreset
    exact ⟨hreset.1, hreset.2, hbatch ▸ horiginal⟩

/-- Unless the next position is the first one, it is one more. -/
theorem mod_succ_of_ne {a n : ℕ} (h : (a + 1) % n ≠ 0) : (a + 1) % n = a % n + 1 := by
  rcases Nat.lt_trichotomy n 1 with hn | rfl | hn
  · obtain rfl : n = 0 := by omega
    rw [Nat.mod_zero, Nat.mod_zero]
  · exact absurd (Nat.mod_one _) h
  · rw [Nat.add_mod_eq_ite, Nat.mod_eq_of_lt hn] at h ⊢
    split_ifs at h ⊢ with hle
    · have := Nat.mod_lt a (zero_lt_one.trans hn)
      omega
    · rfl

/-- A window that takes a part of the plan. -/
theorem windowOf_filterMap (hne : plan ≠ []) (start count : ℕ) :
    WindowOf plan start count ((List.range count).filterMap (windowBatch plan start)) := by
  generalize hselected : (List.range count).filterMap (windowBatch plan start) = selected
  have hall : (List.range count).map (windowBatch plan start) = selected.map some := by
    rw [← hselected]
    induction List.range count with
    | nil => rfl
    | cons offset offsets ih =>
      obtain ⟨batch, hbatch⟩ := exists_windowBatch hne start offset
      rw [map_cons, ih, hbatch, filterMap_cons_some hbatch, map_cons]
  have hget : ∀ {i batch}, selected[i]? = some batch →
      windowBatch plan start i = some batch ∧ i < count := by
    intro i batch hbatch
    have hi : (selected.map some)[i]? = some (some batch) := by rw [getElem?_map, hbatch]; rfl
    rw [← hall, getElem?_map] at hi
    obtain ⟨offset, hoffset, hi⟩ := Option.map_eq_some_iff.1 hi
    obtain ⟨hlt, rfl⟩ := List.getElem?_eq_some_iff.1 hoffset
    rw [getElem_range] at hi
    exact ⟨hi, by simpa using hlt⟩
  constructor
  · have hmap : selected.map PlannedStreamBatch.recordIndices = (selected.map some).map fun batch =>
        (batch.map PlannedStreamBatch.recordIndices).getD [] := by
      rw [map_map]
      rfl
    rw [hmap, ← hall, cyclicFrom, map_map, map_map]
    refine map_congr_left fun offset _ => ?_
    obtain ⟨batch, hbatch⟩ := exists_windowBatch hne start offset
    rw [Function.comp_apply, Function.comp_apply, indicesAt, indices_of_windowBatch hbatch, hbatch]
    rfl
  · intro i batch hbatch hkeeps
    obtain ⟨hbatch, hi⟩ := hget hbatch
    obtain ⟨hfirst, hposition, hplan⟩ := of_windowBatch_keeps hbatch hkeeps
    obtain ⟨j, rfl⟩ := Nat.exists_eq_succ_of_ne_zero hfirst
    obtain ⟨previous, hprevious⟩ := exists_windowBatch hne start j
    refine ⟨j, previous, (start + j) % plan.length, rfl, ?_, indices_of_windowBatch hprevious, ?_⟩
    · have hj : (selected.map some)[j]? = some (some previous) := by
        rw [← hall, getElem?_map, getElem?_range (by omega), Option.map_some, hprevious]
      rw [getElem?_map] at hj
      obtain ⟨_, hj, heq⟩ := Option.map_eq_some_iff.1 hj
      rw [hj, Option.some.inj heq]
    · have hnext : (start + j + 1) % plan.length ≠ 0 := hposition
      rw [← mod_succ_of_ne hnext]
      exact hplan

/-- What `plan_windowed_stream_batches` returns for a window. -/
theorem planWindowedStreamBatches_ok (hplan : planStreamAlignedBatches records batchSize = .ok plan)
    (hlimit : 1 ≤ limit) (window : ℕ) : ∃ selected,
      planWindowedStreamBatches records batchSize (some limit) (some window) = .ok selected ∧
      WindowOf plan ((window - 1) * min limit plan.length) (min limit plan.length) selected := by
  have hbatched := batched_of_ok hplan
  rw [planWindowedStreamBatches, hplan]
  simp only [Option.getD_some, bind, Except.bind, pure, Except.pure]
  by_cases hempty : plan = []
  · subst hempty
    exact ⟨[], by simp, by simp [cyclicFrom], nofun⟩
  have hlength : 0 < plan.length := length_pos_iff.2 hempty
  have hcount : min limit plan.length ≠ 0 := by omega
  rw [if_neg (by simp [hcount, hempty])]
  split_ifs with hall
  · refine ⟨plan, rfl, ?_⟩
    rw [hall]
    exact windowOf_plan hbatched (window - 1)
  · refine ⟨_, rfl, ?_⟩
    have hwindow := windowOf_filterMap hempty ((window - 1) * min limit plan.length % plan.length)
      (min limit plan.length)
    exact ⟨by rw [hwindow.indices, cyclicFrom_mod], hwindow.follows⟩

/-- The windows from one on, one after the other, go round and round through the plan. -/
theorem flatMap_windows {selected : ℕ → List PlannedStreamBatch} {count : ℕ}
    (h : ∀ k, WindowOf plan (start + k * count) count (selected k)) (n : ℕ) :
    ((List.range n).flatMap selected).map PlannedStreamBatch.recordIndices =
      (cyclicFrom plan.length start (n * count)).map (indicesAt plan) := by
  induction n with
  | zero => simp [cyclicFrom]
  | succ n ih =>
    rw [range_succ, flatMap_append, map_append, ih, flatMap_singleton,
      (h n).indices, ← map_append, cyclicFrom_append, Nat.succ_mul]

/-- As many windows as the plan has batches select every batch equally often. -/
theorem count_windows (hplan : Batched records plan) (start count : ℕ) (hbatch : batch ∈ plan) :
    ((cyclicFrom plan.length start (plan.length * count)).map (indicesAt plan)).count
      batch.recordIndices = count := by
  have hperm := (cyclicFrom_perm plan.length start count).map (indicesAt plan)
  rw [Nat.mul_comm, hperm.count_eq, map_flatten, map_replicate, indicesAt_range,
    count_flatten, map_replicate, sum_replicate_nat,
    count_eq_one_of_mem hplan.nodup (mem_map_of_mem hbatch), Nat.mul_one]

/-- **Windows cover the plan evenly.** The windows from one on select consecutive batches of the plan,
round and round, so in as many windows as there are batches every batch is selected equally often; and a
batch that keeps the state comes right after the batch before it in the plan. -/
theorem windows_cover_plan (hplan : planStreamAlignedBatches records batchSize = .ok plan)
    (hlimit : 1 ≤ limit) (hwindow : 1 ≤ window) : ∃ selected : ℕ → List PlannedStreamBatch,
      (∀ k, planWindowedStreamBatches records batchSize (some limit) (some (window + k)) =
        .ok (selected k)) ∧
      (∀ k i batch, (selected k)[i]? = some batch → batch.resetStreamState = false →
        ∃ j previous p, i = j + 1 ∧ (selected k)[j]? = some previous ∧
          plan[p]?.map PlannedStreamBatch.recordIndices = some previous.recordIndices ∧
          plan[p + 1]? = some batch) ∧
      (∀ n, ((List.range n).flatMap selected).map PlannedStreamBatch.recordIndices =
        (cyclicFrom plan.length ((window - 1) * min limit plan.length)
          (n * min limit plan.length)).map (indicesAt plan)) ∧
      ∀ batch ∈ plan, (((List.range plan.length).flatMap selected).map
        PlannedStreamBatch.recordIndices).count batch.recordIndices = min limit plan.length := by
  have hselect := fun k => planWindowedStreamBatches_ok hplan hlimit (window + k)
  choose selected hok hselected using hselect
  have hstart : ∀ k, WindowOf plan ((window - 1) * min limit plan.length + k * min limit plan.length)
      (min limit plan.length) (selected k) := fun k => by
    rw [← Nat.add_mul, ← Nat.sub_add_comm hwindow]
    exact hselected k
  have hconsecutive := flatMap_windows hstart
  refine ⟨selected, hok, fun k => (hselected k).follows, hconsecutive, fun batch hbatch => ?_⟩
  rw [hconsecutive, count_windows (batched_of_ok hplan) _ _ hbatch]

theorem windows_cover_plan_three : ∃ selected : ℕ → List PlannedStreamBatch,
    (∀ k, planWindowedStreamBatches (List.replicate 3 ⟨[1], [2], none, true, none, none, none⟩) 1
      (some 2) (some (1 + k)) = .ok (selected k)) ∧
    (∀ k i batch, (selected k)[i]? = some batch → batch.resetStreamState = false →
      ∃ j previous p, i = j + 1 ∧ (selected k)[j]? = some previous ∧
        [⟨[0], true⟩, ⟨[1], true⟩, ⟨[2], true⟩][p]?.map PlannedStreamBatch.recordIndices =
          some previous.recordIndices ∧
        [⟨[0], true⟩, ⟨[1], true⟩, ⟨[2], true⟩][p + 1]? = some batch) ∧
    (∀ n, ((List.range n).flatMap selected).map PlannedStreamBatch.recordIndices =
      (cyclicFrom 3 0 (n * 2)).map (indicesAt [⟨[0], true⟩, ⟨[1], true⟩, ⟨[2], true⟩])) ∧
    ∀ batch ∈ ([⟨[0], true⟩, ⟨[1], true⟩, ⟨[2], true⟩] : List PlannedStreamBatch),
      (((List.range 3).flatMap selected).map PlannedStreamBatch.recordIndices).count
        batch.recordIndices = 2 :=
  windows_cover_plan (show planStreamAlignedBatches _ 1 =
    .ok [⟨[0], true⟩, ⟨[1], true⟩, ⟨[2], true⟩] from rfl) (Nat.le_succ 1) le_rfl

end Windows

end BurnDragon.Browser
