import BurnDragon.Generation.Chunked
import BurnDragon.Generation.Rows

/-!
# Models that emit a given function of the history

Every function of the history is the greedy token of a lawful model (`emit_historyModel`): its state
keeps the history of every row, and its logits are one at the given token. Such a model tells apart any
two masks of a prompt.
-/

namespace BurnDragon.Generation

open Layout List

/-- Logits over `vocab` tokens that are one at `token`. -/
def oneHot (vocab token : ℕ) : List ℤ := (List.range vocab).map fun i => if i = token then 1 else 0

theorem argmax_oneHot {vocab token : ℕ} (h : token < vocab) :
    exactBackend.argmax (oneHot vocab token) = token := by
  have hall : ∀ x ∈ oneHot vocab token, x ≤ 1 := fun x hx => by
    obtain ⟨i, -, rfl⟩ := mem_map.1 hx
    split <;> decide
  have hone : (1 : ℤ) ∈ oneHot vocab token :=
    mem_map.2 ⟨token, mem_range.2 h, if_pos rfl⟩
  have hlen : token < (oneHot vocab token).length := by simpa [oneHot] using h
  refine congrArg Int.ofNat ((findIdx_eq hlen).2 ⟨?_, fun j hj => ?_⟩)
  · simpa [oneHot] using hall
  · have hj' : j ≠ token := hj.ne
    simp only [oneHot, getElem_map, getElem_range, if_neg hj', ← Bool.not_eq_true,
      all_eq_true, decide_eq_true_eq]
    exact fun hle => absurd (hle 1 hone) (by decide)

theorem exactBackend_lawful : exactBackend.Lawful where
  div_one x := Int.ediv_one x
  argmax_nonneg _ := Int.natCast_nonneg _

section HistoryModel

variable (emitted : History → ℕ) (vocab : ℕ) (triggers : Option (List ℕ))

/-- What a row is fed: its tokens with the bits of the mask, which are zero without one. -/
def fedRow (tokens : List (List ℤ)) (mask : Option (List (List ℤ))) (i : ℕ) : History :=
  (tokens.getD i []).zip ((mask.getD (tokens.map fun row => row.map fun _ => 0)).getD i [])

/-- A model whose state is the position and the history of every row. -/
def historyModel : DragonModel (ℕ × (ℕ → History)) ℤ where
  initState := (0, fun _ => [])
  position := Prod.fst
  trim state _ := state
  selectBatch state indices := (state.1, fun i => (indices[i]?).elim [] state.2)
  forwardWithStateImpl tokens mask state :=
    (tokens.mapIdx fun i row => (List.range row.length).map fun k =>
        oneHot vocab (emitted (state.2 i ++ (fedRow tokens mask i).take (k + 1))),
      (state.1 + (tokens.headD []).length, fun i => state.2 i ++ fedRow tokens mask i))
  summaryMemoryWriteTriggerTokenIds := triggers

theorem historyModel_lawful : (historyModel emitted vocab triggers).Lawful where
  position_init := rfl
  position_forward {tokens _ _ _} hne hrect := by
    obtain ⟨first, rest, rfl⟩ := exists_cons_of_ne_nil hne
    exact congrArg _ (hrect first mem_cons_self)
  position_select := rfl
  trim_eq := rfl
  select_init {indices} := by
    refine Prod.ext rfl (funext fun i => ?_)
    change (indices[i]?).elim [] (fun _ => []) = []
    cases indices[i]? <;> rfl
  select_select {state indices i j} hj := by
    refine Prod.ext rfl (funext fun k => ?_)
    change ([j][k]?).elim [] (fun a => (indices[a]?).elim [] state.2) = ([i][k]?).elim [] state.2
    cases k with
    | zero => exact congrArg (Option.elim · [] state.2) hj
    | succ k => rfl
  shape {tokens mask state t} hrect := by
    refine ⟨length_mapIdx, fun row hrow => ?_⟩
    obtain ⟨i, hi, rfl⟩ := mem_mapIdx.1 hrow
    rw [length_map, length_range]
    exact hrect _ (getElem_mem hi)
  separable {tokens tokens' mask mask' state state' t i i' row bits} hrect hrect' _ _ hi hi' hb hb'
      hstate := by
    have hposition : state.1 = state'.1 := (Prod.ext_iff.1 hstate).1
    have hhistory : state.2 i = state'.2 i' := congrFun (Prod.ext_iff.1 hstate).2 0
    have hfed : fedRow tokens (some mask) i = fedRow tokens' (some mask') i' := by
      simp only [fedRow, getD_eq_getElem?_getD, hi, hi', hb, hb', Option.getD_some]
    have hhead : ∀ {rows : List (List ℤ)} {j : ℕ}, Rect rows t → rows[j]? = some row →
        (rows.headD []).length = t := by
      intro rows j hrows hj
      cases rows with
      | nil => simp at hj
      | cons first rest => exact hrows first mem_cons_self
    constructor
    · change (tokens.mapIdx _)[i]? = (tokens'.mapIdx _)[i']?
      rw [getElem?_mapIdx, getElem?_mapIdx, hi, hi', hfed, hhistory]
    · refine Prod.ext ?_ (funext fun k => ?_)
      · change state.1 + (tokens.headD []).length = state'.1 + (tokens'.headD []).length
        rw [hhead hrect hi, hhead hrect' hi', hposition]
      · cases k with
        | zero =>
          change state.2 i ++ fedRow tokens (some mask) i = state'.2 i' ++ fedRow tokens' (some mask') i'
          rw [hfed, hhistory]
        | succ k => rfl
  segment {xs ys bits bits' state} _ _ hbits _ := by
    have hfed : fedRow [xs ++ ys] (some [bits ++ bits']) 0 = xs.zip bits ++ ys.zip bits' :=
      zip_append hbits.symm
    refine Prod.ext ?_ (Prod.ext ?_ (funext fun k => ?_))
    · change [(List.range (xs ++ ys).length).map fun k => oneHot vocab (emitted
          (state.2 0 ++ (fedRow [xs ++ ys] (some [bits ++ bits']) 0).take (k + 1)))] =
        [((List.range xs.length).map fun k =>
            oneHot vocab (emitted (state.2 0 ++ (xs.zip bits).take (k + 1)))) ++
          (List.range ys.length).map fun k =>
            oneHot vocab (emitted (state.2 0 ++ xs.zip bits ++ (ys.zip bits').take (k + 1)))]
      have hzip : (xs.zip bits).length = xs.length := by simp [hbits]
      rw [hfed, length_append, range_add, map_append, map_map]
      congr 2
      · refine map_congr_left fun k hk => ?_
        rw [take_append_of_le_length (by rw [hzip]; exact mem_range.1 hk)]
      · refine map_congr_left fun k _ => ?_
        have hplace : xs.length + k + 1 = (xs.zip bits).length + (k + 1) := by rw [hzip]; omega
        rw [Function.comp_apply, hplace, take_length_add_append, append_assoc]
    · change state.1 + (xs ++ ys).length = state.1 + xs.length + ys.length
      rw [length_append, Nat.add_assoc]
    · cases k with
      | zero =>
        change state.2 0 ++ fedRow [xs ++ ys] (some [bits ++ bits']) 0 =
          state.2 0 ++ xs.zip bits ++ ys.zip bits'
        rw [hfed, append_assoc]
      | succ k => simp [historyModel, fedRow]
  zero_mask := rfl

/-- The state of a row on its own, and its last logits. -/
theorem rowRun_historyModel (h : History) :
    rowRun (historyModel emitted vocab triggers) h =
      ((h.length, fun i => if i = 0 then h else []),
        if h = [] then [] else oneHot vocab (emitted h)) := by
  induction h using List.reverseRecOn with
  | nil => exact Prod.ext (Prod.ext rfl (funext fun i => by simp [historyModel])) rfl
  | append_singleton h a ih =>
    rw [rowRun_concat, ih]
    refine Prod.ext (Prod.ext ?_ (funext fun i => ?_)) ?_
    · simp [rowStep, historyModel]
    · cases i <;> simp [rowStep, historyModel, fedRow]
    · simp [rowStep, historyModel, fedRow, lastLogits, timeDim]

/-- **Every function of the history is emitted by a lawful model.** -/
theorem emit_historyModel {h : History} (hne : h ≠ []) (hvocab : emitted h < vocab) :
    emit exactBackend (historyModel emitted vocab triggers) h = emitted h := by
  rw [emit, rowRun_historyModel, if_neg hne, argmax_oneHot hvocab]

end HistoryModel

end BurnDragon.Generation
