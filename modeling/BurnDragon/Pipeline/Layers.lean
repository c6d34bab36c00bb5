import BurnDragon.Pipeline.Plan

/-!
# Layers and stages of a plan

`partition_layers` gives every virtual stage the next layers, one more to the first stages when the
division leaves a remainder (`partitionLayers_eq`). The assignments of a physical stage are those of
the virtual stages with its residue (`assignmentsByPhysicalStage_eq`).
-/

namespace BurnDragon.Pipeline

open Rust List

variable {nLayer physicalStageCount virtualStagesPerRank base remainder : ℕ}

/-! ## The layer cursor -/

/-- Where the layers of a virtual stage start. -/
def layerCursor (base remainder virtualStageId : ℕ) : ℕ :=
  virtualStageId * base + min virtualStageId remainder

theorem layerCursor_succ (v : ℕ) : layerCursor base remainder (v + 1) =
    layerCursor base remainder v + (base + if v < remainder then 1 else 0) := by
  simp only [layerCursor, Nat.add_mul]
  split <;> omega

/-- The layers are used up by the last virtual stage. -/
theorem layerCursor_total {total : ℕ} (hpos : 0 < total) :
    layerCursor (nLayer / total) (nLayer % total) total = nLayer := by
  rw [layerCursor, Nat.min_eq_right (Nat.mod_lt _ hpos).le]
  exact Nat.div_add_mod nLayer total

variable (physicalStageCount base remainder) in
/-- The assignment of a virtual stage. -/
def stageAssignment (v : ℕ) : PipelineStageAssignment :=
  ⟨v, v % physicalStageCount, v / physicalStageCount,
    (layerCursor base remainder v, layerCursor base remainder (v + 1))⟩

theorem foldl_assignLayers (total : ℕ) :
    (List.range total).foldl (assignLayers base remainder physicalStageCount) (0, []) =
      (layerCursor base remainder total,
        (List.range total).map (stageAssignment physicalStageCount base remainder)) := by
  induction total with
  | zero => simp [layerCursor]
  | succ total ih =>
    rw [range_succ, foldl_append, ih, map_append, foldl_cons, foldl_nil,
      assignLayers, ← layerCursor_succ]
    rfl

variable (nLayer) in
/-- What `partition_layers` returns when the number of virtual stages does not overflow. -/
theorem partitionLayers_eq (h : physicalStageCount * virtualStagesPerRank ≤ usizeMax) :
    partitionLayers nLayer physicalStageCount virtualStagesPerRank =
      .ok ((List.range (physicalStageCount * virtualStagesPerRank)).map
        (stageAssignment physicalStageCount
          (nLayer / (physicalStageCount * virtualStagesPerRank))
          (nLayer % (physicalStageCount * virtualStagesPerRank)))) := by
  rw [partitionLayers, checkedMul, if_pos h]
  simp only [foldl_assignLayers]

/-! ## Physical stages -/

/-- Dealing items to numbered places keeps their order. -/
theorem foldl_modify_append {α : Type*} (place : α → ℕ) (l : List α) (acc : List (List α)) :
    l.foldl (fun acc a => acc.modify (place a) (· ++ [a])) acc =
      acc.mapIdx fun p items => items ++ l.filter fun a => place a = p := by
  induction l generalizing acc with
  | nil => simp [mapIdx_eq_zipIdx_map]
  | cons a l ih =>
    rw [foldl_cons, ih]
    refine ext_getElem (by simp) fun p hp hp' => ?_
    simp only [getElem_mapIdx, getElem_modify, filter_cons]
    by_cases hplace : place a = p <;> simp [hplace]

/-- Counting items by place. -/
theorem foldl_modify_succ {α : Type*} (place : α → ℕ) (l : List α) (acc : List ℕ) :
    l.foldl (fun acc a => acc.modify (place a) (· + 1)) acc =
      acc.mapIdx fun p count => count + l.countP fun a => place a = p := by
  induction l generalizing acc with
  | nil => simp [mapIdx_eq_zipIdx_map]
  | cons a l ih =>
    rw [foldl_cons, ih]
    refine ext_getElem (by simp) fun p hp hp' => ?_
    simp only [getElem_mapIdx, getElem_modify, countP_cons]
    by_cases hplace : place a = p
    · simp only [hplace, if_true, decide_true]
      omega
    · simp [hplace]

theorem assignmentsByPhysicalStage_eq (stageAssignments : List PipelineStageAssignment) :
    assignmentsByPhysicalStage physicalStageCount stageAssignments =
      (List.range physicalStageCount).map fun p =>
        stageAssignments.filter fun a => a.physicalStageId = p := by
  rw [assignmentsByPhysicalStage, foldl_modify_append PipelineStageAssignment.physicalStageId]
  refine ext_getElem (by simp) fun p hp hp' => ?_
  simp

end BurnDragon.Pipeline
