import BurnDragon.Rust.Machine
import BurnDragon.Sorting.Exchange

/-!
# Percentile thresholds of the reward gate

`percentile_thresholds` of `gdpo/mod.rs` with the ways it takes for a group of rewards: the reward
of a group of one, two compared rewards, the sweeps of `percentile_thresholds_tensor`, a sort of
the data, and the kernel of `gdpo/cubecl.rs`. Each is the linear interpolation between two
neighbouring order statistics (`percentile`). Arithmetic is exact; the values of `f32` that are not
finite are kept.
-/

namespace BurnDragon.Training

open Sorting List Multiset Nat

/-! ## Values -/

/-- A value of `f32`. -/
inductive Scalar (K : Type*)
  | finite (value : K)
  | nan
  | infinite (negative : Bool)

section Model

variable {K : Type*} [Field K] [LinearOrder K]

open scoped Rust.Instances in
/-- `f32::MAX`. -/
def f32Max : K := (2 ^ 24 - 1) * 2 ^ 104

def Scalar.nanToNum : Scalar K → K
  | .finite value => value
  | .nan => 0
  | .infinite negative => if negative then -f32Max else f32Max

/-- The quantile with which all paths begin: 0 in place of a value that is not a number, and
clamped to the unit interval. -/
def Scalar.quantile : Scalar K → K
  | .finite value => max 0 (min value 1)
  | .nan => 0
  | .infinite negative => if negative then 0 else 1

variable {batch group : ℕ}

/-- `slice_dim` of every index of the second dimension. -/
def columns (values : Fin batch → Fin group → K) : List (Fin batch → K) :=
  List.ofFn fun idx b => values b idx

/-- The thresholds of a group of two. -/
def pairThresholds (values : Fin batch → Fin group → K) (quantile : K) : List K :=
  let v0 := (columns values).getD 0 0
  let v1 := (columns values).getD 1 0
  let lo := fun b => if v0 b ≤ v1 b then v0 b else v1 b
  let hi := fun b => if v0 b ≤ v1 b then v1 b else v0 b
  List.ofFn fun b => lo b + (hi b - lo b) * quantile

variable [FloorSemiring K]

/-- `percentile_thresholds_tensor`. -/
def percentileThresholdsTensor (values : Fin batch → Fin group → K) (quantile : Scalar K) :
    List K :=
  let quantile := quantile.quantile
  if batch = 0 ∨ group = 0 then List.replicate (max batch 1) 0
  else
    let columns := (List.range group).foldl (fun columns _ =>
      (List.range (group - 1)).foldl exchange columns) (columns values)
    let pos := ((group - 1 : ℕ) : K) * quantile
    let lower := ⌊pos⌋₊
    let upper := ⌈pos⌉₊
    let weight := pos - lower
    let lowerVal := columns.getD (min lower (group - 1)) 0
    let upperVal := columns.getD (min upper (group - 1)) 0
    List.ofFn fun b => lowerVal b + (upperVal b - lowerVal b) * weight

/-- The thresholds of the sorted rows of the data. -/
def sortThresholds (values : Fin batch → Fin group → K) (quantile : K) : List K :=
  List.ofFn fun b =>
    let row := (List.ofFn (values b)).mergeSort (· ≤ ·)
    let pos := ((group - 1 : ℕ) : K) * quantile
    let lower := ⌊pos⌋₊
    let upper := ⌈pos⌉₊
    let weight := pos - lower
    let lowerVal := row.getD (min lower (group - 1)) 0
    let upperVal := row.getD (min upper (group - 1)) 0
    lowerVal + (upperVal - lowerVal) * weight

/-- The exchange of the kernel at a position and the one before. -/
def exchangeBelow (scratch : List K) (j : ℕ) : List K :=
  match scratch[j - 1]?, scratch[j]? with
  | some prev, some curr => if curr < prev then (scratch.set (j - 1) curr).set j prev else scratch
  | _, _ => scratch

/-- `percentile_thresholds_kernel` on a row. -/
def kernelThreshold (scratch : List K) (quantile : K) : K :=
  let group := scratch.length
  if group = 1 then scratch.getD 0 0
  else if group = 2 then
    let a := scratch.getD 0 0
    let b := scratch.getD 1 0
    let lo := if a < b then a else b
    let hi := if a < b then b else a
    lo + (hi - lo) * quantile
  else
    let sorted := (List.range' 1 (group - 1)).foldl (fun scratch i =>
      (List.range i).reverse.foldl (fun scratch j => exchangeBelow scratch (j + 1)) scratch) scratch
    let pos := ((group - 1 : ℕ) : K) * quantile
    let lower := ⌊pos⌋₊
    let upper := if lower + 1 < group then lower + 1 else lower
    let weight := pos - lower
    let lowerVal := sorted.getD lower 0
    let upperVal := sorted.getD upper 0
    lowerVal + (upperVal - lowerVal) * weight

/-- `cubecl::MAX_GROUP`. -/
def maxGroup : ℕ := 8

/-- `percentile_thresholds`. Whether `try_percentile_thresholds_cubecl` runs the kernel depends on
the backend. -/
def percentileThresholds (kernelAvailable : Bool) (values : Fin batch → Fin group → Scalar K)
    (quantile : Scalar K) : List K :=
  let quantile := quantile.quantile
  let numbers := fun b idx => (values b idx).nanToNum
  if batch = 0 ∨ group = 0 then List.replicate (max batch 1) 0
  else if group = 1 then List.ofFn ((columns numbers).getD 0 0)
  else if group = 2 then pairThresholds numbers quantile
  else if group ≤ maxGroup ∧ kernelAvailable then
    List.ofFn fun b => kernelThreshold (List.ofFn (numbers b)) quantile
  else if group ≤ 8 then percentileThresholdsTensor numbers (.finite quantile)
  else sortThresholds numbers quantile

/-! ## Percentiles -/

/-- The value at a position of a sorted list, interpolated between the values around it. -/
def interpolated (sorted : List K) (position : K) : K :=
  sorted.getD ⌊position⌋₊ 0 +
    (sorted.getD ⌈position⌉₊ 0 - sorted.getD ⌊position⌋₊ 0) * (position - ⌊position⌋₊)

/-- The interpolation between the order statistics around a quantile. -/
def percentile (row : Multiset K) (quantile : K) : K :=
  interpolated (row.sort (· ≤ ·)) (((row.card - 1 : ℕ) : K) * quantile)

end Model

section Rows

variable {K : Type*} {batch group : ℕ} (values : Fin batch → Fin group → K)

/-- The rewards of a group as a multiset. -/
def rewards (values : Fin batch → Fin group → K) (b : Fin batch) :
    Multiset K :=
  (List.ofFn (values b) : Multiset K)

theorem length_columns : (columns values).length = group := length_ofFn

theorem ofFn_pair (values : Fin batch → Fin 2 → K) (b : Fin batch) :
    List.ofFn (values b) = [values b 0, values b 1] := by
  simp [ofFn_succ]

variable [LinearOrder K]

theorem map_columns (b : Fin batch) :
    (columns values).map (Pi.evalLatticeHom b) = List.ofFn (values b) := by
  rw [columns, map_ofFn]
  rfl

theorem getD_columns [Field K] (l : List (Fin batch → K)) (idx : ℕ) (b : Fin batch) :
    l.getD idx 0 b = (l.map (Pi.evalLatticeHom b)).getD idx 0 :=
  (getD_map (f := Pi.evalLatticeHom b) (d := (0 : Fin batch → K)) ..).symm

theorem exchangeBelow_succ (scratch : List K) (j : ℕ) :
    exchangeBelow scratch (j + 1) = exchange scratch j := by
  rw [exchangeBelow, exchange, Nat.add_sub_cancel]
  rcases hprev : scratch[j]? with _ | prev
  · rfl
  rcases hcurr : scratch[j + 1]? with _ | curr
  · rfl
  dsimp only
  split
  · next hlt => rw [inf_eq_right.mpr hlt.le, sup_eq_left.mpr hlt.le]
  · next hlt =>
    obtain ⟨hj, rfl⟩ := List.getElem?_eq_some_iff.mp hprev
    obtain ⟨hj', rfl⟩ := List.getElem?_eq_some_iff.mp hcurr
    rw [inf_eq_left.mpr (not_lt.mp hlt), sup_eq_right.mpr (not_lt.mp hlt), set_getElem_self,
      set_getElem_self]

/-- The loops of the kernel are insertions; the first element has none before it. -/
theorem foldl_exchangeBelow (scratch : List K) :
    (List.range' 1 (scratch.length - 1)).foldl (fun scratch i =>
      (List.range i).reverse.foldl (fun scratch j => exchangeBelow scratch (j + 1)) scratch)
        scratch = insertions scratch := by
  simp only [exchangeBelow_succ]
  cases scratch with
  | nil => rfl
  | cons a rest =>
    rw [insertions, range_eq_range', length_cons, range'_succ, Nat.add_one_sub_one]
    rfl

end Rows

section Quantile

variable {K : Type*} [Field K] [LinearOrder K]

theorem quantile_finite {quantile : K} (h : 0 ≤ quantile) (h' : quantile ≤ 1) :
    (Scalar.finite quantile).quantile = quantile := by
  rw [Scalar.quantile, min_eq_left h', max_eq_right h]

variable [IsStrictOrderedRing K]

theorem quantile_nonneg (quantile : Scalar K) : 0 ≤ quantile.quantile := by
  cases quantile with
  | finite value => exact le_max_left _ _
  | nan => exact le_rfl
  | infinite negative => cases negative <;> simp [Scalar.quantile]

theorem quantile_le_one (quantile : Scalar K) : quantile.quantile ≤ 1 := by
  cases quantile with
  | finite value => exact max_le zero_le_one (min_le_right _ _)
  | nan => exact zero_le_one
  | infinite negative => cases negative <;> simp [Scalar.quantile]

variable {group : ℕ} {quantile : K}

theorem position_nonneg (h : 0 ≤ quantile) : 0 ≤ ((group - 1 : ℕ) : K) * quantile :=
  mul_nonneg (cast_nonneg _) h

variable [FloorSemiring K]

theorem ceil_position_le (h : quantile ≤ 1) : ⌈((group - 1 : ℕ) : K) * quantile⌉₊ ≤ group - 1 :=
  ceil_le.mpr (mul_le_of_le_one_right (cast_nonneg _) h)

theorem floor_position_le (h : quantile ≤ 1) : ⌊((group - 1 : ℕ) : K) * quantile⌋₊ ≤ group - 1 :=
  (floor_le_ceil _).trans (ceil_position_le h)

end Quantile

section Percentile

/-- The order in which a row stands does not matter to a sort of it. -/
theorem sort_eq_of_perm {α : Type*} [LinearOrder α] {row sorted : List α} (hperm : sorted.Perm row)
    (hsorted : sorted.Pairwise (· ≤ ·)) : (row : Multiset α).sort (· ≤ ·) = sorted := by
  refine List.Perm.eq_of_pairwise' (pairwise_sort _ _) hsorted ?_
  exact (coe_eq_coe.mp (sort_eq _ _)).trans hperm.symm

variable {K : Type*} [Field K] [LinearOrder K] [FloorSemiring K]

/-- The interpolation in a sorted row is the percentile of the row. -/
theorem interpolated_eq_percentile {row sorted : List K} (hperm : sorted.Perm row)
    (hsorted : sorted.Pairwise (· ≤ ·)) (quantile : K) :
    interpolated sorted (((row.length - 1 : ℕ) : K) * quantile) =
      percentile (row : Multiset K) quantile := by
  rw [percentile, sort_eq_of_perm hperm hsorted, coe_card]

variable [IsStrictOrderedRing K]

variable {quantile : K}

/-- A percentile lies between two of the values. -/
theorem percentile_mem_Icc {row : List K} (hrow : row ≠ []) (h : 0 ≤ quantile) (h' : quantile ≤ 1) :
    ∃ low ∈ row, ∃ high ∈ row, low ≤ percentile (row : Multiset K) quantile ∧
      percentile (row : Multiset K) quantile ≤ high := by
  have hpos : 0 < row.length := length_pos_iff.mpr hrow
  set sorted := (row : Multiset K).sort (· ≤ ·) with hsort
  set position := ((row.length - 1 : ℕ) : K) * quantile with hposition
  have hlength : sorted.length = row.length := by
    rw [hsort, length_sort, coe_card]
  have hceil : ⌈position⌉₊ < sorted.length := by
    have hle : ⌈position⌉₊ ≤ row.length - 1 := ceil_position_le h'
    omega
  have hfloor : ⌊position⌋₊ < sorted.length := (floor_le_ceil _).trans_lt hceil
  have hmem : ∀ x ∈ sorted, x ∈ row := fun x hx => mem_coe.mp ((mem_sort _).mp hx)
  have hle : sorted[⌊position⌋₊] ≤ sorted[⌈position⌉₊] := by
    have hsorted : sorted.Pairwise (· ≤ ·) := pairwise_sort _ _
    rcases (floor_le_ceil position).eq_or_lt with heq | hlt
    · simp only [heq, le_refl]
    · exact pairwise_iff_getElem.mp hsorted _ _ hfloor hceil hlt
  have hweight : 0 ≤ position - ⌊position⌋₊ := sub_nonneg.mpr (floor_le (position_nonneg h))
  have hweight' : position - ⌊position⌋₊ ≤ 1 := by
    have hlt := lt_floor_add_one position
    rw [add_comm] at hlt
    exact (sub_lt_iff_lt_add.mpr hlt).le
  have hvalue : percentile (row : Multiset K) quantile = sorted[⌊position⌋₊] +
      (sorted[⌈position⌉₊] - sorted[⌊position⌋₊]) * (position - ⌊position⌋₊) := by
    rw [percentile, interpolated, coe_card, getD_eq_getElem _ _ hfloor,
      getD_eq_getElem _ _ hceil]
  refine ⟨_, hmem _ (getElem_mem hfloor), _, hmem _ (getElem_mem hceil), ?_, ?_⟩
  · rw [hvalue]
    exact le_add_of_nonneg_right (mul_nonneg (sub_nonneg.mpr hle) hweight)
  · have hmul : (sorted[⌈position⌉₊] - sorted[⌊position⌋₊]) * (position - ⌊position⌋₊) ≤
        sorted[⌈position⌉₊] - sorted[⌊position⌋₊] :=
      mul_le_of_le_one_right (sub_nonneg.mpr hle) hweight'
    rw [hvalue]
    exact (add_le_add_right hmul _).trans_eq (add_sub_cancel _ _)

/-! ## The paths -/

section Interpolation

variable {sorted : List K} {group : ℕ} {quantile : K}

/-- The indices need not be clamped. -/
theorem interpolated_min (h' : quantile ≤ 1) :
    sorted.getD (min ⌊((group - 1 : ℕ) : K) * quantile⌋₊ (group - 1)) 0 +
        (sorted.getD (min ⌈((group - 1 : ℕ) : K) * quantile⌉₊ (group - 1)) 0 -
          sorted.getD (min ⌊((group - 1 : ℕ) : K) * quantile⌋₊ (group - 1)) 0) *
          (((group - 1 : ℕ) : K) * quantile - ⌊((group - 1 : ℕ) : K) * quantile⌋₊) =
      interpolated sorted (((group - 1 : ℕ) : K) * quantile) := by
  rw [min_eq_left (floor_position_le h'), min_eq_left (ceil_position_le h'), interpolated]

/-- The kernel takes the next value in place of the ceiling, with weight 0 where the two differ. -/
theorem interpolated_next (hgroup : 0 < group) (h : 0 ≤ quantile) (h' : quantile ≤ 1) :
    sorted.getD ⌊((group - 1 : ℕ) : K) * quantile⌋₊ 0 +
        (sorted.getD (if ⌊((group - 1 : ℕ) : K) * quantile⌋₊ + 1 < group
            then ⌊((group - 1 : ℕ) : K) * quantile⌋₊ + 1
            else ⌊((group - 1 : ℕ) : K) * quantile⌋₊) 0 -
          sorted.getD ⌊((group - 1 : ℕ) : K) * quantile⌋₊ 0) *
          (((group - 1 : ℕ) : K) * quantile - ⌊((group - 1 : ℕ) : K) * quantile⌋₊) =
      interpolated sorted (((group - 1 : ℕ) : K) * quantile) := by
  set position := ((group - 1 : ℕ) : K) * quantile
  have hceil : ⌈position⌉₊ ≤ group - 1 := ceil_position_le h'
  have hle : (⌊position⌋₊ : K) ≤ position := floor_le (position_nonneg h)
  rcases hle.eq_or_lt with heq | hlt
  · rw [interpolated, sub_eq_zero.mpr heq.symm, mul_zero, mul_zero]
  · have hnext : ⌈position⌉₊ = ⌊position⌋₊ + 1 :=
      le_antisymm (ceil_le_floor_add_one position) (lt_ceil.mpr hlt)
    rw [if_pos (by omega), interpolated, hnext]

end Interpolation

variable {batch group : ℕ} (values : Fin batch → Fin group → K)

theorem interpolated_rewards {b : Fin batch} {sorted : List K}
    (hperm : sorted.Perm (List.ofFn (values b))) (hsorted : sorted.Pairwise (· ≤ ·))
    (quantile : K) :
    interpolated sorted (((group - 1 : ℕ) : K) * quantile) =
      percentile (rewards values b) quantile := by
  have h := interpolated_eq_percentile hperm hsorted quantile
  rwa [length_ofFn] at h

theorem sortThresholds_eq (h' : quantile ≤ 1) :
    sortThresholds values quantile = List.ofFn fun b => percentile (rewards values b) quantile := by
  refine congrArg List.ofFn (funext fun b => ?_)
  dsimp only
  rw [interpolated_min h']
  refine interpolated_rewards values (mergeSort_perm _ _) ?_ quantile
  exact (pairwise_mergeSort (by simpa using fun _ _ _ => le_trans)
    (by simpa using le_total) _).imp (by simp)

/-! ### The sweeps -/

theorem percentileThresholdsTensor_eq (hbatch : 0 < batch) (hgroup : 0 < group)
    (quantile : Scalar K) :
    percentileThresholdsTensor values quantile =
      List.ofFn fun b => percentile (rewards values b) quantile.quantile := by
  rw [percentileThresholdsTensor, if_neg (by omega)]
  refine congrArg List.ofFn (funext fun b => ?_)
  rw [foldl_sweeps _ (length_columns values), length_range, getD_columns, getD_columns,
    map_sweep_iterate, map_columns, interpolated_min (quantile_le_one quantile)]
  exact interpolated_rewards values (sweep_iterate_perm _ _)
    (pairwise_sweep_iterate length_ofFn.le) _

/-! ### Small groups -/

theorem interpolated_singleton (a quantile : K) :
    interpolated [a] (((1 - 1 : ℕ) : K) * quantile) = a := by
  simp [interpolated]

theorem interpolated_pair (lo hi : K) (h : 0 ≤ quantile) (h' : quantile ≤ 1) :
    interpolated [lo, hi] (((2 - 1 : ℕ) : K) * quantile) = lo + (hi - lo) * quantile := by
  rw [← interpolated_next Nat.two_pos h h']
  simp only [Nat.add_one_sub_one, Nat.cast_one, one_mul]
  rcases h'.eq_or_lt with rfl | hlt
  · simp
  · simp [floor_eq_zero.mpr hlt]

theorem percentile_pair {values : Fin batch → Fin 2 → K} {b : Fin batch} {lo hi : K}
    (h : 0 ≤ quantile) (h' : quantile ≤ 1) (hperm : [lo, hi].Perm (List.ofFn (values b)))
    (hle : lo ≤ hi) :
    lo + (hi - lo) * quantile = percentile (rewards values b) quantile := by
  rw [← interpolated_pair lo hi h h']
  exact interpolated_rewards values hperm (pairwise_pair.mpr hle) quantile

theorem pairThresholds_eq (values : Fin batch → Fin 2 → K) (h : 0 ≤ quantile) (h' : quantile ≤ 1) :
    pairThresholds values quantile =
      List.ofFn fun b => percentile (rewards values b) quantile := by
  refine congrArg List.ofFn (funext fun b => ?_)
  have hcolumns : columns values = [fun b => values b 0, fun b => values b 1] := by
    simp [columns, ofFn_succ]
  simp only [hcolumns, getD_cons_zero, getD_cons_succ]
  refine percentile_pair h h' ?_ ?_
  · rw [ofFn_pair]
    split
    · exact .refl _
    · exact List.Perm.swap _ _ _
  · split
    · assumption
    · next hle => exact (not_le.mp hle).le

/-! ### The kernel -/

theorem kernelThreshold_eq (b : Fin batch) (hgroup : 0 < group) (h : 0 ≤ quantile)
    (h' : quantile ≤ 1) :
    kernelThreshold (List.ofFn (values b)) quantile = percentile (rewards values b) quantile := by
  have hlength : (List.ofFn (values b)).length = group := length_ofFn
  rw [kernelThreshold]
  dsimp only
  split
  · next hone =>
    obtain ⟨a, ha⟩ := length_eq_one_iff.mp hone
    rw [← interpolated_rewards values (.refl _) (ha ▸ pairwise_singleton _ _), ha,
      ← hlength, hone, interpolated_singleton]
    rfl
  split
  · next htwo =>
    obtain rfl : group = 2 := hlength.symm.trans htwo
    rw [ofFn_pair]
    refine percentile_pair h h' ?_ ?_
    · rw [ofFn_pair]
      simp only [getD_cons_zero, getD_cons_succ]
      split
      · exact .refl _
      · exact List.Perm.swap _ _ _
    · split
      · next hlt => exact hlt.le
      · next hlt => exact not_lt.mp hlt
  · rw [foldl_exchangeBelow, hlength, interpolated_next hgroup h h']
    exact interpolated_rewards values (insertions_perm _) (pairwise_insertions _) quantile

/-! ### The choice of a path -/

theorem percentile_singleton (values : Fin batch → Fin 1 → K) (b : Fin batch) (quantile : K) :
    percentile (rewards values b) quantile = values b 0 := by
  have hrow : List.ofFn (values b) = [values b 0] := by simp [ofFn_succ]
  rw [← interpolated_rewards values (.refl _) (hrow ▸ pairwise_singleton _ _), hrow,
    interpolated_singleton]

/-- Every path gives the percentiles of the rows, with the values in place of those that are not
finite. -/
theorem percentileThresholds_eq (kernelAvailable : Bool) (values : Fin batch → Fin group → Scalar K)
    (quantile : Scalar K) (hbatch : 0 < batch) (hgroup : 0 < group) :
    percentileThresholds kernelAvailable values quantile =
      List.ofFn fun b =>
        percentile (rewards (fun b idx => (values b idx).nanToNum) b) quantile.quantile := by
  have hnonneg := quantile_nonneg quantile
  have hle := quantile_le_one quantile
  rw [percentileThresholds]
  dsimp only
  rw [if_neg (by omega)]
  split
  · next hone =>
    subst hone
    refine congrArg List.ofFn (funext fun b => ?_)
    rw [percentile_singleton]
    simp [columns, ofFn_succ]
  split
  · next htwo =>
    subst htwo
    exact pairThresholds_eq _ hnonneg hle
  split
  · exact congrArg List.ofFn (funext fun b =>
      kernelThreshold_eq (fun b idx => (values b idx).nanToNum) b hgroup hnonneg hle)
  split
  · rw [percentileThresholdsTensor_eq _ hbatch hgroup, quantile_finite hnonneg hle]
  · exact sortThresholds_eq _ hle

/-- **Percentile thresholds.** For rewards that are finite, every path that the code takes for a
group, on a backend with or without the kernel, gives the interpolation between the order
statistics around the quantile, and so do the sweeps and the sort for groups of every size and the
comparison for a group of two. The threshold does not depend on the order of a row and lies between
two of its rewards. -/
theorem percentileThresholds_agree (values : Fin batch → Fin group → K) (quantile : Scalar K)
    (hbatch : 0 < batch) (hgroup : 0 < group) :
    let expected := List.ofFn fun b => percentile (rewards values b) quantile.quantile
    (∀ kernelAvailable, percentileThresholds kernelAvailable
      (fun b idx => .finite (values b idx)) quantile = expected) ∧
    percentileThresholdsTensor values quantile = expected ∧
    sortThresholds values quantile.quantile = expected ∧
    (∀ pairs : Fin batch → Fin 2 → K, pairThresholds pairs quantile.quantile =
      List.ofFn fun b => percentile (rewards pairs b) quantile.quantile) ∧
    (∀ values' : Fin batch → Fin group → K,
      (∀ b, (List.ofFn (values' b)).Perm (List.ofFn (values b))) →
      ∀ kernelAvailable, percentileThresholds kernelAvailable
        (fun b idx => .finite (values' b idx)) quantile = expected) ∧
    ∀ b, ∃ low high, percentile (rewards values b) quantile.quantile ∈ Set.Icc low high ∧
      low ∈ rewards values b ∧ high ∈ rewards values b := by
  have hnonneg := quantile_nonneg quantile
  have hle := quantile_le_one quantile
  have hpaths : ∀ (values : Fin batch → Fin group → K) kernelAvailable,
      percentileThresholds kernelAvailable (fun b idx => .finite (values b idx)) quantile =
        List.ofFn fun b => percentile (rewards values b) quantile.quantile :=
    fun values kernelAvailable => percentileThresholds_eq kernelAvailable _ quantile hbatch hgroup
  refine ⟨hpaths values, percentileThresholdsTensor_eq values hbatch hgroup quantile,
    sortThresholds_eq values hle, fun pairs => pairThresholds_eq pairs hnonneg hle, ?_, fun b => ?_⟩
  · intro values' hperm kernelAvailable
    have hrewards : rewards values' = rewards values :=
      funext fun b => Multiset.coe_eq_coe.mpr (hperm b)
    rw [hpaths, hrewards]
  · have hrow : List.ofFn (values b) ≠ [] := by
      rw [← List.length_pos_iff, List.length_ofFn]
      exact hgroup
    obtain ⟨low, hlow, high, hhigh, hmin, hmax⟩ := percentile_mem_Icc hrow hnonneg hle
    exact ⟨low, high, ⟨hmin, hmax⟩, hlow, hhigh⟩

end Percentile

/-- The thresholds of a group of four at the first quarter. -/
theorem percentileThresholds_agree_four :
    percentileThresholdsTensor (fun (_ : Fin 1) idx => ([6, 0, 4, 2] : List ℚ).get idx)
      (.finite (1 / 4)) = [3 / 2] ∧
    percentileThresholdsTensor (fun (_ : Fin 1) idx => ([6, 0, 4, 2] : List ℚ).get idx)
      (.finite (1 / 4)) =
      sortThresholds (fun (_ : Fin 1) idx => ([6, 0, 4, 2] : List ℚ).get idx)
        (Scalar.finite (1 / 4 : ℚ)).quantile := by
  have h := percentileThresholds_agree (fun (_ : Fin 1) idx => ([6, 0, 4, 2] : List ℚ).get idx)
    (.finite (1 / 4)) Nat.one_pos (by decide)
  exact ⟨by decide +kernel, h.2.1.trans h.2.2.1.symm⟩

end BurnDragon.Training
