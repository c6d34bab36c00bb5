import Mathlib

/-!
# Row-major buffers

A table of `n` rows of the same width lies in one buffer, row after row. `ofData` reads the rows out
of the buffer, and what is written to a buffer at an offset inside row `r` (`copyFromSlice`) is
written to that row of the table (`copyFromSlice_flatten`).
-/

namespace BurnDragon.Layout

open List

variable {α β : Type*}

/-! ## Slices -/

/-- `buf[start..start + len]`. -/
def slice (start len : ℕ) (buf : List α) : List α := (buf.drop start).take len

/-- `buf[start..start + src.len()].copy_from_slice(src)`. -/
def copyFromSlice (start : ℕ) (src buf : List α) : List α :=
  buf.take start ++ src ++ buf.drop (start + src.length)

theorem length_copyFromSlice {start : ℕ} {src buf : List α} (h : start + src.length ≤ buf.length) :
    (copyFromSlice start src buf).length = buf.length := by
  simp only [copyFromSlice, length_append, length_take, length_drop]
  omega

/-! ## Tables -/

/-- Every row of a table has the same length. -/
def Rect (table : List (List α)) (width : ℕ) : Prop := ∀ row ∈ table, row.length = width

/-- The rows of a buffer. -/
def ofData (rows width : ℕ) (buf : List α) : List (List α) :=
  (List.range rows).map fun r => slice (r * width) width buf

@[simp] theorem length_ofData (rows width : ℕ) (buf : List α) :
    (ofData rows width buf).length = rows := by
  simp [ofData]

variable {width : ℕ} {table : List (List α)}

/-- What is listed block by block is listed one by one. -/
theorem flatMap_range_blocks (f : ℕ → α) (rows width : ℕ) :
    ((List.range rows).flatMap fun r => (List.range width).map fun i => f (r * width + i)) =
      (List.range (rows * width)).map f := by
  induction rows with
  | zero => simp
  | succ rows ih =>
    rw [range_succ, flatMap_append, ih, flatMap_singleton, Nat.succ_mul,
      range_add, map_append, map_map]
    rfl

/-- Reading beyond the end pads a list. -/
theorem map_getD_range (xs : List α) (pad : α) {count : ℕ} (h : xs.length ≤ count) :
    (List.range count).map (fun i => xs[i]?.getD pad) =
      xs ++ List.replicate (count - xs.length) pad := by
  obtain ⟨rest, rfl⟩ := Nat.exists_eq_add_of_le h
  have hxs : (List.range xs.length).map (fun i => xs[i]?.getD pad) = xs :=
    ext_getElem (by simp) fun i hi hi' => by
      rw [getElem_map, getElem_range, getElem?_eq_getElem hi']
      rfl
  rw [range_add, map_append, hxs, map_map, Nat.add_sub_cancel_left]
  simp [Function.comp_def]

/-- A table is listed row after row. -/
theorem flatMap_range_map_range (f : ℕ → ℕ → α) (rows width : ℕ) :
    ((List.range rows).flatMap fun y => (List.range width).map fun x => f x y) =
      (List.range (rows * width)).map fun k => f (k % width) (k / width) := by
  induction rows with
  | zero => simp
  | succ rows ih =>
    rw [range_succ, flatMap_append, ih, Nat.succ_mul, range_add, map_append,
      flatMap_singleton, map_map]
    congr 1
    refine map_congr_left fun x hx => ?_
    have hlt := mem_range.1 hx
    simp only [Function.comp_apply]
    rw [Nat.mul_comm rows, Nat.mul_add_mod, Nat.mod_eq_of_lt hlt,
      Nat.mul_add_div (Nat.zero_lt_of_lt hlt), Nat.div_eq_of_lt hlt, Nat.add_zero]

theorem length_flatten_eq (h : Rect table width) :
    table.flatten.length = table.length * width := by
  induction table with
  | nil => simp
  | cons row table ih =>
    rw [flatten_cons, length_append, h row mem_cons_self,
      ih fun r hr => h r (mem_cons_of_mem _ hr), length_cons]
    ring

theorem drop_flatten (h : Rect table width) (r : ℕ) :
    table.flatten.drop (r * width) = (table.drop r).flatten := by
  induction table generalizing r with
  | nil => simp
  | cons row table ih =>
    have htable : Rect table width := fun r hr => h r (mem_cons_of_mem _ hr)
    cases r with
    | zero => simp
    | succ r =>
      have hwidth : (r + 1) * width = row.length + r * width := by
        rw [h row mem_cons_self]
        ring
      rw [flatten_cons, drop_succ_cons, ← ih htable r, hwidth, ← drop_drop, drop_left]

theorem take_flatten (h : Rect table width) (r : ℕ) :
    table.flatten.take (r * width) = (table.take r).flatten := by
  have hsplit := (take_append_drop (r * width) table.flatten).trans
    (congrArg flatten (take_append_drop r table)).symm
  rw [drop_flatten h, flatten_append] at hsplit
  exact append_cancel_right hsplit

theorem slice_flatten (h : Rect table width) {r : ℕ} {row : List α}
    (hrow : table[r]? = some row) : slice (r * width) width table.flatten = row := by
  have hdrop : table.drop r = row :: table.drop (r + 1) := by
    obtain ⟨hr, rfl⟩ := List.getElem?_eq_some_iff.1 hrow
    exact drop_eq_getElem_cons hr
  rw [slice, drop_flatten h, hdrop, flatten_cons, take_left' (h row (mem_of_getElem? hrow))]

/-- Rows written one after the other are read back. -/
theorem getElem?_ofData_flatMap {rows r : ℕ} {f : ℕ → List α} (hf : ∀ r, (f r).length = width)
    (hr : r < rows) :
    (ofData rows width ((List.range rows).flatMap f))[r]? = some (f r) := by
  have hrect : Rect ((List.range rows).map f) width := by
    intro row hrow
    obtain ⟨r, -, rfl⟩ := mem_map.1 hrow
    exact hf r
  have hrow : ((List.range rows).map f)[r]? = some (f r) := by
    rw [getElem?_map, getElem?_range hr]
    rfl
  rw [ofData, getElem?_map, getElem?_range hr, Option.map_some, flatMap_def,
    slice_flatten hrect hrow]

theorem ofData_flatten (h : Rect table width) :
    ofData table.length width table.flatten = table := by
  refine ext_getElem (by simp) fun r hr hr' => ?_
  simp only [ofData, getElem_map, getElem_range]
  exact slice_flatten h (getElem?_eq_getElem hr')

/-! ## Writing one row -/

/-- A write inside row `r` of the buffer is a write to row `r` of the table. -/
theorem copyFromSlice_flatten (h : Rect table width) {r : ℕ} (hr : r < table.length) (start : ℕ)
    {src : List α} (hsrc : start + src.length ≤ width) :
    copyFromSlice (r * width + start) src table.flatten =
      (table.modify r (copyFromSlice start src)).flatten := by
  have hlen : (table[r]).length = width := h _ (getElem_mem hr)
  have hdrop : table.drop r = table[r] :: table.drop (r + 1) := drop_eq_getElem_cons hr
  have htake : table.flatten.take (r * width + start) =
      (table.take r).flatten ++ (table[r]).take start := by
    rw [take_add, take_flatten h, drop_flatten h, hdrop, flatten_cons,
      take_append_of_le_length (by omega)]
  have hrest : table.flatten.drop (r * width + start + src.length) =
      (table[r]).drop (start + src.length) ++ (table.drop (r + 1)).flatten := by
    rw [Nat.add_assoc, ← drop_drop, drop_flatten h, hdrop, flatten_cons,
      drop_append_of_le_length (by omega)]
  rw [copyFromSlice, htake, hrest, modify_eq_take_cons_drop hr, flatten_append,
    flatten_cons, copyFromSlice]
  simp only [append_assoc]

/-- Filling a table row by row. -/
theorem foldl_modify_range (f : ℕ → α → α) (table : List α) (n : ℕ) :
    (List.range n).foldl (fun table r => table.modify r (f r)) table =
      table.mapIdx fun r row => if r < n then f r row else row := by
  induction n with
  | zero => simp [mapIdx_eq_zipIdx_map]
  | succ n ih =>
    rw [range_succ, foldl_append, ih, foldl_cons, foldl_nil]
    refine ext_getElem (by simp) fun i hi hi' => ?_
    simp only [getElem_modify, getElem_mapIdx]
    grind

/-- A loop over the rows whose pass `r` changes row `r` only changes every row once. -/
theorem foldl_rows {n : ℕ} {pass : ℕ → List α → List α} (f : ℕ → List α → List α)
    (hf : ∀ r row, r < n → row.length = width → (f r row).length = width)
    (hpass : ∀ r table, r < n → table.length = n → Rect table width →
      pass r table.flatten = (table.modify r (f r)).flatten)
    (htable : table.length = n) (hrect : Rect table width) :
    (List.range n).foldl (fun buf r => pass r buf) table.flatten = (table.mapIdx f).flatten := by
  have hinitial : ∀ k ≤ n, (List.range k).foldl (fun buf r => pass r buf) table.flatten =
      (table.mapIdx fun r row => if r < k then f r row else row).flatten := by
    intro k hk
    rw [← foldl_modify_range]
    have hinv : ∀ k ≤ n,
        ((List.range k).foldl (fun table r => table.modify r (f r)) table).length = n ∧
        Rect ((List.range k).foldl (fun table r => table.modify r (f r)) table) width := by
      intro k hk
      rw [foldl_modify_range]
      refine ⟨by simp [htable], fun row hrow => ?_⟩
      obtain ⟨r, hr, rfl⟩ := mem_mapIdx.1 hrow
      have hlen := hrect _ (getElem_mem hr)
      split
      · exact hf r _ (by omega) hlen
      · exact hlen
    induction k with
    | zero => rfl
    | succ k ih =>
      obtain ⟨hlen, hrect'⟩ := hinv k (by omega)
      rw [range_succ, foldl_append, foldl_append, ih (by omega), foldl_cons,
        foldl_nil, foldl_cons, foldl_nil, hpass k _ (by omega) hlen hrect']
  rw [hinitial n le_rfl]
  congr 1
  refine ext_getElem (by simp) fun i hi hi' => ?_
  have : i < n := by simpa [htable] using hi
  simp [this]

/-- Writing the whole of every row. -/
theorem foldl_copyFromSlice {n : ℕ} {rows : ℕ → List α}
    (hrows : ∀ r < n, (rows r).length = width)
    (htable : table.length = n) (hrect : Rect table width) :
    (List.range n).foldl (fun buf r => copyFromSlice (r * width) (rows r) buf) table.flatten =
      ((List.range n).map rows).flatten := by
  have hwrite : ∀ r row, r < n → row.length = width → copyFromSlice 0 (rows r) row = rows r := by
    intro r row hr hrow
    rw [copyFromSlice, take_zero, nil_append, Nat.zero_add, hrows r hr,
      drop_eq_nil_of_le hrow.le, append_nil]
  have hpass : ∀ r table, r < n → table.length = n → Rect table width →
      copyFromSlice (r * width) (rows r) table.flatten =
        (table.modify r (copyFromSlice 0 (rows r))).flatten := fun r table hr hlen hrect =>
    copyFromSlice_flatten hrect (by omega) 0 (by rw [hrows r hr, Nat.zero_add])
  rw [foldl_rows (fun r => copyFromSlice 0 (rows r))
    (fun r row hr hrow => (congrArg List.length (hwrite r row hr hrow)).trans (hrows r hr)) hpass
    htable hrect]
  congr 1
  refine ext_getElem (by simp [htable]) fun i hi hi' => ?_
  rw [getElem_mapIdx, getElem_map, getElem_range]
  exact hwrite i _ (by simpa [htable] using hi) (hrect _ (getElem_mem _))

end BurnDragon.Layout
