import BurnDragon.Layout.RowMajor

/-!
# Segments of a list

A list that is cut into consecutive segments. `segmentStart` is the place of a segment in the whole
list, and a range inside of a segment is a range of the whole list (`slice_segment`). A binary search
for the first segment that ends beyond a place finds the segment in which the place lies
(`segment_of_findIdx`).
-/

namespace BurnDragon.Layout

open List

variable {α β : Type*} {segments : List (List α)} {n : ℕ}

/-- The place of a segment. -/
def segmentStart (segments : List (List α)) (i : ℕ) : ℕ := (segments.take i).flatten.length

@[simp] theorem segmentStart_zero : segmentStart segments 0 = 0 := by simp [segmentStart]

variable {i : ℕ}

theorem segmentStart_succ (hi : i < segments.length) :
    segmentStart segments (i + 1) = segmentStart segments i + segments[i].length := by
  rw [segmentStart, segmentStart, take_add_one, getElem?_eq_getElem hi, flatten_append,
    length_append, Option.toList_some, flatten_singleton]

theorem segmentStart_length : segmentStart segments segments.length = segments.flatten.length := by
  rw [segmentStart, take_length]

theorem segmentStart_mono {j : ℕ} (h : i ≤ j) :
    segmentStart segments i ≤ segmentStart segments j := by
  rw [segmentStart, segmentStart, ← take_append_drop i (segments.take j), take_take,
    min_eq_left h, flatten_append, length_append]
  exact Nat.le_add_right _ _

theorem segmentStart_append_left {rest : List (List α)} (hi : i ≤ segments.length) :
    segmentStart (segments ++ rest) i = segmentStart segments i := by
  rw [segmentStart, segmentStart, take_append_of_le_length hi]

variable {xs : List α} {start : ℕ}

theorem slice_append_right {ys : List α} (h : xs.length ≤ start) :
    slice start n (xs ++ ys) = slice (start - xs.length) n ys := by
  rw [slice, slice, drop_append, drop_eq_nil_of_le h, nil_append]

theorem slice_append_left {ys : List α} (h : start + n ≤ xs.length) :
    slice start n (xs ++ ys) = slice start n xs := by
  rw [slice, slice, drop_append_of_le_length (by omega),
    take_append_of_le_length (by rw [length_drop]; omega)]

theorem slice_add (start n n' : ℕ) (xs : List α) :
    slice start n xs ++ slice (start + n) n' xs = slice start (n + n') xs := by
  rw [slice, slice, slice, ← drop_drop, take_add]

theorem length_slice (h : start + n ≤ xs.length) :
    (slice start n xs).length = n := by
  simp only [slice, length_take, length_drop]
  omega

/-- A range of a segment. -/
theorem slice_segment (hi : i < segments.length) (h : start + n ≤ segments[i].length) :
    slice (segmentStart segments i + start) n segments.flatten = slice start n segments[i] := by
  have hsplit : segments.flatten =
      (segments.take i).flatten ++ (segments[i] ++ (segments.drop (i + 1)).flatten) := by
    conv_lhs => rw [← take_append_drop i segments, flatten_append,
      drop_eq_getElem_cons hi, flatten_cons]
  rw [hsplit, segmentStart, slice_append_right (Nat.le_add_right _ _), Nat.add_sub_cancel_left,
    slice_append_left h]

/-! ## Chunks -/

/-- Slices of one size that follow each other make up a beginning of the list. -/
theorem flatMap_slice (size count : ℕ) (xs : List α) :
    ((List.range count).flatMap fun i => slice (i * size) size xs) = xs.take (count * size) := by
  induction count with
  | zero => simp
  | succ count ih =>
    rw [range_succ, flatMap_append, ih, flatMap_singleton, Nat.succ_mul, take_add, slice]

/-- `chunks`: the list in slices of a size, the last one as long as what is left. -/
def chunks (size : ℕ) (xs : List α) : List (List α) :=
  (List.range ((xs.length + size - 1) / size)).map fun i => slice (i * size) size xs

section Chunks

variable {size : ℕ} {xs : List α}

theorem ne_nil_of_mem_chunks (hsize : 0 < size) {chunk : List α} (h : chunk ∈ chunks size xs) :
    chunk ≠ [] := by
  obtain ⟨i, hi, rfl⟩ := mem_map.1 h
  have hlt : i * size < xs.length := by
    have := Nat.mul_le_of_le_div size (i + 1) _ (mem_range.1 hi)
    rw [Nat.succ_mul] at this
    omega
  refine ne_nil_of_length_pos ?_
  rw [slice, length_take, length_drop]
  omega

theorem flatten_chunks (hsize : 0 < size) (xs : List α) : (chunks size xs).flatten = xs := by
  have hle : xs.length ≤ (xs.length + size - 1) / size * size := by
    have := Nat.lt_div_mul_add hsize (a := xs.length + size - 1)
    omega
  rw [chunks, ← flatMap_def, flatMap_slice, take_of_length_le hle]

end Chunks

/-! ## Entries -/

/-- Entries that say where segments begin and how long these are. -/
structure Describes (start count : β → ℕ) (entries : List β) (segments : List (List α)) : Prop where
  length_eq : entries.length = segments.length
  entry : ∀ i e s, entries[i]? = some e → segments[i]? = some s →
    start e = segmentStart segments i ∧ count e = s.length

namespace Describes

variable {start count : β → ℕ} {entries : List β}

theorem nil : Describes start count [] ([] : List (List α)) := ⟨rfl, nofun⟩

theorem concat (h : Describes start count entries segments) {e : β} {s : List α}
    (hstart : start e = segments.flatten.length) (hcount : count e = s.length) :
    Describes start count (entries ++ [e]) (segments ++ [s]) := by
  refine ⟨by simp [h.length_eq], fun i e' s' he hs => ?_⟩
  rcases Nat.lt_or_ge i entries.length with hi | hi
  · have hi' : i < segments.length := h.length_eq ▸ hi
    rw [getElem?_append_left hi] at he
    rw [getElem?_append_left hi'] at hs
    rw [segmentStart_append_left hi'.le]
    exact h.entry i e' s' he hs
  · rw [getElem?_append_right hi] at he
    rw [getElem?_append_right (h.length_eq ▸ hi)] at hs
    obtain ⟨hlt, rfl⟩ := List.getElem?_eq_some_iff.1 hs
    obtain rfl : i = segments.length := by
      simp only [length_singleton] at hlt
      have := h.length_eq
      omega
    rw [h.length_eq, Nat.sub_self] at he
    cases he
    exact ⟨by rw [segmentStart_append_left le_rfl, segmentStart_length, hstart], by simpa using hcount⟩

/-- The first entry that ends beyond a place describes the segment in which the place lies. -/
theorem segment_of_findIdx (h : Describes start count entries segments)
    (hn : n < segments.flatten.length) :
    ∃ e s, entries[entries.findIdx fun e => !decide (start e + count e ≤ n)]? = some e ∧
      segments[entries.findIdx fun e => !decide (start e + count e ≤ n)]? = some s ∧
      start e ≤ n ∧ n < start e + count e := by
  set i := entries.findIdx fun e => !decide (start e + count e ≤ n) with hidx
  have hlast : ∃ e ∈ entries, (!decide (start e + count e ≤ n)) = true := by
    by_contra hnone
    push Not at hnone
    have hbound : ∀ k ≤ segments.length, segmentStart segments k ≤ n := by
      intro k hk
      cases k with
      | zero => simp
      | succ k =>
        obtain ⟨e, he⟩ : ∃ e, entries[k]? = some e :=
          ⟨_, getElem?_eq_getElem (by have := h.length_eq; omega)⟩
        obtain ⟨hstart, hcount⟩ := h.entry k e _ he (getElem?_eq_getElem (by omega))
        have hle := hnone e (mem_of_getElem? he)
        rw [segmentStart_succ (by omega), ← hstart, ← hcount]
        simpa using hle
    have := hbound segments.length le_rfl
    rw [segmentStart_length] at this
    omega
  have hi : i < entries.length := findIdx_lt_length_of_exists hlast
  have hi' : i < segments.length := h.length_eq ▸ hi
  have hbeyond : n < start entries[i] + count entries[i] := by
    simpa using findIdx_getElem (w := hi)
  obtain ⟨hstart, hcount⟩ := h.entry i _ _ (getElem?_eq_getElem hi) (getElem?_eq_getElem hi')
  refine ⟨_, _, getElem?_eq_getElem hi, getElem?_eq_getElem hi', ?_, hbeyond⟩
  rw [hstart]
  -- The segment before ends at the place at the latest.
  cases hk : i with
  | zero => simp
  | succ k =>
    have hlt : k < entries.findIdx fun e => !decide (start e + count e ≤ n) := by omega
    have hprev : start entries[k] + count entries[k] ≤ n := by
      simpa using not_of_lt_findIdx hlt
    obtain ⟨hstart', hcount'⟩ := h.entry k _ _ (getElem?_eq_getElem (by omega))
      (getElem?_eq_getElem (by omega))
    rw [segmentStart_succ (by omega), ← hstart', ← hcount']
    exact hprev

end Describes

end BurnDragon.Layout
