import Mathlib

/-!
# Positions round and round

The positions of a list that is read from a start on and over again. As many positions as the list has
are a rotation of all of them, so a whole number of rounds meets each position equally often
(`cyclicFrom_perm`). A stride that is coprime to the length takes one round past every position too
(`map_strided_perm`).
-/

namespace BurnDragon.Layout

open List

/-- Positions in a list of a length, one after the other from a start, and again from 0 at its end. -/
def cyclicFrom (length start count : ℕ) : List ℕ := (List.range count).map fun i => (start + i) % length

section Cyclic

variable {length start count count' i : ℕ}

@[simp] theorem length_cyclicFrom : (cyclicFrom length start count).length = count := by
  simp [cyclicFrom]

theorem cyclicFrom_mod (length start count : ℕ) :
    cyclicFrom length (start % length) count = cyclicFrom length start count :=
  map_congr_left fun _ _ => Nat.mod_add_mod _ _ _

theorem cyclicFrom_append (length start count count' : ℕ) :
    cyclicFrom length start count ++ cyclicFrom length (start + count) count' =
      cyclicFrom length start (count + count') := by
  rw [cyclicFrom, cyclicFrom, cyclicFrom, range_add, map_append, map_map]
  refine congrArg _ (map_congr_left fun i _ => ?_)
  rw [Function.comp_apply, Nat.add_assoc]

/-- One round is a rotation of all positions. -/
theorem cyclicFrom_length (length start : ℕ) :
    cyclicFrom length start length = (List.range length).rotate start := by
  refine ext_getElem (by simp) fun i hi hi' => ?_
  rw [getElem_rotate]
  simp [cyclicFrom, Nat.add_comm]

/-- Some rounds are as many times all positions. -/
theorem cyclicFrom_perm (length start rounds : ℕ) :
    (cyclicFrom length start (rounds * length)).Perm
      (List.replicate rounds (List.range length)).flatten := by
  induction rounds generalizing start with
  | zero => simp [cyclicFrom]
  | succ rounds ih =>
    rw [Nat.succ_mul, Nat.add_comm, ← cyclicFrom_append, cyclicFrom_length, replicate_succ,
      flatten_cons]
    exact (rotate_perm _ _).append (ih (start + length))

end Cyclic

/-! ## Strides -/

/-- The position after some strides from a start. -/
def strided (length start stride rank : ℕ) : ℕ := (start + rank * stride) % length

section Strided

variable {length start stride rank rank' : ℕ}

theorem strided_lt (h : 0 < length) : strided length start stride rank < length := Nat.mod_lt _ h

theorem strided_injective (hcoprime : stride.Coprime length) (h : rank < length)
    (h' : rank' < length)
    (heq : strided length start stride rank = strided length start stride rank') : rank = rank' := by
  have hsum : start + rank * stride ≡ start + rank' * stride [MOD length] := heq
  have hmul : rank * stride ≡ rank' * stride [MOD length] := hsum.add_left_cancel'
  exact (Nat.ModEq.cancel_right_of_coprime hcoprime.symm hmul).eq_of_lt_of_lt h h'

/-- One round of strides meets every position once. -/
theorem map_strided_perm (hcoprime : stride.Coprime length) :
    ((List.range length).map (strided length start stride)).Perm (List.range length) := by
  have hnodup : ((List.range length).map (strided length start stride)).Nodup :=
    List.Nodup.map_on (fun _ hrank _ hrank' heq =>
      strided_injective hcoprime (mem_range.mp hrank) (mem_range.mp hrank') heq)
      nodup_range
  refine (subperm_of_subset hnodup fun position hposition => ?_).perm_of_length_le (by simp)
  obtain ⟨rank, hrank, rfl⟩ := mem_map.mp hposition
  exact mem_range.mpr (strided_lt (Nat.zero_lt_of_lt (mem_range.mp hrank)))

end Strided

end BurnDragon.Layout
