import Mathlib

/-!
# Words, permuted and rejected

A mixing step that combines a word with itself shifted to the right is a permutation of the words
(`xorShift_bijective`). A sequence that does not repeat a word finds one below a threshold after as
many rejections as there are words above it (`exists_first_below`), and below a multiple of a bound
every residue is taken equally often (`card_residue`).
-/

namespace BurnDragon.RandomWords

open Finset Nat

/-! ## Mixing steps -/

section XorShift

variable {w k : ℕ}

/-- A word combined with itself shifted to the right. -/
def xorShift (k : ℕ) (x : BitVec w) : BitVec w := x ^^^ (x >>> k)

/-- The word that `xorShift` makes another one of, for shifts by a third of the width or more. -/
def unxorShift (k : ℕ) (y : BitVec w) : BitVec w := y ^^^ (y >>> k) ^^^ (y >>> (k + k))

theorem ushiftRight_eq_zero_of_le (h : w ≤ k) (x : BitVec w) : x >>> k = 0 := by
  refine BitVec.eq_of_getLsbD_eq fun i _ => ?_
  rw [BitVec.getLsbD_ushiftRight, BitVec.getLsbD_of_ge _ _ (h.trans (le_add_right k i))]
  exact (BitVec.getLsbD_zero ..).symm

/-- Two sums of words with one summand in common. -/
theorem xor_cancel_middle (x y z : BitVec w) : x ^^^ y ^^^ (y ^^^ z) = x ^^^ z := by
  rw [BitVec.xor_assoc, ← BitVec.xor_assoc y y, BitVec.xor_self, BitVec.zero_xor]

theorem unxorShift_xorShift (h : w ≤ k + k + k) (x : BitVec w) :
    unxorShift k (xorShift k x) = x := by
  unfold unxorShift xorShift
  rw [BitVec.ushiftRight_xor_distrib, BitVec.ushiftRight_xor_distrib, ← BitVec.shiftRight_add,
    ← BitVec.shiftRight_add, ← add_assoc, ushiftRight_eq_zero_of_le h, xor_cancel_middle,
    xor_cancel_middle]
  exact BitVec.xor_zero

theorem xorShift_unxorShift (h : w ≤ k + k + k) (y : BitVec w) :
    xorShift k (unxorShift k y) = y := by
  unfold unxorShift xorShift
  rw [BitVec.ushiftRight_xor_distrib, BitVec.ushiftRight_xor_distrib, ← BitVec.shiftRight_add,
    ← BitVec.shiftRight_add, ushiftRight_eq_zero_of_le h, BitVec.xor_assoc y]
  calc y ^^^ (y >>> k ^^^ y >>> (k + k)) ^^^ (y >>> k ^^^ y >>> (k + k) ^^^ 0)
      = y ^^^ (y >>> k ^^^ y >>> (k + k)) ^^^ (y >>> k ^^^ y >>> (k + k)) :=
        congrArg _ BitVec.xor_zero
    _ = y := by rw [BitVec.xor_assoc, BitVec.xor_self, BitVec.xor_zero]

/-- **A mixing step is a permutation of the words.** -/
theorem xorShift_bijective (h : w ≤ k + k + k) :
    Function.Bijective (xorShift k : BitVec w → BitVec w) :=
  Function.bijective_iff_has_inverse.2 ⟨unxorShift k, unxorShift_xorShift h, xorShift_unxorShift h⟩

end XorShift

/-! ## Rejection -/

section Rejection

variable {f : ℕ → ℕ} {N zone : ℕ}

/-- **A sequence without repetitions soon falls below a threshold.** The words that it rejects first
are different words above the threshold. -/
theorem exists_first_below (hf : Set.InjOn f (Set.Iio N)) (hlt : ∀ n, f n < N) (hzone : 0 < zone)
    (hle : zone ≤ N) : ∃ n ≤ N - zone, (∀ m < n, zone ≤ f m) ∧ f n < zone := by
  have hexists : ∃ n, n ≤ N - zone ∧ f n < zone := by
    by_contra hnone
    have hmaps : ∀ n ∈ range (N - zone + 1), f n ∈ Finset.Ico zone N := fun n hn =>
      mem_Ico.2 ⟨not_lt.1 fun hbelow =>
        hnone ⟨n, Nat.lt_succ_iff.1 (mem_range.1 hn), hbelow⟩, hlt n⟩
    have hinj : Set.InjOn f (range (N - zone + 1)) := hf.mono fun n hn => by
      have := mem_range.1 (mem_coe.1 hn)
      exact Set.mem_Iio.2 (by omega)
    have hcard := card_le_card_of_injOn f hmaps hinj
    rw [card_range, card_Ico] at hcard
    omega
  classical
  refine ⟨Nat.find hexists, (Nat.find_spec hexists).1, fun m hm => ?_, (Nat.find_spec hexists).2⟩
  have hleast := Nat.find_min hexists hm
  exact not_lt.1 fun hbelow =>
    hleast ⟨(hm.le).trans (Nat.find_spec hexists).1, hbelow⟩

/-- **Below a multiple of a bound every residue is taken equally often.** -/
theorem card_residue {bound r : ℕ} (q : ℕ) (h : r < bound) :
    ((range (q * bound)).filter fun n => n % bound = r).card = q := by
  have hcount := count_modEq_card (q * bound) (zero_lt_of_lt h) r
  rw [mul_mod_left, if_neg (not_lt_zero _), add_zero,
    Nat.mul_div_cancel _ (Nat.zero_lt_of_lt h), Nat.count_eq_card_filter_range] at hcount
  refine Eq.trans ?_ hcount
  refine congrArg card (filter_congr fun n _ => ?_)
  rw [Nat.ModEq, mod_eq_of_lt h]

end Rejection

end BurnDragon.RandomWords
