import Mathlib

/-!
# Rounded shares

A total is split in proportion to positive parts, each share is rounded to the nearest integer and
raised to 1 when it rounds to 0. A share is then at most 1 away from its exact value
(`abs_roundedShare_sub_le`), so the shares add up to the total up to one for each part
(`abs_sum_roundedShare_sub_le`).
-/

namespace BurnDragon.Layout

/-- The share of a part in the total, when all parts add up to `parts`. -/
def roundedShare (total parts part : ℤ) : ℤ := max 1 ((part * total + parts / 2) / parts)

variable {total parts part : ℤ}

theorem one_le_roundedShare (total parts part : ℤ) : 1 ≤ roundedShare total parts part :=
  le_max_left _ _

/-- A share is at most one more than the total when its part is not more than all of them. -/
theorem roundedShare_le (htotal : 0 ≤ total) (hparts : 0 < parts) (hpart : part ≤ parts) :
    roundedShare total parts part ≤ total + 1 := by
  refine max_le (by omega) ?_
  have hexact : part * total ≤ parts * total := mul_le_mul_of_nonneg_right hpart htotal
  have hround : (part * total + parts / 2) / parts < total + 2 := by
    refine Int.ediv_lt_of_lt_mul hparts ?_
    have hexpand : (total + 2) * parts = parts * total + 2 * parts := by ring
    omega
  omega

/-- A share, scaled by the sum of the parts, is off by at most that sum. -/
theorem abs_roundedShare_sub_le (htotal : 0 < total) (hparts : 0 < parts) (hpart : 0 < part) :
    |parts * roundedShare total parts part - part * total| ≤ parts := by
  have hexact : 0 < part * total := mul_pos hpart htotal
  have hdiv := Int.mul_ediv_add_emod (part * total + parts / 2) parts
  have hmod := Int.emod_nonneg (part * total + parts / 2) hparts.ne'
  have hlt := Int.emod_lt_of_pos (part * total + parts / 2) hparts
  rw [roundedShare, abs_le]
  rcases le_total ((part * total + parts / 2) / parts) 1 with hle | hge
  · -- The share is 1, and the exact one is not larger than 3/2.
    rw [max_eq_left hle, mul_one]
    have hscaled : parts * ((part * total + parts / 2) / parts) ≤ parts := by
      simpa using mul_le_mul_of_nonneg_left hle hparts.le
    constructor
    · omega
    · omega
  · rw [max_eq_right hge]
    constructor
    · omega
    · omega

/-- **The shares add up to the total**, up to one for each part. -/
theorem abs_sum_roundedShare_sub_le {all : List ℤ} (htotal : 0 < total) (hne : all ≠ [])
    (hall : ∀ part ∈ all, 0 < part) :
    |(all.map (roundedShare total all.sum)).sum - total| ≤ all.length := by
  have hparts : 0 < all.sum := List.sum_pos all hall hne
  have hscaled : ∀ {xs : List ℤ}, (∀ part ∈ xs, 0 < part) →
      |all.sum * (xs.map (roundedShare total all.sum)).sum - xs.sum * total| ≤
        xs.length * all.sum := by
    intro xs
    induction xs with
    | nil => simp
    | cons part xs ih =>
      intro hxs
      have hfirst := abs_roundedShare_sub_le htotal hparts (hxs part List.mem_cons_self)
      have hrest := ih fun q hq => hxs q (List.mem_cons_of_mem _ hq)
      rw [List.map_cons, List.sum_cons, List.sum_cons, List.length_cons]
      calc |all.sum * (roundedShare total all.sum part + (xs.map (roundedShare total all.sum)).sum) -
            (part + xs.sum) * total|
          = |(all.sum * roundedShare total all.sum part - part * total) +
              (all.sum * (xs.map (roundedShare total all.sum)).sum - xs.sum * total)| := by ring_nf
        _ ≤ all.sum + xs.length * all.sum := (abs_add_le _ _).trans (add_le_add hfirst hrest)
        _ = (xs.length + 1 : ℕ) * all.sum := by push_cast; ring
  have hdiff := hscaled hall
  rw [← mul_sub, abs_mul, abs_of_pos hparts, mul_comm] at hdiff
  exact le_of_mul_le_mul_right hdiff hparts

end BurnDragon.Layout
