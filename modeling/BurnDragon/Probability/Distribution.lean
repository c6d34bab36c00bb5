import Mathlib

/-!
# Finite distributions

A distribution is a list of weights that are not negative and sum to one. `mass p` is the weight of the
outcomes with a property `p` in a list of weighted outcomes; moving weight from the outcomes with a
property to the others is described by `mass_redistribute` and `sum_redistribute`.
-/

namespace BurnDragon.Probability

open List

variable {K : Type*} [Field K] {α : Type*}

/-- The weight of the outcomes with a property. -/
def mass (p : α → Bool) (entries : List (K × α)) : K :=
  ((entries.filter fun e => p e.2).map Prod.fst).sum

/-- The entries with a property and those without it. -/
theorem sum_map_ite (p : α → Bool) (f g : K × α → K) (entries : List (K × α)) :
    (entries.map fun e => if p e.2 then f e else g e).sum =
      ((entries.filter fun e => p e.2).map f).sum + ((entries.filter fun e => !p e.2).map g).sum := by
  induction entries with
  | nil => simp
  | cons e entries ih =>
    rw [map_cons, sum_cons, ih]
    cases hp : p e.2
    · simp only [hp, filter_cons, Bool.not_false, if_true, Bool.false_eq_true, if_false,
        map_cons, sum_cons]
      ring
    · simp only [hp, filter_cons, Bool.not_true, if_true, Bool.false_eq_true, if_false,
        map_cons, sum_cons]
      ring

theorem mass_add_mass_not (p : α → Bool) (entries : List (K × α)) :
    mass p entries + mass (fun a => !p a) entries = (entries.map Prod.fst).sum := by
  have h := sum_map_ite p Prod.fst Prod.fst entries
  simp only [ite_self] at h
  exact h.symm

/-- The weight after the outcomes with a property have been scaled. -/
theorem mass_redistribute (p : α → Bool) (s : K) (g : K × α → K) (entries : List (K × α)) :
    mass p (entries.map fun e => (if p e.2 then e.1 * s else g e, e.2)) = mass p entries * s := by
  rw [mass, mass, ← sum_map_mul_right, filter_map, map_map]
  refine congrArg List.sum (map_congr_left fun e he => ?_)
  have hp : p e.2 = true := (mem_filter.1 he).2
  simp [hp]

/-- The sum after the outcomes with a property have been scaled and some weight has been added to the
others. -/
theorem sum_redistribute (p : α → Bool) (s x : K) (w : α → K) (entries : List (K × α)) :
    (entries.map fun e => if p e.2 then e.1 * s else e.1 + x * w e.2).sum =
      mass p entries * s + mass (fun a => !p a) entries +
        x * ((entries.filter fun e => !p e.2).map fun e => w e.2).sum := by
  rw [sum_map_ite p (fun e => e.1 * s) fun e => e.1 + x * w e.2, mass, mass, ← sum_map_mul_right,
    ← sum_map_mul_left, add_assoc, sum_map_add]

variable {p : α → Bool} {entries : List (K × α)}

/-- Without outcomes with the property there is no weight. -/
theorem mass_eq_zero (h : ∀ e ∈ entries, p e.2 = false) :
    mass p entries = 0 := by
  have hnil : (entries.filter fun e => p e.2) = [] :=
    filter_eq_nil_iff.2 fun e he => by simp [h e he]
  rw [mass, hnil]
  rfl

variable [LinearOrder K]

structure IsDistribution (ps : List K) : Prop where
  nonneg : ∀ p ∈ ps, 0 ≤ p
  sum_eq_one : ps.sum = 1

variable [IsStrictOrderedRing K]

theorem mass_nonneg (h : ∀ e ∈ entries, 0 ≤ e.1) :
    0 ≤ mass p entries := by
  refine sum_nonneg fun q hq => ?_
  obtain ⟨e, he, rfl⟩ := mem_map.1 hq
  exact h e (mem_filter.1 he).1

theorem mass_le_sum (h : ∀ e ∈ entries, 0 ≤ e.1) :
    mass p entries ≤ (entries.map Prod.fst).sum := by
  rw [← mass_add_mass_not p]
  exact le_add_of_nonneg_right (mass_nonneg h)

/-- Weight is moved from the outcomes with a property to the others by scaling the former and adding shares of
a given weight to the latter. -/
def redistribute (p : α → Bool) (s x : K) (w : α → K) (e : K × α) : K :=
  if p e.2 then e.1 * s else e.1 + x * w e.2

theorem redistribute_nonneg {s x : K} {w : α → K} {e : K × α} (he : 0 ≤ e.1) (hs : 0 ≤ s)
    (hx : 0 ≤ x) (hw : 0 ≤ w e.2) : 0 ≤ redistribute p s x w e := by
  unfold redistribute
  split
  · exact mul_nonneg he hs
  · exact add_nonneg he (mul_nonneg hx hw)

/-- If the shares are those of a distribution over the outcomes without the property, they add up to the
given weight. -/
theorem sum_map_redistribute {s x : K} {w : α → K} (entries : List (K × α))
    (hw : ∀ a, p a = true → w a = 0) (hone : (entries.map fun e => w e.2).sum = 1) :
    (entries.map (redistribute p s x w)).sum =
      mass p entries * s + ((entries.map Prod.fst).sum - mass p entries) + x := by
  have hshares : ((entries.filter fun e => !p e.2).map fun e => w e.2).sum = 1 := by
    have hsplit := sum_map_ite p (fun e : K × α => w e.2) (fun e => w e.2) entries
    have hzero : ((entries.filter fun e => p e.2).map fun e => w e.2).sum = 0 := by
      refine sum_eq_zero fun v hv => ?_
      obtain ⟨e, he, rfl⟩ := mem_map.1 hv
      exact hw e.2 (mem_filter.1 he).2
    simp only [ite_self] at hsplit
    rw [← hone, hsplit, hzero, zero_add]
  have h := sum_redistribute p s x w entries
  have hnot := mass_add_mass_not p entries
  rw [hshares, mul_one] at h
  refine h.trans ?_
  rw [← hnot]
  ring

/-- The weight of the outcomes with the property after all weights have been divided by a number. -/
theorem mass_map_redistribute_div (p : α → Bool) (s x d : K) (w : α → K) (entries : List (K × α)) :
    mass p (entries.map fun e => (redistribute p s x w e / d, e.2)) = mass p entries * s / d := by
  rw [mul_div_assoc, ← mass_redistribute p (s / d) fun e => (e.1 + x * w e.2) / d]
  refine congrArg (mass p) (map_congr_left fun e _ => ?_)
  unfold redistribute
  split
  · rw [mul_div_assoc]
  · rfl

namespace IsDistribution

variable {ps qs : List K}

theorem ne_nil (h : IsDistribution ps) : ps ≠ [] := by
  rintro rfl
  exact zero_ne_one h.sum_eq_one

/-- The uniform distribution. -/
theorem uniform {ws : List α} (h : ws ≠ []) :
    IsDistribution (ws.map fun _ => 1 / (ws.length : K)) := by
  have hlength : (0 : K) < ws.length := Nat.cast_pos.2 (length_pos_iff.2 h)
  constructor
  · intro p hp
    obtain ⟨_, _, rfl⟩ := mem_map.1 hp
    exact (one_div_pos.2 hlength).le
  · rw [map_const', sum_replicate, nsmul_eq_mul, mul_one_div_cancel hlength.ne']

/-- A mixture of distributions. -/
theorem mix (hps : IsDistribution ps) (hqs : IsDistribution qs) (hlength : ps.length = qs.length)
    {a : K} (h0 : 0 ≤ a) (h1 : a ≤ 1) :
    IsDistribution (ps.zipWith (fun p q => p * (1 - a) + q * a) qs) := by
  constructor
  · intro r hr
    obtain ⟨i, hi, rfl⟩ := mem_iff_getElem.1 hr
    rw [length_zipWith, lt_min_iff] at hi
    rw [getElem_zipWith]
    exact add_nonneg (mul_nonneg (hps.nonneg _ (getElem_mem hi.1)) (sub_nonneg.2 h1))
      (mul_nonneg (hqs.nonneg _ (getElem_mem hi.2)) h0)
  · have hsum : ∀ {l r : List K}, l.length = r.length →
        (l.zipWith (fun p q => p * (1 - a) + q * a) r).sum = l.sum * (1 - a) + r.sum * a := by
      intro l
      induction l with
      | nil =>
        intro r hr
        obtain rfl := length_eq_zero_iff.1 hr.symm
        simp
      | cons p l ih =>
        intro r hr
        cases r with
        | nil => simp at hr
        | cons q r =>
          rw [zipWith_cons_cons, sum_cons, ih (Nat.succ_inj.1 hr), sum_cons, sum_cons]
          ring
    rw [hsum hlength, hps.sum_eq_one, hqs.sum_eq_one]
    ring

/-- The weights divided by their sum. -/
theorem of_weights {ws : List K} (h : ∀ w ∈ ws, 0 ≤ w) (hpos : 0 < ws.sum) :
    IsDistribution (ws.map (· / ws.sum)) := by
  constructor
  · intro p hp
    obtain ⟨w, hw, rfl⟩ := mem_map.1 hp
    exact div_nonneg (h w hw) hpos.le
  · simp only [div_eq_mul_inv]
    rw [sum_map_mul_right, map_id', mul_inv_cancel₀ hpos.ne']

end IsDistribution

end BurnDragon.Probability
