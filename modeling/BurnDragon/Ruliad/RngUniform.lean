import BurnDragon.RandomWords.Rejection
import BurnDragon.Ruliad.Rng

/-!
# Bounded draws

`next_u64` mixes its counter by a permutation of the 64-bit words (`mix_bijective`), and the counter
runs through all of them (`word_bijOn`). So `next_usize` meets a word below its zone after fewer
rejections than its bound, and in the zone every residue has the same number of words
(`nextUsize_uniform`).
-/

namespace BurnDragon.Ruliad

open RandomWords Rust

namespace SplitMix64

/-! ## The words of a run -/

/-- One mixing step of `next_u64`, on words. -/
theorem xorShift_toBitVec (k : UInt64) (x : UInt64) :
    (x ^^^ (x >>> k)).toBitVec = xorShift (k.toNat % 64) x.toBitVec := by
  rw [UInt64.toBitVec_xor, UInt64.toBitVec_shiftRight]
  rfl

/-- A mixing step whose shift is a third of the width or more. -/
theorem xorShift_bijective_uint64 {k : UInt64}
    (h : 64 ≤ k.toNat % 64 + k.toNat % 64 + k.toNat % 64) :
    Function.Bijective fun x : UInt64 => x ^^^ (x >>> k) := by
  have hword : Function.Bijective UInt64.toBitVec :=
    ⟨fun _ _ => UInt64.toBitVec_inj.1, fun x => ⟨⟨x⟩, rfl⟩⟩
  have hstep : UInt64.toBitVec ∘ (fun x : UInt64 => x ^^^ (x >>> k)) =
      xorShift (k.toNat % 64) ∘ UInt64.toBitVec := funext (xorShift_toBitVec k)
  refine (Function.Bijective.of_comp_iff' hword _).1 ?_
  rw [hstep]
  exact (xorShift_bijective h).comp hword

/-- Multiplication by an odd constant, given its inverse. -/
theorem mul_bijective {c d : UInt64} (h : c * d = 1) : Function.Bijective fun x : UInt64 => x * c :=
  Function.bijective_iff_has_inverse.2 ⟨fun x => x * d,
    fun x => (UInt64.mul_assoc ..).trans (by rw [h, UInt64.mul_one]),
    fun x => (UInt64.mul_assoc ..).trans (by rw [UInt64.mul_comm d c, h, UInt64.mul_one])⟩

/-- **The output function is a permutation of the words.** -/
theorem mix_bijective : Function.Bijective mix := by
  have hfirst : Function.Bijective fun x : UInt64 => x ^^^ (x >>> 30) :=
    xorShift_bijective_uint64 (by decide)
  have hsecond : Function.Bijective fun x : UInt64 => x ^^^ (x >>> 27) :=
    xorShift_bijective_uint64 (by decide)
  have hthird : Function.Bijective fun x : UInt64 => x ^^^ (x >>> 31) :=
    xorShift_bijective_uint64 (by decide)
  have hscale : Function.Bijective fun x : UInt64 => x * 0xBF58476D1CE4E5B9 :=
    mul_bijective (d := 0x96DE1B173F119089) (by decide)
  have hscale' : Function.Bijective fun x : UInt64 => x * 0x94D049BB133111EB :=
    mul_bijective (d := 0x319642B2D24D8EC3) (by decide)
  exact hthird.comp (hscale'.comp (hsecond.comp (hscale.comp hfirst)))

/-- The word that a run draws after `n` others. -/
def word (rng : SplitMix64) (n : ℕ) : UInt64 := mix (advance^[n + 1] rng).state

/-- The words of a run without its first one. -/
theorem word_advance (rng : SplitMix64) (n : ℕ) : rng.advance.word n = rng.word (n + 1) := by
  rw [word, word, Function.iterate_succ_apply advance (n + 1)]

theorem word_eq (rng : SplitMix64) (n : ℕ) :
    rng.word n = mix (advance^[n] rng.advance).state := by
  rw [word, Function.iterate_succ_apply]

theorem word_lt (rng : SplitMix64) (n : ℕ) : (rng.word n).toNat < 2 ^ 64 := (rng.word n).toNat_lt

/-- The increment of the counter is odd: it has an inverse. -/
theorem increment_mul_inverse : (0x9E3779B97F4A7C15 : UInt64) * 0xF1DE83E19937733D = 1 := by decide

/-- Fewer than `2 ^ 64` steps do not come back to a state. -/
theorem iterate_advance_injOn (rng : SplitMix64) :
    Set.InjOn (fun n => (advance^[n] rng).state) (Set.Iio (2 ^ 64)) := by
  intro m hm n hn heq
  have hsteps : UInt64.ofNat m = UInt64.ofNat n := by
    simp only [iterate_advance] at heq
    exact (mul_bijective increment_mul_inverse).1 ((UInt64.add_right_inj _).1 heq)
  have hnat := congrArg UInt64.toNat hsteps
  rwa [UInt64.toNat_ofNat_of_lt' hm, UInt64.toNat_ofNat_of_lt' hn] at hnat

/-- The counter comes to every state within `2 ^ 64` steps. -/
theorem exists_iterate_advance_eq (rng : SplitMix64) (state : UInt64) :
    ∃ n < 2 ^ 64, (advance^[n] rng).state = state := by
  obtain ⟨steps, hsteps⟩ := (mul_bijective increment_mul_inverse).2 (state - rng.state)
  refine ⟨steps.toNat, steps.toNat_lt, ?_⟩
  rw [iterate_advance, UInt64.ofNat_toNat]
  exact (congrArg (rng.state + ·) hsteps).trans (by rw [UInt64.add_comm, UInt64.sub_add_cancel])

/-- **A run of `2 ^ 64` steps draws every word once.** -/
theorem word_bijOn (rng : SplitMix64) : Set.BijOn rng.word (Set.Iio (2 ^ 64)) Set.univ := by
  refine ⟨fun _ _ => Set.mem_univ _, fun m hm n hn heq => ?_, fun w _ => ?_⟩
  · rw [word_eq, word_eq] at heq
    exact rng.advance.iterate_advance_injOn hm hn (mix_bijective.1 heq)
  · obtain ⟨state, hstate⟩ := mix_bijective.2 w
    obtain ⟨n, hn, hn'⟩ := rng.advance.exists_iterate_advance_eq state
    refine ⟨n, hn, ?_⟩
    rw [word_eq, hn', hstate]

/-! ## The loop -/

/-- The words below the zone are accepted: it is the largest multiple of the bound. -/
def zone (bound : ℕ) : ℕ := 2 ^ 64 / bound * bound

theorem zone_pos {bound : ℕ} (hpos : 0 < bound) (hle : bound ≤ usizeMax) : 0 < zone bound := by
  have hlt : bound ≤ 2 ^ 64 := by
    rw [usizeMax] at hle
    omega
  exact Nat.mul_pos (Nat.div_pos hlt hpos) hpos

theorem sub_zone (bound : ℕ) : 2 ^ 64 - zone bound = 2 ^ 64 % bound := by
  have := Nat.div_add_mod' (2 ^ 64) bound
  rw [zone]
  omega

/-- The loop returns the first word of the run below the zone. -/
theorem firstAccepted_eq {bound n fuel : ℕ} {rng : SplitMix64} (hfuel : n < fuel)
    (hrejected : ∀ m < n, zone bound ≤ (rng.word m).toNat)
    (haccepted : (rng.word n).toNat < zone bound) :
    firstAccepted (zone bound) fuel rng = some ((rng.word n).toNat, advance^[n + 1] rng) := by
  induction n generalizing fuel rng with
  | zero =>
    obtain ⟨fuel, rfl⟩ := Nat.exists_eq_add_of_lt hfuel
    rw [Nat.zero_add, firstAccepted]
    simp only
    rw [show rng.nextU64 = (rng.word 0, rng.advance) from rfl, if_pos haccepted]
    rfl
  | succ n ih =>
    obtain ⟨fuel, rfl⟩ : ∃ k, fuel = k + 1 := ⟨fuel - 1, by omega⟩
    have hrest := @ih fuel rng.advance (Nat.lt_of_succ_lt_succ hfuel)
      (fun m hm => by rw [word_advance]; exact hrejected (m + 1) (Nat.succ_lt_succ hm))
      (by rwa [word_advance])
    rw [firstAccepted]
    simp only
    rw [show rng.nextU64 = (rng.word 0, rng.advance) from rfl,
      if_neg (not_lt.2 (hrejected 0 (Nat.succ_pos n))), hrest, word_advance,
      Function.iterate_succ_apply advance (n + 1)]

/-- **The loop rejects fewer words than its bound.** -/
theorem exists_accepted (rng : SplitMix64) {bound : ℕ} (hpos : 0 < bound)
    (hle : bound ≤ usizeMax) : ∃ n ≤ 2 ^ 64 % bound,
      (∀ m < n, zone bound ≤ (rng.word m).toNat) ∧ (rng.word n).toNat < zone bound := by
  have hinj : Set.InjOn (fun n => (rng.word n).toNat) (Set.Iio (2 ^ 64)) :=
    fun m hm n hn heq => rng.word_bijOn.injOn hm hn (UInt64.toNat_inj.1 heq)
  rw [← sub_zone]
  exact exists_first_below hinj rng.word_lt (zone_pos hpos hle) (Nat.div_mul_le_self ..)

/-- The accepted words of a residue. -/
def acceptedWords (bound residue : ℕ) : Set UInt64 :=
  {w | w.toNat < zone bound ∧ w.toNat % bound = residue}

theorem ncard_acceptedWords {bound residue : ℕ} (h : residue < bound) :
    (acceptedWords bound residue).ncard = 2 ^ 64 / bound := by
  have himage : UInt64.toNat '' acceptedWords bound residue =
      ((Finset.range (2 ^ 64 / bound * bound)).filter fun n => n % bound = residue : Finset ℕ) := by
    ext n
    rw [Finset.coe_filter, Set.mem_image]
    constructor
    · rintro ⟨w, ⟨hzone, hresidue⟩, rfl⟩
      exact ⟨Finset.mem_range.2 hzone, hresidue⟩
    · rintro ⟨hzone, hresidue⟩
      have hlt : n < 2 ^ 64 := (Finset.mem_range.1 hzone).trans_le (Nat.div_mul_le_self ..)
      refine ⟨UInt64.ofNat n, ?_, UInt64.toNat_ofNat_of_lt' hlt⟩
      rw [acceptedWords, Set.mem_ofPred_eq, UInt64.toNat_ofNat_of_lt' hlt]
      exact ⟨Finset.mem_range.1 hzone, hresidue⟩
  rw [← Set.ncard_image_of_injective _ fun _ _ => UInt64.toNat_inj.1, himage,
    Set.ncard_coe_finset, card_residue _ h]

/-- **Bounded draws terminate, stay below the bound and are unbiased.** The run of the generator
draws every word once in `2 ^ 64` steps; the first word in the zone comes after fewer rejections
than the bound and gives the value; and every residue has the same number of words in the zone. -/
theorem nextUsize_uniform (rng : SplitMix64) {bound : ℕ} (hpos : 0 < bound)
    (hle : bound ≤ usizeMax) :
    (Function.Bijective mix ∧ Set.BijOn rng.word (Set.Iio (2 ^ 64)) Set.univ) ∧
    (∃ n ≤ 2 ^ 64 % bound, (∀ m < n, zone bound ≤ (rng.word m).toNat) ∧
      (rng.word n).toNat < zone bound ∧
      rng.nextUsize bound = if bound = 1 then (0, rng)
        else ((rng.word n).toNat % bound, advance^[n + 1] rng)) ∧
    (rng.nextUsize bound).1 < bound ∧
    ∀ residue < bound, (acceptedWords bound residue).ncard = 2 ^ 64 / bound := by
  refine ⟨⟨mix_bijective, rng.word_bijOn⟩, ?_, rng.nextUsize_lt hpos,
    fun residue h => ncard_acceptedWords h⟩
  obtain ⟨n, hn, hrejected, haccepted⟩ := rng.exists_accepted hpos hle
  refine ⟨n, hn, hrejected, haccepted, ?_⟩
  unfold nextUsize
  by_cases hone : bound = 1
  · rw [if_pos hone.le, if_pos hone]
  · have hfuel : n < 2 ^ 64 := by
      have := Nat.mod_lt (2 ^ 64) hpos
      rw [usizeMax] at hle
      omega
    rw [if_neg (by omega), if_neg hone]
    simp only
    rw [show 2 ^ 64 / bound * bound = zone bound from rfl,
      firstAccepted_eq hfuel hrejected haccepted]
    rfl

theorem nextUsize_uniform_seven :
    (Function.Bijective mix ∧ Set.BijOn (word ⟨19⟩) (Set.Iio (2 ^ 64)) Set.univ) ∧
    (∃ n ≤ 2 ^ 64 % 7, (∀ m < n, zone 7 ≤ (word ⟨19⟩ m).toNat) ∧ (word ⟨19⟩ n).toNat < zone 7 ∧
      nextUsize ⟨19⟩ 7 = if 7 = 1 then (0, ⟨19⟩)
        else ((word ⟨19⟩ n).toNat % 7, advance^[n + 1] ⟨19⟩)) ∧
    (nextUsize ⟨19⟩ 7).1 < 7 ∧
    ∀ residue < 7, (acceptedWords 7 residue).ncard = 2 ^ 64 / 7 :=
  nextUsize_uniform ⟨19⟩ (by decide) (by decide)

end SplitMix64

end BurnDragon.Ruliad
