import Mathlib

/-!
# Numbers spelled in a base

`spell base digits` is the number that the digits spell, the leading digit first, as the loop
`value = value * base + digit` computes it. Digits below the base spell the numbers below
`base ^ length`, each of them once (`spell_lt`, `exists_spell`), and `unspell` reads the digits back. A
loop that stops when the number reaches a limit computes the same number (`foldlM_spell`).
-/

namespace BurnDragon.Layout

open List Nat

def spell (base : ℕ) (digits : List ℕ) : ℕ := digits.foldl (fun value digit => value * base + digit) 0

variable {base limit n : ℕ} {digits digits' : List ℕ}

@[simp] theorem spell_nil : spell base [] = 0 := rfl

theorem spell_append_singleton (digit : ℕ) :
    spell base (digits ++ [digit]) = spell base digits * base + digit := by
  simp [spell]

theorem spell_eq_ofDigits (base : ℕ) (digits : List ℕ) :
    spell base digits = ofDigits base digits.reverse := by
  induction digits using List.reverseRecOn with
  | nil => rfl
  | append_singleton digits digit ih =>
    rw [spell_append_singleton, ih, reverse_append, reverse_singleton,
      singleton_append, ofDigits_cons, mul_comm, add_comm]

theorem spell_lt (hbase : 1 < base) (h : ∀ digit ∈ digits, digit < base) :
    spell base digits < base ^ digits.length := by
  rw [spell_eq_ofDigits, ← length_reverse]
  exact ofDigits_lt_base_pow_length hbase fun digit hdigit => h digit (mem_reverse.1 hdigit)

theorem spell_eq_zero (h : ∀ digit ∈ digits, digit = 0) : spell base digits = 0 := by
  induction digits using List.reverseRecOn with
  | nil => rfl
  | append_singleton digits digit ih =>
    rw [spell_append_singleton, ih fun d hd => h d (mem_append_left _ hd), h digit (by simp),
      zero_mul]

/-- The digits that spell a number. -/
def unspell (base : ℕ) : ℕ → ℕ → List ℕ
  | 0, _ => []
  | length + 1, value => unspell base length (value / base) ++ [value % base]

theorem unspell_spell (h : ∀ digit ∈ digits, digit < base) :
    unspell base digits.length (spell base digits) = digits := by
  induction digits using List.reverseRecOn with
  | nil => rfl
  | append_singleton digits digit ih =>
    have hdigit : digit < base := h digit (by simp)
    rw [spell_append_singleton, length_append, length_singleton, unspell,
      mul_add_mod_of_lt hdigit, mul_comm, mul_add_div (zero_lt_of_lt hdigit),
      div_eq_of_lt hdigit, add_zero, ih fun d hd => h d (mem_append_left _ hd)]

/-- Every number below the power is spelled. -/
theorem exists_spell (hbase : 0 < base) (h : n < base ^ limit) :
    ∃ digits : List ℕ, digits.length = limit ∧ (∀ digit ∈ digits, digit < base) ∧
      spell base digits = n := by
  induction limit generalizing n with
  | zero =>
    obtain rfl : n = 0 := by simpa using h
    exact ⟨[], rfl, by simp, rfl⟩
  | succ limit ih =>
    obtain ⟨digits, hlength, hdigits, hspell⟩ :=
      ih (Nat.div_lt_of_lt_mul (by rwa [Nat.pow_succ, Nat.mul_comm] at h) : n / base < base ^ limit)
    refine ⟨digits ++ [n % base], by simp [hlength], fun digit hdigit => ?_, ?_⟩
    · rcases mem_append.1 hdigit with hold | hnew
      · exact hdigits digit hold
      · rw [mem_singleton.1 hnew]
        exact mod_lt n hbase
    · rw [spell_append_singleton, hspell, div_add_mod']

/-- The number only grows on the way. -/
theorem spell_le_spell_append (hbase : 0 < base) (digits digits' : List ℕ) :
    spell base digits ≤ spell base (digits ++ digits') := by
  induction digits' using List.reverseRecOn with
  | nil => rw [append_nil]
  | append_singleton digits' digit ih =>
    rw [← append_assoc, spell_append_singleton]
    calc spell base digits ≤ spell base (digits ++ digits') := ih
      _ ≤ spell base (digits ++ digits') * base := Nat.le_mul_of_pos_right _ hbase
      _ ≤ spell base (digits ++ digits') * base + digit := le_add_right _ _

/-- A loop that stops at the limit. -/
theorem foldlM_spell {push : ℕ → ℕ → Option ℕ} (hbase : 0 < base)
    (hpush : ∀ value digit, push value digit =
      if value * base + digit < limit then some (value * base + digit) else none)
    (hlimit : 0 < limit) :
    digits.foldlM push 0 = if spell base digits < limit then some (spell base digits) else none := by
  induction digits using List.reverseRecOn with
  | nil => rw [spell_nil, if_pos hlimit]; rfl
  | append_singleton digits digit ih =>
    rw [foldlM_append, ih]
    have hle := spell_le_spell_append hbase digits [digit]
    by_cases hlt : spell base digits < limit
    · rw [if_pos hlt]
      simp [hpush, spell_append_singleton]
    · rw [if_neg hlt, if_neg (fun hlt' => hlt (hle.trans_lt hlt'))]
      rfl

end BurnDragon.Layout
