import Mathlib

/-!
# Second-order recurrences

A law makes the next value of a sequence from the last two. Two laws started on the same two values
give the same values as far as they agree along the orbit of the first (`orbit_eq_iff`). Where three
agreements in a row bring a fourth, three agreements at the start last for ever
(`agreeAt_of_three`).
-/

namespace BurnDragon.Recurrence

variable {α β : Type*}

/-- The values that a law makes of the first two; it takes the last value and the one before. -/
def orbit (law : α → α → α) (first second : α) : ℕ → α
  | 0 => first
  | 1 => second
  | n + 2 => law (orbit law first second (n + 1)) (orbit law first second n)

theorem orbit_add_two (law : α → α → α) (first second : α) (n : ℕ) :
    orbit law first second (n + 2) =
      law (orbit law first second (n + 1)) (orbit law first second n) := rfl

/-- A map that respects the laws respects the orbits. -/
theorem map_orbit {law : α → α → α} {law' : β → β → β} (f : α → β)
    (h : ∀ x y, f (law x y) = law' (f x) (f y)) (first second : α) (n : ℕ) :
    f (orbit law first second n) = orbit law' (f first) (f second) n := by
  induction n using Nat.twoStepInduction with
  | zero => rfl
  | one => rfl
  | more n ih ih' => rw [orbit_add_two, orbit_add_two, h, ih, ih']

/-- Two laws make the same value at this place of the orbit of the first. -/
def AgreeAt (law law' : α → α → α) (first second : α) (n : ℕ) : Prop :=
  law (orbit law first second (n + 1)) (orbit law first second n) =
    law' (orbit law first second (n + 1)) (orbit law first second n)

section Agree

variable {law law' : α → α → α} {first second : α}

/-- **Two orbits are equal as far as the laws agree.** -/
theorem orbit_eq_iff (n : ℕ) :
    (∀ k < n, orbit law first second k = orbit law' first second k) ↔
      ∀ k, k + 2 < n → AgreeAt law law' first second k := by
  constructor
  · intro h k hk
    have hnext := h (k + 2) hk
    rw [orbit_add_two, orbit_add_two, ← h (k + 1) (by omega), ← h k (by omega)] at hnext
    exact hnext
  · intro h k
    induction k using Nat.twoStepInduction with
    | zero => exact fun _ => rfl
    | one => exact fun _ => rfl
    | more k ih ih' =>
      intro hk
      have hagree := h k hk
      rw [AgreeAt, ih (by omega), ih' (by omega)] at hagree
      rw [orbit_add_two, ih (by omega), ih' (by omega), hagree]
      rfl

/-- **Three agreements last for ever** where three in a row bring a fourth. -/
theorem agreeAt_of_three
    (hstep : ∀ n, AgreeAt law law' first second n → AgreeAt law law' first second (n + 1) →
      AgreeAt law law' first second (n + 2) → AgreeAt law law' first second (n + 3))
    (h0 : AgreeAt law law' first second 0) (h1 : AgreeAt law law' first second 1)
    (h2 : AgreeAt law law' first second 2) (n : ℕ) : AgreeAt law law' first second n := by
  have hwindow : ∀ n, AgreeAt law law' first second n ∧ AgreeAt law law' first second (n + 1) ∧
      AgreeAt law law' first second (n + 2) := by
    intro n
    induction n with
    | zero => exact ⟨h0, h1, h2⟩
    | succ n ih => exact ⟨ih.2.1, ih.2.2, hstep n ih.1 ih.2.1 ih.2.2⟩
  exact (hwindow n).1

end Agree

end BurnDragon.Recurrence
