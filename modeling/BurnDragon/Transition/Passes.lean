import Mathlib

/-!
# Loops that may fail

A loop over a list whose pass may fail ends well when every pass does. `Passes step xs states` says
that the passes lead from each state to the next one, and `exists_passes` finds these states for a
loop that ended well. A loop that does more than another passes through the same states, seen
through a projection (`Passes.map`).
-/

namespace BurnDragon.Transition

variable {σ τ ι ε ε' : Type} {step : σ → ι → Except ε σ} {step' : τ → ι → Except ε' τ}
  {xs : List ι} {s t : σ} {states : ℕ → σ}

/-- The states before the items of a loop, and behind the last one. -/
def Passes (step : σ → ι → Except ε σ) (xs : List ι) (states : ℕ → σ) : Prop :=
  ∀ k x, xs[k]? = some x → step (states k) x = .ok (states (k + 1))

theorem exists_passes (h : xs.foldlM step s = .ok t) :
    ∃ states, Passes step xs states ∧ states 0 = s ∧ states xs.length = t := by
  induction xs generalizing s with
  | nil =>
    obtain rfl : s = t := Except.ok.inj h
    exact ⟨fun _ => s, fun k x hx => by simp at hx, rfl, rfl⟩
  | cons x xs ih =>
    rw [List.foldlM_cons] at h
    cases hx : step s x with
    | error e => rw [hx] at h; cases h
    | ok u =>
      rw [hx] at h
      obtain ⟨states, hstates, hstart, hend⟩ := ih h
      refine ⟨fun k => k.casesOn s states, fun k y hy => ?_, rfl, hend⟩
      cases k with
      | zero =>
        obtain rfl : x = y := Option.some.inj hy
        exact hx.trans (congrArg _ hstart.symm)
      | succ k => exact hstates k y hy

namespace Passes

theorem foldlM_take (h : Passes step xs states) {k : ℕ} (hk : k ≤ xs.length) :
    (xs.take k).foldlM step (states 0) = .ok (states k) := by
  induction k with
  | zero => rfl
  | succ k ih =>
    have hx : xs[k]? = some xs[k] := List.getElem?_eq_getElem hk
    rw [List.take_succ, hx, List.foldlM_append, ih (Nat.le_of_succ_le hk)]
    change (step (states k) xs[k] >>= pure) = _
    rw [h k _ hx]
    rfl

theorem foldlM_eq (h : Passes step xs states) :
    xs.foldlM step (states 0) = .ok (states xs.length) := by
  rw [← h.foldlM_take (Nat.le_refl _), List.take_length]

/-- A loop whose passes are, seen through `f`, passes of another loop. -/
theorem map {f : σ → τ} (h : Passes step xs states)
    (hstep : ∀ s x t, step s x = .ok t → step' (f s) x = .ok (f t)) :
    Passes step' xs fun k => f (states k) :=
  fun k x hx => hstep _ x _ (h k x hx)

/-- What holds at the start and is kept by every pass. -/
theorem invariant {I : ℕ → σ → Prop} (h : Passes step xs states) (hstart : I 0 (states 0))
    (hstep : ∀ k s x t, xs[k]? = some x → I k s → step s x = .ok t → I (k + 1) t) {k : ℕ}
    (hk : k ≤ xs.length) : I k (states k) := by
  induction k with
  | zero => exact hstart
  | succ k ih =>
    have hx : xs[k]? = some xs[k] := List.getElem?_eq_getElem hk
    exact hstep k _ xs[k] _ hx (ih (Nat.le_of_succ_le hk)) (h k _ hx)

end Passes

end BurnDragon.Transition
