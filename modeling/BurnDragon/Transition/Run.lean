import Mathlib

/-!
# Runs of a transition system

A step may show one event. `Run step s es t` says that steps lead from `s` to `t` and show the events
`es` in this order. An invariant of the events and the state is proved step by step (`Run.induct`),
and a run can be cut after any of its events (`Run.split`).
-/

namespace BurnDragon.Transition

open List

variable {σ ε : Type*} {step : σ → Option ε → σ → Prop} {s t u : σ} {es fs : List ε}

inductive Run (step : σ → Option ε → σ → Prop) (s : σ) : List ε → σ → Prop
  | refl : Run step s [] s
  | tail {t u : σ} {es : List ε} {e : Option ε} :
    Run step s es t → step t e u → Run step s (es ++ e.toList) u

namespace Run

theorem single {e : Option ε} (h : step s e t) : Run step s e.toList t := tail refl h

theorem trans (h : Run step s es t) (h' : Run step t fs u) : Run step s (es ++ fs) u := by
  induction h' with
  | refl => rwa [append_nil]
  | tail _ hstep ih => rw [← append_assoc]; exact tail ih hstep

/-- What holds at the start and is kept by every step holds after every run. -/
theorem induct {P : List ε → σ → Prop} (h : Run step s es t) (hstart : P [] s)
    (hstep : ∀ es t e u, Run step s es t → P es t → step t e u → P (es ++ e.toList) u) : P es t := by
  induction h with
  | refl => exact hstart
  | tail hrun h ih => exact hstep _ _ _ _ hrun ih h

/-- An invariant of the state. -/
theorem invariant {I : σ → Prop} (h : Run step s es t) (hstart : I s)
    (hstep : ∀ t e u, I t → step t e u → I u) : I t :=
  h.induct (P := fun _ t => I t) hstart fun _ t e u _ ht => hstep t e u ht

/-- A run can be cut after any of its events. -/
theorem split (h : Run step s (es ++ fs) u) : ∃ t, Run step s es t ∧ Run step t fs u := by
  generalize hall : es ++ fs = all at h
  induction h generalizing fs with
  | refl =>
    obtain ⟨rfl, rfl⟩ := append_eq_nil_iff.1 hall
    exact ⟨s, refl, refl⟩
  | @tail t u es' e hrun hstep ih =>
    cases e with
    | none =>
      rw [Option.toList_none, append_nil] at hall
      obtain ⟨v, hv, hv'⟩ := ih hall
      exact ⟨v, hv, by simpa using tail hv' hstep⟩
    | some e =>
      rcases eq_nil_or_concat fs with rfl | ⟨fs', e', rfl⟩
      · rw [append_nil] at hall
        exact ⟨u, hall ▸ tail hrun hstep, refl⟩
      · rw [concat_eq_append, ← append_assoc] at hall
        obtain ⟨rfl, he⟩ := append_inj' hall rfl
        obtain ⟨v, hv, hv'⟩ := ih rfl
        exact ⟨v, hv, by rw [concat_eq_append, he]; exact tail hv' hstep⟩

/-- The last event of a run is shown by one of its steps. -/
theorem exists_step {e : ε} (h : Run step s (es ++ [e]) u) :
    ∃ t t', Run step s es t ∧ step t (some e) t' ∧ Run step t' [] u := by
  generalize hall : es ++ [e] = all at h
  induction h with
  | refl => simp at hall
  | @tail t u es' e' hrun hstep ih =>
    cases e' with
    | none =>
      rw [Option.toList_none, append_nil] at hall
      obtain ⟨v, v', hv, hv', hrest⟩ := ih hall
      exact ⟨v, v', hv, hv', by simpa using tail hrest hstep⟩
    | some e' =>
      obtain ⟨rfl, he⟩ := append_inj' hall rfl
      obtain rfl : e = e' := by simpa using he
      exact ⟨t, u, hrun, hstep, refl⟩

end Run

end BurnDragon.Transition
