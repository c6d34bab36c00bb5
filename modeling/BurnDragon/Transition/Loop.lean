import Mathlib

/-!
# Loops

One pass of a loop goes on from a new state or leaves with a result. `Loop.run body fuel s` makes at
most `fuel` passes, and `Loop.Returns body s r` says that enough of them leave with `r`. A loop that
never leaves returns nothing.

The rules are the usual ones: a loop returns at most one result (`Returns.unique`), it can be unrolled
(`returns_iff_of_go`, `returns_iff_of_leave`), an invariant holds when it leaves
(`Returns.invariant`), and it returns when a measure goes down (`exists_returns`).

A loop that counts its passes up to a bound, and stops early after a pass `k` with `P k`, returns
after exactly the `n` passes of `Cut bound P n` (`returns_iff_cut`).
-/

namespace BurnDragon.Transition

/-- What one pass of a loop does. -/
inductive Pass (σ ρ : Type*)
  | go (s : σ)
  | leave (r : ρ)

namespace Loop

variable {σ ρ : Type*} {body : σ → Pass σ ρ} {s t : σ} {r : ρ}

def run (body : σ → Pass σ ρ) : ℕ → σ → Option ρ
  | 0, _ => none
  | fuel + 1, s =>
    match body s with
    | .go t => run body fuel t
    | .leave r => some r

def Returns (body : σ → Pass σ ρ) (s : σ) (r : ρ) : Prop := ∃ fuel, run body fuel s = some r

theorem run_succ_of_go (h : body s = .go t) (fuel : ℕ) : run body (fuel + 1) s = run body fuel t := by
  simp only [run, h]

theorem run_succ_of_leave (h : body s = .leave r) (fuel : ℕ) :
    run body (fuel + 1) s = some r := by
  simp only [run, h]

theorem returns_iff_of_go (h : body s = .go t) : Returns body s r ↔ Returns body t r := by
  constructor
  · rintro ⟨_ | fuel, hrun⟩
    · cases hrun
    · exact ⟨fuel, run_succ_of_go h fuel ▸ hrun⟩
  · rintro ⟨fuel, hrun⟩
    exact ⟨fuel + 1, (run_succ_of_go h fuel).trans hrun⟩

theorem returns_iff_of_leave {r' : ρ} (h : body s = .leave r) : Returns body s r' ↔ r' = r := by
  constructor
  · rintro ⟨_ | fuel, hrun⟩
    · cases hrun
    · rw [run_succ_of_leave h] at hrun
      exact (Option.some.inj hrun).symm
  · rintro rfl
    exact ⟨1, run_succ_of_leave h 0⟩

/-- Induction from the last pass back to the first. -/
theorem Returns.head_induct {P : σ → Prop} (h : Returns body s r)
    (hleave : ∀ t, body t = .leave r → P t)
    (hgo : ∀ t u, body t = .go u → Returns body u r → P u → P t) : P s := by
  obtain ⟨fuel, hrun⟩ := h
  induction fuel generalizing s with
  | zero => cases hrun
  | succ fuel ih =>
    cases hbody : body s with
    | go t =>
      rw [run_succ_of_go hbody] at hrun
      exact hgo s t hbody ⟨fuel, hrun⟩ (ih hrun)
    | leave r' =>
      rw [run_succ_of_leave hbody] at hrun
      obtain rfl := Option.some.inj hrun
      exact hleave s hbody

theorem Returns.unique {r' : ρ} (h : Returns body s r) (h' : Returns body s r') : r = r' := by
  refine h.head_induct (P := fun t => Returns body t r' → r = r') ?_ ?_ h'
  · intro t hbody ht
    exact ((returns_iff_of_leave hbody).1 ht).symm
  · intro t u hbody _ ih ht
    exact ih ((returns_iff_of_go hbody).1 ht)

variable {I : σ → Prop}

/-- An invariant of the passes holds when the loop leaves. -/
theorem Returns.invariant (h : Returns body s r) (hstart : I s)
    (hstep : ∀ t u, I t → body t = .go u → I u) : ∃ t, I t ∧ body t = .leave r := by
  refine h.head_induct (P := fun t => I t → ∃ u, I u ∧ body u = .leave r) ?_ ?_ hstart
  · intro t hbody ht
    exact ⟨t, ht, hbody⟩
  · intro t u hbody _ ih ht
    exact ih (hstep t u ht hbody)

/-- A loop that leaves with `Q`, or goes on with an invariant and a smaller measure, returns with
`Q`. -/
theorem exists_returns_of_pass {Q : ρ → Prop} (measure : σ → ℕ) (hstart : I s)
    (hpass : ∀ t, I t → (∃ r, body t = .leave r ∧ Q r) ∨ ∃ u, body t = .go u ∧ I u ∧ measure u <
      measure t) : ∃ r, Returns body s r ∧ Q r := by
  induction hm : measure s using Nat.strongRecOn generalizing s with
  | ind m ih =>
    subst hm
    rcases hpass s hstart with ⟨r, hleave, hQ⟩ | ⟨t, hgo, ht, hlt⟩
    · exact ⟨r, (returns_iff_of_leave hleave).2 rfl, hQ⟩
    · obtain ⟨r, hr, hQ⟩ := ih (measure t) hlt ht rfl
      exact ⟨r, (returns_iff_of_go hgo).2 hr, hQ⟩

/-- A loop whose measure goes down on every pass from a state that satisfies the invariant
returns. -/
theorem exists_returns (measure : σ → ℕ) (hstart : I s)
    (hstep : ∀ t u, I t → body t = .go u → I u ∧ measure u < measure t) :
    ∃ r, Returns body s r := by
  have hpass : ∀ t, I t → (∃ r, body t = .leave r ∧ True) ∨
      ∃ u, body t = .go u ∧ I u ∧ measure u < measure t := by
    intro t ht
    cases hbody : body t with
    | go u => exact .inr ⟨u, rfl, hstep t u ht hbody⟩
    | leave r => exact .inl ⟨r, rfl, trivial⟩
  obtain ⟨r, hr, -⟩ := exists_returns_of_pass measure hstart hpass
  exact ⟨r, hr⟩

end Loop

/-! ## Counting loops -/

/-- `n` is where counting ends: at the bound, or just after the first index with `P`. -/
structure Cut (bound : Option ℕ) (P : ℕ → Prop) (n : ℕ) : Prop where
  le : ∀ m, bound = some m → n ≤ m
  not_before : ∀ i, i + 1 < n → ¬P i
  ends : bound = some n ∨ ∃ i, n = i + 1 ∧ P i

variable {P : ℕ → Prop}

theorem Cut.le_of_cut {bound : Option ℕ} {n n' : ℕ} (h : Cut bound P n) (h' : Cut bound P n') :
    n ≤ n' := by
  rcases h'.ends with hbound | ⟨i, rfl, hP⟩
  · exact h.le n' hbound
  · by_contra hlt
    exact h.not_before i (by omega) hP

theorem Cut.unique {bound : Option ℕ} {n n' : ℕ} (h : Cut bound P n) (h' : Cut bound P n') :
    n = n' :=
  le_antisymm (h.le_of_cut h') (h'.le_of_cut h)

/-- The cut at a bound, when the count after the first index with `P` is known. -/
theorem Cut.of_first (bound : ℕ) (first : Option ℕ)
    (hfirst : ∀ k, first = some k → ∃ i, k = i + 1 ∧ P i ∧ ∀ j < i, ¬P j)
    (hnone : first = none → ∀ i, ¬P i) : Cut (some bound) P (first.elim bound (min bound)) := by
  cases first with
  | none => exact ⟨fun m hm => (Option.some.inj hm).le, fun i _ => hnone rfl i, .inl rfl⟩
  | some k =>
    obtain ⟨i, rfl, hP, hbefore⟩ := hfirst k rfl
    refine ⟨fun m hm => Option.some.inj hm ▸ Nat.min_le_left _ _,
      fun j hj => hbefore j ?_, ?_⟩
    · have := Nat.min_le_right bound (i + 1)
      exact Nat.lt_of_succ_lt_succ (hj.trans_le this)
    · rcases Nat.le_total bound (i + 1) with hle | hle
      · exact .inl (congrArg some (Nat.min_eq_left hle).symm)
      · exact .inr ⟨i, Nat.min_eq_right hle, hP⟩

namespace Loop

variable {σ ρ : Type*} (body : σ → Pass σ ρ) (bound : Option ℕ) (P : ℕ → Prop) [DecidablePred P]

/-- A loop that counts passes returns what it has at the cut. -/
theorem returns_iff_cut (state : ℕ → σ) (result : ℕ → ρ) {r : ρ}
    (hbody : ∀ k, (∀ m, bound = some m → k ≤ m) → body (state k) =
      if bound = some k then .leave (result k)
      else if P k then .leave (result (k + 1)) else .go (state (k + 1))) :
    Returns body (state 0) r ↔ ∃ n, Cut bound P n ∧ r = result n := by
  constructor
  · intro h
    obtain ⟨t, ⟨k, rfl, hle, hP⟩, hleave⟩ := h.invariant
      (I := fun t => ∃ k, t = state k ∧ (∀ m, bound = some m → k ≤ m) ∧ ∀ i < k, ¬P i)
      ⟨0, rfl, fun m _ => Nat.zero_le m, fun i hi => absurd hi (Nat.not_lt_zero i)⟩ (by
        rintro t u ⟨k, rfl, hle, hP⟩ hgo
        rw [hbody k hle] at hgo
        split_ifs at hgo with hbound hPk
        obtain rfl := Pass.go.inj hgo
        refine ⟨k + 1, rfl, fun m hm => ?_, fun i hi => ?_⟩
        · exact lt_of_le_of_ne (hle m hm) fun h => hbound (h ▸ hm)
        · rcases Nat.lt_succ_iff_lt_or_eq.1 hi with hi | rfl
          · exact hP i hi
          · exact hPk)
    rw [hbody k hle] at hleave
    split_ifs at hleave with hbound hPk
    · exact ⟨k, ⟨hle, fun i hi => hP i (by omega), .inl hbound⟩, (Pass.leave.inj hleave).symm⟩
    · refine ⟨k + 1, ⟨fun m hm => ?_, fun i hi => hP i (by omega), .inr ⟨k, rfl, hPk⟩⟩,
        (Pass.leave.inj hleave).symm⟩
      exact lt_of_le_of_ne (hle m hm) fun h => hbound (h ▸ hm)
  · rintro ⟨n, hcut, rfl⟩
    have hpasses : ∀ d k, k + d = n → (d = 0 → bound = some n) →
        Returns body (state k) (result n) := by
      intro d
      induction d with
      | zero =>
        rintro k rfl hlast
        have hleave := (hbody k hcut.le).trans (if_pos (hlast rfl))
        exact (returns_iff_of_leave hleave).2 rfl
      | succ d ih =>
        rintro k hk -
        have hbound : bound ≠ some k := fun hm => by have := hcut.le k hm; omega
        have hle : ∀ m, bound = some m → k ≤ m := fun m hm => by have := hcut.le m hm; omega
        by_cases hPk : P k
        · have hn : n = k + 1 := by
            by_contra hne
            exact hcut.not_before k (by omega) hPk
          have hleave := (hbody k hle).trans ((if_neg hbound).trans (if_pos hPk))
          exact (returns_iff_of_leave hleave).2 (by rw [hn])
        · have hgo := (hbody k hle).trans ((if_neg hbound).trans (if_neg hPk))
          refine (returns_iff_of_go hgo).2 (ih (k + 1) (by omega) ?_)
          rintro rfl
          rcases hcut.ends with hm | ⟨i, hi, hP⟩
          · exact hm
          · obtain rfl : i = k := by omega
            exact absurd hP hPk
    refine hpasses n 0 (Nat.zero_add n) ?_
    rintro rfl
    rcases hcut.ends with hm | ⟨i, hi, -⟩
    · exact hm
    · omega

end Loop

end BurnDragon.Transition
