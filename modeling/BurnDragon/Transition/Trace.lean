import Mathlib

/-!
# Traces of a machine

A machine answers requests one after the other. Its trace records for every request the states
before and after it and the reply. What holds before a request is proved along the trace
(`trace_invariant`), and a value that no request of a segment changes is the same at both of its
ends (`trace_unchanged`). Where every request spends no more than it earns and the state holds, so
does the trace (`trace_spent_le`).
-/

namespace BurnDragon.Transition

open List Option Nat

/-- A request that was answered. -/
structure Answered (σ ι ο : Type*) where
  before : σ
  request : ι
  reply : ο
  after : σ

variable {σ ι ο : Type*} {step : σ → ι → ο × σ} {s : σ} {is : List ι} {e e' : Answered σ ι ο}
  {i j k : ℕ}

def trace (step : σ → ι → ο × σ) : σ → List ι → List (Answered σ ι ο)
  | _, [] => []
  | s, i :: is => ⟨s, i, (step s i).1, (step s i).2⟩ :: trace step (step s i).2 is

/-- The state behind the last request. -/
def lastState (step : σ → ι → ο × σ) (s : σ) (is : List ι) : σ :=
  is.foldl (fun s i => (step s i).2) s

theorem lastState_invariant {I : σ → Prop} (hstart : I s)
    (hstep : ∀ s i, I s → I (step s i).2) (is : List ι) : I (lastState step s is) := by
  induction is generalizing s with
  | nil => exact hstart
  | cons i is ih => exact ih (hstep s i hstart)

theorem trace_step (h : (trace step s is)[k]? = some e) :
    step e.before e.request = (e.reply, e.after) := by
  induction is generalizing s k with
  | nil => simp [trace] at h
  | cons i is ih =>
    cases k with
    | zero =>
      obtain rfl : _ = e := some.inj h
      rfl
    | succ k => exact ih h

theorem trace_request (h : (trace step s is)[k]? = some e) : is[k]? = some e.request := by
  induction is generalizing s k with
  | nil => simp [trace] at h
  | cons i is ih =>
    cases k with
    | zero =>
      obtain rfl : _ = e := some.inj h
      rfl
    | succ k => exact ih h

theorem trace_zero (h : (trace step s is)[0]? = some e) : e.before = s := by
  cases is with
  | nil => simp [trace] at h
  | cons i is =>
    obtain rfl : _ = e := some.inj h
    rfl

/-- The state after a request is the one before the next. -/
theorem trace_succ (h : (trace step s is)[k]? = some e) (h' : (trace step s is)[k + 1]? = some e') :
    e'.before = e.after := by
  induction is generalizing s k with
  | nil => simp [trace] at h
  | cons i is ih =>
    cases k with
    | zero =>
      obtain rfl : _ = e := some.inj h
      exact trace_zero h'
    | succ k => exact ih h h'

theorem exists_trace_of_succ (h : (trace step s is)[k + 1]? = some e') :
    ∃ e, (trace step s is)[k]? = some e := by
  have hlt := (List.getElem?_eq_some_iff.1 h).1
  exact ⟨_, List.getElem?_eq_getElem (lt_of_succ_lt hlt)⟩

/-- Some event before the place `k` has the property. -/
def Earlier {ε : Type*} (events : List ε) (k : ℕ) (P : ε → Prop) : Prop :=
  ∃ j < k, ∃ e, events[j]? = some e ∧ P e

variable {ε : Type*}

theorem not_earlier_zero (events : List ε) (P : ε → Prop) : ¬Earlier events 0 P := by
  rintro ⟨j, hj, -⟩
  exact absurd hj (not_lt_zero j)

variable {events : List ε}

theorem earlier_succ {e : ε} (h : events[k]? = some e) (P : ε → Prop) :
    Earlier events (k + 1) P ↔ Earlier events k P ∨ P e := by
  constructor
  · rintro ⟨j, hj, e', he', hP⟩
    rcases Nat.lt_succ_iff_lt_or_eq.1 hj with hlt | rfl
    · exact .inl ⟨j, hlt, e', he', hP⟩
    · exact .inr (some.inj (h.symm.trans he') ▸ hP)
  · rintro (⟨j, hj, hrest⟩ | hP)
    · exact ⟨j, lt_succ_of_lt hj, hrest⟩
    · exact ⟨k, lt_succ_self k, e, h, hP⟩

theorem Earlier.mono {P : ε → Prop} (h : Earlier events j P) (hjk : j ≤ k) :
    Earlier events k P := by
  obtain ⟨i, hi, hrest⟩ := h
  exact ⟨i, hi.trans_le hjk, hrest⟩

/-- Some event before the place `k` has the property `P`, and every event between has `Q`. -/
def Since {ε : Type*} (events : List ε) (k : ℕ) (P Q : ε → Prop) : Prop :=
  ∃ j < k, (∃ e, events[j]? = some e ∧ P e) ∧
    ∀ i e, j < i → i < k → events[i]? = some e → Q e

theorem not_since_zero (events : List ε) (P Q : ε → Prop) : ¬Since events 0 P Q := by
  rintro ⟨j, hj, -⟩
  exact absurd hj (not_lt_zero j)

theorem since_succ {e : ε} (h : events[k]? = some e) (P Q : ε → Prop) :
    Since events (k + 1) P Q ↔ P e ∨ Since events k P Q ∧ Q e := by
  constructor
  · rintro ⟨j, hj, ⟨e', he', hP⟩, hbetween⟩
    rcases Nat.lt_succ_iff_lt_or_eq.1 hj with hlt | rfl
    · exact .inr ⟨⟨j, hlt, ⟨e', he', hP⟩, fun i e'' hji hik =>
        hbetween i e'' hji (lt_succ_of_lt hik)⟩, hbetween k e hlt (lt_succ_self k) h⟩
    · exact .inl (some.inj (h.symm.trans he') ▸ hP)
  · rintro (hP | ⟨⟨j, hj, hrest, hbetween⟩, hQ⟩)
    · refine ⟨k, lt_succ_self k, ⟨e, h, hP⟩, fun i e' hki hik => ?_⟩
      exact absurd hki (not_lt.2 (le_of_lt_succ hik))
    · refine ⟨j, lt_succ_of_lt hj, hrest, fun i e' hji hik he' => ?_⟩
      rcases Nat.lt_succ_iff_lt_or_eq.1 hik with hlt | rfl
      · exact hbetween i e' hji hlt he'
      · exact some.inj (h.symm.trans he') ▸ hQ

/-- What holds at the start and is kept by every request holds before every request. -/
theorem trace_invariant {I : ℕ → σ → Prop} (hstart : I 0 s)
    (hstep : ∀ k e, (trace step s is)[k]? = some e → I k e.before → I (k + 1) e.after)
    (h : (trace step s is)[k]? = some e) : I k e.before := by
  induction k generalizing e with
  | zero => rwa [trace_zero h]
  | succ k ih =>
    obtain ⟨prev, hprev⟩ := exists_trace_of_succ h
    rw [trace_succ hprev h]
    exact hstep k prev hprev (ih hprev)

/-- What holds after a request and is kept by those behind it holds before every later request. -/
theorem trace_invariant_from {I : ℕ → σ → Prop} (h : (trace step s is)[j]? = some e)
    (hstart : I (j + 1) e.after)
    (hstep : ∀ k e, j < k → (trace step s is)[k]? = some e → I k e.before → I (k + 1) e.after)
    (hjk : j < k) (h' : (trace step s is)[k]? = some e') : I k e'.before := by
  induction k, hjk using le_induction generalizing e' with
  | base => rwa [trace_succ h h']
  | succ k hjk ih =>
    obtain ⟨prev, hprev⟩ := exists_trace_of_succ h'
    rw [trace_succ hprev h']
    exact hstep k prev hjk hprev (ih hprev)

/-- What requests with `P` bring about and only requests without `Q` undo holds before a request
exactly if there was a request with `P` and all since have had `Q`. -/
theorem trace_since {I : σ → Prop} {P Q : Answered σ ι ο → Prop} (hstart : ¬I s)
    (hstep : ∀ (k : ℕ) e, (trace step s is)[k]? = some e → (I e.after ↔ P e ∨ I e.before ∧ Q e))
    (h : (trace step s is)[k]? = some e) : I e.before ↔ Since (trace step s is) k P Q := by
  induction k generalizing e with
  | zero =>
    rw [trace_zero h]
    exact iff_of_false hstart (not_since_zero _ _ _)
  | succ k ih =>
    obtain ⟨prev, hprev⟩ := exists_trace_of_succ h
    rw [trace_succ hprev h, since_succ hprev, hstep k prev hprev, ih hprev]

/-- A value that no request from `i` on changes is the same before `j`. -/
theorem trace_unchanged {α : Type*} {f : σ → α}
    (hkept : ∀ k e, i ≤ k → k < j → (trace step s is)[k]? = some e → f e.after = f e.before)
    (hij : i ≤ j) (h : (trace step s is)[i]? = some e) (h' : (trace step s is)[j]? = some e') :
    f e'.before = f e.before := by
  induction j, hij using le_induction generalizing e' with
  | base => rw [some.inj (h.symm.trans h')]
  | succ j hij ih =>
    obtain ⟨prev, hprev⟩ := exists_trace_of_succ h'
    rw [trace_succ hprev h', hkept j prev hij (lt_succ_self j) hprev]
    exact ih (fun k e hik hkj => hkept k e hik (lt_succ_of_lt hkj)) hprev

/-- The requests of a trace spend no more than what the start holds and what they earn. -/
theorem trace_spent_le {K : Type*} [AddCommGroup K] [LinearOrder K] [IsOrderedAddMonoid K]
    (holds : σ → K) {spent earned : Answered σ ι ο → K}
    (hnonneg : ∀ e ∈ trace step s is, 0 ≤ holds e.after)
    (hstep : ∀ e ∈ trace step s is, spent e + holds e.after ≤ holds e.before + earned e)
    (hstart : 0 ≤ holds s) :
    ((trace step s is).map spent).sum ≤ holds s + ((trace step s is).map earned).sum := by
  induction is generalizing s with
  | nil => simpa [trace] using hstart
  | cons i is ih =>
    rw [trace, forall_mem_cons] at hnonneg hstep
    have hrest := ih hnonneg.2 hstep.2 hnonneg.1
    have hfirst := hstep.1
    rw [trace, map_cons, map_cons, sum_cons, sum_cons]
    calc _ ≤ _ := add_le_add_right hrest _
      _ = _ := (add_assoc _ _ _).symm
      _ ≤ _ := add_le_add_left hfirst _
      _ = _ := add_assoc _ _ _

/-- A second machine that keeps the relation `R` to the first, over every request for which the
guard `G` holds, gives the same replies. -/
theorem trace_reply_eq {τ : Type*} {other : τ → ι → ο × τ} {R : σ → τ → Prop}
    {G : Answered σ ι ο → Prop}
    (hstep : ∀ s t i, R s t → G ⟨s, i, (step s i).1, (step s i).2⟩ → (other t i).1 = (step s i).1 ∧
      R (step s i).2 (other t i).2) (is : List ι) {t : τ} (hstart : R s t)
    (hguard : ∀ e ∈ trace step s is, G e) :
    (trace other t is).map Answered.reply = (trace step s is).map Answered.reply := by
  induction is generalizing s t with
  | nil => rfl
  | cons i is ih =>
    rw [trace, forall_mem_cons] at hguard
    obtain ⟨hreply, hafter⟩ := hstep s t i hstart hguard.1
    rw [trace, trace, map_cons, map_cons, ih hafter hguard.2]
    exact congrArg (· :: _) hreply

end BurnDragon.Transition
