import BurnDragon.Generation.RowHistory

/-!
# The schedule of the ragged batch

Which positions the ragged batch feeds as a segment, and which through the buffer, depends only on the
prompts and on how many tokens each row generates. `Block` is one pass of the outer loop as a step on
the position and the active rows, and `Schedule` says which of these are reached. The steps are
deterministic and the position goes up, so a prompt token is fed with one summary bit (`Feeds.unique`).
The bits do not depend on the ends of rows that are still inside their prompt (`Feeds.congr_end`).
-/

namespace BurnDragon.Generation

open Layout Relation List

/-- The next end of an active prompt. -/
def nextBoundary (promptTokens : List (List ℤ)) (activeRows : List ℕ) : ℕ :=
  ((activeRows.map fun row => (promptTokens.getD row []).length).min?).getD 0

/-- Every active row is inside its prompt. -/
def AllInPrompt (promptTokens : List (List ℤ)) (position : ℕ) (activeRows : List ℕ) : Prop :=
  ∀ row ∈ activeRows, position < (promptTokens.getD row []).length

instance (promptTokens : List (List ℤ)) (position : ℕ) (activeRows : List ℕ) :
    Decidable (AllInPrompt promptTokens position activeRows) :=
  inferInstanceAs (Decidable (∀ row ∈ activeRows, _))

section Schedule

variable (triggers : Option (List ℕ)) (promptTokens : List (List ℤ)) (maxNewTokens : List ℕ)
  (deviceBufferTokens : ℕ) (fin : ℕ → ℕ)

/-- A pass of the outer loop on the position and the active rows, when row `r` generates `fin r`
tokens. -/
inductive Block : ℕ × List ℕ → ℕ × List ℕ → Prop
  | segment {x : ℕ} {active : List ℕ} : active ≠ [] → AllInPrompt promptTokens x active →
    Block (x, active) (nextBoundary promptTokens active, active)
  | buffer {x : ℕ} {active : List ℕ} : active ≠ [] → ¬AllInPrompt promptTokens x active →
    Block (x, active) (x + deviceBufferTokens,
      active.filter (staysActive promptTokens fin (x + deviceBufferTokens)))

/-- The positions and active rows at the head of the outer loop. -/
def Schedule (x : ℕ) (active : List ℕ) : Prop :=
  ReflTransGen (Block promptTokens deviceBufferTokens fin) (0, budgetedRows maxNewTokens) (x, active)

/-- The summary bit that row `r` gets with prompt token `e` in the block at `x`: a segment is masked on
its own, a buffered step by its token alone. -/
def fedBit (x : ℕ) (active : List ℕ) (r e : ℕ) : ℤ :=
  let prompt := promptTokens.getD r []
  if AllInPrompt promptTokens x active then
    (summaryBits triggers (slice x (nextBoundary promptTokens active - x) prompt)).getD (e - x) 0
  else stepBit triggers true (prompt.getD e 0)

/-- The batch feeds `bit` with prompt token `e` of row `r`. -/
def Feeds (r e : ℕ) (bit : ℤ) : Prop :=
  ∃ x active next, Schedule promptTokens maxNewTokens deviceBufferTokens fin x active ∧
    Block promptTokens deviceBufferTokens fin (x, active) next ∧ r ∈ active ∧ x ≤ e ∧ e < next.1 ∧
    e < (promptTokens.getD r []).length ∧ bit = fedBit triggers promptTokens x active r e

variable {triggers promptTokens maxNewTokens deviceBufferTokens fin} {x : ℕ} {active : List ℕ}
  {s t u : ℕ × List ℕ}

variable (promptTokens) in
theorem nextBoundary_le {r : ℕ} (hr : r ∈ active) :
    nextBoundary promptTokens active ≤ (promptTokens.getD r []).length := by
  have hmem : (promptTokens.getD r []).length ∈
      active.map fun row => (promptTokens.getD row []).length := mem_map_of_mem hr
  cases hmin : (active.map fun row => (promptTokens.getD row []).length).min? with
  | none => rw [min?_eq_none_iff.1 hmin] at hmem; cases hmem
  | some m =>
    rw [nextBoundary, hmin]
    exact (min?_eq_some_iff.1 hmin).2 _ hmem

theorem lt_nextBoundary (hne : active ≠ []) (hall : AllInPrompt promptTokens x active) :
    x < nextBoundary promptTokens active := by
  cases hmin : (active.map fun row => (promptTokens.getD row []).length).min? with
  | none => exact absurd (map_eq_nil_iff.1 (min?_eq_none_iff.1 hmin)) hne
  | some m =>
    obtain ⟨r, hr, rfl⟩ := mem_map.1 (min?_eq_some_iff.1 hmin).1
    rw [nextBoundary, hmin]
    exact hall r hr

section

variable (h : Schedule promptTokens maxNewTokens deviceBufferTokens fin x active)
  (hne : active ≠ [])
include h hne

theorem Feeds.segment {r i : ℕ} (hall : AllInPrompt promptTokens x active) (hr : r ∈ active)
    (hi : x + i < nextBoundary promptTokens active) :
    Feeds triggers promptTokens maxNewTokens deviceBufferTokens fin r (x + i)
      ((summaryBits triggers (slice x (nextBoundary promptTokens active - x)
        (promptTokens.getD r []))).getD i 0) := by
  refine ⟨x, active, _, h, .segment hne hall, hr, Nat.le_add_right x i, hi,
    hi.trans_le (nextBoundary_le promptTokens hr), ?_⟩
  rw [fedBit, if_pos hall, Nat.add_sub_cancel_left]

theorem Feeds.step {r i : ℕ} (hall : ¬AllInPrompt promptTokens x active) (hr : r ∈ active)
    (hi : i < deviceBufferTokens) (hlt : x + i < (promptTokens.getD r []).length) :
    Feeds triggers promptTokens maxNewTokens deviceBufferTokens fin r (x + i)
      (stepBit triggers true ((promptTokens.getD r []).getD (x + i) 0)) := by
  refine ⟨x, active, _, h, .buffer hne hall, hr, Nat.le_add_right x i, Nat.add_lt_add_left hi x, hlt,
    ?_⟩
  rw [fedBit, if_neg hall]

end

/-! ## One block for every position -/

theorem Block.unique (h : Block promptTokens deviceBufferTokens fin s t)
    (h' : Block promptTokens deviceBufferTokens fin s u) : t = u := by
  cases h with
  | segment hne hall =>
    cases h' with
    | segment => rfl
    | buffer _ hnot => exact absurd hall hnot
  | buffer hne hnot =>
    cases h' with
    | segment _ hall => exact absurd hall hnot
    | buffer => rfl

section

variable (hdevice : 0 < deviceBufferTokens)
include hdevice

theorem Block.lt (h : Block promptTokens deviceBufferTokens fin s t) : s.1 < t.1 := by
  cases h with
  | segment hne hall => exact lt_nextBoundary hne hall
  | buffer => exact Nat.lt_add_of_pos_right hdevice

theorem position_mono (h : ReflTransGen (Block promptTokens deviceBufferTokens fin) s t) :
    s.1 ≤ t.1 := by
  induction h with
  | refl => exact le_rfl
  | tail _ hblock ih => exact ih.trans (hblock.lt hdevice).le

/-- Two blocks that feed one position are the same. -/
theorem Schedule.block_unique {x' e : ℕ} {active' : List ℕ}
    (hs : Schedule promptTokens maxNewTokens deviceBufferTokens fin x active)
    (hs' : Schedule promptTokens maxNewTokens deviceBufferTokens fin x' active')
    (ht : Block promptTokens deviceBufferTokens fin (x, active) t)
    (hu : Block promptTokens deviceBufferTokens fin (x', active') u) (hx : x ≤ e) (het : e < t.1)
    (hx' : x' ≤ e) (heu : e < u.1) : (x, active) = (x', active') := by
  have hunique : Relator.RightUnique (Block promptTokens deviceBufferTokens fin) :=
    fun _ _ _ => Block.unique
  rcases ReflTransGen.total_of_right_unique hunique hs hs' with h | h
  · rcases h.cases_head with heq | ⟨next, hnext, hlater⟩
    · exact heq
    · have hle := position_mono hdevice hlater
      rw [hnext.unique ht] at hle
      omega
  · rcases h.cases_head with heq | ⟨next, hnext, hlater⟩
    · exact heq.symm
    · have hle := position_mono hdevice hlater
      rw [hnext.unique hu] at hle
      omega

/-- **A prompt token is fed with one summary bit**, which is that of its prompt. -/
theorem Feeds.unique {r r' e : ℕ} {bit bit' : ℤ}
    (h : Feeds triggers promptTokens maxNewTokens deviceBufferTokens fin r e bit)
    (h' : Feeds triggers promptTokens maxNewTokens deviceBufferTokens fin r' e bit')
    (hprompt : promptTokens.getD r [] = promptTokens.getD r' []) : bit = bit' := by
  obtain ⟨x, active, t, hs, ht, -, hx, het, -, rfl⟩ := h
  obtain ⟨x', active', u, hs', hu, -, hx', heu, -, rfl⟩ := h'
  obtain ⟨rfl, rfl⟩ := Prod.mk.inj (hs.block_unique hdevice hs' ht hu hx het hx' heu)
  simp only [fedBit, hprompt]

end

/-! ## Other ends -/

theorem Schedule.mem_start (h : Schedule promptTokens maxNewTokens deviceBufferTokens fin x active)
    {r : ℕ} (hr : r ∈ active) : r ∈ budgetedRows maxNewTokens := by
  obtain ⟨s, hs⟩ : ∃ s, (x, active) = s := ⟨_, rfl⟩
  rw [Schedule, hs] at h
  have hmem : r ∈ s.2 := hs ▸ hr
  clear hs hr
  induction h with
  | refl => exact hmem
  | tail _ hblock ih =>
    cases hblock with
    | segment => exact ih hmem
    | buffer => exact ih (mem_of_mem_filter hmem)

/-- The schedule up to `e` does not depend on the ends of rows whose prompt goes beyond `e`. -/
theorem Schedule.congr_end (hdevice : 0 < deviceBufferTokens) {fin' : ℕ → ℕ} {e : ℕ}
    (hfin : ∀ r ∈ budgetedRows maxNewTokens, fin r = fin' r ∨
      (e < (promptTokens.getD r []).length ∧ 0 < fin r ∧ 0 < fin' r))
    (h : Schedule promptTokens maxNewTokens deviceBufferTokens fin x active) (hx : x ≤ e) :
    Schedule promptTokens maxNewTokens deviceBufferTokens fin' x active := by
  obtain ⟨s, hs⟩ : ∃ s, (x, active) = s := ⟨_, rfl⟩
  have hle : s.1 ≤ e := hs ▸ hx
  rw [Schedule, hs] at h ⊢
  clear hs hx
  induction h with
  | refl => exact .refl
  | @tail s t hs hblock ih =>
    have hbefore := (hblock.lt hdevice).le.trans hle
    refine (ih hbefore).tail ?_
    cases hblock with
    | segment hne hall => exact .segment hne hall
    | @buffer x active hne hall =>
      have hsame : active.filter (staysActive promptTokens fin (x + deviceBufferTokens)) =
          active.filter (staysActive promptTokens fin' (x + deviceBufferTokens)) := by
        refine filter_congr fun r hr => ?_
        rcases hfin r (Schedule.mem_start hs hr) with heq | ⟨hprompt, hpos, hpos'⟩
        · rw [staysActive, staysActive, heq]
        · have hzero : generatedCount promptTokens r (x + deviceBufferTokens) = 0 := by
            rw [generatedCount]
            omega
          rw [staysActive, staysActive, hzero, decide_eq_true hpos, decide_eq_true hpos']
      rw [hsame]
      exact .buffer hne hall

theorem Feeds.congr_end (hdevice : 0 < deviceBufferTokens) {fin' : ℕ → ℕ} {r e : ℕ} {bit : ℤ}
    (hfin : ∀ r ∈ budgetedRows maxNewTokens, fin r = fin' r ∨
      (e < (promptTokens.getD r []).length ∧ 0 < fin r ∧ 0 < fin' r))
    (h : Feeds triggers promptTokens maxNewTokens deviceBufferTokens fin r e bit) :
    Feeds triggers promptTokens maxNewTokens deviceBufferTokens fin' r e bit := by
  obtain ⟨x, active, t, hs, ht, hr, hx, het, hlt, rfl⟩ := h
  have hs' := hs.congr_end hdevice hfin hx
  cases ht with
  | segment hne hall => exact ⟨x, active, _, hs', .segment hne hall, hr, hx, het, hlt, rfl⟩
  | buffer hne hall => exact ⟨x, active, _, hs', .buffer hne hall, hr, hx, het, hlt, rfl⟩

end Schedule

end BurnDragon.Generation
