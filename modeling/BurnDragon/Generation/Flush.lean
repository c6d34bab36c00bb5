import BurnDragon.Generation.Rows

/-!
# Flushes of a batch

After a buffer is read back, every active row adds its tokens up to its budget and its first stop
token, and it stays active when it may still generate. When `g` is the sequence of tokens that the row
generates and `Cut (some budget) (stop = g ·) fin`, the row adds the tokens below `fin` and stays
while its count is below `fin` (`acceptUntilStop_seq`); a flush does this for all active rows
(`flushRows_eq`).
-/

namespace BurnDragon.Generation

open Layout Transition List

/-! ## One row -/

/-- A ragged flush accepts the generated tokens among the buffered ones. -/
theorem acceptGenerated_eq (stopOnToken : Option ℤ) (remaining : ℕ) (l : List (Bool × ℤ))
    (accepted : ℕ) : acceptGenerated stopOnToken remaining l accepted =
      acceptUntilStop stopOnToken
        (((l.filter Prod.fst).map Prod.snd).take (remaining - accepted)) := by
  induction l generalizing accepted with
  | nil => simp [acceptGenerated, acceptUntilStop]
  | cons a l ih =>
    obtain ⟨isGenerated, token⟩ := a
    cases isGenerated with
    | false => simpa [acceptGenerated] using ih accepted
    | true =>
      by_cases hfull : accepted ≥ remaining
      · have hzero : remaining - accepted = 0 := by omega
        simp only [acceptGenerated, hfull, decide_true, Bool.or_true, if_true]
        rw [ih, hzero, take_zero, take_zero]
      · obtain ⟨d, hd⟩ : ∃ d, remaining - accepted = d + 1 := ⟨remaining - accepted - 1, by omega⟩
        have hd' : remaining - (accepted + 1) = d := by omega
        simp only [acceptGenerated, hfull, decide_false, Bool.not_true, Bool.or_false,
          Bool.false_eq_true, if_false, filter_cons, if_true, map_cons, hd,
          take_succ_cons, acceptUntilStop, ih, hd']

/-- The tokens that a row adds at a flush, when it had `c` generated tokens before it and `c'` are
buffered: those below the end `fin` of the row. It goes on when `c'` is below the end. -/
theorem acceptUntilStop_seq {stopOnToken : Option ℤ} {g : ℕ → ℤ} {budget fin : ℕ}
    (hcut : Cut (some budget) (fun i => stopOnToken = some (g i)) fin) {c c' : ℕ} (hc : c < fin)
    (hle : c ≤ c') :
    ∃ stopped, acceptUntilStop stopOnToken
        (((List.range' c (c' - c)).map g).take (budget - c)) =
          ((List.range' c (min c' fin - c)).map g, stopped) ∧
      ((stopped = false ∧ min c' fin < budget) ↔ c' < fin) := by
  have hbudget : fin ≤ budget := hcut.le budget rfl
  induction hn : c' - c generalizing c with
  | zero =>
    obtain rfl : c' = c := by omega
    refine ⟨false, ?_, fun _ => hc, fun _ => ⟨rfl, by omega⟩⟩
    rw [Nat.min_eq_left hc.le, Nat.sub_self]
    simp [acceptUntilStop]
  | succ n ih =>
    obtain ⟨d, hd⟩ : ∃ d, budget - c = d + 1 := ⟨budget - c - 1, by omega⟩
    rw [range'_succ, map_cons, hd, take_succ_cons, acceptUntilStop]
    by_cases hstop : stopOnToken = some (g c)
    · have hfin : fin = c + 1 := by
        by_contra hne
        exact hcut.not_before c (by omega) hstop
      have hlast : min c' fin - c = 1 := by omega
      refine ⟨true, ?_, by simp; omega⟩
      rw [if_pos hstop, hlast]
      rfl
    · rw [if_neg hstop]
      by_cases hlt : c + 1 < fin
      · obtain ⟨stopped, haccept, hiff⟩ := ih hlt (by omega) (by omega)
        have hd' : budget - (c + 1) = d := by omega
        have hsucc : min c' fin - c = min c' fin - (c + 1) + 1 := by omega
        refine ⟨stopped, ?_, hiff⟩
        rw [← hd', haccept, hsucc, range'_succ, map_cons]
      · -- the row ends here without a stop token, so its budget is used
        have hfin : budget = fin := by
          rcases hcut.ends with hbound | ⟨i, hi, hP⟩
          · exact Option.some.inj hbound
          · obtain rfl : i = c := by omega
            exact absurd hP hstop
        have hzero : d = 0 := by omega
        have hlast : min c' fin - c = 1 := by omega
        refine ⟨false, ?_, by simp; omega⟩
        rw [hzero, hlast]
        rfl

/-! ## All rows -/

/-- What a flush does to the rows that are still to come: row `r` adds `add r`, and goes on when
`keep r`. -/
theorem foldl_flushRow {maxNewTokens : List ℕ} {accept : ℕ → ℕ → List ℤ × Bool} {add : ℕ → List ℤ}
    {keep : ℕ → Bool} {rows : List ℕ} (hnodup : rows.Nodup) (k : ℕ) (s : FlushLoop)
    (h : ∀ j r, rows[j]? = some r → r < s.generated.length ∧ ∃ stopped,
      accept (k + j) (maxNewTokens.getD r 0 - (s.generated.getD r []).length) = (add r, stopped) ∧
      (!stopped && decide ((s.generated.getD r [] ++ add r).length < maxNewTokens.getD r 0)) =
        keep r) :
    (rows.zipIdx k).foldl (flushRow maxNewTokens accept) s =
      ⟨s.generated.mapIdx fun r g => if r ∈ rows then g ++ add r else g,
        s.survivingBatchRows ++ ((rows.zipIdx k).filter fun row => keep row.1).map Prod.snd,
        s.survivingOriginalRows ++ rows.filter keep⟩ := by
  induction rows generalizing k s with
  | nil => simp [mapIdx_eq_zipIdx_map]
  | cons r rows ih =>
    obtain ⟨hr, stopped, haccept, hkeep⟩ := h 0 r rfl
    obtain ⟨hnotin, hnodup'⟩ := nodup_cons.1 hnodup
    have hget : (s.generated.modify r (· ++ add r)).getD r [] = s.generated.getD r [] ++ add r := by
      simp [getD_eq_getElem?_getD, getElem?_eq_getElem hr]
    have hother : ∀ r', r' ≠ r →
        (s.generated.modify r (· ++ add r)).getD r' [] = s.generated.getD r' [] := by
      intro r' hne
      simp [getD_eq_getElem?_getD, Ne.symm hne]
    have hstep : flushRow maxNewTokens accept s (r, k) =
        ⟨s.generated.modify r (· ++ add r), s.survivingBatchRows ++ if keep r then [k] else [],
          s.survivingOriginalRows ++ if keep r then [r] else []⟩ := by
      simp only [flushRow]
      rw [Nat.add_zero] at haccept
      simp only [haccept, hget, hkeep]
      cases keep r <;> simp
    rw [zipIdx_cons, foldl_cons, hstep, ih hnodup' (k + 1) _ ?_]
    · congr 1
      · refine ext_getElem (by simp) fun i hi hi' => ?_
        simp only [getElem_mapIdx, getElem_modify, mem_cons]
        by_cases hir : i = r
        · subst hir
          simp [hnotin]
        · simp [hir, Ne.symm hir]
      · cases hk : keep r <;> simp [hk]
      · cases hk : keep r <;> simp [hk]
    · intro j r' hj
      have hne : r' ≠ r := fun h => hnotin (h ▸ mem_of_getElem? hj)
      obtain ⟨hr', stopped', haccept', hkeep'⟩ := h (j + 1) r' (by simpa using hj)
      refine ⟨by simpa using hr', stopped', ?_, ?_⟩
      · rw [hother r' hne, ← haccept']
        congr 1
        omega
      · rw [hother r' hne]
        exact hkeep'

/-- A flush of the active rows. -/
theorem flushRows_eq {maxNewTokens : List ℕ} {accept : ℕ → ℕ → List ℤ × Bool} (add : ℕ → List ℤ)
    (keep : ℕ → Bool) {generated : List (List ℤ)} {activeRows : List ℕ} (hnodup : activeRows.Nodup)
    (h : ∀ j r, activeRows[j]? = some r → r < generated.length ∧ ∃ stopped,
      accept j (maxNewTokens.getD r 0 - (generated.getD r []).length) = (add r, stopped) ∧
      (!stopped && decide ((generated.getD r [] ++ add r).length < maxNewTokens.getD r 0)) =
        keep r) :
    flushRows maxNewTokens accept generated activeRows =
      ⟨generated.mapIdx fun r g => if r ∈ activeRows then g ++ add r else g,
        (activeRows.zipIdx.filter fun row => keep row.1).map Prod.snd, activeRows.filter keep⟩ := by
  rw [flushRows, foldl_flushRow hnodup 0 _ (by simpa using h)]
  simp

/-- The surviving batch rows are the places of the surviving rows. -/
theorem getElem?_surviving {keep : ℕ → Bool} {activeRows : List ℕ} {j r : ℕ}
    (hj : (activeRows.filter keep)[j]? = some r) :
    ∃ i, ((activeRows.zipIdx.filter fun row => keep row.1).map Prod.snd)[j]? = some i ∧
      activeRows[i]? = some r := by
  have hrows : activeRows.filter keep =
      (activeRows.zipIdx.filter fun row => keep row.1).map Prod.fst := by
    conv_lhs => rw [← zipIdx_map_fst 0 activeRows, filter_map]
    rfl
  rw [hrows, getElem?_map] at hj
  obtain ⟨⟨r', i⟩, hget, rfl⟩ := Option.map_eq_some_iff.1 hj
  have hmem := (mem_filter.1 (mem_of_getElem? hget)).1
  exact ⟨i, by rw [getElem?_map, hget]; rfl, mem_zipIdx_iff_getElem?.1 hmem⟩

theorem length_surviving (keep : ℕ → Bool) (activeRows : List ℕ) :
    ((activeRows.zipIdx.filter fun row => keep row.1).map Prod.snd).length =
      (activeRows.filter keep).length := by
  have hrows : activeRows.filter keep =
      (activeRows.zipIdx.filter fun row => keep row.1).map Prod.fst := by
    conv_lhs => rw [← zipIdx_map_fst 0 activeRows, filter_map]
    rfl
  rw [hrows, length_map, length_map]

/-- A flush leaves no row, fewer rows, or the same rows. -/
theorem surviving_cases (keep : ℕ → Bool) (activeRows : List ℕ) :
    (((activeRows.zipIdx.filter fun row => keep row.1).map Prod.snd).isEmpty = true ∧
        activeRows.filter keep = []) ∨
      (((activeRows.zipIdx.filter fun row => keep row.1).map Prod.snd).isEmpty = false ∧
        ((activeRows.zipIdx.filter fun row => keep row.1).map Prod.snd).length <
          activeRows.length) ∨
      (((activeRows.zipIdx.filter fun row => keep row.1).map Prod.snd).isEmpty = false ∧
        ¬((activeRows.zipIdx.filter fun row => keep row.1).map Prod.snd).length <
          activeRows.length ∧ activeRows.filter keep = activeRows) := by
  have hempty : ((activeRows.zipIdx.filter fun row => keep row.1).map Prod.snd).isEmpty = true ↔
      activeRows.filter keep = [] := by
    rw [List.isEmpty_iff, ← List.length_eq_zero_iff, length_surviving, List.length_eq_zero_iff]
  by_cases hnone : activeRows.filter keep = []
  · exact .inl ⟨hempty.2 hnone, hnone⟩
  · have hsome := Bool.eq_false_iff.2 (mt hempty.1 hnone)
    by_cases hfewer :
        ((activeRows.zipIdx.filter fun row => keep row.1).map Prod.snd).length < activeRows.length
    · exact .inr (.inl ⟨hsome, hfewer⟩)
    · refine .inr (.inr ⟨hsome, hfewer, ?_⟩)
      rw [length_surviving] at hfewer
      exact filter_sublist.eq_of_length_le (by omega)

/-! ## Reading the buffer back -/

/-- The slice of a buffer for one row holds what the row has in every column. -/
theorem slice_catColumns {rows j : ℕ} (pending : List (List ℤ)) (hj : j < rows) :
    slice (j * pending.length) pending.length (catColumns rows pending) =
      pending.map fun column => column.getD j 0 := by
  rw [catColumns, flatMap_def]
  refine slice_flatten ?_ ?_
  · intro row hrow
    obtain ⟨i, -, rfl⟩ := mem_map.1 hrow
    exact length_map ..
  · rw [getElem?_map, getElem?_range hj, Option.map_some]

end BurnDragon.Generation
