import BurnDragon.Ruliad.Counterfactual

/-!
# The distance of terms on the machine

`ruliad_term_distance` adds the distances of the arguments with the operators of `usize`, which may
overflow. The distance of two terms is at most the number of their nodes
(`ruliadTermDistance_le`), and the nodes of a term are in memory all at once, so nothing overflows
(`ruliadTermDistanceRun_eq`). The distance is symmetric, it is zero for equal terms only, and the
progress that is computed from it is at most a million parts per million.
-/

namespace BurnDragon.Ruliad

open Equational Rust List RuliadProofActionSet Nat

/-! ## Machine arithmetic -/

mutual

/-- `term_node_count`. -/
def termNodeCountRun (overflowChecks : Bool) : RuliadTerm → Run ℕ
  | .var _ => .ok 1
  | .atom _ => .ok 1
  | .apply _ arguments => do
    return saturatingAdd 1 (← termNodeCountSumRun overflowChecks 0 arguments)

/-- The `sum` in `term_node_count`, from a partial sum. -/
def termNodeCountSumRun (overflowChecks : Bool) (sum : ℕ) : List RuliadTerm → Run ℕ
  | [] => .ok sum
  | t :: ts => do
    let count ← termNodeCountRun overflowChecks t
    termNodeCountSumRun overflowChecks (← usizeResult overflowChecks (sum + count)) ts

end

mutual

/-- `ruliad_term_distance`. -/
def ruliadTermDistanceRun (overflowChecks : Bool) (left right : RuliadTerm) : Run ℕ :=
  if left = right then
    .ok 0
  else
    let far : Run ℕ := do
      return saturatingAdd (← termNodeCountRun overflowChecks left)
        (← termNodeCountRun overflowChecks right)
    match left, right with
    | .apply leftOperator leftArguments, .apply rightOperator rightArguments =>
      if leftOperator = rightOperator then do
        let sum ← ruliadTermDistanceSumRun overflowChecks 0 leftArguments rightArguments
        usizeResult overflowChecks ((leftArguments.length - rightArguments.length) +
          (rightArguments.length - leftArguments.length) + sum)
      else far
    | _, _ => far

/-- The `sum` in `ruliad_term_distance`, from a partial sum. -/
def ruliadTermDistanceSumRun (overflowChecks : Bool) (sum : ℕ) :
    List RuliadTerm → List RuliadTerm → Run ℕ
  | left :: lefts, right :: rights => do
    let distance ← ruliadTermDistanceRun overflowChecks left right
    ruliadTermDistanceSumRun overflowChecks (← usizeResult overflowChecks (sum + distance)) lefts
      rights
  | _, _ => .ok sum

end

/-- `candidate_progress_ppm`. -/
def RuliadProofActionSet.candidateProgressPpmRun (overflowChecks : Bool)
    (actions : RuliadProofActionSet) (index : ℕ) : Run ℕ :=
  match actions.candidates[index]? with
  | none => .ok 0
  | some candidate =>
    if actions.isEquivalentIndex index || candidate.outcome = some actions.target then
      .ok 1000000
    else do
      let currentDistance ← ruliadTermDistanceRun overflowChecks actions.current actions.target
      match candidate.distanceToGoal with
      | none => .ok 0
      | some nextDistance =>
        if currentDistance = 0 then .ok 0
        else .ok (saturatingMul (currentDistance - nextDistance) 1000000 / currentDistance)

/-- A term that is in memory. Each node takes the 48 bytes of a string and a vector, in an address
space of `2 ^ 64` bytes. -/
def InMemory (t : RuliadTerm) : Prop := t.size * 48 ≤ 2 ^ 64

instance (t : RuliadTerm) : Decidable (InMemory t) := inferInstanceAs (Decidable (_ ≤ _))

/-! ## Nodes -/

theorem size_pos (t : RuliadTerm) : 0 < t.size := by
  cases t with
  | var i => exact one_pos
  | atom symbol => exact one_pos
  | apply operator arguments =>
    rw [Term.size_apply]
    omega

/-- A term whose nodes fit has the count of its nodes. -/
theorem termNodeCount_eq {t : RuliadTerm} (h : t.size ≤ usizeMax) : termNodeCount t = t.size := by
  have hsum : ∀ ts : List RuliadTerm, (∀ t ∈ ts, t.size ≤ usizeMax → termNodeCount t = t.size) →
      (ts.map Term.size).sum ≤ usizeMax → termNodeCountSum ts = (ts.map Term.size).sum := by
    intro ts
    induction ts with
    | nil => exact fun _ _ => rfl
    | cons t ts ih =>
      intro ht hle
      rw [map_cons, sum_cons] at hle ⊢
      rw [termNodeCountSum, ht t mem_cons_self (by omega),
        ih (fun t h => ht t (mem_cons_of_mem _ h)) (by omega)]
  induction t using Term.ind with
  | var i => rfl
  | atom symbol => rfl
  | apply operator arguments ih =>
    rw [Term.size_apply] at h ⊢
    rw [termNodeCount, hsum arguments ih (by omega), saturatingAdd_of_le h]

theorem termNodeCountRun_eq (overflowChecks : Bool) {t : RuliadTerm} (h : t.size ≤ usizeMax) :
    termNodeCountRun overflowChecks t = .ok t.size := by
  have hsum : ∀ (ts : List RuliadTerm) (sum : ℕ),
      (∀ t ∈ ts, t.size ≤ usizeMax → termNodeCountRun overflowChecks t = .ok t.size) →
      sum + (ts.map Term.size).sum ≤ usizeMax →
      termNodeCountSumRun overflowChecks sum ts = .ok (sum + (ts.map Term.size).sum) := by
    intro ts
    induction ts with
    | nil => exact fun _ _ _ => rfl
    | cons t ts ih =>
      intro sum ht hle
      rw [map_cons, sum_cons] at hle ⊢
      rw [termNodeCountSumRun, ht t mem_cons_self (by omega), ← add_assoc]
      change (usizeResult overflowChecks (sum + t.size) >>= fun s =>
        termNodeCountSumRun overflowChecks s ts) = _
      rw [usizeResult_of_le (by omega)]
      exact ih _ (fun t h => ht t (mem_cons_of_mem _ h)) (by omega)
  induction t using Term.ind with
  | var i => rfl
  | atom symbol => rfl
  | apply operator arguments ih =>
    rw [Term.size_apply] at h ⊢
    rw [termNodeCountRun, hsum arguments 0 ih (by omega), zero_add]
    exact congrArg Except.ok (saturatingAdd_of_le h)

/-! ## The distance -/

/-- The distances of zipped arguments, and the arguments without a partner, are within the nodes. -/
theorem ruliadTermDistanceSum_le {lefts : List RuliadTerm} (rights : List RuliadTerm)
    (h : ∀ left ∈ lefts, ∀ right, ruliadTermDistance left right ≤ left.size + right.size) :
    (lefts.length - rights.length) + (rights.length - lefts.length) +
        ruliadTermDistanceSum lefts rights ≤
      (lefts.map Term.size).sum + (rights.map Term.size).sum := by
  have hlength : ∀ ts : List RuliadTerm, ts.length ≤ (ts.map Term.size).sum := by
    intro ts
    induction ts with
    | nil => exact le_rfl
    | cons t ts ih =>
      have := size_pos t
      rw [map_cons, sum_cons, length_cons]
      omega
  induction lefts generalizing rights with
  | nil =>
    have := hlength rights
    simpa [ruliadTermDistanceSum] using this
  | cons left lefts ih =>
    cases rights with
    | nil => simpa [ruliadTermDistanceSum] using hlength (left :: lefts)
    | cons right rights =>
      have hhead := h left mem_cons_self right
      have htail := ih rights fun l hl => h l (mem_cons_of_mem _ hl)
      simp only [ruliadTermDistanceSum, length_cons, map_cons, sum_cons]
      omega

/-- **The distance is at most the number of nodes.** -/
theorem ruliadTermDistance_le (left right : RuliadTerm) :
    ruliadTermDistance left right ≤ left.size + right.size := by
  have hcount : ∀ t : RuliadTerm, termNodeCount t ≤ t.size := by
    intro t
    have hsum : ∀ ts : List RuliadTerm, (∀ t ∈ ts, termNodeCount t ≤ t.size) →
        termNodeCountSum ts ≤ (ts.map Term.size).sum := by
      intro ts
      induction ts with
      | nil => exact fun _ => le_rfl
      | cons t ts ih =>
        intro ht
        rw [termNodeCountSum, map_cons, sum_cons]
        exact Nat.add_le_add (ht t mem_cons_self)
          (ih fun t h => ht t (mem_cons_of_mem _ h))
    induction t using Term.ind with
    | var i => exact le_rfl
    | atom symbol => exact le_rfl
    | apply operator arguments ih =>
      rw [termNodeCount, Term.size_apply]
      exact (saturatingAdd_le ..).trans (Nat.add_le_add_left (hsum arguments ih) 1)
  have hfar : ∀ left right : RuliadTerm,
      saturatingAdd (termNodeCount left) (termNodeCount right) ≤ left.size + right.size :=
    fun left right => (saturatingAdd_le ..).trans (Nat.add_le_add (hcount left) (hcount right))
  induction left using Term.ind generalizing right with
  | var i =>
    rw [ruliadTermDistance.eq_def]
    split_ifs
    · exact zero_le _
    · exact hfar _ _
  | atom symbol =>
    rw [ruliadTermDistance.eq_def]
    split_ifs
    · exact zero_le _
    · exact hfar _ _
  | apply operator arguments ih =>
    rw [ruliadTermDistance.eq_def]
    split_ifs
    · exact zero_le _
    · cases right with
      | var i => exact hfar _ _
      | atom symbol => exact hfar _ _
      | apply operator' arguments' =>
        simp only
        split_ifs
        · have hsum := ruliadTermDistanceSum_le arguments' ih
          rw [Term.size_apply, Term.size_apply]
          omega
        · exact hfar _ _

/-- **The distance is symmetric.** -/
theorem ruliadTermDistance_comm (left right : RuliadTerm) :
    ruliadTermDistance left right = ruliadTermDistance right left := by
  have hsum : ∀ (lefts rights : List RuliadTerm),
      (∀ left ∈ lefts, ∀ right, ruliadTermDistance left right = ruliadTermDistance right left) →
      ruliadTermDistanceSum lefts rights = ruliadTermDistanceSum rights lefts := by
    intro lefts
    induction lefts with
    | nil => exact fun rights _ => by cases rights <;> rfl
    | cons left lefts ih =>
      rintro (_ | ⟨right, rights⟩) h
      · rfl
      · rw [ruliadTermDistanceSum, ruliadTermDistanceSum, h left mem_cons_self right,
          ih rights fun l hl => h l (mem_cons_of_mem _ hl)]
  have hfar : ∀ left right : RuliadTerm,
      saturatingAdd (termNodeCount left) (termNodeCount right) =
        saturatingAdd (termNodeCount right) (termNodeCount left) :=
    fun _ _ => congrArg (min · usizeMax) (add_comm ..)
  induction left using Term.ind generalizing right with
  | var i =>
    by_cases heq : .var i = right
    · rw [heq]
    · rw [ruliadTermDistance.eq_def, ruliadTermDistance.eq_def right, if_neg heq,
        if_neg (Ne.symm heq)]
      cases right <;> exact hfar _ _
  | atom symbol =>
    by_cases heq : .atom symbol = right
    · rw [heq]
    · rw [ruliadTermDistance.eq_def, ruliadTermDistance.eq_def right, if_neg heq,
        if_neg (Ne.symm heq)]
      cases right <;> exact hfar _ _
  | apply operator arguments ih =>
    by_cases heq : .apply operator arguments = right
    · rw [heq]
    · rw [ruliadTermDistance.eq_def, ruliadTermDistance.eq_def right, if_neg heq,
        if_neg (Ne.symm heq)]
      cases right with
      | var i => exact hfar _ _
      | atom symbol => exact hfar _ _
      | apply operator' arguments' =>
        simp only
        by_cases hoperator : operator = operator'
        · rw [if_pos hoperator, if_pos hoperator.symm, hsum arguments arguments' ih,
            add_comm (arguments.length - _)]
        · rw [if_neg hoperator, if_neg (Ne.symm hoperator)]
          exact hfar _ _

/-- **Nothing overflows** for terms whose nodes fit. -/
theorem ruliadTermDistanceRun_eq (overflowChecks : Bool) {left right : RuliadTerm}
    (h : left.size + right.size ≤ usizeMax) :
    ruliadTermDistanceRun overflowChecks left right = .ok (ruliadTermDistance left right) := by
  have hfar : ∀ left right : RuliadTerm, left.size + right.size ≤ usizeMax →
      (termNodeCountRun overflowChecks left >>= fun l =>
        termNodeCountRun overflowChecks right >>= fun r => pure (saturatingAdd l r)) =
        .ok (saturatingAdd (termNodeCount left) (termNodeCount right)) := by
    intro left right hle
    rw [termNodeCountRun_eq overflowChecks (t := left) (by omega),
      termNodeCountRun_eq overflowChecks (t := right) (by omega), termNodeCount_eq (by omega),
      termNodeCount_eq (by omega)]
    rfl
  have hsum : ∀ (lefts rights : List RuliadTerm) (sum : ℕ), (∀ left ∈ lefts, ∀ right,
      left.size + right.size ≤ usizeMax → ruliadTermDistanceRun overflowChecks left right =
        .ok (ruliadTermDistance left right)) →
      sum + ((lefts.map Term.size).sum + (rights.map Term.size).sum) ≤ usizeMax →
      ruliadTermDistanceSumRun overflowChecks sum lefts rights =
        .ok (sum + ruliadTermDistanceSum lefts rights) := by
    intro lefts
    induction lefts with
    | nil => exact fun rights sum _ _ => by cases rights <;> rfl
    | cons left lefts ih =>
      rintro (_ | ⟨right, rights⟩) sum hrun hle
      · rfl
      · have hdistance := ruliadTermDistance_le left right
        rw [map_cons, map_cons, sum_cons, sum_cons] at hle
        rw [ruliadTermDistanceSumRun, hrun left mem_cons_self right (by omega),
          ruliadTermDistanceSum, ← add_assoc]
        change (usizeResult overflowChecks (sum + ruliadTermDistance left right) >>= fun s =>
          ruliadTermDistanceSumRun overflowChecks s lefts rights) = _
        rw [usizeResult_of_le (by omega)]
        exact ih rights _ (fun l hl => hrun l (mem_cons_of_mem _ hl)) (by omega)
  induction left using Term.ind generalizing right with
  | var i =>
    rw [ruliadTermDistanceRun.eq_def, ruliadTermDistance.eq_def]
    split_ifs
    · rfl
    · exact hfar _ _ h
  | atom symbol =>
    rw [ruliadTermDistanceRun.eq_def, ruliadTermDistance.eq_def]
    split_ifs
    · rfl
    · exact hfar _ _ h
  | apply operator arguments ih =>
    rw [ruliadTermDistanceRun.eq_def, ruliadTermDistance.eq_def]
    split_ifs
    · rfl
    · cases right with
      | var i => exact hfar _ _ h
      | atom symbol => exact hfar _ _ h
      | apply operator' arguments' =>
        simp only
        split_ifs
        · have hle := ruliadTermDistanceSum_le arguments'
            fun left (_ : left ∈ arguments) => ruliadTermDistance_le left
          rw [Term.size_apply, Term.size_apply] at h
          rw [hsum arguments arguments' 0 (fun left hl _ hsize => ih left hl hsize) (by omega),
            zero_add]
          exact usizeResult_of_le (by omega)
        · exact hfar _ _ h

/-- The progress is at most a million parts per million. -/
theorem candidateProgressPpm_le (actions : RuliadProofActionSet) (index : ℕ) :
    actions.candidateProgressPpm index ≤ 1000000 := by
  unfold candidateProgressPpm
  split
  · exact zero_le _
  · split_ifs
    · exact le_rfl
    · simp only
      split
      · exact zero_le _
      · split_ifs
        · exact zero_le _
        · refine Nat.div_le_of_le_mul ((min_le_left _ _).trans ?_)
          exact Nat.mul_le_mul_right _ (Nat.sub_le _ _)

theorem candidateProgressPpmRun_eq (overflowChecks : Bool) {actions : RuliadProofActionSet}
    (h : actions.current.size + actions.target.size ≤ usizeMax) (index : ℕ) :
    actions.candidateProgressPpmRun overflowChecks index =
      .ok (actions.candidateProgressPpm index) := by
  unfold candidateProgressPpmRun candidateProgressPpm
  rw [ruliadTermDistanceRun_eq overflowChecks h]
  cases actions.candidates[index]? with
  | none => rfl
  | some candidate =>
    have hbind : ∀ (distance : ℕ) (f : ℕ → Run ℕ), (.ok distance >>= f) = f distance :=
      fun _ _ => rfl
    simp only [hbind]
    cases candidate.distanceToGoal with
    | none => split_ifs <;> rfl
    | some nextDistance => split_ifs <;> rfl

theorem InMemory.add_le {left right : RuliadTerm} (hleft : InMemory left)
    (hright : InMemory right) : left.size + right.size ≤ usizeMax := by
  unfold InMemory at hleft hright
  rw [usizeMax]
  omega

/-- **The distance and the progress.** The distance is symmetric and zero for equal terms only, and
the progress of a candidate, whatever distance it carries, is at most a million parts per million.
For terms in memory nothing overflows, in a build with overflow checks or without. -/
theorem ruliadTermDistance_progress (overflowChecks : Bool) :
    (∀ left right : RuliadTerm,
      ruliadTermDistance left right = ruliadTermDistance right left ∧
        (ruliadTermDistance left right = 0 ↔ left = right)) ∧
    (∀ (actions : RuliadProofActionSet) (index : ℕ),
      actions.candidateProgressPpm index ≤ 1000000) ∧
    (∀ left right : RuliadTerm, InMemory left → InMemory right →
      ruliadTermDistanceRun overflowChecks left right = .ok (ruliadTermDistance left right)) ∧
    (∀ (actions : RuliadProofActionSet) (index : ℕ), InMemory actions.current →
      InMemory actions.target → actions.candidateProgressPpmRun overflowChecks index =
        .ok (actions.candidateProgressPpm index)) :=
  ⟨fun left right => ⟨ruliadTermDistance_comm left right, ruliadTermDistance_eq_zero⟩,
    candidateProgressPpm_le,
    fun _ _ hleft hright => ruliadTermDistanceRun_eq overflowChecks (hleft.add_le hright),
    fun _ index hcurrent htarget =>
      candidateProgressPpmRun_eq overflowChecks (hcurrent.add_le htarget) index⟩

theorem ruliadTermDistance_progress_atoms :
    (ruliadTermDistance (.atom "a") (.atom "b") = ruliadTermDistance (.atom "b") (.atom "a") ∧
      (ruliadTermDistance (.atom "a") (.atom "b") = 0 ↔
        (.atom "a" : RuliadTerm) = .atom "b")) ∧
    RuliadProofActionSet.candidateProgressPpm ⟨0, .atom "a", .atom "b", [], 0, []⟩ 0 ≤ 1000000 ∧
    ruliadTermDistanceRun true (.atom "a") (.atom "b") =
      .ok (ruliadTermDistance (.atom "a") (.atom "b")) ∧
    RuliadProofActionSet.candidateProgressPpmRun true ⟨0, .atom "a", .atom "b", [], 0, []⟩ 0 =
      .ok (RuliadProofActionSet.candidateProgressPpm ⟨0, .atom "a", .atom "b", [], 0, []⟩ 0) := by
  obtain ⟨hdistance, hprogress, hrun, hprogressRun⟩ := ruliadTermDistance_progress true
  exact ⟨hdistance _ _, hprogress _ _, hrun _ _ (by decide) (by decide),
    hprogressRun _ 0 (by decide) (by decide)⟩

end BurnDragon.Ruliad
