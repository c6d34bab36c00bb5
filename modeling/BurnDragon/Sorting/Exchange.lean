import Mathlib

/-!
# Sorting by adjacent exchanges

An exchange puts two neighbours of a list in order. Sweeps through the whole list move its maximum
to the end, so that as many sweeps as the list has elements sort it (`pairwise_sweep_iterate`).
Exchanges backwards from an element insert it into a sorted list before it (`insertions_perm`,
`pairwise_insertions`). Exchanges commute with lattice homomorphisms, so lists of vectors are
sorted component by component.
-/

namespace BurnDragon.Sorting

open List

/-! ## Exchanges -/

section Lattice

variable {α β : Type*} [Lattice α] [Lattice β]

/-- Put the elements at a position and at the next one in order. -/
def exchange (l : List α) (i : ℕ) : List α :=
  match l[i]?, l[i + 1]? with
  | some a, some b => (l.set i (a ⊓ b)).set (i + 1) (a ⊔ b)
  | _, _ => l

theorem exchange_append (s : List α) (a b : α) (rest : List α) :
    exchange (s ++ a :: b :: rest) s.length = s ++ (a ⊓ b) :: (a ⊔ b) :: rest := by
  have hb : (s ++ a :: b :: rest)[s.length + 1]? = some b := by
    rw [getElem?_append_right (Nat.le_add_right _ _), Nat.add_sub_cancel_left]
    rfl
  simp only [exchange, hb]
  simp

/-- Exchanges at every position from the front to the back. -/
def sweep : List α → List α
  | [] => []
  | [a] => [a]
  | a :: b :: rest => (a ⊓ b) :: sweep ((a ⊔ b) :: rest)
termination_by l => l.length

theorem foldl_exchange_append (s : List α) (a : α) (rest : List α) :
    (List.range' s.length rest.length).foldl exchange (s ++ a :: rest) =
      s ++ sweep (a :: rest) := by
  induction rest generalizing s a with
  | nil => simp [sweep]
  | cons b rest ih =>
    have hsplit : s ++ (a ⊓ b) :: (a ⊔ b) :: rest = (s ++ [a ⊓ b]) ++ (a ⊔ b) :: rest := by simp
    have hlength : s.length + 1 = (s ++ [a ⊓ b]).length := by simp
    rw [length_cons, range'_succ, foldl_cons, exchange_append, hsplit, hlength, ih,
      sweep, append_assoc, singleton_append]

theorem foldl_exchange (l : List α) :
    (List.range (l.length - 1)).foldl exchange l = sweep l := by
  cases l with
  | nil => simp [sweep]
  | cons a rest =>
    rw [range_eq_range']
    exact foldl_exchange_append [] a rest

@[simp] theorem length_sweep (l : List α) : (sweep l).length = l.length := by
  fun_induction sweep l with
  | case1 => rfl
  | case2 => rfl
  | case3 a b rest ih => simp [ih]

theorem foldl_sweeps {n : ℕ} (rounds : List β) {l : List α} (hl : l.length = n) :
    rounds.foldl (fun l _ => (List.range (n - 1)).foldl exchange l) l =
      sweep^[rounds.length] l := by
  induction rounds generalizing l with
  | nil => rfl
  | cons _ rounds ih =>
    rw [foldl_cons, ← hl, foldl_exchange, hl, ih (by rw [length_sweep, hl]), length_cons,
      Function.iterate_succ_apply]

theorem map_sweep (f : LatticeHom α β) (l : List α) : (sweep l).map f = sweep (l.map f) := by
  fun_induction sweep l with
  | case1 => simp [sweep]
  | case2 => simp [sweep]
  | case3 a b rest ih => simp [sweep, ih]

theorem map_sweep_iterate (f : LatticeHom α β) (l : List α) (count : ℕ) :
    (sweep^[count] l).map f = sweep^[count] (l.map f) :=
  (Function.Semiconj.iterate_right (fun l => map_sweep f l) count).eq l

end Lattice

/-! ## Sweeps sort -/

section LinearOrder

variable {α : Type*} [LinearOrder α]

theorem inf_cons_sup_perm (a b : α) (l : List α) :
    ((a ⊓ b) :: (a ⊔ b) :: l).Perm (a :: b :: l) := by
  rcases le_total a b with h | h
  · rw [inf_eq_left.mpr h, sup_eq_right.mpr h]
  · rw [inf_eq_right.mpr h, sup_eq_left.mpr h]
    exact List.Perm.swap a b l

theorem sweep_perm (l : List α) : (sweep l).Perm l := by
  fun_induction sweep l with
  | case1 => exact .refl _
  | case2 => exact .refl _
  | case3 a b rest ih => exact (ih.cons _).trans (inf_cons_sup_perm a b rest)

theorem sweep_iterate_perm (l : List α) (count : ℕ) : (sweep^[count] l).Perm l := by
  induction count generalizing l with
  | zero => exact .refl _
  | succ count ih => exact (ih (sweep l)).trans (sweep_perm l)

/-- A sweep ends with a maximum. -/
theorem exists_sweep_eq_append (a : α) (l : List α) :
    ∃ s m, sweep (a :: l) = s ++ [m] ∧ ∀ x ∈ s, x ≤ m := by
  induction l generalizing a with
  | nil => exact ⟨[], a, by simp [sweep], fun _ hx => by cases hx⟩
  | cons b l ih =>
    obtain ⟨s, m, hsweep, hs⟩ := ih (a ⊔ b)
    have hsup : a ⊔ b ≤ m := by
      have hmem : a ⊔ b ∈ s ++ [m] := hsweep ▸ (sweep_perm _).mem_iff.mpr mem_cons_self
      rcases mem_append.mp hmem with hmem | hmem
      · exact hs _ hmem
      · exact (mem_singleton.mp hmem).le
    refine ⟨(a ⊓ b) :: s, m, by rw [sweep, hsweep, cons_append], fun x hx => ?_⟩
    rcases mem_cons.mp hx with rfl | hx
    · exact inf_le_sup.trans hsup
    · exact hs x hx

/-- A sweep leaves a maximum at the end. -/
theorem sweep_append {l : List α} {m : α} (h : ∀ x ∈ l, x ≤ m) :
    sweep (l ++ [m]) = sweep l ++ [m] := by
  fun_induction sweep l with
  | case1 => simp [sweep]
  | case2 a => simp [sweep, h a mem_cons_self]
  | case3 a b rest ih =>
    have ha : a ≤ m := h a mem_cons_self
    have hb : b ≤ m := h b (mem_cons_of_mem _ mem_cons_self)
    have hrest : ∀ x ∈ (a ⊔ b) :: rest, x ≤ m := by
      intro x hx
      rcases mem_cons.mp hx with rfl | hx
      · exact sup_le ha hb
      · exact h x (mem_cons_of_mem _ (mem_cons_of_mem _ hx))
    have hsweep := ih hrest
    simp only [cons_append] at hsweep ⊢
    rw [sweep, hsweep]

theorem sweep_iterate_append {l : List α} {m : α} (h : ∀ x ∈ l, x ≤ m) (count : ℕ) :
    sweep^[count] (l ++ [m]) = sweep^[count] l ++ [m] := by
  induction count generalizing l with
  | zero => rfl
  | succ count ih =>
    rw [Function.iterate_succ_apply, Function.iterate_succ_apply, sweep_append h]
    exact ih fun x hx => h x ((sweep_perm l).mem_iff.mp hx)

/-- As many sweeps as there are elements sort a list. -/
theorem pairwise_sweep_iterate {l : List α} {count : ℕ} (h : l.length ≤ count) :
    (sweep^[count] l).Pairwise (· ≤ ·) := by
  induction count generalizing l with
  | zero =>
    obtain rfl := length_eq_zero_iff.mp (Nat.le_zero.mp h)
    exact .nil
  | succ count ih =>
    rw [Function.iterate_succ_apply]
    cases l with
    | nil =>
      rw [sweep]
      exact ih (Nat.zero_le _)
    | cons a l =>
      obtain ⟨s, m, hsweep, hs⟩ := exists_sweep_eq_append a l
      have hlength : s.length + 1 = l.length + 1 := by
        simpa using (congrArg List.length hsweep).symm
      rw [hsweep, sweep_iterate_append hs]
      refine pairwise_append.mpr ⟨ih ?_, pairwise_singleton _ _, fun x hx y hy => ?_⟩
      · simp only [length_cons] at h
        omega
      · rw [mem_singleton.mp hy]
        exact hs x ((sweep_iterate_perm s count).mem_iff.mp hx)

/-! ## Insertion by exchanges -/

/-- Exchanges backwards from a position move the element there into the sorted list before it. -/
theorem exists_foldl_exchange_reverse {s : List α} (x : α) (rest : List α)
    (hs : s.Pairwise (· ≤ ·)) :
    ∃ t, (List.range s.length).reverse.foldl exchange (s ++ x :: rest) = t ++ rest ∧
      t.Perm (x :: s) ∧ t.Pairwise (· ≤ ·) := by
  induction s using List.reverseRecOn generalizing x rest with
  | nil => exact ⟨[x], rfl, .refl _, pairwise_singleton _ _⟩
  | append_singleton s y ih =>
    obtain ⟨hs, -, hsy⟩ := pairwise_append.mp hs
    obtain ⟨t, hfold, hperm, ht⟩ := ih (y ⊓ x) ((y ⊔ x) :: rest) hs
    have hperm' : (t ++ [y ⊔ x]).Perm (x :: (s ++ [y])) := calc
      (t ++ [y ⊔ x]).Perm ((y ⊓ x) :: s ++ [y ⊔ x]) := hperm.append_right _
      List.Perm _ ((y ⊓ x) :: (y ⊔ x) :: s) := (perm_append_singleton _ _).cons _
      List.Perm _ (y :: x :: s) := inf_cons_sup_perm y x s
      List.Perm _ (x :: y :: s) := List.Perm.swap _ _ _
      List.Perm _ (x :: (s ++ [y])) := ((perm_append_singleton _ _).symm).cons _
    refine ⟨t ++ [y ⊔ x], ?_, hperm', ?_⟩
    · rw [length_append, length_singleton, range_succ, reverse_append,
        reverse_singleton, singleton_append, foldl_cons, append_assoc,
        singleton_append, exchange_append, hfold, append_assoc, singleton_append]
    · refine pairwise_append.mpr ⟨ht, pairwise_singleton _ _, fun a ha b hb => ?_⟩
      rw [mem_singleton.mp hb]
      rcases mem_cons.mp (hperm.mem_iff.mp ha) with rfl | ha
      · exact inf_le_sup
      · exact (hsy a ha y (mem_singleton_self y)).trans le_sup_left

/-- Exchanges backwards from every position in turn. -/
def insertions (l : List α) : List α :=
  (List.range l.length).foldl (fun l i => (List.range i).reverse.foldl exchange l) l

theorem exists_foldl_insertions (l : List α) {count : ℕ} (h : count ≤ l.length) :
    ∃ t, (List.range count).foldl (fun l i => (List.range i).reverse.foldl exchange l) l =
        t ++ l.drop count ∧ t.Perm (l.take count) ∧ t.Pairwise (· ≤ ·) := by
  induction count with
  | zero => exact ⟨[], rfl, .refl _, .nil⟩
  | succ count ih =>
    obtain ⟨t, hfold, hperm, ht⟩ := ih (Nat.le_of_succ_le h)
    have hlength : t.length = count := by
      rw [hperm.length_eq, length_take_of_le (Nat.le_of_succ_le h)]
    obtain ⟨t', hfold', hperm', ht'⟩ :=
      exists_foldl_exchange_reverse l[count] (l.drop (count + 1)) ht
    refine ⟨t', ?_, ?_, ht'⟩
    · rw [range_succ, foldl_append, hfold, foldl_cons, foldl_nil, drop_eq_getElem_cons h]
      exact hlength ▸ hfold'
    · rw [take_succ_eq_append_getElem h]
      exact hperm'.trans ((hperm.cons _).trans (perm_append_singleton _ _).symm)

theorem insertions_perm (l : List α) : (insertions l).Perm l := by
  obtain ⟨t, hfold, hperm, -⟩ := exists_foldl_insertions l le_rfl
  rw [insertions, hfold, drop_length, append_nil]
  exact hperm.trans (by rw [take_length])

theorem pairwise_insertions (l : List α) : (insertions l).Pairwise (· ≤ ·) := by
  obtain ⟨t, hfold, -, ht⟩ := exists_foldl_insertions l le_rfl
  rw [insertions, hfold, drop_length, append_nil]
  exact ht

end LinearOrder

end BurnDragon.Sorting
