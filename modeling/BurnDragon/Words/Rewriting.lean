import Mathlib

/-!
# Rewriting words

A rule replaces an occurrence of its left side by its right side. `FirstStep` is the strategy that takes
the leftmost occurrence, and of the rules that occur there the first of the list. It is deterministic,
and a word has a first step unless it is irreducible.

`statesAfter` runs a partial function a bounded number of times. A run that stops early has reached a
state without a successor (`next_getLastD`), and a measure that every step lowers bounds its length
(`length_add_size_le`).
-/

namespace BurnDragon.Words

open List

variable {α : Type*}

/-! ## Occurrences -/

/-- The pattern occurs in the word at the position. -/
def OccursAt (pattern word : List α) (i : ℕ) : Prop :=
  i ≤ word.length ∧ pattern <+: word.drop i

@[simp] theorem occursAt_zero {pattern word : List α} :
    OccursAt pattern word 0 ↔ pattern <+: word := by
  simp [OccursAt]

@[simp] theorem occursAt_cons_succ {pattern word : List α} {c : α} {i : ℕ} :
    OccursAt pattern (c :: word) (i + 1) ↔ OccursAt pattern word i := by
  simp [OccursAt]

/-- An occurrence splits the word. -/
theorem OccursAt.split {pattern word : List α} {i : ℕ} (h : OccursAt pattern word i) :
    word = word.take i ++ pattern ++ word.drop (i + pattern.length) := by
  obtain ⟨rest, hrest⟩ := h.2
  have hdrop : word.drop (i + pattern.length) = rest := by
    rw [← drop_drop, ← hrest, drop_left]
  rw [hdrop, append_assoc, hrest, take_append_drop]

/-! ## Steps -/

structure Rule (α : Type*) where
  lhs : List α
  rhs : List α

variable (rules : List (Rule α))

/-- The word with the pattern of the given length at the position replaced. -/
def replaceAt (word : List α) (i n : ℕ) (replacement : List α) : List α :=
  word.take i ++ replacement ++ word.drop (i + n)

/-- The rule of the index occurs at the position. -/
def Redex (word : List α) (i k : ℕ) : Prop :=
  ∃ rule, rules[k]? = some rule ∧ OccursAt rule.lhs word i

/-- Rewriting at the leftmost redex, by the first rule that occurs there. -/
def FirstStep (word word' : List α) : Prop :=
  ∃ i k rule, rules[k]? = some rule ∧ OccursAt rule.lhs word i ∧
    (∀ i' k', Redex rules word i' k' → i < i' ∨ i = i' ∧ k ≤ k') ∧
    word' = replaceAt word i rule.lhs.length rule.rhs

/-- No rule occurs anywhere. -/
def Irreducible (word : List α) : Prop := ∀ i, ∀ rule ∈ rules, ¬ OccursAt rule.lhs word i

variable {rules} {word word' word'' : List α}

theorem FirstStep.unique (h : FirstStep rules word word') (h' : FirstStep rules word word'') :
    word' = word'' := by
  obtain ⟨i, k, rule, hrule, hoccurs, hfirst, rfl⟩ := h
  obtain ⟨i', k', rule', hrule', hoccurs', hfirst', rfl⟩ := h'
  have hle := hfirst i' k' ⟨rule', hrule', hoccurs'⟩
  have hle' := hfirst' i k ⟨rule, hrule, hoccurs⟩
  obtain ⟨rfl, rfl⟩ : i = i' ∧ k = k' := by omega
  rw [Option.some.inj (hrule.symm.trans hrule')]

theorem FirstStep.not_irreducible (h : FirstStep rules word word') : ¬ Irreducible rules word := by
  obtain ⟨i, k, rule, hrule, hoccurs, -⟩ := h
  exact fun hirreducible => hirreducible i rule (mem_of_getElem? hrule) hoccurs

/-- A step by a rule that shortens shortens the word. The size may be any that adds up. -/
theorem FirstStep.size_lt {size : List α → ℕ} (hadd : ∀ u v, size (u ++ v) = size u + size v)
    (hrules : ∀ rule ∈ rules, size rule.rhs < size rule.lhs) (h : FirstStep rules word word') :
    size word' < size word := by
  obtain ⟨i, k, rule, hrule, hoccurs, -, rfl⟩ := h
  have hlt := hrules rule (mem_of_getElem? hrule)
  calc size (replaceAt word i rule.lhs.length rule.rhs)
      < size (word.take i ++ rule.lhs ++ word.drop (i + rule.lhs.length)) := by
        simp only [replaceAt, hadd]
        omega
    _ = size word := by rw [← hoccurs.split]

/-! ## Bounded runs -/

section Run

variable {W : Type*} (next : W → Option W)

/-- The states after a state, at most the given number. -/
def statesAfter : ℕ → W → List W
  | 0, _ => []
  | n + 1, w =>
    match next w with
    | none => []
    | some w' => w' :: statesAfter n w'

variable {next}

theorem isChain_statesAfter (n : ℕ) (w : W) :
    (w :: statesAfter next n w).IsChain fun a b => next a = some b := by
  induction n generalizing w with
  | zero => exact List.IsChain.singleton w
  | succ n ih =>
    rw [statesAfter]
    split
    · exact List.IsChain.singleton w
    · rename_i w' hnext
      exact isChain_cons_cons.2 ⟨hnext, ih w'⟩

/-- A run that stops early stops at a state without a successor. -/
theorem next_getLastD {n : ℕ} {w : W} (h : (statesAfter next n w).length < n) :
    next ((statesAfter next n w).getLastD w) = none := by
  induction n generalizing w with
  | zero => simp at h
  | succ n ih =>
    cases hnext : next w with
    | none => simp [statesAfter, hnext]
    | some w' =>
      simp only [statesAfter, hnext, length_cons] at h
      simp only [statesAfter, hnext, getLastD_cons]
      exact ih (by omega)

/-- Every step lowers the measure, so the run is no longer than the measure falls. -/
theorem length_add_size_le {size : W → ℕ} (hsize : ∀ a b, next a = some b → size b < size a) (n : ℕ)
    (w : W) :
    (statesAfter next n w).length + size ((statesAfter next n w).getLastD w) ≤ size w := by
  induction n generalizing w with
  | zero => simp [statesAfter]
  | succ n ih =>
    cases hnext : next w with
    | none => simp [statesAfter, hnext]
    | some w' =>
      have hlt := hsize w w' hnext
      have hih := ih w'
      simp only [statesAfter, hnext, length_cons, getLastD_cons]
      omega

/-- With as many steps as the measure of the first state, the run ends without a successor. -/
theorem next_getLastD_of_size_le (size : W → ℕ) (hsize : ∀ a b, next a = some b → size b < size a)
    {n : ℕ} {w : W} (h : size w ≤ n) : next ((statesAfter next n w).getLastD w) = none := by
  have hlength := length_add_size_le hsize n w
  by_cases hshort : (statesAfter next n w).length < n
  · exact next_getLastD hshort
  · refine Option.eq_none_iff_forall_ne_some.2 fun b hb => ?_
    have := hsize _ b hb
    omega

end Run

end BurnDragon.Words
