import Mathlib

/-!
# Entries of a cache

A cache has at most one entry for a key, in whatever order its map lists them. Every entry has a
weight, and the cache keeps the total of the weights. When the cache is over its limits, it drops an
entry that has not been used for the longest time, until it is not (`Evicts`). What is left are
entries from before, with their total, within the limits; and the cache can always be brought there
(`exists_evicts`).
-/

namespace BurnDragon.Caching

open List

variable {K E : Type*} [DecidableEq K] {key k : K} {entry e : E} {entries : List (K × E)}

/-! ## Maps -/

def find (key : K) (entries : List (K × E)) : Option E :=
  (entries.find? (·.1 = key)).map Prod.snd

def remove (key : K) (entries : List (K × E)) : List (K × E) :=
  entries.filter (·.1 ≠ key)

def insert (key : K) (entry : E) (entries : List (K × E)) : List (K × E) :=
  (key, entry) :: remove key entries

/-- Change the entry of a key, if there is one. -/
def modify (key : K) (f : E → E) (entries : List (K × E)) : List (K × E) :=
  entries.map fun p => if p.1 = key then (p.1, f p.2) else p

/-- No key has two entries. -/
def Distinct (entries : List (K × E)) : Prop := (entries.map Prod.fst).Nodup

theorem mem_of_find (h : find key entries = some entry) : (key, entry) ∈ entries := by
  obtain ⟨⟨k, e⟩, hfind, rfl⟩ := Option.map_eq_some_iff.mp h
  obtain rfl : k = key := by simpa using find?_some hfind
  exact mem_of_find?_eq_some hfind

theorem mem_remove : (k, e) ∈ remove key entries ↔ (k, e) ∈ entries ∧ k ≠ key := by
  rw [remove, mem_filter, decide_eq_true_iff]

theorem mem_insert (h : (k, e) ∈ insert key entry entries) :
    k = key ∧ e = entry ∨ (k, e) ∈ entries := by
  rcases mem_cons.mp h with heq | hmem
  · exact .inl (Prod.mk.inj heq)
  · exact .inr (mem_remove.mp hmem).1

theorem remove_sublist (key : K) (entries : List (K × E)) :
    (remove key entries).Sublist entries :=
  filter_sublist

omit [DecidableEq K] in
theorem Distinct.sublist {entries' : List (K × E)} (h : Distinct entries)
    (hsub : entries'.Sublist entries) : Distinct entries' :=
  (hsub.map Prod.fst).nodup h

theorem Distinct.insert (h : Distinct entries) (key : K) (entry : E) :
    Distinct (insert key entry entries) := by
  refine nodup_cons.mpr ⟨fun hkey => ?_, h.sublist (remove_sublist key entries)⟩
  obtain ⟨⟨k, e⟩, hmem, rfl⟩ := mem_map.mp hkey
  exact absurd rfl (mem_remove.mp hmem).2

theorem map_fst_modify (key : K) (f : E → E) (entries : List (K × E)) :
    (modify key f entries).map Prod.fst = entries.map Prod.fst := by
  rw [modify, map_map]
  refine map_congr_left fun p _ => ?_
  rw [Function.comp_apply]
  split <;> rfl

theorem Distinct.modify (h : Distinct entries) (key : K) (f : E → E) :
    Distinct (modify key f entries) := by
  rw [Distinct, map_fst_modify]
  exact h

theorem length_modify (key : K) (f : E → E) (entries : List (K × E)) :
    (modify key f entries).length = entries.length :=
  length_map _

theorem mem_modify {f : E → E} (h : (k, e) ∈ modify key f entries) :
    (k, e) ∈ entries ∨ ∃ old, (k, old) ∈ entries ∧ e = f old := by
  obtain ⟨⟨k', e'⟩, hmem, heq⟩ := mem_map.mp h
  split at heq
  · obtain ⟨rfl, rfl⟩ := Prod.mk.inj heq
    exact .inr ⟨e', hmem, rfl⟩
  · obtain ⟨rfl, rfl⟩ := Prod.mk.inj heq
    exact .inl hmem

/-! ## Weights -/

variable {weight : E → ℕ}

/-- The weights of all entries together. -/
def totalWeight (weight : E → ℕ) (entries : List (K × E)) : ℕ :=
  (entries.map fun p => weight p.2).sum

omit [DecidableEq K] in
theorem totalWeight_cons (p : K × E) (entries : List (K × E)) :
    totalWeight weight (p :: entries) = weight p.2 + totalWeight weight entries :=
  sum_cons

theorem totalWeight_modify {f : E → E} (h : ∀ e, weight (f e) = weight e) (key : K)
    (entries : List (K × E)) :
    totalWeight weight (modify key f entries) = totalWeight weight entries := by
  rw [totalWeight, modify, map_map]
  refine congrArg List.sum (map_congr_left fun p _ => ?_)
  rw [Function.comp_apply]
  split
  · exact h p.2
  · rfl

theorem remove_of_notMem (h : key ∉ entries.map Prod.fst) : remove key entries = entries := by
  refine filter_eq_self.mpr fun p hp => decide_eq_true fun heq => h ?_
  exact heq ▸ mem_map_of_mem hp

/-- An entry weighs what the total loses when it is removed. -/
theorem totalWeight_remove (weight : E → ℕ) (h : Distinct entries) (hmem : (key, entry) ∈ entries) :
    totalWeight weight entries = weight entry + totalWeight weight (remove key entries) := by
  induction entries with
  | nil => cases hmem
  | cons p entries ih =>
    obtain ⟨hnot, hrest⟩ := nodup_cons.mp h
    rcases mem_cons.mp hmem with rfl | hmem
    · rw [totalWeight_cons, remove, filter_cons_of_neg (by simp), ← remove, remove_of_notMem hnot]
    · have hne : p.1 ≠ key := by
        rintro rfl
        exact hnot (mem_map.mpr ⟨(p.1, entry), hmem, rfl⟩)
      rw [totalWeight_cons, remove, filter_cons_of_pos (by simpa using hne), ← remove,
        totalWeight_cons, ih hrest hmem]
      exact Nat.add_left_comm _ _ _

theorem find_eq_none (h : find key entries = none) : key ∉ entries.map Prod.fst := by
  intro hkey
  obtain ⟨⟨k, e⟩, hmem, rfl⟩ := mem_map.mp hkey
  have hnone := find?_eq_none.mp (Option.map_eq_none_iff.mp h) (k, e) hmem
  simp at hnone

/-- A new entry takes the place of the one before it. -/
theorem totalWeight_insert (h : Distinct entries) :
    totalWeight weight (insert key entry entries) =
      weight entry + (totalWeight weight entries - ((find key entries).map weight).getD 0) := by
  rw [insert, totalWeight_cons]
  cases hfind : find key entries with
  | none =>
    rw [remove_of_notMem (find_eq_none hfind), Option.map_none, Option.getD_none, Nat.sub_zero]
  | some old =>
    rw [totalWeight_remove weight h (mem_of_find hfind), Option.map_some, Option.getD_some,
      Nat.add_sub_cancel_left]

/-! ## Eviction -/

/-- While the cache is over its limits, an entry goes that was last used the longest time ago. -/
inductive Evicts (exceeds : List (K × E) → ℕ → Prop) (lastUsed weight : E → ℕ) :
    List (K × E) → ℕ → List (K × E) → ℕ → Prop
  | done {entries : List (K × E)} {total : ℕ} (h : ¬ exceeds entries total) :
    Evicts exceeds lastUsed weight entries total entries total
  | evict {entries entries' : List (K × E)} {total total' : ℕ} {key : K} {entry : E}
    (h : exceeds entries total) (hmem : (key, entry) ∈ entries)
    (hleast : ∀ p ∈ entries, lastUsed entry ≤ lastUsed p.2)
    (hrest : Evicts exceeds lastUsed weight (remove key entries) (total - weight entry)
      entries' total') :
    Evicts exceeds lastUsed weight entries total entries' total'

variable {exceeds : List (K × E) → ℕ → Prop} {lastUsed : E → ℕ} {entries' : List (K × E)}
  {total total' : ℕ}

theorem Evicts.sublist (h : Evicts exceeds lastUsed weight entries total entries' total') :
    entries'.Sublist entries := by
  induction h with
  | done h => exact .refl _
  | evict h hmem hleast hrest ih => exact ih.trans (remove_sublist _ _)

/-- What an eviction leaves. -/
theorem Evicts.spec (h : Evicts exceeds lastUsed weight entries total entries' total')
    (hdistinct : Distinct entries) (htotal : total = totalWeight weight entries) :
    total' = totalWeight weight entries' ∧ ¬ exceeds entries' total' := by
  induction h with
  | done h => exact ⟨htotal, h⟩
  | evict h hmem hleast hrest ih =>
    have hremoved := totalWeight_remove weight hdistinct hmem
    exact ih (hdistinct.sublist (remove_sublist _ _)) (by omega)

theorem length_remove_lt (hmem : (key, entry) ∈ entries) :
    (remove key entries).length < entries.length :=
  length_filter_lt_length_iff_exists.mpr ⟨(key, entry), hmem, by simp⟩

omit [DecidableEq K] in
theorem exists_least (lastUsed : E → ℕ) (h : entries ≠ []) :
    ∃ p ∈ entries, ∀ q ∈ entries, lastUsed p.2 ≤ lastUsed q.2 := by
  let used : K × E → ℕ := fun p => lastUsed p.2
  obtain ⟨p, hp⟩ := Option.ne_none_iff_exists'.mp (mt (argmin_eq_none (f := used)).mp h)
  refine ⟨p, argmin_mem hp, fun q hq => ?_⟩
  have hle : used p ≤ used q := le_of_mem_argmin hq hp
  exact hle

/-- **An eviction ends.** A cache that is over its limits has an entry to drop. -/
theorem exists_evicts (hexceeds : ¬ exceeds [] 0) (hdistinct : Distinct entries)
    (htotal : total = totalWeight weight entries) :
    ∃ entries' total', Evicts exceeds lastUsed weight entries total entries' total' := by
  induction hlength : entries.length using Nat.strongRecOn generalizing entries total with
  | ind n ih =>
    by_cases h : exceeds entries total
    · have hne : entries ≠ [] := by
        rintro rfl
        rw [htotal] at h
        exact hexceeds h
      obtain ⟨⟨key, entry⟩, hmem, hleast⟩ := exists_least lastUsed hne
      have hremoved := totalWeight_remove weight hdistinct hmem
      have htotal' : total - weight entry = totalWeight weight (remove key entries) := by omega
      obtain ⟨entries', total', hrest⟩ := ih _ (hlength ▸ length_remove_lt hmem)
        (hdistinct.sublist (remove_sublist key entries)) htotal' rfl
      exact ⟨entries', total', .evict h hmem hleast hrest⟩
    · exact ⟨entries, total, .done h⟩

end BurnDragon.Caching
