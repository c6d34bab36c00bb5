import Mathlib

/-!
# Least-used selection

Channels are handed out in rounds. A round takes a set of fixed size, and no channel that it takes
has been used more often than one that it leaves (`LeastUsed`). Whatever decides between equally
used channels,

* the use counts of two channels differ by at most one after every round (`Rounds.level`);
* a round meets the channels used before only where the unused ones do not suffice
  (`LeastUsed.card_inter_usedChannels`);
* the rounds are pairwise disjoint as long as together they fit (`Rounds.pairwise_disjoint`).
-/

namespace BurnDragon.Scheduling

open Finset

variable {ι : Type*} {channels chosen : Finset ι} {usage : ι → ℕ} {active : ℕ}

/-- A set of channels none of which is used more often than a channel left out. -/
structure LeastUsed (channels : Finset ι) (usage : ι → ℕ) (chosen : Finset ι) : Prop where
  subset : chosen ⊆ channels
  least : ∀ i ∈ chosen, ∀ j ∈ channels, j ∉ chosen → usage i ≤ usage j

/-- The channels that some round has used. -/
def usedChannels (channels : Finset ι) (usage : ι → ℕ) : Finset ι :=
  channels.filter (0 < usage ·)

theorem mem_usedChannels {i : ι} : i ∈ usedChannels channels usage ↔ i ∈ channels ∧ 0 < usage i :=
  mem_filter

theorem usedChannels_subset : usedChannels channels usage ⊆ channels := filter_subset _ _

/-- All use counts are `m` or `m + 1`. -/
def LevelAt (channels : Finset ι) (usage : ι → ℕ) (m : ℕ) : Prop :=
  ∀ i ∈ channels, usage i = m ∨ usage i = m + 1

theorem LevelAt.le_add_one {m : ℕ} (h : LevelAt channels usage m) {i j : ι} (hi : i ∈ channels)
    (hj : j ∈ channels) : usage i ≤ usage j + 1 := by
  have := h i hi
  have := h j hj
  omega

/-! ## One round -/

variable [DecidableEq ι]

/-- The use counts after one more round. -/
def addRound (usage : ι → ℕ) (chosen : Finset ι) (i : ι) : ℕ :=
  usage i + if i ∈ chosen then 1 else 0

theorem addRound_of_mem {i : ι} (h : i ∈ chosen) : addRound usage chosen i = usage i + 1 := by
  rw [addRound, if_pos h]

theorem addRound_of_notMem {i : ι} (h : i ∉ chosen) : addRound usage chosen i = usage i := by
  rw [addRound, if_neg h, Nat.add_zero]

/-- A round keeps the use counts level. -/
theorem LeastUsed.level {m : ℕ} (h : LeastUsed channels usage chosen)
    (hlevel : LevelAt channels usage m) :
    LevelAt channels (addRound usage chosen) m ∨
      LevelAt channels (addRound usage chosen) (m + 1) := by
  by_cases hleft : ∃ j ∈ channels, j ∉ chosen ∧ usage j = m
  · -- a channel of the lower level is left, so only such channels are taken
    obtain ⟨j, hj, hjchosen, hjusage⟩ := hleft
    refine .inl fun i hi => ?_
    by_cases hichosen : i ∈ chosen
    · have hle : usage i ≤ m := hjusage ▸ h.least i hichosen j hj hjchosen
      have := hlevel i hi
      rw [addRound_of_mem hichosen]
      omega
    · rw [addRound_of_notMem hichosen]
      exact hlevel i hi
  · -- every channel of the lower level is taken, so the level rises
    refine .inr fun i hi => ?_
    by_cases hichosen : i ∈ chosen
    · rw [addRound_of_mem hichosen]
      have := hlevel i hi
      omega
    · rw [addRound_of_notMem hichosen]
      have hne : usage i ≠ m := fun hm => hleft ⟨i, hi, hichosen, hm⟩
      have := hlevel i hi
      omega

/-- **A round meets used channels only where the unused ones do not suffice.** -/
theorem LeastUsed.card_inter_usedChannels (h : LeastUsed channels usage chosen) :
    (chosen ∩ usedChannels channels usage).card =
      chosen.card - (channels \ usedChannels channels usage).card := by
  by_cases hmeet : ∃ i ∈ chosen, 0 < usage i
  · obtain ⟨i, hi, hiusage⟩ := hmeet
    have hunused : channels \ usedChannels channels usage ⊆ chosen := by
      intro j hj
      rw [mem_sdiff, mem_usedChannels] at hj
      by_contra hjchosen
      have hle : usage i ≤ usage j := h.least i hi j hj.1 hjchosen
      exact hj.2 ⟨hj.1, hiusage.trans_le hle⟩
    have hinter : chosen ∩ usedChannels channels usage =
        chosen \ (channels \ usedChannels channels usage) := by
      ext j
      have hchannels : j ∈ chosen → j ∈ channels := fun hj => h.subset hj
      simp only [mem_inter, mem_sdiff]
      tauto
    rw [hinter, card_sdiff_of_subset hunused]
  · have hfresh : chosen ⊆ channels \ usedChannels channels usage := by
      intro i hi
      rw [mem_sdiff, mem_usedChannels]
      exact ⟨h.subset hi, fun hused => hmeet ⟨i, hi, hused.2⟩⟩
    have hinter : chosen ∩ usedChannels channels usage = ∅ := by
      rw [← disjoint_iff_inter_eq_empty]
      exact disjoint_of_subset_left hfresh sdiff_disjoint
    rw [hinter, card_empty, Nat.sub_eq_zero_of_le (card_le_card hfresh)]

/-! ## Rounds -/

/-- The use counts after a list of rounds. -/
def useCount (rounds : List (Finset ι)) (i : ι) : ℕ := rounds.countP (i ∈ ·)

@[simp] theorem useCount_nil (i : ι) : useCount ([] : List (Finset ι)) i = 0 := rfl

theorem useCount_concat (rounds : List (Finset ι)) (chosen : Finset ι) :
    useCount (rounds ++ [chosen]) = addRound (useCount rounds) chosen := by
  funext i
  simp [useCount, addRound, List.countP_append, List.countP_singleton]

/-- Rounds of `active` channels, each taking the channels used least by the rounds before. -/
inductive Rounds (channels : Finset ι) (active : ℕ) : List (Finset ι) → Prop
  | nil : Rounds channels active []
  | concat {rounds : List (Finset ι)} {chosen : Finset ι} : Rounds channels active rounds →
      LeastUsed channels (useCount rounds) chosen → chosen.card = active →
      Rounds channels active (rounds ++ [chosen])

namespace Rounds

variable {rounds : List (Finset ι)}

section

variable (h : Rounds channels active rounds)
include h

theorem take (k : ℕ) :
    Rounds channels active (rounds.take k) := by
  induction h with
  | nil => simpa using nil
  | @concat rounds chosen h hleast hcard ih =>
    by_cases hk : k ≤ rounds.length
    · rwa [List.take_append_of_le_length hk]
    · rw [List.take_of_length_le (by simp; omega)]
      exact concat h hleast hcard

/-- Each round takes the channels used least by the rounds before. -/
theorem leastUsed {k : ℕ} (hk : k < rounds.length) :
    LeastUsed channels (useCount (rounds.take k)) rounds[k] ∧ rounds[k].card = active := by
  induction h with
  | nil => exact absurd hk (Nat.not_lt_zero k)
  | @concat rounds chosen h hleast hcard ih =>
    by_cases hlast : k < rounds.length
    · rw [List.take_append_of_le_length hlast.le, List.getElem_append_left hlast]
      exact ih hlast
    · obtain rfl : k = rounds.length := by
        rw [List.length_append, List.length_singleton] at hk
        omega
      rw [List.take_left, List.getElem_concat_length rfl]
      exact ⟨hleast, hcard⟩

/-- **The use counts stay level.** -/
theorem level : ∃ m, LevelAt channels (useCount rounds) m := by
  induction h with
  | nil => exact ⟨0, fun i _ => .inl rfl⟩
  | @concat rounds chosen h hleast hcard ih =>
    obtain ⟨m, hm⟩ := ih
    rw [useCount_concat]
    exact (hleast.level hm).elim (fun h => ⟨m, h⟩) fun h => ⟨m + 1, h⟩

/-- Rounds that fit together leave disjoint sets, which make up the used channels. -/
theorem disjoint_of_le (hfit : rounds.length * active ≤ channels.card) :
    rounds.Pairwise Disjoint ∧
      (usedChannels channels (useCount rounds)).card = rounds.length * active ∧
      ∀ s ∈ rounds, s ⊆ usedChannels channels (useCount rounds) := by
  induction h with
  | nil => simp [usedChannels]
  | @concat rounds chosen h hleast hcard ih =>
    rw [List.length_append, List.length_singleton, Nat.add_mul, Nat.one_mul] at hfit ⊢
    obtain ⟨hdisjoint, hused, hsubset⟩ := ih (by omega)
    have hunused : (channels \ usedChannels channels (useCount rounds)).card =
        channels.card - rounds.length * active := by
      rw [card_sdiff_of_subset usedChannels_subset, hused]
    have hfresh : Disjoint chosen (usedChannels channels (useCount rounds)) := by
      rw [disjoint_iff_inter_eq_empty, ← card_eq_zero,
        hleast.card_inter_usedChannels, hunused, hcard]
      omega
    have hunion : usedChannels channels (useCount (rounds ++ [chosen])) =
        usedChannels channels (useCount rounds) ∪ chosen := by
      ext i
      have hchannels : i ∈ chosen → i ∈ channels := fun hi => hleast.subset hi
      rw [useCount_concat, mem_union, mem_usedChannels, mem_usedChannels, addRound]
      split_ifs with hi
      · simp [hi, hchannels hi]
      · simp [hi]
    refine ⟨?_, ?_, ?_⟩
    · rw [List.pairwise_append]
      refine ⟨hdisjoint, List.pairwise_singleton _ _, fun s hs t ht => ?_⟩
      obtain rfl := List.mem_singleton.1 ht
      exact (disjoint_of_subset_right (hsubset s hs) hfresh).symm
    · rw [hunion, card_union_of_disjoint hfresh.symm, hused, hcard]
    · intro s hs
      rw [hunion]
      rcases List.mem_append.1 hs with hs | hs
      · exact (hsubset s hs).trans subset_union_left
      · obtain rfl := List.mem_singleton.1 hs
        exact subset_union_right

/-- **The first rounds are pairwise disjoint.** -/
theorem pairwise_disjoint :
    (rounds.take (channels.card / active)).Pairwise Disjoint := by
  refine ((h.take _).disjoint_of_le ?_).1
  rw [List.length_take]
  calc min (channels.card / active) rounds.length * active
      ≤ channels.card / active * active := Nat.mul_le_mul_right _ (min_le_left _ _)
    _ ≤ channels.card := Nat.div_mul_le_self _ _

end

end Rounds

end BurnDragon.Scheduling
