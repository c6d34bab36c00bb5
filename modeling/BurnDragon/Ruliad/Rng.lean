import BurnDragon.Rust.Machine

/-!
# The random number generator

`rng.rs`: SplitMix64 on 64-bit words, and the draws made from it. A draw is a state transformer that
may panic. `next_usize` repeats until a word falls below a multiple of the bound; the words of
`2 ^ 64` steps are all words, so the loop ends within them.

`Yields m P` says that `m` does not panic from any state and that its value satisfies `P`; the rules
follow the structure of the draw.
-/

namespace BurnDragon.Ruliad

open Rust

structure SplitMix64 where
  state : UInt64
  deriving DecidableEq

namespace SplitMix64

/-- The word that `next_u64` makes of its state. -/
def mix (state : UInt64) : UInt64 :=
  let value := (state ^^^ (state >>> 30)) * 0xBF58476D1CE4E5B9
  let value := (value ^^^ (value >>> 27)) * 0x94D049BB133111EB
  value ^^^ (value >>> 31)

/-- The state after one more step. -/
def advance (rng : SplitMix64) : SplitMix64 := ⟨rng.state + 0x9E3779B97F4A7C15⟩

/-- `next_u64`. -/
def nextU64 (rng : SplitMix64) : UInt64 × SplitMix64 := (mix rng.advance.state, rng.advance)

/-- The loop of `next_usize`: the first word below `zone`, with the state after it. -/
def firstAccepted (zone : ℕ) : ℕ → SplitMix64 → Option (ℕ × SplitMix64)
  | 0, _ => none
  | fuel + 1, rng =>
    let (value, rng) := rng.nextU64
    if value.toNat < zone then some (value.toNat, rng) else firstAccepted zone fuel rng

/-- `next_usize`. -/
def nextUsize (rng : SplitMix64) (upperExclusive : ℕ) : ℕ × SplitMix64 :=
  if upperExclusive ≤ 1 then
    (0, rng)
  else
    let zone := 2 ^ 64 / upperExclusive * upperExclusive
    let accepted := (firstAccepted zone (2 ^ 64) rng).getD (0, rng)
    (accepted.1 % upperExclusive, accepted.2)

/-- The state after `n` steps. -/
theorem iterate_advance (rng : SplitMix64) (n : ℕ) :
    (advance^[n] rng).state = rng.state + UInt64.ofNat n * 0x9E3779B97F4A7C15 := by
  induction n with
  | zero => simp
  | succ n ih =>
    rw [Function.iterate_succ_apply', advance, ih, UInt64.ofNat_add, UInt64.add_mul, UInt64.add_assoc]
    simp

theorem nextUsize_lt {upperExclusive : ℕ} (h : 0 < upperExclusive) (rng : SplitMix64) :
    (rng.nextUsize upperExclusive).1 < upperExclusive := by
  unfold nextUsize
  split_ifs
  · exact h
  · exact Nat.mod_lt _ h

end SplitMix64

/-! ## Draws -/

/-- A computation that draws from the generator and may panic. -/
abbrev Draw (α : Type) := StateT SplitMix64 Run α

namespace Draw

def nextU64 : Draw UInt64 := fun rng => .ok rng.nextU64

def nextUsize (upperExclusive : ℕ) : Draw ℕ := fun rng => .ok (rng.nextUsize upperExclusive)

/-- Collect the values of a draw made `n` times. -/
def times {α : Type} (m : Draw α) : ℕ → Draw (List α)
  | 0 => pure []
  | n + 1 => do
    let x ← m
    let xs ← times m n
    return x :: xs

/-- The loop of `shuffle` over the indices from the given one down to 1. -/
def shuffleDown {α : Type} : ℕ → List α → Draw (List α)
  | 0, values => pure values
  | index + 1, values => do
    let other ← nextUsize (index + 2)
    shuffleDown index (swap values (index + 1) other)

/-- `shuffle`. -/
def shuffle {α : Type} (values : List α) : Draw (List α) := shuffleDown (values.length - 1) values

/-- From every state the draw returns a value that satisfies `P`. -/
def Yields {α : Type} (m : Draw α) (P : α → Prop) : Prop :=
  ∀ rng, ∃ a rng', m.run rng = .ok (a, rng') ∧ P a

variable {α β : Type} {m : Draw α} {f : α → Draw β} {P : α → Prop} {Q : β → Prop}

namespace Yields

theorem mono {P' : α → Prop} (h : Yields m P) (hP : ∀ a, P a → P' a) : Yields m P' := by
  intro rng
  obtain ⟨a, rng', hrun, ha⟩ := h rng
  exact ⟨a, rng', hrun, hP a ha⟩

/-- A draw is a function of the state. -/
theorem and {P' : α → Prop} (h : Yields m P) (h' : Yields m P') :
    Yields m fun a => P a ∧ P' a := by
  intro rng
  obtain ⟨a, rng', hrun, ha⟩ := h rng
  obtain ⟨b, rng'', hrun', hb⟩ := h' rng
  rw [hrun] at hrun'
  obtain ⟨rfl, rfl⟩ := Prod.mk.inj (Except.ok.inj hrun')
  exact ⟨a, rng', hrun, ha, hb⟩

theorem pure {a : α} (h : P a) : Yields (Pure.pure a) P := fun rng => ⟨a, rng, rfl, h⟩

theorem bind (h : Yields m P) (hf : ∀ a, P a → Yields (f a) Q) : Yields (m >>= f) Q := by
  intro rng
  obtain ⟨a, rng', hrun, ha⟩ := h rng
  obtain ⟨b, rng'', hrun', hb⟩ := hf a ha rng'
  refine ⟨b, rng'', ?_, hb⟩
  rw [StateT.run_bind, hrun]
  exact hrun'

/-- A computation without draws that does not panic. -/
theorem lift {x : Run α} {a : α} (h : x = .ok a) (ha : P a) :
    Yields (StateT.lift x) P := by
  intro rng
  exact ⟨a, rng, by rw [h]; rfl, ha⟩

theorem nextU64 : Yields Draw.nextU64 fun _ => True := fun _ => ⟨_, _, rfl, trivial⟩

theorem nextUsize {n : ℕ} (h : 0 < n) : Yields (Draw.nextUsize n) (· < n) :=
  fun rng => ⟨(rng.nextUsize n).1, (rng.nextUsize n).2, rfl, rng.nextUsize_lt h⟩

theorem times (h : Yields m P) (n : ℕ) :
    Yields (Draw.times m n) fun xs => xs.length = n ∧ ∀ x ∈ xs, P x := by
  induction n with
  | zero => exact pure ⟨rfl, by simp⟩
  | succ n ih =>
    refine bind h fun x hx => bind ih fun xs hxs => pure ⟨by simp [hxs.1], ?_⟩
    simpa using ⟨hx, hxs.2⟩

theorem shuffleDown (index : ℕ) (values : List α) :
    Yields (Draw.shuffleDown index values) (·.Perm values) := by
  induction index generalizing values with
  | zero => exact pure (List.Perm.refl values)
  | succ index ih =>
    refine bind (nextUsize (by omega)) fun other _ => ?_
    exact (ih _).mono fun xs hxs => hxs.trans (swap_perm values _ _)

/-- Shuffling permutes. -/
theorem shuffle (values : List α) : Yields (Draw.shuffle values) (·.Perm values) :=
  shuffleDown _ values

end Yields

end Draw

end BurnDragon.Ruliad
