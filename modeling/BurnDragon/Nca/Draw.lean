import BurnDragon.Rust.Machine

/-!
# Draws

The generator of random numbers and the gzip encoder come from other crates (`Externals`); the models
rely on the bounds of a drawn integer only. A draw is a computation that reads the state of the
generator. It may panic, and a loop that waits for the right number may never end.

`Ensures m P` says that every value that `m` returns satisfies `P`; the rules follow the structure of
the computation.
-/

namespace BurnDragon.Nca

open Rust

/-- What the code takes from other crates, for a generator with states in `ρ`. -/
structure Externals (ρ : Type) where
  seedFromU64 : UInt64 → ρ
  nextU64 : ρ → UInt64 × ρ
  genUsize : ℕ → ℕ → ρ → ℕ × ρ
  genInt : ℤ → ℤ → ρ → ℤ × ρ
  genFloat : Float32 → Float32 → ρ → Float32 × ρ
  genFloatInclusive : Float32 → Float32 → ρ → Float32 × ρ
  genBool : Float32 → ρ → Bool × ρ
  gzip : List UInt8 → List UInt8
  genUsize_mem : ∀ lower upper rng, lower ≤ upper →
    lower ≤ (genUsize lower upper rng).1 ∧ (genUsize lower upper rng).1 ≤ upper

/-- A computation that draws from the generator, and may panic or never return. -/
abbrev Draw (ρ α : Type) := StateT ρ (ExceptT Panic Option) α

namespace Draw

variable {ρ α β : Type} {m : Draw ρ α} {f : α → Draw ρ β} {P : α → Prop} {Q : β → Prop}

/-- One call of the generator. -/
def sample (draw : ρ → α × ρ) : Draw ρ α := fun rng => pure (draw rng)

/-- A computation without draws. -/
def lift (x : Run α) : Draw ρ α := fun rng => ExceptT.mk (some (x.map (·, rng)))

/-- A draw that never returns. -/
def diverge : Draw ρ α := fun _ => ExceptT.mk none

/-- A computation with a generator of its own. -/
def withRng (rng : ρ) (m : Draw ρ α) : Draw ρ α := fun outer => do
  let result ← m rng
  return (result.1, outer)

/-- Collect the values of a draw made `n` times. -/
def times (m : Draw ρ α) : ℕ → Draw ρ (List α)
  | 0 => pure []
  | n + 1 => do
    let x ← m
    let xs ← times m n
    return x :: xs

/-- What the draw returns from a state. -/
def Returns (m : Draw ρ α) (rng : ρ) (a : α) : Prop := ∃ rng', m rng = some (.ok (a, rng'))

/-- Every value that the draw returns satisfies `P`. -/
def Ensures (m : Draw ρ α) (P : α → Prop) : Prop := ∀ rng a, Returns m rng a → P a

namespace Ensures

theorem mono {P' : α → Prop} (h : Ensures m P) (hP : ∀ a, P a → P' a) : Ensures m P' :=
  fun rng a ha => hP a (h rng a ha)

theorem trivial : Ensures m fun _ => True := fun _ _ _ => True.intro

theorem pure {a : α} (h : P a) : Ensures (Pure.pure a : Draw ρ α) P := by
  rintro rng b ⟨rng', hrun⟩
  obtain ⟨rfl, -⟩ := Prod.mk.inj (Except.ok.inj (Option.some.inj hrun))
  exact h

theorem bind (h : Ensures m P) (hf : ∀ a, P a → Ensures (f a) Q) : Ensures (m >>= f) Q := by
  rintro rng b ⟨rng', hrun⟩
  change (m rng).bind _ = _ at hrun
  rcases hm : m rng with _ | panic | ⟨a, mid⟩
  · rw [hm] at hrun
    cases hrun
  · rw [hm] at hrun
    cases hrun
  · rw [hm] at hrun
    exact hf a (h rng a ⟨mid, hm⟩) mid b ⟨rng', hrun⟩

/-- A draw after one whose value does not matter. -/
theorem after (hf : ∀ a, Ensures (f a) Q) : Ensures (m >>= f) Q := bind trivial fun a _ => hf a

theorem sample {draw : ρ → α × ρ} (h : ∀ rng, P (draw rng).1) : Ensures (Draw.sample draw) P := by
  rintro rng b ⟨rng', hrun⟩
  have heq : (draw rng).1 = b := congrArg Prod.fst (Except.ok.inj (Option.some.inj hrun))
  rw [← heq]
  exact h rng

theorem genUsize {ext : Externals ρ} {lower upper : ℕ} (h : lower ≤ upper) :
    Ensures (Draw.sample (ext.genUsize lower upper)) fun n => lower ≤ n ∧ n ≤ upper :=
  sample fun rng => ext.genUsize_mem lower upper rng h

theorem lift {x : Run α} (h : ∀ a, x = .ok a → P a) : Ensures (Draw.lift x : Draw ρ α) P := by
  rintro rng b ⟨rng', hrun⟩
  cases x with
  | error panic => cases Option.some.inj hrun
  | ok a =>
    obtain ⟨rfl, -⟩ := Prod.mk.inj (Except.ok.inj (Option.some.inj hrun))
    exact h a rfl

/-- A draw after a computation without draws. -/
theorem bind_lift {x : Run α} (hf : ∀ a, x = .ok a → Ensures (f a) Q) :
    Ensures (Draw.lift x >>= f) Q := bind (P := fun a => x = .ok a) (lift fun _ => id) hf

theorem withRng {rng : ρ} (h : Ensures m P) : Ensures (Draw.withRng rng m) P := by
  rintro outer b ⟨rng', hrun⟩
  change (m rng).bind _ = _ at hrun
  rcases hm : m rng with _ | panic | ⟨a, mid⟩
  · rw [hm] at hrun
    cases hrun
  · rw [hm] at hrun
    cases hrun
  · rw [hm] at hrun
    obtain ⟨rfl, -⟩ := Prod.mk.inj (Except.ok.inj (Option.some.inj hrun))
    exact h rng a ⟨mid, hm⟩

theorem ite {c : Prop} [Decidable c] {m' : Draw ρ α} (h : c → Ensures m P)
    (h' : ¬ c → Ensures m' P) : Ensures (if c then m else m') P := by
  split_ifs with hc
  · exact h hc
  · exact h' hc

theorem times (h : Ensures m P) (n : ℕ) :
    Ensures (Draw.times m n) fun xs => xs.length = n ∧ ∀ x ∈ xs, P x := by
  induction n with
  | zero => exact pure ⟨rfl, by simp⟩
  | succ n ih =>
    refine bind h fun x hx => bind ih fun xs hxs => pure ⟨by simp [hxs.1], ?_⟩
    simpa using ⟨hx, hxs.2⟩

theorem mapM {xs : List β} {g : β → Draw ρ α} (h : ∀ x ∈ xs, Ensures (g x) P) :
    Ensures (xs.mapM g) fun ys => ys.length = xs.length ∧ ∀ y ∈ ys, P y := by
  induction xs with
  | nil => exact pure ⟨rfl, by simp⟩
  | cons x xs ih =>
    rw [List.mapM_cons]
    refine bind (h x List.mem_cons_self) fun y hy =>
      bind (ih fun z hz => h z (List.mem_cons_of_mem x hz)) fun ys hys => pure ⟨by simp [hys.1], ?_⟩
    simpa using ⟨hy, hys.2⟩

end Ensures

end Draw

end BurnDragon.Nca
