import BurnDragon.Nca.Config
import BurnDragon.Ruliad.Rng

/-!
# What the generators of the families share

The ranges that a family config gives to its generator, the draws from them, and generators that may
fail. `range_usize` counts the numbers of its range in a `usize`, so the whole range of the type is one
too many. `Succeeds` is `Draw.Yields` for a generator that returns a `Result`.
-/

namespace BurnDragon.Ruliad

open Rust

/-- `RuliadFamilyConfig`, as far as the generators read it. -/
structure RuliadFamilyConfig where
  width : Option Nca.UsizeRangeConfig
  steps : Option Nca.UsizeRangeConfig
  deriving DecidableEq

variable {α β : Type} {P : α → Prop} {Q : β → Prop}

namespace Draw

/-! ## Draws -/

variable (overflowChecks : Bool)

/-- `next_u8`. -/
def nextU8 : Draw ℕ := do return ((← nextU64) >>> 56).toNat

/-- `next_bool`. -/
def nextBool : Draw Bool := do return (← nextU64) >>> 63 ≠ 0

/-- `range_usize`. -/
def rangeUsize (min max : ℕ) : Draw ℕ :=
  if min ≥ max then
    pure min
  else do
    let size ← StateT.lift (usizeResult overflowChecks (max - min + 1))
    return min + (← nextUsize size)

/-- `range_or`. -/
def rangeOr (range : Option Nca.UsizeRangeConfig) (defaultMin defaultMax : ℕ) : Draw ℕ :=
  match range with
  | some range => rangeUsize overflowChecks range.min range.max
  | none => rangeUsize overflowChecks defaultMin defaultMax

namespace Yields

variable {overflowChecks}

theorem nextU8 : Yields Draw.nextU8 (· < 256) := by
  refine bind nextU64 fun word _ => pure ?_
  have := word.toNat_lt
  rw [UInt64.toNat_shiftRight]
  change word.toNat >>> 56 < 256
  rw [Nat.shiftRight_eq_div_pow]
  omega

theorem nextBool : Yields Draw.nextBool fun _ => True :=
  bind nextU64 fun _ _ => pure trivial

/-- A draw from a range that a `usize` can count stays in it. -/
theorem rangeUsize {min max : ℕ} (hle : min ≤ max) (h : max - min < usizeMax) :
    Yields (Draw.rangeUsize overflowChecks min max) fun n => min ≤ n ∧ n ≤ max := by
  unfold Draw.rangeUsize
  split_ifs with hge
  · exact pure ⟨le_refl min, hle⟩
  · refine bind (lift (P := fun size => size = max - min + 1) (usizeResult_of_le h) rfl) ?_
    rintro size rfl
    refine bind (nextUsize (by omega)) fun offset hoffset => pure ?_
    omega

theorem rangeOr {range : Option Nca.UsizeRangeConfig} {defaultMin defaultMax : ℕ} {Q : ℕ → Prop}
    (hdefault : defaultMin ≤ defaultMax ∧ defaultMax < usizeMax)
    (hrange : ∀ r ∈ range, r.min ≤ r.max ∧ r.max - r.min < usizeMax)
    (hQ : ∀ n, (n ≤ defaultMax ∨ ∃ r ∈ range, n ≤ r.max) → Q n) :
    Yields (Draw.rangeOr overflowChecks range defaultMin defaultMax) Q := by
  cases range with
  | none => exact (rangeUsize hdefault.1 (by omega)).mono fun n hn => hQ n (.inl hn.2)
  | some r =>
    obtain ⟨hle, hlt⟩ := hrange r rfl
    exact (rangeUsize hle hlt).mono fun n hn => hQ n (.inr ⟨r, rfl, hn.2⟩)

end Yields

/-! ## What a returned value satisfies -/

/-- Every value that the draw returns satisfies `P`. -/
def Ensures {α : Type} (m : Draw α) (P : α → Prop) : Prop :=
  ∀ rng a rng', StateT.run m rng = .ok (a, rng') → P a

namespace Ensures

variable {m : Draw α} {f : α → Draw β}

theorem of_yields (h : Yields m P) : Ensures m P := by
  intro rng a rng' hrun
  obtain ⟨b, rng'', hrun', hb⟩ := h rng
  obtain ⟨rfl, rfl⟩ := Prod.mk.inj (Except.ok.inj (hrun.symm.trans hrun'))
  exact hb

theorem any (m : Draw α) : Ensures m fun _ => True := fun _ _ _ _ => trivial

theorem pure {a : α} (h : P a) : Ensures (Pure.pure a) P :=
  of_yields (Yields.pure h)

theorem bind (h : Ensures m P) (hf : ∀ a, P a → Ensures (f a) Q) : Ensures (m >>= f) Q := by
  intro rng b rng'' hrun
  rw [StateT.run_bind] at hrun
  obtain ⟨⟨a, rng'⟩, hm, hrun⟩ := bind_eq_ok.1 hrun
  exact hf a (h rng a rng' hm) rng' b rng'' hrun

theorem lift {x : Run α} (h : ∀ a, x = .ok a → P a) : Ensures (StateT.lift x) P := by
  intro rng a rng' hrun
  cases x with
  | error panic => cases hrun
  | ok b =>
    obtain ⟨rfl, -⟩ := Prod.mk.inj (Except.ok.inj hrun)
    exact h b rfl

end Ensures

end Draw

/-! ## Generators that may fail -/

/-- A generator that returns a `Result`. -/
abbrev TryDraw (α : Type) := ExceptT String Draw α

namespace TryDraw

/-- A computation without draws. -/
def ofRun (x : Run α) : TryDraw α := ExceptT.lift (StateT.lift x)

/-- `Option::ok_or_else`, with the operator `?`. -/
def okOr (x : Option α) (e : String) : TryDraw α := ExceptT.mk (pure (Rust.okOr x e))

/-- After a draw the generator goes on from the state that the draw leaves. -/
theorem run_lift_bind {d : Draw α} {f : α → TryDraw β} {a : α} {rng rng' : SplitMix64}
    (h : StateT.run d rng = .ok (a, rng')) :
    StateT.run (ExceptT.run (ExceptT.lift d >>= f)) rng = StateT.run (ExceptT.run (f a)) rng' := by
  rw [ExceptT.run_bind, ExceptT.run_lift, bind_map_left, StateT.run_bind, h]
  rfl

theorem run_ofRun_bind {x : Run α} {f : α → TryDraw β} {a : α} (h : x = .ok a) (rng : SplitMix64) :
    StateT.run (ExceptT.run (ofRun x >>= f)) rng = StateT.run (ExceptT.run (f a)) rng :=
  run_lift_bind (by rw [h]; rfl)

/-- From every state the generator returns a value that satisfies `P`. -/
def Succeeds (m : TryDraw α) (P : α → Prop) : Prop :=
  Draw.Yields (ExceptT.run m) fun result => ∃ a, result = .ok a ∧ P a

namespace Succeeds

variable {m : TryDraw α} {f : α → TryDraw β}

theorem pure {a : α} (h : P a) : Succeeds (Pure.pure a) P := Draw.Yields.pure ⟨a, rfl, h⟩

theorem bind (h : Succeeds m P) (hf : ∀ a, P a → Succeeds (f a) Q) : Succeeds (m >>= f) Q := by
  refine Draw.Yields.bind h ?_
  rintro _ ⟨a, rfl, ha⟩
  exact hf a ha

/-- A draw does not fail. -/
theorem draw {d : Draw α} (h : Draw.Yields d P) : Succeeds (ExceptT.lift d) P :=
  Draw.Yields.bind h fun a ha => Draw.Yields.pure ⟨a, rfl, ha⟩

/-- A computation that returns is followed by what comes after it. -/
theorem ofRun_bind {x : Run β} {g : β → TryDraw α} {b : β} (hx : x = .ok b)
    (hg : Succeeds (g b) P) : Succeeds (TryDraw.ofRun x >>= g) P :=
  bind (draw (Draw.Yields.lift hx (rfl : b = b))) fun _ h => h ▸ hg

theorem okOr {x : Option α} {e : String} {a : α} (hx : x = some a) (ha : P a) :
    Succeeds (TryDraw.okOr x e) P :=
  Draw.Yields.pure ⟨a, okOr_eq_ok.2 hx, ha⟩

theorem okOr_bind {x : Option β} {e : String} {g : β → TryDraw α} {b : β} (hx : x = some b)
    (hg : Succeeds (g b) P) : Succeeds (TryDraw.okOr x e >>= g) P :=
  bind (okOr hx (rfl : b = b)) fun _ h => h ▸ hg

end Succeeds

/-- Every value that the generator returns satisfies `P`. -/
def Ensures (m : TryDraw α) (P : α → Prop) : Prop :=
  Draw.Ensures (ExceptT.run m) fun result => ∀ a, result = .ok a → P a

namespace Ensures

variable {f : α → TryDraw β}

theorem pure {a : α} (h : P a) : Ensures (Pure.pure a) P :=
  Draw.Ensures.pure (by rintro _ ⟨⟩; exact h)

theorem okOr {x : Option α} {e : String} (h : ∀ a, x = some a → P a) :
    Ensures (TryDraw.okOr x e) P :=
  Draw.Ensures.pure fun a ha => h a (okOr_eq_ok.1 ha)

theorem draw_bind {d : Draw α} (h : Draw.Ensures d P) (hf : ∀ a, P a → Ensures (f a) Q) :
    Ensures (ExceptT.lift d >>= f) Q := by
  unfold Ensures
  rw [ExceptT.run_bind, ExceptT.run_lift, bind_map_left]
  exact Draw.Ensures.bind h hf

end Ensures

end TryDraw

end BurnDragon.Ruliad
