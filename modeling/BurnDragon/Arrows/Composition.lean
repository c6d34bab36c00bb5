import Mathlib

/-!
# Categories with a partial composition

Arrows that have two ends or none, a partial composition, and a unit at each object, as a program
stores them in tables. `IsCategory` states the laws on the arrows with ends. Composing along a path
from left to right does not depend on how the path is cut (`composite_append`), and a functor commutes
with it (`IsFunctor.composite_map`).
-/

namespace BurnDragon

open List

/-- Arrows between objects, with what a table says about them. -/
structure Arrows (O A : Type*) where
  ends : A → Option (O × O)
  comp : A → A → Option A
  unit : O → Option A

namespace Arrows

variable {O A : Type*} (C : Arrows O A)

/-- The laws of a category. -/
structure IsCategory : Prop where
  comp_ends : ∀ {f g : A} {x y z : O}, C.ends f = some (x, y) → C.ends g = some (y, z) →
    ∃ k, C.comp f g = some k ∧ C.ends k = some (x, z)
  comp_none : ∀ {f g : A} {x y y' z : O}, C.ends f = some (x, y) → C.ends g = some (y', z) →
    y ≠ y' → C.comp f g = none
  assoc : ∀ {f g k : A} {w x y z : O}, C.ends f = some (w, x) → C.ends g = some (x, y) →
    C.ends k = some (y, z) → ((C.comp f g).bind fun fg => C.comp fg k) = (C.comp g k).bind (C.comp f)
  unit_ends : ∀ {f : A} {x y : O}, C.ends f = some (x, y) → ∃ i j, C.unit x = some i ∧
    C.unit y = some j ∧ C.ends i = some (x, x) ∧ C.ends j = some (y, y) ∧
    C.comp i f = some f ∧ C.comp f j = some f

/-- The list leads from an object to an object. -/
def IsPath : O → List A → O → Prop
  | x, [], y => x = y
  | x, f :: path, z => ∃ y, C.ends f = some (x, y) ∧ IsPath y path z

/-- The composite along a path that is not empty, from the left. -/
def composite : List A → Option A
  | [] => none
  | f :: path => path.foldlM C.comp f

variable {C} {f : A} {p q : List A} {x y z : O}

@[simp] theorem isPath_nil : C.IsPath x [] y ↔ x = y := Iff.rfl

@[simp] theorem isPath_cons :
    C.IsPath x (f :: p) z ↔ ∃ y, C.ends f = some (x, y) ∧ C.IsPath y p z := Iff.rfl

theorem isPath_append : C.IsPath x (p ++ q) z ↔ ∃ y, C.IsPath x p y ∧ C.IsPath y q z := by
  induction p generalizing x with
  | nil => simp
  | cons f p ih =>
    simp only [cons_append, isPath_cons, ih]
    constructor
    · rintro ⟨w, hf, y, hp, hq⟩
      exact ⟨y, ⟨w, hf, hp⟩, hq⟩
    · rintro ⟨y, ⟨w, hf, hp⟩, hq⟩
      exact ⟨w, hf, y, hp, hq⟩

namespace IsCategory

variable (h : C.IsCategory)

include h

/-- Composing along a path after an arrow ends at the end of the path. -/
theorem foldlM_ends (hf : C.ends f = some (x, y)) (hp : C.IsPath y p z) :
    ∃ k, p.foldlM C.comp f = some k ∧ C.ends k = some (x, z) := by
  induction p generalizing f y with
  | nil => exact ⟨f, rfl, by rw [hf, isPath_nil.1 hp]⟩
  | cons g p ih =>
    obtain ⟨y', hg, hp⟩ := hp
    obtain ⟨fg, hfg, hends⟩ := h.comp_ends hf hg
    obtain ⟨k, hk, hkends⟩ := ih hends hp
    exact ⟨k, by rw [foldlM_cons, hfg]; exact hk, hkends⟩

/-- **Composition is total on paths.** -/
theorem composite_ends (hne : p ≠ []) (hp : C.IsPath x p z) :
    ∃ k, C.composite p = some k ∧ C.ends k = some (x, z) := by
  cases p with
  | nil => exact absurd rfl hne
  | cons f p =>
    obtain ⟨y, hf, hp⟩ := hp
    exact h.foldlM_ends hf hp

/-- Going along a path after an arrow is composing with the composite of the path. -/
theorem foldlM_cons_eq {g : A} {w : O} (hf : C.ends f = some (w, x)) (hq : C.IsPath x (g :: q) z) :
    (g :: q).foldlM C.comp f = (C.composite (g :: q)).bind (C.comp f) := by
  induction q generalizing f g w x with
  | nil => simp [composite]
  | cons g' q ih =>
    obtain ⟨y, hg, hq⟩ := hq
    obtain ⟨y', hg', -⟩ := id hq
    obtain ⟨fg, hfg, hends⟩ := h.comp_ends hf hg
    obtain ⟨k, hk, hkends⟩ := h.composite_ends (cons_ne_nil g' q) hq
    calc (g :: g' :: q).foldlM C.comp f
        = (g' :: q).foldlM C.comp fg := by rw [foldlM_cons, hfg]; rfl
      _ = (C.composite (g' :: q)).bind (C.comp fg) := ih hends hq
      _ = (C.comp g k).bind (C.comp f) := by rw [hk, ← h.assoc hf hg hkends, hfg]; rfl
      _ = (C.composite (g :: g' :: q)).bind (C.comp f) := by
        rw [composite, ih hg hq, hk]
        rfl

/-- **A path may be cut anywhere.** -/
theorem composite_append (hp : p ≠ []) (hq : q ≠ []) (hpath : C.IsPath x (p ++ q) z) :
    ∃ f g k, C.composite p = some f ∧ C.composite q = some g ∧ C.comp f g = some k ∧
      C.composite (p ++ q) = some k := by
  obtain ⟨y, hpathp, hpathq⟩ := isPath_append.1 hpath
  obtain ⟨f, hf, hfends⟩ := h.composite_ends hp hpathp
  obtain ⟨g, hg, hgends⟩ := h.composite_ends hq hpathq
  obtain ⟨k, hk, -⟩ := h.comp_ends hfends hgends
  refine ⟨f, g, k, hf, hg, hk, ?_⟩
  cases p with
  | nil => exact absurd rfl hp
  | cons f' p =>
    cases q with
    | nil => exact absurd rfl hq
    | cons g' q =>
      have hfold : p.foldlM C.comp f' = some f := hf
      rw [cons_append, composite, foldlM_append, hfold]
      exact (h.foldlM_cons_eq hfends hpathq).trans (by rw [hg]; exact hk)

end IsCategory

/-! ## Functors -/

/-- A map of objects and a map of arrows that keep the ends, the units and the composites. -/
structure IsFunctor (C D : Arrows O A) (G : O → Option O) (F : A → Option A) : Prop where
  ends : ∀ {f : A} {x y : O}, C.ends f = some (x, y) → ∃ f' x' y', F f = some f' ∧
    G x = some x' ∧ G y = some y' ∧ D.ends f' = some (x', y')
  unit : ∀ {x : O} {i : A}, C.unit x = some i → ∃ x' i', G x = some x' ∧ F i = some i' ∧
    D.unit x' = some i'
  comp : ∀ {f g k f' g' : A}, C.comp f g = some k → F f = some f' → F g = some g' →
    ∃ k', F k = some k' ∧ D.comp f' g' = some k'

namespace IsFunctor

variable {D : Arrows O A} {G : O → Option O} {F : A → Option A} (hF : C.IsFunctor D G F)
  (h : C.IsCategory)

include hF h

theorem foldlM_map {f' : A} (hf : C.ends f = some (x, y)) (hp : C.IsPath y p z)
    (hf' : F f = some f') : ∃ k k' p', p.foldlM C.comp f = some k ∧ p.mapM F = some p' ∧
      F k = some k' ∧ p'.foldlM D.comp f' = some k' := by
  induction p generalizing f f' y with
  | nil => exact ⟨f, f', [], rfl, rfl, hf', rfl⟩
  | cons g p ih =>
    obtain ⟨y', hg, hp⟩ := hp
    obtain ⟨g', -, -, hg', -⟩ := hF.ends hg
    obtain ⟨fg, hfg, hends⟩ := h.comp_ends hf hg
    obtain ⟨fg', hfg', hcomp⟩ := hF.comp hfg hf' hg'
    obtain ⟨k, k', p', hk, hp', hk', hfold⟩ := ih hends hp hfg'
    refine ⟨k, k', g' :: p', ?_, ?_, hk', ?_⟩
    · rw [foldlM_cons, hfg]
      exact hk
    · rw [mapM_cons, hg', hp']
      rfl
    · rw [foldlM_cons, hcomp]
      exact hfold

/-- **Mapping a composite is composing the mapped path.** -/
theorem composite_map (hne : p ≠ []) (hp : C.IsPath x p z) : ∃ k k' p', C.composite p = some k ∧
    p.mapM F = some p' ∧ F k = some k' ∧ D.composite p' = some k' := by
  cases p with
  | nil => exact absurd rfl hne
  | cons f p =>
    obtain ⟨y, hf, hp⟩ := hp
    obtain ⟨f', -, -, hf', -⟩ := hF.ends hf
    obtain ⟨k, k', p', hk, hp', hk', hfold⟩ := hF.foldlM_map h hf hp hf'
    refine ⟨k, k', f' :: p', hk, ?_, hk', hfold⟩
    rw [mapM_cons, hf', hp']
    rfl

end IsFunctor

end Arrows

end BurnDragon
