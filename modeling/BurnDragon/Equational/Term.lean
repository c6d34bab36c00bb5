import Mathlib

/-!
# First-order terms

Terms over a type `V` of variables, a type `A` of constants (atoms) and a type `F` of operators
without fixed arity: an operator is applied to a list of arguments. Everything here is about terms
in general; no signature is fixed.

* `Term.ind` is the induction principle that goes through the argument lists.
* `Term.subst` substitutes for every variable, `Term.map` renames variables and symbols.
* `Term.Subterm` is the (reflexive) subterm relation, and `Term.Over` says that a term is built from
  the symbols of a signature.
-/

namespace BurnDragon.Equational

open List

/-- First-order terms. -/
inductive Term (V A F : Type*)
  | var (index : V)
  | atom (symbol : A)
  | apply (operator : F) (arguments : List (Term V A F))

namespace Term

variable {V A F : Type*}

/-- Induction on a term, with the hypothesis for every argument of an application. -/
@[elab_as_elim, induction_eliminator]
theorem ind {P : Term V A F → Prop} (var : ∀ i, P (.var i)) (atom : ∀ a, P (.atom a))
    (apply : ∀ f args, (∀ t ∈ args, P t) → P (.apply f args)) (t : Term V A F) : P t :=
  Term.rec (motive_1 := P) (motive_2 := fun args => ∀ t ∈ args, P t) var atom apply
    (by simp) (fun head tail hh ht => by simpa using ⟨hh, ht⟩) t

/-! ## Decidable equality -/

mutual

/-- Equality of terms is decidable. -/
protected def decEq [DecidableEq V] [DecidableEq A] [DecidableEq F] :
    (s t : Term V A F) → Decidable (s = t)
  | .var i, .var j => decidable_of_iff (i = j) (by simp)
  | .atom a, .atom b => decidable_of_iff (a = b) (by simp)
  | .apply f ss, .apply g ts =>
    have := Term.decEqList ss ts
    decidable_of_iff (f = g ∧ ss = ts) (by simp)
  | .var _, .atom _ => isFalse (by simp)
  | .var _, .apply _ _ => isFalse (by simp)
  | .atom _, .var _ => isFalse (by simp)
  | .atom _, .apply _ _ => isFalse (by simp)
  | .apply _ _, .var _ => isFalse (by simp)
  | .apply _ _, .atom _ => isFalse (by simp)

/-- Equality of argument lists is decidable. -/
protected def decEqList [DecidableEq V] [DecidableEq A] [DecidableEq F] :
    (ss ts : List (Term V A F)) → Decidable (ss = ts)
  | [], [] => isTrue rfl
  | [], _ :: _ => isFalse (by simp)
  | _ :: _, [] => isFalse (by simp)
  | s :: ss, t :: ts =>
    have := Term.decEq s t
    have := Term.decEqList ss ts
    decidable_of_iff (s = t ∧ ss = ts) (by simp)

end

instance [DecidableEq V] [DecidableEq A] [DecidableEq F] : DecidableEq (Term V A F) := Term.decEq

/-! ## Substitution and renaming -/

mutual

/-- Substitute `σ i` for every variable `i`. -/
def subst {W : Type*} (σ : V → Term W A F) : Term V A F → Term W A F
  | .var i => σ i
  | .atom a => .atom a
  | .apply f args => .apply f (substList σ args)

/-- Substitute in every term of a list. -/
def substList {W : Type*} (σ : V → Term W A F) : List (Term V A F) → List (Term W A F)
  | [] => []
  | t :: ts => subst σ t :: substList σ ts

end

variable {W : Type*}

theorem substList_eq_map (σ : V → Term W A F) (ts : List (Term V A F)) :
    substList σ ts = ts.map (subst σ) := by
  induction ts with
  | nil => rfl
  | cons t ts ih => rw [substList, ih, map_cons]

@[simp] theorem subst_var (σ : V → Term W A F) (i : V) :
    (Term.var i : Term V A F).subst σ = σ i := rfl

@[simp] theorem subst_atom (σ : V → Term W A F) (a : A) :
    (Term.atom a : Term V A F).subst σ = .atom a := rfl

@[simp] theorem subst_apply (σ : V → Term W A F) (f : F) (args : List (Term V A F)) :
    (Term.apply f args).subst σ = .apply f (args.map (subst σ)) := by
  rw [subst, substList_eq_map]

mutual

/-- Rename the variables by `v`, the atoms by `a` and the operators by `f`. -/
def map {V' A' F' : Type*} (v : V → V') (a : A → A') (f : F → F') : Term V A F → Term V' A' F'
  | .var i => .var (v i)
  | .atom s => .atom (a s)
  | .apply g args => .apply (f g) (mapList v a f args)

/-- Rename in every term of a list. -/
def mapList {V' A' F' : Type*} (v : V → V') (a : A → A') (f : F → F') :
    List (Term V A F) → List (Term V' A' F')
  | [] => []
  | t :: ts => map v a f t :: mapList v a f ts

end

section Map

variable {V' A' F' : Type*} (v : V → V') (a : A → A') (f : F → F')

theorem mapList_eq_map (ts : List (Term V A F)) : mapList v a f ts = ts.map (map v a f) := by
  induction ts with
  | nil => rfl
  | cons t ts ih => rw [mapList, ih, map_cons]

@[simp] theorem map_var (i : V) : (Term.var i : Term V A F).map v a f = .var (v i) :=
  rfl

@[simp] theorem map_atom (s : A) : (Term.atom s : Term V A F).map v a f = .atom (a s) := rfl

@[simp] theorem map_apply (g : F) (args : List (Term V A F)) :
    (Term.apply g args).map v a f = .apply (f g) (args.map (map v a f)) := by
  rw [map, mapList_eq_map]

end Map

/-! ## Size -/

mutual

/-- The number of nodes of a term. -/
def size : Term V A F → ℕ
  | .var _ => 1
  | .atom _ => 1
  | .apply _ args => 1 + sizeSum args

/-- The number of nodes of a list of terms. -/
def sizeSum : List (Term V A F) → ℕ
  | [] => 0
  | t :: ts => size t + sizeSum ts

end

theorem sizeSum_eq (ts : List (Term V A F)) : sizeSum ts = (ts.map size).sum := by
  induction ts with
  | nil => rfl
  | cons t ts ih => rw [sizeSum, ih, map_cons, sum_cons]

@[simp] theorem size_var (i : V) : (Term.var i : Term V A F).size = 1 := rfl

@[simp] theorem size_atom (a : A) : (Term.atom a : Term V A F).size = 1 := rfl

@[simp] theorem size_apply (f : F) (args : List (Term V A F)) :
    (Term.apply f args).size = 1 + (args.map size).sum := by
  rw [size, sizeSum_eq]

variable {f : F} {args : List (Term V A F)}

/-- An argument is smaller than the application. -/
theorem size_lt_of_mem {t : Term V A F} (h : t ∈ args) :
    t.size < (Term.apply f args).size := by
  have hsum : t.size ≤ sizeSum args := by
    induction args with
    | nil => simp at h
    | cons u us ih =>
      rw [sizeSum]
      rcases mem_cons.1 h with rfl | h
      · omega
      · have hle := ih h
        omega
  rw [size]
  omega

@[simp] theorem size_map {V' A' F' : Type*} (v : V → V') (a : A → A') (f : F → F')
    (t : Term V A F) : (t.map v a f).size = t.size := by
  induction t with
  | var i => rfl
  | atom s => rfl
  | apply g args ih =>
    simp only [map_apply, size_apply, map_map]
    congr 2
    exact map_congr_left ih

/-! ## Variables -/

mutual

/-- The variables of a term, in the order of their occurrences. -/
def vars : Term V A F → List V
  | .var i => [i]
  | .atom _ => []
  | .apply _ args => varsList args

/-- The variables of a list of terms. -/
def varsList : List (Term V A F) → List V
  | [] => []
  | t :: ts => vars t ++ varsList ts

end

theorem mem_varsList {i : V} {ts : List (Term V A F)} :
    i ∈ varsList ts ↔ ∃ t ∈ ts, i ∈ t.vars := by
  induction ts with
  | nil => simp [varsList]
  | cons t ts ih => simp [varsList, ih]

@[simp] theorem vars_var (i : V) : (Term.var i : Term V A F).vars = [i] := rfl

@[simp] theorem vars_atom (a : A) : (Term.atom a : Term V A F).vars = [] := rfl

@[simp] theorem mem_vars_apply {i : V} :
    i ∈ (Term.apply f args).vars ↔ ∃ t ∈ args, i ∈ t.vars := mem_varsList

/-! ## Symbols -/

mutual

/-- The operators of a term, in the order of their occurrences. -/
def operators : Term V A F → List F
  | .var _ => []
  | .atom _ => []
  | .apply f args => f :: operatorsList args

/-- The operators of a list of terms. -/
def operatorsList : List (Term V A F) → List F
  | [] => []
  | t :: ts => operators t ++ operatorsList ts

end

mutual

/-- The atoms of a term, in the order of their occurrences. -/
def atoms : Term V A F → List A
  | .var _ => []
  | .atom a => [a]
  | .apply _ args => atomsList args

/-- The atoms of a list of terms. -/
def atomsList : List (Term V A F) → List A
  | [] => []
  | t :: ts => atoms t ++ atomsList ts

end

@[simp] theorem operators_var (i : V) : (Term.var i : Term V A F).operators = [] := rfl

@[simp] theorem operators_atom (a : A) : (Term.atom a : Term V A F).operators = [] := rfl

@[simp] theorem mem_operators_apply {g : F} :
    g ∈ (Term.apply f args).operators ↔ g = f ∨ ∃ t ∈ args, g ∈ t.operators := by
  have hlist : g ∈ operatorsList args ↔ ∃ t ∈ args, g ∈ t.operators := by
    induction args with
    | nil => simp [operatorsList]
    | cons t ts ih => simp [operatorsList, ih]
  rw [operators, mem_cons, hlist]

@[simp] theorem atoms_var (i : V) : (Term.var i : Term V A F).atoms = [] := rfl

@[simp] theorem atoms_atom (a : A) : (Term.atom a : Term V A F).atoms = [a] := rfl

@[simp] theorem mem_atoms_apply {a : A} :
    a ∈ (Term.apply f args).atoms ↔ ∃ t ∈ args, a ∈ t.atoms := by
  rw [atoms]
  induction args with
  | nil => simp [atomsList]
  | cons t ts ih => simp [atomsList, ih]

/-! ## Substitutions and variables -/

/-- A substitution acts through its values at the variables of the term. -/
theorem subst_congr {σ τ : V → Term W A F} {t : Term V A F} (h : ∀ i ∈ t.vars, σ i = τ i) :
    t.subst σ = t.subst τ := by
  induction t with
  | var i => exact h i (by simp)
  | atom a => rfl
  | apply f args ih =>
    simp only [subst_apply]
    congr 1
    exact map_congr_left fun t ht => ih t ht fun i hi => h i (mem_vars_apply.2 ⟨t, ht, hi⟩)

/-! ## Subterms -/

/-- `s` occurs in `t`, possibly as `t` itself. -/
inductive Subterm (s : Term V A F) : Term V A F → Prop
  | refl : Subterm s s
  | arg {f : F} {args : List (Term V A F)} {t : Term V A F} (ht : t ∈ args) (h : Subterm s t) :
    Subterm s (.apply f args)

namespace Subterm

variable {s : Term V A F}

@[simp] theorem var_iff {i : V} :
    Subterm s (.var i) ↔ s = .var i :=
  ⟨fun h => by cases h; rfl, fun h => h ▸ .refl⟩

@[simp] theorem atom_iff {a : A} : Subterm s (.atom a) ↔ s = .atom a :=
  ⟨fun h => by cases h; rfl, fun h => h ▸ .refl⟩

theorem apply_iff :
    Subterm s (.apply f args) ↔ s = .apply f args ∨ ∃ t ∈ args, Subterm s t := by
  constructor
  · rintro (_ | ⟨hmem, h⟩)
    · exact .inl rfl
    · exact .inr ⟨_, hmem, h⟩
  · rintro (rfl | ⟨t, hmem, h⟩)
    · exact .refl
    · exact .arg hmem h

theorem size_le {t : Term V A F} (h : Subterm s t) : s.size ≤ t.size := by
  induction h with
  | refl => exact le_refl _
  | arg hmem _ ih =>
    rename_i f args t _
    have hlt := size_lt_of_mem (f := f) hmem
    omega

end Subterm

/-! ## Signatures -/

/-- The atoms that are allowed, and the operators with their numbers of arguments. -/
structure Signature (A F : Type*) where
  atom : A → Prop
  op : F → ℕ → Prop

/-- The symbols of the term belong to the signature. -/
inductive Over (Q : Signature A F) : Term V A F → Prop
  | var (i : V) : Over Q (.var i)
  | atom {a : A} (h : Q.atom a) : Over Q (.atom a)
  | apply {f : F} {args : List (Term V A F)} (h : Q.op f args.length)
    (hargs : ∀ t ∈ args, Over Q t) : Over Q (.apply f args)

namespace Over

variable {Q : Signature A F}

theorem apply_iff :
    Over Q (.apply f args) ↔ Q.op f args.length ∧ ∀ t ∈ args, Over Q t :=
  ⟨fun h => by cases h with | apply h hargs => exact ⟨h, hargs⟩, fun h => .apply h.1 h.2⟩

theorem subst {σ : V → Term W A F} {t : Term V A F} (h : Over Q t)
    (hσ : ∀ i ∈ t.vars, Over Q (σ i)) : Over Q (t.subst σ) := by
  induction h with
  | var i => exact hσ i (by simp)
  | atom h => exact .atom h
  | apply h _ ih =>
    rw [subst_apply]
    refine .apply (by simpa using h) fun u hu => ?_
    obtain ⟨t, ht, rfl⟩ := mem_map.1 hu
    exact ih t ht fun i hi => hσ i (mem_vars_apply.2 ⟨t, ht, hi⟩)

theorem of_subst {σ : V → Term W A F} {t : Term V A F} (h : Over Q (t.subst σ)) :
    ∀ i ∈ t.vars, Over Q (σ i) := by
  induction t with
  | var i => simpa using h
  | atom a => simp
  | apply f args ih =>
    intro i hi
    obtain ⟨t, ht, hi⟩ := mem_vars_apply.1 hi
    rw [subst_apply, apply_iff] at h
    exact ih t ht (h.2 _ (mem_map_of_mem ht)) i hi

end Over

end Term

end BurnDragon.Equational
