import BurnDragon.Equational.Term

/-!
# Algebras, equational consequence and rewriting

The semantics of first-order equations. An `Algebra` interprets atoms and operators over a carrier;
an equation holds in it when both sides have the same value under every valuation of the variables.
`Rewrite E` is one rewrite step with the equations of `E`, used in either direction and at any
position. Rewriting is sound: two terms related by a chain of steps are equal in every algebra in
which the equations of `E` hold (`Rewrite.holds_of_reflTransGen`).
-/

namespace BurnDragon.Equational

open List

variable {V A F : Type*}

/-- An interpretation of the atoms and the operators over the carrier `D`. -/
structure Algebra (A F D : Type*) where
  atom : A → D
  op : F → List D → D

/-- An equation between two terms. -/
structure Equation (V A F : Type*) where
  lhs : Term V A F
  rhs : Term V A F

namespace Term

variable {D : Type*} (M : Algebra A F D) (ρ : V → D)

mutual

/-- The value of a term under the valuation `ρ`. -/
def eval : Term V A F → D
  | .var i => ρ i
  | .atom a => M.atom a
  | .apply f args => M.op f (evalList args)

/-- The values of a list of terms. -/
def evalList : List (Term V A F) → List D
  | [] => []
  | t :: ts => eval t :: evalList ts

end

theorem evalList_eq_map (ts : List (Term V A F)) : evalList M ρ ts = ts.map (eval M ρ) := by
  induction ts with
  | nil => rfl
  | cons t ts ih => rw [evalList, ih, map_cons]

@[simp] theorem eval_var (i : V) : (Term.var i : Term V A F).eval M ρ = ρ i := rfl

@[simp] theorem eval_atom (a : A) : (Term.atom a : Term V A F).eval M ρ = M.atom a := rfl

@[simp] theorem eval_apply (f : F) (args : List (Term V A F)) :
    (Term.apply f args).eval M ρ = M.op f (args.map (eval M ρ)) := by
  rw [eval, evalList_eq_map]

/-- **The substitution lemma**: the value of an instance is the value of the term under the
valuation of the instantiated variables. -/
theorem eval_subst {W : Type*} (σ : V → Term W A F) (t : Term V A F) (ρ : W → D) :
    (t.subst σ).eval M ρ = t.eval M fun i => (σ i).eval M ρ := by
  induction t with
  | var i => rfl
  | atom a => rfl
  | apply f args ih =>
    simp only [subst_apply, eval_apply, map_map]
    congr 1
    exact map_congr_left ih

end Term

namespace Equation

/-- The equation holds in `M` under every valuation. -/
def Holds {D : Type*} (M : Algebra A F D) (e : Equation V A F) : Prop :=
  ∀ ρ : V → D, e.lhs.eval M ρ = e.rhs.eval M ρ

end Equation

/-- One rewrite step with an equation of `E`, in either direction, at the root or inside an
argument. -/
inductive Rewrite (E : Set (Equation V A F)) : Term V A F → Term V A F → Prop
  | forward {e : Equation V A F} (he : e ∈ E) (σ : V → Term V A F) :
    Rewrite E (e.lhs.subst σ) (e.rhs.subst σ)
  | reverse {e : Equation V A F} (he : e ∈ E) (σ : V → Term V A F) :
    Rewrite E (e.rhs.subst σ) (e.lhs.subst σ)
  | arg {f : F} {args : List (Term V A F)} {i : ℕ} {s t : Term V A F} (hs : args[i]? = some s)
    (h : Rewrite E s t) : Rewrite E (.apply f args) (.apply f (args.set i t))

namespace Rewrite

variable {E E' : Set (Equation V A F)} {s t : Term V A F}

/-- A rewrite step preserves the value in every algebra in which the equations hold. -/
theorem eval_eq {D : Type*} {M : Algebra A F D} (hE : ∀ e ∈ E, e.Holds M) (h : Rewrite E s t)
    (ρ : V → D) : s.eval M ρ = t.eval M ρ := by
  induction h with
  | forward he σ =>
    rw [Term.eval_subst, Term.eval_subst]
    exact hE _ he _
  | reverse he σ =>
    rw [Term.eval_subst, Term.eval_subst]
    exact (hE _ he _).symm
  | arg hs _ ih =>
    simp only [Term.eval_apply, map_set, ← ih]
    congr 1
    refine ext_getElem? fun j => ?_
    rw [getElem?_set]
    split_ifs with hj hlen
    · subst hj
      rw [getElem?_map, hs, Option.map_some]
    · subst hj
      rw [getElem?_eq_none (by simpa using hlen)]
    · rfl

/-- **Rewriting is sound**: the ends of a chain of rewrite steps are equal in every algebra in which
the equations hold. -/
theorem holds_of_reflTransGen {D : Type*} {M : Algebra A F D} (hE : ∀ e ∈ E, e.Holds M)
    (h : Relation.ReflTransGen (Rewrite E) s t) : (⟨s, t⟩ : Equation V A F).Holds M := by
  intro ρ
  induction h with
  | refl => rfl
  | tail _ hstep ih => exact ih.trans (hstep.eval_eq hE ρ)

end Rewrite

end BurnDragon.Equational
