import BurnDragon.Ruliad.Replay

/-!
# Matching and rewriting at a path

* Matching started with nothing bound succeeds exactly on the instances of the pattern, and its
  result is the only substitution on the variables of the pattern by which the value is an instance
  (`matchTerm_most_general`).
* A rewrite at a path changes the subterm there and nothing else; when the sides of the rule have the
  same variables, the opposite direction takes the result back (`rewriteAtPath_local_reversible`).
-/

namespace BurnDragon.Ruliad

open Equational Rust RuliadTerm

/-! ## Matching -/

namespace Substitution

/-- The variables that are bound are those of the pattern. -/
def DefinedOn (substitution : Substitution) (pattern : RuliadTerm) : Prop :=
  ∀ i, (substitution i).isSome ↔ i ∈ RuliadTerm.variableSet pattern

/-- The second substitution has all bindings of the first. -/
def Extends (substitution extension : Substitution) : Prop :=
  ∀ i t, substitution i = some t → extension i = some t

variable {σ τ : Substitution} {p v : RuliadTerm}

/-- Two substitutions that make the same value of a pattern agree on its variables. -/
theorem eq_of_instantiate (hσ : instantiate σ p = some v) (hτ : instantiate τ p = some v) :
    ∀ i ∈ p.vars, σ i = τ i := by
  obtain ⟨hσs, hσ⟩ := (instantiate_eq_some_iff σ p v).1 hσ
  obtain ⟨hτs, hτ⟩ := (instantiate_eq_some_iff τ p v).1 hτ
  intro i hi
  have htotal := Term.eq_of_subst_eq (hσ.trans hτ.symm) i hi
  obtain ⟨s, hs⟩ := Option.isSome_iff_exists.1 (hσs i hi)
  obtain ⟨t, ht⟩ := Option.isSome_iff_exists.1 (hτs i hi)
  simp only [total, hs, ht, Option.getD_some] at htotal
  rw [hs, ht, htotal]

theorem DefinedOn.extends (hσp : σ.DefinedOn p) (hσ : instantiate σ p = some v)
    (hτ : instantiate τ p = some v) : σ.Extends τ := by
  intro i t ht
  have hi : i ∈ p.vars := mem_variableSet.1 ((hσp i).1 (by simp [ht]))
  rw [← eq_of_instantiate hσ hτ i hi, ht]

theorem DefinedOn.unique (hσp : σ.DefinedOn p) (hτp : τ.DefinedOn p)
    (hσ : instantiate σ p = some v) (hτ : instantiate τ p = some v) : σ = τ := by
  funext i
  by_cases hi : i ∈ variableSet p
  · exact eq_of_instantiate hσ hτ i (mem_variableSet.1 hi)
  · have hnone : ∀ {ρ : Substitution}, ρ.DefinedOn p → ρ i = none := fun hρ =>
      Option.not_isSome_iff_eq_none.1 (mt (hρ i).1 hi)
    rw [hnone hσp, hnone hτp]

end Substitution

/-- What a successful match returns. -/
theorem matchTerm_empty_spec {p v : RuliadTerm} {τ : Substitution}
    (h : matchTerm p v Map.empty = some τ) : τ.DefinedOn p ∧ instantiate τ p = some v := by
  obtain ⟨θ, hθ, rfl⟩ := matchTerm_empty_eq_some_iff.1 h
  refine ⟨fun i => ?_, (instantiate_bind p.vars θ p v).2 ⟨fun _ hi => hi, hθ⟩⟩
  rw [Substitution.isSome_bind_empty, mem_variableSet]

/-- **Matching is sound, complete and most general**: it succeeds exactly when some substitution makes
the value of the pattern. The result binds the variables of the pattern, makes the value of it, is
the only such substitution, and every substitution that makes the value extends it. -/
theorem matchTerm_most_general (pattern value : RuliadTerm) :
    ((∃ τ, matchTerm pattern value Map.empty = some τ) ↔
      ∃ σ, instantiate σ pattern = some value) ∧
    ((∃ τ, matchTerm pattern value Map.empty = some τ) ↔
      ∃ θ : ℕ → RuliadTerm, pattern.subst θ = value) ∧
    ∀ τ, matchTerm pattern value Map.empty = some τ →
      τ.DefinedOn pattern ∧ instantiate τ pattern = some value ∧
      (∀ σ : Substitution, σ.DefinedOn pattern → instantiate σ pattern = some value → σ = τ) ∧
      ∀ σ : Substitution, instantiate σ pattern = some value → τ.Extends σ := by
  have hsubst : (∃ τ, matchTerm pattern value Map.empty = some τ) ↔
      ∃ θ : ℕ → RuliadTerm, pattern.subst θ = value := by
    constructor
    · rintro ⟨τ, h⟩
      obtain ⟨θ, hθ, -⟩ := matchTerm_empty_eq_some_iff.1 h
      exact ⟨θ, hθ⟩
    · rintro ⟨θ, hθ⟩
      exact ⟨_, matchTerm_empty_eq_some_iff.2 ⟨θ, hθ, rfl⟩⟩
  refine ⟨⟨?_, ?_⟩, hsubst, fun τ h => ?_⟩
  · rintro ⟨τ, h⟩
    exact ⟨τ, (matchTerm_empty_spec h).2⟩
  · rintro ⟨σ, h⟩
    exact hsubst.2 ⟨σ.total, ((instantiate_eq_some_iff σ pattern value).1 h).2⟩
  · obtain ⟨hτ, hvalue⟩ := matchTerm_empty_spec h
    exact ⟨hτ, hvalue, fun σ hσ h => hσ.unique hτ h hvalue, fun σ h => hτ.extends hvalue h⟩

/-- A repeated variable must match equal terms, and the value may contain the same variable. -/
example : (matchTerm (.apply "f" [.var 0, .var 0]) (.apply "f" [.var 0, .var 1])
    Map.empty).isNone := by decide

example : (matchTerm (.apply "f" [.var 0, .var 0]) (.apply "f" [.var 1, .var 1])
    Map.empty).isSome := by decide

/-! ## Rewriting -/

theorem RuliadTerm.atPath_eq (t : RuliadTerm) (path : List ℕ) :
    atPath t path = t.subtermAt path := by
  induction path generalizing t with
  | nil => rw [atPath.eq_1, Term.subtermAt_nil]
  | cons i path ih =>
    cases t using Term.ind with
    | var j => rfl
    | atom a => rfl
    | apply f args =>
      rw [atPath, Term.subtermAt_apply_cons]
      cases args[i]? with
      | none => rfl
      | some arg => exact ih arg

/-- The other direction. -/
def RuliadRewriteDirection.opposite : RuliadRewriteDirection → RuliadRewriteDirection
  | forward => reverse
  | reverse => forward

theorem RuliadEquality.oriented_opposite (equality : RuliadEquality)
    (direction : RuliadRewriteDirection) :
    equality.oriented direction.opposite = (equality.oriented direction).swap := by
  cases direction <;> rfl

/-- The two sides have the same variables. -/
def RuliadEquality.SameVariables (equality : RuliadEquality) : Prop :=
  ∀ i, i ∈ RuliadTerm.variableSet equality.lhs ↔ i ∈ RuliadTerm.variableSet equality.rhs

theorem RuliadEquality.SameVariables.oriented {equality : RuliadEquality}
    (h : equality.SameVariables) (direction : RuliadRewriteDirection) :
    ∀ i ∈ (equality.oriented direction).1.vars, i ∈ (equality.oriented direction).2.vars := by
  intro i
  have hi := h i
  simp only [mem_variableSet] at hi
  cases direction
  · exact hi.1
  · exact hi.2

/-- The kernel's step is a rewrite with the equation that its source stands for, by a path within the
limit. -/
theorem applyStep_of_source {problem : RuliadProofProblem} {goalIndex : ℕ} {goal : RuliadProofGoal}
    {axioms : Map String RuliadRewriteAxiom} {limits : RuliadKernelLimits} {s : RuliadTerm}
    {step : RuliadProofStep} {equality : RuliadEquality}
    (hpath : step.path.length ≤ limits.maximumPathDepth)
    (hsource : sourceEquality problem goalIndex goal axioms step.source = .ok equality) :
    applyStep problem goalIndex goal axioms limits s step =
      rewriteAtPath (equality.oriented step.direction).1 (equality.oriented step.direction).2
        step.path s := by
  rw [applyStep, if_neg (not_lt.2 hpath), hsource]
  cases step.direction <;> rfl

/-- A step succeeds only by a path within the limit. -/
theorem path_length_le_of_applyStep {problem : RuliadProofProblem} {goalIndex : ℕ}
    {goal : RuliadProofGoal} {axioms : Map String RuliadRewriteAxiom} {limits : RuliadKernelLimits}
    {s t : RuliadTerm} {step : RuliadProofStep}
    (h : applyStep problem goalIndex goal axioms limits s step = .ok t) :
    step.path.length ≤ limits.maximumPathDepth := by
  simp only [applyStep, throw_bind, ite_error_eq_ok, not_lt] at h
  exact h.1

/-- **Rewriting is local and reversible**: a rewrite at a path has a subterm there before and after,
the positions that are not at or below the path keep their symbols and the number of their arguments,
and those beside the path keep their subterms. When the sides of the rule have the same variables,
the opposite direction at the same path restores the term; so does the kernel's opposite step. -/
theorem rewriteAtPath_local_reversible (equality : RuliadEquality)
    (direction : RuliadRewriteDirection) (path : List ℕ) (s t : RuliadTerm)
    (h : rewriteAtPath (equality.oriented direction).1 (equality.oriented direction).2 path s =
      .ok t) :
    (∃ u, RuliadTerm.atPath s path = some u) ∧ (∃ v, RuliadTerm.atPath t path = some v) ∧
    (∀ q, ¬ path <+: q →
      (RuliadTerm.atPath t q).map Term.label = (RuliadTerm.atPath s q).map Term.label) ∧
    (∀ q, ¬ path <+: q → ¬ q <+: path → RuliadTerm.atPath t q = RuliadTerm.atPath s q) ∧
    (equality.SameVariables →
      rewriteAtPath (equality.oriented direction.opposite).1
        (equality.oriented direction.opposite).2 path t = .ok s ∧
      ∀ (problem : RuliadProofProblem) (goalIndex : ℕ) (goal : RuliadProofGoal)
        (axioms : Map String RuliadRewriteAxiom) (limits : RuliadKernelLimits)
        (source : RuliadProofSource),
        sourceEquality problem goalIndex goal axioms source = .ok equality →
        applyStep problem goalIndex goal axioms limits s ⟨source, path, direction⟩ = .ok t →
        applyStep problem goalIndex goal axioms limits t ⟨source, path, direction.opposite⟩ =
          .ok s) := by
  have hat := rewriteAtPath_eq_ok_iff.1 h
  simp only [RuliadTerm.atPath_eq]
  obtain ⟨u, v, hu, hv, -⟩ := hat.exists_subtermAt
  refine ⟨⟨u, hu⟩, ⟨v, hv⟩, fun q hq => hat.label_eq hq, fun q hq hq' => hat.subtermAt_eq hq hq',
    fun hvars => ?_⟩
  have hback : rewriteAtPath (equality.oriented direction.opposite).1
      (equality.oriented direction.opposite).2 path t = .ok s := by
    rw [RuliadEquality.oriented_opposite]
    exact rewriteAtPath_eq_ok_iff.2
      (hat.converse fun _ _ hinst => hinst.symm (hvars.oriented direction))
  refine ⟨hback, fun problem goalIndex goal axioms limits source hsource hstep => ?_⟩
  have hpath : path.length ≤ limits.maximumPathDepth := path_length_le_of_applyStep hstep
  rw [← hback]
  exact @applyStep_of_source problem goalIndex goal axioms limits t
    ⟨source, path, direction.opposite⟩ equality hpath hsource

/-- The left unit law, used and taken back inside a pair. -/
def leftIdentity : RuliadEquality := ⟨.apply "compose" [.atom "id", .var 0], .var 0⟩

theorem rewriteAtPath_local_reversible_leftIdentity :
    rewriteAtPath (.var 0) (.apply "compose" [.atom "id", .var 0]) [0]
      (.apply "pair" [.atom "a", .atom "b"]) =
      .ok (.apply "pair" [.apply "compose" [.atom "id", .atom "a"], .atom "b"]) := by
  have h := rewriteAtPath_local_reversible leftIdentity .forward [0]
    (.apply "pair" [.apply "compose" [.atom "id", .atom "a"], .atom "b"])
    (.apply "pair" [.atom "a", .atom "b"]) rfl
  exact (h.2.2.2.2 fun _ => Iff.rfl).1

end BurnDragon.Ruliad
