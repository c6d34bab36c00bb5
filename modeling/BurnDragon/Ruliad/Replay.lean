import BurnDragon.Equational.Position
import BurnDragon.Ruliad.Validation

/-!
# What replay computes

The functions of the kernel against the rewriting library. Matching with an empty substitution finds
the substitution by which the value is an instance of the pattern, so rewriting at a path is
`At (Instance ..) path` (`rewriteAtPath_eq_ok_iff`), and one step and the steps of one goal are the
relations `Applies` and `Replays`.

`accepts_iff` says what acceptance is: the problem is valid, the certificate carries its version and
hash and respects the limits, its goals are the required goals in order, and the steps of each lead
from the left to the right side of its claim (`Proves`).
-/

namespace BurnDragon.Ruliad

open Equational Rust List

/-! ## Matching -/

variable {σ : Substitution}

namespace Substitution

/-- The bindings with `θ i` for every `i` of `indices`. -/
def bind (substitution : Substitution) (indices : List ℕ) (θ : ℕ → RuliadTerm) : Substitution :=
  fun i => if i ∈ indices then some (θ i) else substitution i

/-- The bindings do not contradict `θ` at `indices`. -/
def Agrees (substitution : Substitution) (indices : List ℕ) (θ : ℕ → RuliadTerm) : Prop :=
  ∀ i ∈ indices, ∀ t, substitution i = some t → t = θ i

variable {is js : List ℕ} {θ θ' : ℕ → RuliadTerm}

@[simp] theorem bind_nil : σ.bind [] θ = σ := by
  funext i
  simp [bind]

theorem bind_bind (h : ∀ i ∈ is, i ∈ js → θ i = θ' i) :
    (σ.bind is θ).bind js θ' = σ.bind (is ++ js) fun i => if i ∈ is then θ i else θ' i := by
  funext i
  by_cases hi : i ∈ is
  · by_cases hj : i ∈ js <;> simp [bind, hi, hj]
    exact (h i hi hj).symm
  · by_cases hj : i ∈ js <;> simp [bind, hi, hj]

theorem agrees_append : σ.Agrees (is ++ js) θ ↔ σ.Agrees is θ ∧ σ.Agrees js θ := by
  simp only [Agrees, mem_append, or_imp, forall_and]

/-- The bindings as a substitution for every variable: the others stay. -/
def total (substitution : Substitution) : ℕ → RuliadTerm := fun i => (substitution i).getD (.var i)

theorem isSome_bind_empty {i : ℕ} : (bind Map.empty is θ i).isSome ↔ i ∈ is := by
  by_cases hi : i ∈ is <;> simp [bind, hi]

theorem total_bind_empty {i : ℕ} (hi : i ∈ is) : (bind Map.empty is θ).total i = θ i := by
  simp [total, bind, hi]

/-- After binding `is`, agreement says that the new values agree too. -/
theorem agrees_bind : (σ.bind is θ).Agrees js θ' ↔
    (∀ i ∈ is, i ∈ js → θ i = θ' i) ∧ ∀ i ∈ js, i ∉ is → ∀ t, σ i = some t → t = θ' i := by
  constructor
  · refine fun h => ⟨fun i hi hj => h i hj _ (by simp [bind, hi]), fun i hj hi t ht => ?_⟩
    exact h i hj t (by simp [bind, hi, ht])
  · rintro ⟨h₁, h₂⟩ i hj t ht
    by_cases hi : i ∈ is
    · simp only [bind, if_pos hi, Option.some.injEq] at ht
      exact ht ▸ h₁ i hi hj
    · exact h₂ i hj hi t (by simpa [bind, hi] using ht)

end Substitution

variable {t : RuliadTerm}

section Matching

variable {p v : RuliadTerm} {ps vs : List RuliadTerm} {τ : Substitution}

/-- What matching the pattern `p` computes: the substitution that turns it into the value, if the
bindings so far agree with it. -/
def MatchSpec (p : RuliadTerm) : Prop :=
  ∀ {v : RuliadTerm} {σ τ : Substitution}, matchTerm p v σ = some τ ↔
    ∃ θ, p.subst θ = v ∧ σ.Agrees p.vars θ ∧ τ = σ.bind p.vars θ

theorem matchTerms_eq_some_iff_of (h : ∀ p ∈ ps, MatchSpec p) (hlen : ps.length = vs.length) :
    matchTerms ps vs σ = some τ ↔ ∃ θ, ps.map (Term.subst θ) = vs ∧
      σ.Agrees (Term.varsList ps) θ ∧ τ = σ.bind (Term.varsList ps) θ := by
  induction ps generalizing vs σ with
  | nil =>
    obtain rfl : vs = [] := eq_nil_of_length_eq_zero hlen.symm
    simp only [matchTerms, Term.varsList, Substitution.bind_nil, Option.some.injEq]
    constructor
    · rintro rfl
      exact ⟨Term.var, rfl, by simp [Substitution.Agrees], rfl⟩
    · rintro ⟨_, _, _, rfl⟩
      rfl
  | cons p ps ih =>
    obtain _ | ⟨v, vs⟩ := vs
    · simp at hlen
    have ih := fun {σ} => @ih σ vs
    have hcons : matchTerms (p :: ps) (v :: vs) σ = some τ ↔
        ∃ ρ, matchTerm p v σ = some ρ ∧ matchTerms ps vs ρ = some τ := by
      rw [matchTerms]
      cases matchTerm p v σ <;> simp
    simp only [hcons, h p (by simp), Term.varsList,
      ih (fun q hq => h q (by simp [hq])) (by simpa using hlen)]
    constructor
    · rintro ⟨_, ⟨θ, hv, hagree, rfl⟩, θ', hvs, hagree', rfl⟩
      -- the two substitutions agree where both patterns have a variable, so they glue together
      obtain ⟨hshared, hrest⟩ := Substitution.agrees_bind.1 hagree'
      refine ⟨fun i => if i ∈ p.vars then θ i else θ' i, ?_, ?_, Substitution.bind_bind hshared⟩
      · rw [map_cons, ← hv, ← hvs]
        congr 1
        · exact Term.subst_congr fun i hi => if_pos hi
        · refine map_congr_left fun q hq => Term.subst_congr fun i hi => ?_
          split_ifs with hip
          · exact hshared i hip (Term.mem_varsList.2 ⟨q, hq, hi⟩)
          · rfl
      · intro i hi t ht
        by_cases hip : i ∈ p.vars
        · simpa [hip] using hagree i hip t ht
        · simpa [hip] using hrest i ((mem_append.1 hi).resolve_left hip) hip t ht
    · rintro ⟨θ, hvs, hagree, rfl⟩
      obtain ⟨rfl, rfl⟩ : p.subst θ = v ∧ ps.map (Term.subst θ) = vs := by simpa using hvs
      obtain ⟨h₁, h₂⟩ := Substitution.agrees_append.1 hagree
      refine ⟨_, ⟨θ, rfl, h₁, rfl⟩, θ, rfl, Substitution.agrees_bind.2
        ⟨fun _ _ _ => rfl, fun i hi _ => h₂ i hi⟩, ?_⟩
      rw [Substitution.bind_bind fun _ _ _ => rfl]
      simp

theorem matchTerm_eq_some_iff : MatchSpec p := by
  induction p using Term.ind with
  | var i =>
    intro v σ τ
    have hbind : ∀ θ : ℕ → RuliadTerm, σ.bind [i] θ = Map.insert σ i (θ i) := by
      intro θ
      funext j
      by_cases hj : j = i
      · subst hj
        simp [Substitution.bind]
      · simp [Substitution.bind, Map.insert_of_ne, hj]
    simp only [matchTerm, Term.subst_var, Term.vars_var, hbind]
    cases hi : σ i with
    | none =>
      simp only [Option.some.injEq]
      constructor
      · rintro rfl
        exact ⟨fun _ => v, rfl, by simp [Substitution.Agrees, hi], rfl⟩
      · rintro ⟨θ, rfl, -, rfl⟩
        rfl
    | some bound =>
      have hself : Map.insert σ i bound = σ := by
        rw [Map.insert, ← hi]
        exact Function.update_eq_self i σ
      simp only [Option.ite_none_right_eq_some, Option.some.injEq]
      constructor
      · rintro ⟨rfl, rfl⟩
        exact ⟨fun _ => bound, rfl, by simp [Substitution.Agrees, hi], hself.symm⟩
      · rintro ⟨θ, rfl, hagree, rfl⟩
        obtain rfl : bound = θ i := hagree i (by simp) bound hi
        exact ⟨rfl, hself.symm⟩
  | atom a =>
    intro v σ τ
    have hnil : ∀ θ : ℕ → RuliadTerm, σ.Agrees [] θ := by simp [Substitution.Agrees]
    cases v using Term.ind with
    | var i => simp [matchTerm]
    | atom b =>
      simp only [matchTerm, Term.subst_atom, Term.vars_atom, Substitution.bind_nil, hnil,
        Term.atom.injEq, Option.ite_none_right_eq_some, Option.some.injEq]
      constructor
      · rintro ⟨hab, rfl⟩
        exact ⟨Term.var, hab, trivial, rfl⟩
      · rintro ⟨_, hab, -, rfl⟩
        exact ⟨hab, rfl⟩
    | apply g vs => simp [matchTerm]
  | apply f args ih =>
    intro v σ τ
    cases v using Term.ind with
    | var i => simp [matchTerm]
    | atom a => simp [matchTerm]
    | apply g vs =>
      have hvars : (Term.apply f args : RuliadTerm).vars = Term.varsList args := rfl
      simp only [matchTerm, Term.subst_apply, Term.apply.injEq, hvars,
        Option.ite_none_right_eq_some]
      constructor
      · rintro ⟨⟨hfg, hlen⟩, hmatch⟩
        obtain ⟨θ, hvs, h⟩ := (matchTerms_eq_some_iff_of ih hlen).1 hmatch
        exact ⟨θ, ⟨hfg, hvs⟩, h⟩
      · rintro ⟨θ, ⟨hfg, rfl⟩, h⟩
        have hlen : args.length = (args.map (Term.subst θ)).length := by simp
        exact ⟨⟨hfg, hlen⟩, (matchTerms_eq_some_iff_of ih hlen).2 ⟨θ, rfl, h⟩⟩

/-- Matching with nothing bound yet. -/
theorem matchTerm_empty_eq_some_iff :
    matchTerm p v Map.empty = some τ ↔
      ∃ θ, p.subst θ = v ∧ τ = Substitution.bind Map.empty p.vars θ := by
  rw [matchTerm_eq_some_iff]
  simp [Substitution.Agrees]

/-- Instantiating fails exactly when a variable is not bound. -/
theorem instantiate_eq_some_iff (σ : Substitution) (t u : RuliadTerm) :
    instantiate σ t = some u ↔ (∀ i ∈ t.vars, (σ i).isSome) ∧ t.subst σ.total = u := by
  have hlist : ∀ {ts us : List RuliadTerm}, (∀ t ∈ ts, ∀ u, instantiate σ t = some u ↔
        (∀ i ∈ t.vars, (σ i).isSome) ∧ t.subst σ.total = u) →
      (instantiateList σ ts = some us ↔
        (∀ i ∈ Term.varsList ts, (σ i).isSome) ∧ ts.map (Term.subst σ.total) = us) := by
    intro ts
    induction ts with
    | nil => simp [instantiateList, Term.varsList]
    | cons t ts ihts =>
      intro us h
      have hcons : instantiateList σ (t :: ts) = some us ↔
          ∃ u us', instantiate σ t = some u ∧ instantiateList σ ts = some us' ∧
            u :: us' = us := by
        rw [instantiateList]
        cases instantiate σ t <;> cases instantiateList σ ts <;> simp
      simp only [hcons, h t (by simp), ihts fun t ht => h t (by simp [ht]), Term.varsList,
        mem_append, or_imp, forall_and, map_cons]
      grind
  induction t using Term.ind generalizing u with
  | var i => cases hi : σ i <;> simp [instantiate, Substitution.total, hi]
  | atom a => simp [instantiate]
  | apply f args ih =>
    have hvars : (Term.apply f args : RuliadTerm).vars = Term.varsList args := rfl
    simp only [instantiate, Option.map_eq_some_iff, hlist ih, hvars, Term.subst_apply]
    grind

theorem instantiate_bind (is : List ℕ) (θ : ℕ → RuliadTerm) (t u : RuliadTerm) :
    instantiate (Substitution.bind Map.empty is θ) t = some u ↔
      (∀ i ∈ t.vars, i ∈ is) ∧ t.subst θ = u := by
  simp only [instantiate_eq_some_iff, Substitution.isSome_bind_empty]
  refine and_congr_right fun hvars => ?_
  rw [Term.subst_congr fun i hi => Substitution.total_bind_empty (hvars i hi)]

end Matching

/-! ## Steps -/

/-- The failures of the computation satisfy `P`. -/
def FailsOnly {α : Type} (P : RuliadKernelFailure → Prop) (x : Kernel α) : Prop :=
  ∀ failure, x = .error failure → P failure

section FailsOnly

variable {α β : Type} {P : RuliadKernelFailure → Prop} {x y : Kernel α}

theorem FailsOnly.error {failure : RuliadKernelFailure} (h : P failure) :
    FailsOnly P (.error failure : Kernel α) := fun _ heq => Except.error.inj heq ▸ h

theorem FailsOnly.ok (a : α) : FailsOnly P (.ok a : Kernel α) := nofun

theorem FailsOnly.bind {f : α → Kernel β} (hx : FailsOnly P x) (hf : ∀ a, FailsOnly P (f a)) :
    FailsOnly P (x >>= f) := by
  cases x with
  | error failure => exact .error (hx failure rfl)
  | ok a => exact hf a

theorem failsOnly_ite {c : Prop} [Decidable c] (hx : FailsOnly P x) (hy : FailsOnly P y) :
    FailsOnly P (if c then x else y) := by
  split_ifs
  · exact hx
  · exact hy

end FailsOnly

/-- Rewriting at a path applies the rule to the subterm there. -/
theorem rewriteAtPath_eq_ok_iff {pattern replacement : RuliadTerm} {path : List ℕ}
    {s : RuliadTerm} :
    rewriteAtPath pattern replacement path s = .ok t ↔
      At (Instance pattern replacement) path s t := by
  induction path generalizing s t with
  | nil =>
    rw [At.nil_iff, rewriteAtPath.eq_3]
    cases hmatch : matchTerm pattern s Map.empty with
    | none =>
      refine ⟨nofun, ?_⟩
      rintro ⟨θ, hθ, -⟩
      have := matchTerm_empty_eq_some_iff.2 ⟨θ, hθ, rfl⟩
      simp [hmatch] at this
    | some τ =>
      obtain ⟨θ, hθ, rfl⟩ := matchTerm_empty_eq_some_iff.1 hmatch
      have hinst := instantiate_bind pattern.vars θ replacement
      simp only
      cases hi : instantiate (Substitution.bind Map.empty pattern.vars θ) replacement with
      | none =>
        refine ⟨nofun, ?_⟩
        rintro ⟨θ', -, -, hvars⟩
        have := (hinst _).2 ⟨hvars, rfl⟩
        simp [hi] at this
      | some u =>
        obtain ⟨hvars, hu⟩ := (hinst u).1 hi
        have hinstance : Instance pattern replacement s u := ⟨θ, hθ, hu, hvars⟩
        simp only [Except.ok.injEq]
        exact ⟨fun h => h ▸ hinstance, fun h => hinstance.unique h⟩
  | cons i path ih =>
    cases s using Term.ind with
    | var j => exact ⟨nofun, nofun⟩
    | atom a => exact ⟨nofun, nofun⟩
    | apply f args _ =>
      rw [rewriteAtPath]
      cases hget : args[i]? with
      | none =>
        refine ⟨nofun, ?_⟩
        rintro (_ | ⟨hs, -⟩)
        simp [hget] at hs
      | some s =>
        simp only [bind_eq_ok, ih, pure, Except.pure, Except.ok.injEq]
        constructor
        · rintro ⟨u, hu, rfl⟩
          exact .arg hget hu
        · rintro (_ | ⟨hs, h⟩)
          obtain rfl := Option.some.inj (hget.symm.trans hs)
          exact ⟨_, h, rfl⟩

/-- The claim that a step's source stands for. -/
def sourceClaim (problem : RuliadProofProblem) (goal : RuliadProofGoal) :
    RuliadProofSource → Option RuliadEquality
  | .axiom_ id => (problem.axioms.find? fun rule => rule.id = id).map fun rule => ⟨rule.lhs, rule.rhs⟩
  | .lemma_ dependency =>
    if dependency ∈ goal.dependencies then
      (problem.goals[dependency]?).map fun goal => goal.claim
    else
      none

/-- The sides of an equality in the order in which a direction rewrites them. -/
def RuliadEquality.oriented (equality : RuliadEquality) :
    RuliadRewriteDirection → RuliadTerm × RuliadTerm
  | .forward => (equality.lhs, equality.rhs)
  | .reverse => (equality.rhs, equality.lhs)

/-- The step takes `s` to `t` in the proof of the goal. -/
def Applies (problem : RuliadProofProblem) (goal : RuliadProofGoal) (step : RuliadProofStep)
    (s t : RuliadTerm) : Prop :=
  ∃ equality, sourceClaim problem goal step.source = some equality ∧
    At (Instance (equality.oriented step.direction).1 (equality.oriented step.direction).2)
      step.path s t

/-- The steps take `s` to `t` in the proof of the goal. -/
def Replays (problem : RuliadProofProblem) (goal : RuliadProofGoal) :
    List RuliadProofStep → RuliadTerm → RuliadTerm → Prop
  | [], s, t => s = t
  | step :: steps, s, t => ∃ u, Applies problem goal step s u ∧ Replays problem goal steps u t

variable {problem : RuliadProofProblem} {limits : RuliadKernelLimits} {step : RuliadProofStep}
  {steps : List RuliadProofStep} {s : RuliadTerm}

section Steps

variable {goal : RuliadProofGoal} {steps' : List RuliadProofStep} {u : RuliadTerm}

theorem replays_append :
    Replays problem goal (steps ++ steps') s t ↔
      ∃ u, Replays problem goal steps s u ∧ Replays problem goal steps' u t := by
  induction steps generalizing s with
  | nil => simp [Replays]
  | cons step steps ih =>
    simp only [cons_append, Replays, ih]
    grind

section

variable (hnodup : (problem.axioms.map (·.id)).Nodup)
include hnodup

/-- With distinct axiom ids, the map of the axioms finds the axiom of an id. -/
theorem axiomMap_eq_find? (id : String) :
    axiomMap problem id = problem.axioms.find? fun rule => rule.id = id := by
  rw [axiomMap, Map.ofList, foldl_map, Map.foldl_insert_apply hnodup]
  simp

theorem sourceEquality_eq_ok_iff {goalIndex : ℕ} {source : RuliadProofSource}
    {equality : RuliadEquality} :
    sourceEquality problem goalIndex goal (axiomMap problem) source = .ok equality ↔
      sourceClaim problem goal source = some equality := by
  cases source with
  | axiom_ id =>
    rw [sourceEquality, sourceClaim, axiomMap_eq_find? hnodup]
    cases problem.axioms.find? fun rule => rule.id = id <;> simp
  | lemma_ dependency =>
    rw [sourceEquality, sourceClaim]
    by_cases hdep : dependency ∈ goal.dependencies
    · cases problem.goals[dependency]? <;> simp [hdep]
    · simp [hdep]

/-- The kernel applies a step exactly when the path is within its limit and the step applies. -/
theorem applyStep_eq_ok_iff {goalIndex : ℕ} :
    applyStep problem goalIndex goal (axiomMap problem) limits s step = .ok t ↔
      step.path.length ≤ limits.maximumPathDepth ∧ Applies problem goal step s t := by
  simp only [applyStep, throw_bind, ite_error_eq_ok, bind_eq_ok, not_lt,
    sourceEquality_eq_ok_iff hnodup, Applies]
  refine and_congr_right fun _ => exists_congr fun equality => and_congr_right fun _ => ?_
  cases step.direction <;> exact rewriteAtPath_eq_ok_iff

/-- The kernel replays the steps of a goal exactly when the paths are within the limit and the steps
lead to the term. -/
theorem replaySteps_eq_ok_iff (goalIndex stepIndex : ℕ) :
    replaySteps problem goalIndex goal (axiomMap problem) limits stepIndex s steps = .ok t ↔
      (∀ step ∈ steps, step.path.length ≤ limits.maximumPathDepth) ∧
        Replays problem goal steps s t := by
  induction steps generalizing s stepIndex with
  | nil => simp [replaySteps, Replays]
  | cons step steps ih =>
    have hcons : replaySteps problem goalIndex goal (axiomMap problem) limits stepIndex s
        (step :: steps) = .ok t ↔
        ∃ u, applyStep problem goalIndex goal (axiomMap problem) limits s step = .ok u ∧
          replaySteps problem goalIndex goal (axiomMap problem) limits (stepIndex + 1) u steps =
            .ok t := by
      rw [replaySteps]
      cases applyStep problem goalIndex goal (axiomMap problem) limits s step <;> simp
    simp only [hcons, applyStep_eq_ok_iff hnodup, ih, forall_mem_cons, Replays]
    grind

end

/-- The number of steps that the kernel can apply one after the other from `s`. -/
def stepsApplied (problem : RuliadProofProblem) (goalIndex : ℕ) (goal : RuliadProofGoal)
    (limits : RuliadKernelLimits) (s : RuliadTerm) : List RuliadProofStep → ℕ
  | [] => 0
  | step :: steps =>
    match applyStep problem goalIndex goal (axiomMap problem) limits s step with
    | .ok t => stepsApplied problem goalIndex goal limits t steps + 1
    | .error _ => 0

/-- The number of steps that a replay reports is the number of steps applied. -/
theorem stepsApplied_of_replaySteps (problem : RuliadProofProblem) (goalIndex : ℕ)
    (goal : RuliadProofGoal) (limits : RuliadKernelLimits) (stepIndex : ℕ) (s : RuliadTerm)
    (steps : List RuliadProofStep) :
    (∀ t, replaySteps problem goalIndex goal (axiomMap problem) limits stepIndex s steps = .ok t →
      stepsApplied problem goalIndex goal limits s steps = steps.length) ∧
    ∀ failure n, replaySteps problem goalIndex goal (axiomMap problem) limits stepIndex s steps =
      .error (failure, n) → n = stepIndex + stepsApplied problem goalIndex goal limits s steps := by
  induction steps generalizing s stepIndex with
  | nil => simp [replaySteps, stepsApplied]
  | cons step steps ih =>
    rw [replaySteps, stepsApplied]
    cases applyStep problem goalIndex goal (axiomMap problem) limits s step with
    | error failure => simp
    | ok t =>
      obtain ⟨hok, herror⟩ := ih (stepIndex + 1) t
      refine ⟨fun u hu => ?_, fun failure n hn => ?_⟩
      · simp only [hok u hu, length_cons]
      · simp only [herror failure n hn]
        omega

end Steps

/-! ## Goals -/

variable {S : Serde} {certificate : RuliadProofCertificate} {required : List ℕ}

section Goals

variable {certificates : Map ℕ RuliadGoalCertificate}

/-- The certificate's steps for a goal lead from the left to the right side of its claim. -/
def discharges (problem : RuliadProofProblem) (limits : RuliadKernelLimits)
    (certificates : Map ℕ RuliadGoalCertificate) (goalIndex : ℕ) : Bool :=
  match certificates goalIndex, problem.goals[goalIndex]? with
  | some node, some goal =>
    match replaySteps problem goalIndex goal (axiomMap problem) limits 0 goal.claim.lhs
        node.steps with
    | .ok current => current = goal.claim.rhs
    | .error _ => false
  | _, _ => false

/-- The number of steps that the kernel applies for a goal. -/
def goalStepsApplied (problem : RuliadProofProblem) (limits : RuliadKernelLimits)
    (certificates : Map ℕ RuliadGoalCertificate) (goalIndex : ℕ) : ℕ :=
  match certificates goalIndex, problem.goals[goalIndex]? with
  | some node, some goal =>
    stepsApplied problem goalIndex goal limits goal.claim.lhs node.steps
  | _, _ => 0

/-- The number of steps that the kernel applies for the goals in order, until the first goal that
is not discharged. -/
def soundSteps (problem : RuliadProofProblem) (limits : RuliadKernelLimits)
    (certificates : Map ℕ RuliadGoalCertificate) : List ℕ → ℕ
  | [] => 0
  | goalIndex :: required =>
    goalStepsApplied problem limits certificates goalIndex +
      if discharges problem limits certificates goalIndex then
        soundSteps problem limits certificates required
      else
        0

/-- The failure that the kernel reports for a goal that is not discharged. -/
inductive GoalFailure (problem : RuliadProofProblem) (limits : RuliadKernelLimits)
    (certificates : Map ℕ RuliadGoalCertificate) (goalIndex : ℕ) : RuliadKernelFailure → Prop
  | missing (hnode : certificates goalIndex = none) (message : String) :
    GoalFailure problem limits certificates goalIndex
      ⟨.malformedCertificate, some goalIndex, none, message⟩
  | step {node : RuliadGoalCertificate} {goal : RuliadProofGoal} {failure : RuliadKernelFailure}
    {n : ℕ} (hnode : certificates goalIndex = some node)
    (hgoal : problem.goals[goalIndex]? = some goal)
    (h : replaySteps problem goalIndex goal (axiomMap problem) limits 0 goal.claim.lhs node.steps =
      .error (failure, n)) : GoalFailure problem limits certificates goalIndex failure
  | mismatch {node : RuliadGoalCertificate} {goal : RuliadProofGoal} {current : RuliadTerm}
    (hnode : certificates goalIndex = some node) (hgoal : problem.goals[goalIndex]? = some goal)
    (h : replaySteps problem goalIndex goal (axiomMap problem) limits 0 goal.claim.lhs node.steps =
      .ok current) (hne : current ≠ goal.claim.rhs) (message : String) :
    GoalFailure problem limits certificates goalIndex
      ⟨.goalMismatch, some goalIndex, some node.steps.length, message⟩

/-- What the loop over the required goals reports: the goals discharged before the first that is
not, the steps applied for them and for that one, and why that one is not. -/
structure GoalsReport (problem : RuliadProofProblem) (limits : RuliadKernelLimits)
    (certificates : Map ℕ RuliadGoalCertificate) (required verified : List ℕ)
    (report result : RuliadReplayReport) : Prop where
  requiredGoals : result.requiredGoals = report.requiredGoals
  submittedSteps : result.submittedSteps = report.submittedSteps
  failure_none : required.find? (fun i => !discharges problem limits certificates i) = none →
    result.failure = report.failure
  failure_some : ∀ i, required.find? (fun i => !discharges problem limits certificates i) = some i →
    ∃ failure, result.failure = some failure ∧ GoalFailure problem limits certificates i failure
  verifiedGoals : result.verifiedGoals = report.verifiedGoals +
    (required.takeWhile (discharges problem limits certificates)).length
  verifiedSteps : result.verifiedSteps =
    report.verifiedSteps + soundSteps problem limits certificates required
  accepted : result.accepted = true ↔
    (∀ i ∈ required, discharges problem limits certificates i = true) ∧
      (problem.root ∈ verified ∨ problem.root ∈ required) ∧
      report.verifiedGoals + required.length = report.requiredGoals

/-- The loop over the required goals does not panic, and it reports what it should, when the goals
exist and each comes after its dependencies. -/
theorem replayGoals_report (limits : RuliadKernelLimits)
    (certificates : Map ℕ RuliadGoalCertificate) (verified : List ℕ) (report : RuliadReplayReport)
    (hreport : report.accepted = false) (hsorted : required.Pairwise (· < ·))
    (hgoals : ∀ i ∈ required, ∃ goal, problem.goals[i]? = some goal ∧
      ∀ d ∈ goal.dependencies, d ∈ verified ∨ d ∈ required ∧ d < i) :
    ∃ result, replayGoals problem certificates limits verified report required = .ok result ∧
      GoalsReport problem limits certificates required verified report result := by
  induction required generalizing verified report with
  | nil =>
    refine ⟨_, rfl, ⟨rfl, rfl, fun _ => rfl, by simp, rfl, rfl, ?_⟩⟩
    simp
  | cons i required ih =>
    obtain ⟨goal, hgoal, hdeps⟩ := hgoals i (by simp)
    obtain ⟨hi, hsorted⟩ := pairwise_cons.1 hsorted
    rw [replayGoals]
    cases hnode : certificates i with
    | none =>
      have hno : discharges problem limits certificates i = false := by
        simp [discharges, hnode]
      refine ⟨_, rfl, ⟨rfl, rfl, ?_, ?_, ?_, ?_, ?_⟩⟩
      · simp [hno]
      · intro j hj
        obtain rfl : i = j := by simpa [hno] using hj
        exact ⟨_, rfl, .missing hnode _⟩
      · simp [hno]
      · simp [soundSteps, hno, goalStepsApplied, hnode]
      · simp [hreport, hno]
    | some node =>
      -- the dependencies of the first required goal are not required ones, so they are verified
      have hfind : goal.dependencies.find? (fun d => !verified.contains d) = none := by
        refine find?_eq_none.2 fun d hd => ?_
        rcases hdeps d hd with hv | ⟨hmem, hlt⟩
        · simpa using hv
        · rcases mem_cons.1 hmem with rfl | hmem
          · omega
          · have := hi d hmem
            omega
      simp only [index_eq_ok.2 hgoal, bind, Except.bind, hfind]
      obtain ⟨hok, herror⟩ := stepsApplied_of_replaySteps problem i goal limits 0
        goal.claim.lhs node.steps
      have happlied : goalStepsApplied problem limits certificates i =
          stepsApplied problem i goal limits goal.claim.lhs node.steps := by
        simp [goalStepsApplied, hnode, hgoal]
      cases hreplay : replaySteps problem i goal (axiomMap problem) limits 0 goal.claim.lhs
          node.steps with
      | error e =>
        obtain ⟨failure, n⟩ := e
        have hno : discharges problem limits certificates i = false := by
          simp [discharges, hnode, hgoal, hreplay]
        refine ⟨_, rfl, ⟨rfl, rfl, ?_, ?_, ?_, ?_, ?_⟩⟩
        · simp [hno]
        · intro j hj
          obtain rfl : i = j := by simpa [hno] using hj
          exact ⟨_, rfl, .step hnode hgoal hreplay⟩
        · simp [hno]
        · simp [soundSteps, hno, happlied, herror _ _ hreplay]
        · simp [hreport, hno]
      | ok current =>
        have hlen := hok _ hreplay
        simp only
        by_cases hrhs : current = goal.claim.rhs
        · have hyes : discharges problem limits certificates i = true := by
            simp [discharges, hnode, hgoal, hreplay, hrhs]
          rw [if_neg (by simpa using hrhs)]
          obtain ⟨result, hresult, h⟩ := ih (i :: verified)
            { report with
              verifiedSteps := report.verifiedSteps + node.steps.length
              verifiedGoals := report.verifiedGoals + 1 } hreport hsorted (by
                intro j hj
                obtain ⟨goal, hgoal, hdeps⟩ := hgoals j (by simp [hj])
                refine ⟨goal, hgoal, fun d hd => ?_⟩
                rcases hdeps d hd with hv | ⟨hmem, hlt⟩
                · exact .inl (by simp [hv])
                · rcases mem_cons.1 hmem with rfl | hmem
                  · exact .inl (by simp)
                  · exact .inr ⟨hmem, hlt⟩)
          have hfind : (i :: required).find? (fun i => !discharges problem limits certificates i) =
              required.find? fun i => !discharges problem limits certificates i := by
            simp [hyes]
          refine ⟨result, hresult, ⟨h.requiredGoals, h.submittedSteps, ?_, ?_, ?_, ?_, ?_⟩⟩
          · rw [hfind]
            exact h.failure_none
          · rw [hfind]
            exact h.failure_some
          · rw [h.verifiedGoals, takeWhile_cons_of_pos hyes, length_cons]
            simp only
            omega
          · rw [h.verifiedSteps, soundSteps, if_pos hyes, happlied, hlen]
            simp only
            omega
          · rw [h.accepted]
            rw [forall_mem_cons, and_iff_right hyes]
            simp only [mem_cons, length_cons]
            exact and_congr_right fun _ => and_congr (by tauto) (by omega)
        · have hno : discharges problem limits certificates i = false := by
            simp [discharges, hnode, hgoal, hreplay, hrhs]
          rw [if_pos (by simpa using hrhs)]
          refine ⟨_, rfl, ⟨rfl, rfl, ?_, ?_, ?_, ?_, ?_⟩⟩
          · simp [hno]
          · intro j hj
            obtain rfl : i = j := by simpa [hno] using hj
            exact ⟨_, rfl, .mismatch hnode hgoal hreplay hrhs _⟩
          · simp [hno]
          · simp [soundSteps, hno, happlied, hlen]
          · simp [hreport, hno]

end Goals

/-! ## Certificates -/

/-- The certificate's goals by their indices. -/
def RuliadProofCertificate.index (certificate : RuliadProofCertificate) :
    Map ℕ RuliadGoalCertificate :=
  certificate.goals.foldl (fun m node => m.insert node.goal node) Map.empty

/-- What `replay_certificate` checks of a certificate before it replays a step. -/
structure ValidCertificate (S : Serde) (problem : RuliadProofProblem)
    (certificate : RuliadProofCertificate) (limits : RuliadKernelLimits) : Prop where
  version : certificate.version = ruliadIrVersion
  problemHash : problem.canonicalHash S = .ok certificate.problemHash
  stepCount_le : certificate.stepCount ≤ limits.maximumSteps
  sorted : (certificate.goals.map (·.goal)).Pairwise (· < ·)
  required : ∀ i ∈ certificate.goals.map (·.goal), i ∈ problem.requiredGoalIndices

/-- The certificate has a block for every required goal, in their order, and no other, and the steps
of each block lead from the left to the right side of the goal's claim. -/
structure Proves (problem : RuliadProofProblem) (certificate : RuliadProofCertificate) : Prop where
  goals : certificate.goals.map (·.goal) = problem.requiredGoalIndices
  steps : ∀ node ∈ certificate.goals, ∃ goal, problem.goals[node.goal]? = some goal ∧
    Replays problem goal node.steps goal.claim.lhs goal.claim.rhs

/-- What the kernel reports for a certificate that passes the checks on its form. -/
structure CertificateReport (problem : RuliadProofProblem) (certificate : RuliadProofCertificate)
    (limits : RuliadKernelLimits) (report : RuliadReplayReport) : Prop where
  requiredGoals : report.requiredGoals = problem.requiredGoalIndices.length
  submittedSteps : report.submittedSteps = certificate.stepCount
  failure_none : problem.requiredGoalIndices.find? (fun i =>
    !discharges problem limits certificate.index i) = none → report.failure = none
  failure_some : ∀ i, problem.requiredGoalIndices.find? (fun i =>
    !discharges problem limits certificate.index i) = some i →
    ∃ failure, report.failure = some failure ∧
      GoalFailure problem limits certificate.index i failure
  verifiedGoals : report.verifiedGoals = (problem.requiredGoalIndices.takeWhile
    (discharges problem limits certificate.index)).length
  verifiedSteps : report.verifiedSteps =
    soundSteps problem limits certificate.index problem.requiredGoalIndices
  accepted : report.accepted = true ↔
    ∀ i ∈ problem.requiredGoalIndices, discharges problem limits certificate.index i

section Certificates

theorem indexGoals_eq_ok_iff {previousGoal : Option ℕ} {m m' : Map ℕ RuliadGoalCertificate}
    {nodes : List RuliadGoalCertificate} :
    indexGoals required previousGoal m nodes = .ok m' ↔
      ((nodes.map (·.goal)).Pairwise (· < ·) ∧
        ∀ previous, previousGoal = some previous → ∀ i ∈ nodes.map (·.goal), previous < i) ∧
      (∀ i ∈ nodes.map (·.goal), i ∈ required) ∧
      nodes.foldl (fun m node => m.insert node.goal node) m = m' := by
  induction nodes generalizing previousGoal m with
  | nil => simp [indexGoals]
  | cons node nodes ih =>
    rw [indexGoals, ite_error_eq_ok, ite_error_eq_ok, ih, map_cons, pairwise_cons,
      forall_mem_cons, foldl_cons, not_not]
    have hprevious : (¬ (previousGoal.any fun previous => decide (node.goal ≤ previous)) = true) ↔
        ∀ previous, previousGoal = some previous → previous < node.goal := by
      cases previousGoal <;> simp
    rw [hprevious]
    simp only [Option.some.injEq, forall_eq', forall_mem_cons]
    constructor
    · rintro ⟨h₁, hreq, ⟨hsorted, h₂⟩, hreqs, hm⟩
      exact ⟨⟨⟨h₂, hsorted⟩, fun p hp => ⟨h₁ p hp, fun i hi => (h₁ p hp).trans (h₂ i hi)⟩⟩,
        ⟨hreq, hreqs⟩, hm⟩
    · rintro ⟨⟨⟨h₂, hsorted⟩, h₁⟩, ⟨hreq, hreqs⟩, hm⟩
      exact ⟨fun p hp => (h₁ p hp).1, hreq, ⟨hsorted, h₂⟩, hreqs, hm⟩

variable {i : ℕ}

theorem RuliadProofCertificate.index_eq_some_iff
    (h : (certificate.goals.map (·.goal)).Pairwise (· < ·)) {node : RuliadGoalCertificate} :
    certificate.index i = some node ↔ node ∈ certificate.goals ∧ node.goal = i := by
  rw [RuliadProofCertificate.index, Map.foldl_insert_eq_some_iff (h.imp ne_of_lt)]
  constructor
  · rintro ⟨_, hmem, hi, rfl⟩
    exact ⟨hmem, hi⟩
  · exact fun ⟨hmem, hi⟩ => ⟨node, hmem, hi, rfl⟩

/-- Every dependency of a required goal is a required goal before it. -/
theorem ValidProblem.requiredGoals (h : ValidProblem problem limits) :
    ∀ i ∈ problem.requiredGoalIndices, ∃ goal, problem.goals[i]? = some goal ∧
      ∀ d ∈ goal.dependencies, d ∈ problem.requiredGoalIndices ∧ d < i := by
  intro i hi
  have hreq := RuliadProofProblem.mem_requiredGoalIndices.1 hi
  obtain ⟨goal, hgoal⟩ := h.requires_getElem? hreq
  exact ⟨goal, hgoal, fun d hd => ⟨RuliadProofProblem.mem_requiredGoalIndices.2
    (RuliadProofProblem.requires_dependency hreq hgoal hd), (h.goals i goal hgoal).lt d hd⟩⟩

theorem replayCertificate_of_valid (hproblem : ValidProblem problem limits)
    (hcertificate : ValidCertificate S problem certificate limits) :
    ∃ report, replayCertificate S problem certificate limits = .ok report ∧
      CertificateReport problem certificate limits report := by
  have hindex : indexGoals problem.requiredGoalIndices none Map.empty certificate.goals =
      .ok certificate.index :=
    indexGoals_eq_ok_iff.2 ⟨⟨hcertificate.sorted, nofun⟩, hcertificate.required, rfl⟩
  have hrun : ∀ initial : RuliadReplayReport, initial.accepted = false →
      initial.verifiedGoals = 0 → initial.verifiedSteps = 0 →
      initial.requiredGoals = problem.requiredGoalIndices.length →
      initial.submittedSteps = certificate.stepCount → initial.failure = none →
      ∃ report, replayGoals problem certificate.index limits [] initial
        problem.requiredGoalIndices = .ok report ∧
        CertificateReport problem certificate limits report := by
    intro initial haccepted hgoals hsteps hrequired hsubmitted hfailure
    obtain ⟨report, hreport, h⟩ := replayGoals_report limits certificate.index [] initial
      haccepted
      RuliadProofProblem.pairwise_requiredGoalIndices (fun i hi => by
        obtain ⟨goal, hgoal, hdeps⟩ := hproblem.requiredGoals i hi
        exact ⟨goal, hgoal, fun d hd => .inr (hdeps d hd)⟩)
    refine ⟨report, hreport, ⟨h.requiredGoals.trans hrequired, h.submittedSteps.trans hsubmitted,
      fun hnone => (h.failure_none hnone).trans hfailure, h.failure_some,
      h.verifiedGoals.trans (by rw [hgoals, Nat.zero_add]),
      h.verifiedSteps.trans (by rw [hsteps, Nat.zero_add]), ?_⟩⟩
    rw [h.accepted, hgoals, hrequired]
    simp [RuliadProofProblem.root_mem_requiredGoalIndices]
  simp only [replayCertificate,
    validateProblem_eq_ok_iff.2 ⟨hproblem, hcertificate.problemHash⟩, hcertificate.version, hindex,
    ne_eq, not_true_eq_false, if_false, if_neg (not_lt.2 hcertificate.stepCount_le), gt_iff_lt]
  exact hrun _ rfl rfl rfl rfl rfl rfl

/-! ### Rejection before the replay -/

/-- The failures of checks, which are no failures of a step. -/
abbrev StepFree {α : Type} (x : Kernel α) : Prop := FailsOnly (fun failure => failure.step = none) x

theorem stepFree_validateSymbol (symbol : String) : StepFree (validateSymbol symbol) :=
  failsOnly_ite (.ok ()) (.error rfl)

theorem stepFree_validateTerm (t : RuliadTerm) : StepFree (validateTerm t) := by
  have hterms : ∀ {ts : List RuliadTerm}, (∀ t ∈ ts, StepFree (validateTerm t)) →
      StepFree (validateTerms ts) := by
    intro ts
    induction ts with
    | nil => exact fun _ => .ok ()
    | cons t ts ih =>
      intro h
      exact (h t (by simp)).bind fun _ => ih fun u hu => h u (by simp [hu])
  induction t using Term.ind with
  | var i => exact .ok ()
  | atom symbol => exact stepFree_validateSymbol symbol
  | apply operator arguments ih =>
    exact (stepFree_validateSymbol operator).bind fun _ => failsOnly_ite (.error rfl) (hterms ih)

theorem stepFree_validateAxioms (rules : List RuliadRewriteAxiom) :
    ∀ ids n, StepFree (validateAxioms ids n rules) := by
  induction rules with
  | nil => exact fun _ n => .ok n
  | cons rule rules ih =>
    intro ids n
    simp only [validateAxioms, throw_bind]
    refine failsOnly_ite (.error rfl) ?_
    refine (stepFree_validateTerm rule.lhs).bind fun _ => ?_
    refine (stepFree_validateTerm rule.rhs).bind fun _ => ?_
    exact failsOnly_ite (.error rfl) (failsOnly_ite (.error rfl) (ih _ _))

theorem stepFree_validateGoals (goals : List RuliadProofGoal) :
    ∀ index ids n, StepFree (validateGoals index ids n goals) := by
  induction goals with
  | nil => exact fun _ _ n => .ok n
  | cons goal goals ih =>
    intro index ids n
    simp only [validateGoals, throw_bind]
    refine failsOnly_ite (.error rfl) ?_
    refine (stepFree_validateTerm goal.claim.lhs).bind fun _ => ?_
    refine (stepFree_validateTerm goal.claim.rhs).bind fun _ => ?_
    exact failsOnly_ite (.error rfl) (ih _ _ _)

theorem stepFree_validateProblem : StepFree (validateProblem S problem limits) := by
  simp only [validateProblem, throw_bind]
  refine failsOnly_ite (.error rfl) (failsOnly_ite (.error rfl) (failsOnly_ite (.error rfl) ?_))
  refine (stepFree_validateAxioms _ _ _).bind fun _ => ?_
  refine (stepFree_validateGoals _ _ _ _).bind fun _ => failsOnly_ite (.error rfl) ?_
  obtain ⟨hash, hhash⟩ := problem.canonicalHash_ok S
  rw [hhash]
  exact .ok hash

theorem stepFree_indexGoals (nodes : List RuliadGoalCertificate) :
    ∀ previousGoal m, StepFree (indexGoals required previousGoal m nodes) := by
  induction nodes with
  | nil => exact fun _ m => .ok m
  | cons node nodes ih =>
    exact fun previousGoal m => failsOnly_ite (.error rfl) (failsOnly_ite (.error rfl) (ih _ _))

/-- The report of a certificate that is rejected before a step is replayed. -/
structure EarlyReport (problem : RuliadProofProblem) (certificate : RuliadProofCertificate)
    (report : RuliadReplayReport) : Prop where
  verifiedGoals : report.verifiedGoals = 0
  verifiedSteps : report.verifiedSteps = 0
  accepted : report.accepted = false
  requiredGoals : report.requiredGoals = problem.requiredGoalIndices.length
  submittedSteps : report.submittedSteps = certificate.stepCount
  failure : ∃ failure, report.failure = some failure ∧ failure.step = none

/-- A problem or a certificate that does not pass the checks is rejected before a step is
replayed. -/
theorem replayCertificate_of_not_valid
    (h : ¬ (ValidProblem problem limits ∧ ValidCertificate S problem certificate limits)) :
    ∃ report, replayCertificate S problem certificate limits = .ok report ∧
      EarlyReport problem certificate report := by
  unfold replayCertificate
  cases hvalidate : validateProblem S problem limits with
  | error failure =>
    exact ⟨_, rfl, rfl, rfl, rfl, rfl, rfl, _, rfl, stepFree_validateProblem failure hvalidate⟩
  | ok hash =>
    obtain ⟨hproblem, hhash⟩ := validateProblem_eq_ok_iff.1 hvalidate
    simp only
    split_ifs with hversion hproblemHash hsteps
    · exact ⟨_, rfl, rfl, rfl, rfl, rfl, rfl, _, rfl, rfl⟩
    · exact ⟨_, rfl, rfl, rfl, rfl, rfl, rfl, _, rfl, rfl⟩
    · exact ⟨_, rfl, rfl, rfl, rfl, rfl, rfl, _, rfl, rfl⟩
    · cases hindex : indexGoals problem.requiredGoalIndices none Map.empty certificate.goals with
      | error failure =>
        exact ⟨_, rfl, rfl, rfl, rfl, rfl, rfl, _, rfl,
          stepFree_indexGoals _ _ _ failure hindex⟩
      | ok certificates =>
        obtain ⟨⟨hsorted, -⟩, hrequired, -⟩ := indexGoals_eq_ok_iff.1 hindex
        refine absurd ⟨hproblem, ⟨not_not.1 hversion, ?_, not_lt.1 hsteps, hsorted, hrequired⟩⟩ h
        rw [hhash, not_not.1 hproblemHash]

/-- `replay_certificate` does not panic. -/
theorem replayCertificate_ok (S : Serde) (problem : RuliadProofProblem)
    (certificate : RuliadProofCertificate) (limits : RuliadKernelLimits) :
    ∃ report, replayCertificate S problem certificate limits = .ok report := by
  by_cases h : ValidProblem problem limits ∧ ValidCertificate S problem certificate limits
  · obtain ⟨report, hreport, -⟩ := replayCertificate_of_valid h.1 h.2
    exact ⟨report, hreport⟩
  · obtain ⟨report, hreport, -⟩ := replayCertificate_of_not_valid h
    exact ⟨report, hreport⟩

/-- A goal is discharged exactly when the certificate has a block for it whose steps prove the claim
by paths within the limit. -/
theorem discharges_iff (hnodup : (problem.axioms.map (·.id)).Nodup)
    (hsorted : (certificate.goals.map (·.goal)).Pairwise (· < ·)) :
    discharges problem limits certificate.index i ↔
      ∃ node ∈ certificate.goals, node.goal = i ∧ ∃ goal, problem.goals[i]? = some goal ∧
        (∀ step ∈ node.steps, step.path.length ≤ limits.maximumPathDepth) ∧
        Replays problem goal node.steps goal.claim.lhs goal.claim.rhs := by
  have hreplay : ∀ {node : RuliadGoalCertificate} {goal : RuliadProofGoal},
      certificate.index i = some node → problem.goals[i]? = some goal →
      (discharges problem limits certificate.index i = true ↔
        (∀ step ∈ node.steps, step.path.length ≤ limits.maximumPathDepth) ∧
        Replays problem goal node.steps goal.claim.lhs goal.claim.rhs) := by
    intro node goal hnode hgoal
    rw [← replaySteps_eq_ok_iff hnodup i 0]
    simp only [discharges, hnode, hgoal]
    cases replaySteps problem i goal (axiomMap problem) limits 0 goal.claim.lhs node.steps <;> simp
  constructor
  · intro h
    cases hnode : certificate.index i with
    | none => simp [discharges, hnode] at h
    | some node =>
      cases hgoal : problem.goals[i]? with
      | none => simp [discharges, hnode, hgoal] at h
      | some goal =>
        obtain ⟨hmem, hi⟩ := (RuliadProofCertificate.index_eq_some_iff hsorted).1 hnode
        exact ⟨node, hmem, hi, goal, rfl, (hreplay hnode hgoal).1 h⟩
  · rintro ⟨node, hmem, hi, goal, hgoal, h⟩
    have hnode := (RuliadProofCertificate.index_eq_some_iff hsorted).2 ⟨hmem, hi⟩
    exact (hreplay hnode hgoal).2 h

/-- All required goals are discharged exactly when the certificate proves the problem by paths
within the limit. -/
theorem discharges_all_iff (hproblem : ValidProblem problem limits)
    (hcertificate : ValidCertificate S problem certificate limits) :
    (∀ i ∈ problem.requiredGoalIndices, discharges problem limits certificate.index i) ↔
      Proves problem certificate ∧ ∀ node ∈ certificate.goals, ∀ step ∈ node.steps,
        step.path.length ≤ limits.maximumPathDepth := by
  have hsorted := hcertificate.sorted
  simp only [discharges_iff hproblem.axioms_nodup hsorted]
  constructor
  · intro h
    have hgoals : certificate.goals.map (·.goal) = problem.requiredGoalIndices := by
      refine hsorted.eq_of_mem_iff RuliadProofProblem.pairwise_requiredGoalIndices fun i => ?_
      refine ⟨hcertificate.required i, fun hi => ?_⟩
      obtain ⟨node, hmem, rfl, -⟩ := h i hi
      exact mem_map_of_mem hmem
    have hnode : ∀ node ∈ certificate.goals, ∃ goal, problem.goals[node.goal]? = some goal ∧
        (∀ step ∈ node.steps, step.path.length ≤ limits.maximumPathDepth) ∧
        Replays problem goal node.steps goal.claim.lhs goal.claim.rhs := by
      intro node hmem
      obtain ⟨node', hmem', hi, h⟩ := h _ (hcertificate.required _ (mem_map_of_mem hmem))
      obtain rfl : node' = node :=
        inj_on_of_nodup_map (hsorted.imp ne_of_lt) hmem' hmem hi
      exact h
    refine ⟨⟨hgoals, fun node hmem => ?_⟩, fun node hmem => ?_⟩
    · obtain ⟨goal, hgoal, -, h⟩ := hnode node hmem
      exact ⟨goal, hgoal, h⟩
    · obtain ⟨goal, -, h, -⟩ := hnode node hmem
      exact h
  · rintro ⟨hproves, hpaths⟩ i hi
    rw [← hproves.goals] at hi
    obtain ⟨node, hmem, rfl⟩ := mem_map.1 hi
    obtain ⟨goal, hgoal, h⟩ := hproves.steps node hmem
    exact ⟨node, hmem, rfl, goal, hgoal, hpaths node hmem, h⟩

/-- **Acceptance**: the kernel accepts exactly the certificates of valid problems that carry the
problem's hash, respect the limits and prove the required goals. -/
theorem accepts_iff :
    Accepts S problem certificate limits ↔ ValidProblem problem limits ∧
      ValidCertificate S problem certificate limits ∧ Proves problem certificate ∧
      ∀ node ∈ certificate.goals, ∀ step ∈ node.steps,
        step.path.length ≤ limits.maximumPathDepth := by
  constructor
  · rintro ⟨report, hreport, haccepted⟩
    by_cases h : ValidProblem problem limits ∧ ValidCertificate S problem certificate limits
    · obtain ⟨report', hreport', h'⟩ := replayCertificate_of_valid h.1 h.2
      obtain rfl : report = report' := Except.ok.inj (hreport.symm.trans hreport')
      exact ⟨h.1, h.2, (discharges_all_iff h.1 h.2).1 (h'.accepted.1 haccepted)⟩
    · obtain ⟨report', hreport', h'⟩ := replayCertificate_of_not_valid h
      obtain rfl : report = report' := Except.ok.inj (hreport.symm.trans hreport')
      simp [h'.accepted] at haccepted
  · rintro ⟨hproblem, hcertificate, h⟩
    obtain ⟨report, hreport, h'⟩ := replayCertificate_of_valid hproblem hcertificate
    exact ⟨report, hreport, h'.accepted.2 ((discharges_all_iff hproblem hcertificate).2 h)⟩

/-- With all goals discharged, all their steps are applied. -/
theorem soundSteps_of_discharges {certificates : Map ℕ RuliadGoalCertificate}
    (h : ∀ i ∈ required, discharges problem limits certificates i) :
    soundSteps problem limits certificates required =
      (required.map (goalStepsApplied problem limits certificates)).sum := by
  induction required with
  | nil => rfl
  | cons i required ih =>
    rw [soundSteps, if_pos (h i (by simp)), ih fun j hj => h j (by simp [hj]), map_cons,
      sum_cons]

theorem goalStepsApplied_of_discharges {certificates : Map ℕ RuliadGoalCertificate}
    {node : RuliadGoalCertificate} (hnode : certificates i = some node)
    (h : discharges problem limits certificates i) :
    goalStepsApplied problem limits certificates i = node.steps.length := by
  cases hgoal : problem.goals[i]? with
  | none => simp [discharges, hnode, hgoal] at h
  | some goal =>
    simp only [goalStepsApplied, discharges, hnode, hgoal] at h ⊢
    cases hreplay : replaySteps problem i goal (axiomMap problem) limits 0 goal.claim.lhs
        node.steps with
    | error failure => simp [hreplay] at h
    | ok current =>
      exact (stepsApplied_of_replaySteps problem i goal limits 0 goal.claim.lhs node.steps).1
        current hreplay

/-- The report of an accepted certificate counts all required goals and all steps. -/
theorem replayCertificate_of_accepts (h : Accepts S problem certificate limits) :
    ∃ report, replayCertificate S problem certificate limits = .ok report ∧
      report.accepted = true ∧ report.verifiedGoals = problem.requiredGoalIndices.length ∧
      report.verifiedSteps = certificate.stepCount := by
  obtain ⟨hproblem, hcertificate, hproves, hpaths⟩ := accepts_iff.1 h
  obtain ⟨report, hreport, hspec⟩ := replayCertificate_of_valid hproblem hcertificate
  have hall := (discharges_all_iff hproblem hcertificate).2 ⟨hproves, hpaths⟩
  refine ⟨report, hreport, hspec.accepted.2 hall, ?_, ?_⟩
  · rw [hspec.verifiedGoals, takeWhile_eq_self_iff.2 hall]
  · rw [hspec.verifiedSteps, soundSteps_of_discharges hall, ← hproves.goals, map_map,
      RuliadProofCertificate.stepCount]
    congr 1
    refine map_congr_left fun node hnode => ?_
    have hindex := (RuliadProofCertificate.index_eq_some_iff hcertificate.sorted).2 ⟨hnode, rfl⟩
    exact goalStepsApplied_of_discharges hindex
      (hall _ (hcertificate.required _ (mem_map_of_mem hnode)))

end Certificates

/-! ## Goal transitions -/

namespace RuliadGoalTransitionKernel

variable {goalIndex : ℕ} {kernel : RuliadGoalTransitionKernel}

/-- A transition kernel exists for the required goals of a valid problem. -/
theorem new_eq_ok_iff :
    new S problem goalIndex limits = .ok kernel ↔ ValidProblem problem limits ∧
      goalIndex ∈ problem.requiredGoalIndices ∧ ∃ goal, problem.goals[goalIndex]? = some goal ∧
      kernel = ⟨problem, goalIndex, goal, axiomMap problem, limits⟩ := by
  obtain ⟨hash, hhash⟩ := problem.canonicalHash_ok S
  simp only [new, throw_bind, ite_error_eq_ok, bind_eq_ok, validateProblem_eq_ok_iff, hhash,
    not_not]
  constructor
  · rintro ⟨_, ⟨hvalid, -⟩, hrequired, h⟩
    cases hgoal : problem.goals[goalIndex]? with
    | none => simp [hgoal, throw, throwThe, MonadExceptOf.throw] at h
    | some goal =>
      simp only [hgoal, pure, Except.pure, Except.ok.injEq] at h
      exact ⟨hvalid, hrequired, goal, rfl, h.symm⟩
  · rintro ⟨hvalid, hrequired, goal, hgoal, rfl⟩
    exact ⟨hash, ⟨hvalid, rfl⟩, hrequired, by simp [hgoal, pure, Except.pure]⟩

theorem apply_eq_ok_iff (h : new S problem goalIndex limits = .ok kernel) :
    kernel.apply s step = .ok t ↔ step.path.length ≤ limits.maximumPathDepth ∧
      Applies problem kernel.goal step s t := by
  obtain ⟨hvalid, -, goal, -, rfl⟩ := new_eq_ok_iff.1 h
  exact applyStep_eq_ok_iff hvalid.axioms_nodup

theorem replayFrom_eq_ok_iff (h : new S problem goalIndex limits = .ok kernel) {stepIndex : ℕ} :
    kernel.replayFrom stepIndex s steps = .ok t ↔
      (∀ step ∈ steps, step.path.length ≤ limits.maximumPathDepth) ∧
        Replays problem kernel.goal steps s t := by
  induction steps generalizing s stepIndex with
  | nil => simp [replayFrom, Replays]
  | cons step steps ih =>
    have hcons : kernel.replayFrom stepIndex s (step :: steps) = .ok t ↔
        ∃ u, kernel.apply s step = .ok u ∧ kernel.replayFrom (stepIndex + 1) u steps = .ok t := by
      rw [replayFrom]
      cases kernel.apply s step <;> simp
    simp only [hcons, apply_eq_ok_iff h, ih, forall_mem_cons, Replays]
    grind

end RuliadGoalTransitionKernel

end BurnDragon.Ruliad
