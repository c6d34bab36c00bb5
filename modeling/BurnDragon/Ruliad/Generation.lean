import BurnDragon.Ruliad.Renaming

/-!
# What the generator builds

The goals and the certificates that `generate_formal_bundle` builds.
A leaf goal undoes its laws inside its context, a composition goal rewrites its two parts with the
claims of two earlier goals.

* `Generated` says what the goal and the certificate of an index are.
* `FormalDag.Grown` is the invariant of all loops: the entries are generated, every goal is reachable
  from the frontier, and the counts follow from the number of leaves.
* `Draw.Yields.formalGoals` says that the loops keep it, whatever the draws are.
-/

namespace BurnDragon.Ruliad

open Equational Rust List

/-! ## Laws -/

variable {t : RuliadTerm}

namespace DomainLaw

variable (law : DomainLaw)

@[simp] theorem subst_wrap (σ : ℕ → RuliadTerm) (t : RuliadTerm) :
    (law.wrap t).subst σ = law.wrap (t.subst σ) := by
  unfold wrap
  split <;> simp

@[simp] theorem size_wrap (t : RuliadTerm) : (law.wrap t).size = t.size + 2 := by
  unfold wrap
  split <;> simp <;> omega

@[simp] theorem mem_vars_wrap {i : ℕ} : i ∈ (law.wrap t).vars ↔ i ∈ t.vars := by
  unfold wrap
  split <;> simp

theorem wrap_ne_var {i : ℕ} : law.wrap t ≠ .var i := by
  unfold wrap
  split <;> simp

/-- A law undoes its own wrapping. -/
theorem instance_wrap (t : RuliadTerm) :
    Instance law.rule.lhs law.rule.rhs (law.wrap t) t :=
  ⟨fun _ => t, by simp [rule], by simp [rule], by simp [rule]⟩

/-- The symbols of the law. -/
def symbols : List String :=
  match law.shape with
  | .leftUnit operator unit => [operator, unit]
  | .rightUnit operator unit => [operator, unit]
  | .cancelPair outer inner => [outer, inner]

variable {law}

theorem wellFormed_wrap (h : ∀ s ∈ law.symbols, validIdentifier s) (ht : WellFormed t) :
    WellFormed (law.wrap t) := by
  obtain ⟨id, shape⟩ := law
  cases shape with
  | leftUnit operator unit =>
    have h : validIdentifier operator ∧ validIdentifier unit := by simpa [symbols] using h
    exact .apply h.1 (by simp) (by simpa using ⟨.atom h.2, ht⟩)
  | rightUnit operator unit =>
    have h : validIdentifier operator ∧ validIdentifier unit := by simpa [symbols] using h
    exact .apply h.1 (by simp) (by simpa using ⟨ht, .atom h.2⟩)
  | cancelPair outer inner =>
    have h : validIdentifier outer ∧ validIdentifier inner := by simpa [symbols] using h
    exact .apply h.1 (by simp) (by simpa using .apply h.2 (by simp) (by simpa using ht))

end DomainLaw

/-! ## Theories -/

/-- The names of a theory are short identifiers and its law ids are distinct and not those of
distractors. -/
structure DomainTheory.Valid (theory : DomainTheory) : Prop where
  name : trim theory.name.toList ≠ []
  atom : validIdentifier theory.atom ∧ theory.atom.toList.length ≤ 8
  context : validIdentifier theory.context
  combine : validIdentifier theory.combine
  ids : ∀ law ∈ theory.laws.laws, validIdentifier law.id ∧ ¬ "aux_".toList <+: law.id.toList
  symbols : ∀ law ∈ theory.laws.laws, ∀ s ∈ law.symbols, validIdentifier s
  nodup : (theory.laws.laws.map (·.id)).Nodup

theorem domainTheory_valid (domain : RuliadFormalDomain) : (domainTheory domain).Valid := by
  cases domain <;> constructor <;> decide +kernel

/-- Every split selects some of the laws, in their order. -/
theorem selectedDomainLaws_sublist (theory : DomainTheory) (split : RuliadFormalGenerationSplit) :
    (selectedDomainLaws theory split).laws.Sublist theory.laws.laws := by
  cases split with
  | shared => exact List.Sublist.refl _
  | structuralTrainV1 =>
    unfold selectedDomainLaws
    split_ifs
    · exact take_sublist ..
    · exact List.Sublist.refl _
  | structuralValidationV1 =>
    unfold selectedDomainLaws
    split_ifs
    · exact drop_sublist ..
    · exact List.Sublist.refl _

/-! ## Contexts -/

section Context

variable {context : String} {salt : UInt64} {path : List ℕ} {s : RuliadTerm}

/-- The scope that one level of the context adds. -/
def scopeAtom (salt : UInt64) (index : ℕ) : RuliadTerm :=
  .atom ("scope" ++ decimal index ++ "_" ++ hex08 salt.toNat)

@[simp] theorem wrapContext_nil : wrapContext context salt [] t = t := rfl

/-- The first hole of the path is the outermost. -/
theorem wrapContext_cons (hole : ℕ) :
    wrapContext context salt (hole :: path) t = .apply context
      (if hole = 0 then [wrapContext context salt path t, scopeAtom salt path.length]
        else [scopeAtom salt path.length, wrapContext context salt path t]) := by
  simp [wrapContext, scopeAtom, zipIdx_append]

/-- A rewrite inside the context is a rewrite at its path. -/
theorem at_wrapContext {R : RuliadTerm → RuliadTerm → Prop} (hpath : ∀ hole ∈ path, hole < 2)
    (h : R s t) :
    At R path (wrapContext context salt path s) (wrapContext context salt path t) := by
  induction path with
  | nil => exact .root h
  | cons hole path ih =>
    have hat := ih fun i hi => hpath i (by simp [hi])
    have hhole := hpath hole (by simp)
    rw [wrapContext_cons, wrapContext_cons]
    obtain rfl | rfl : hole = 0 ∨ hole = 1 := by omega
    · exact hat.fst
    · exact hat.snd

@[simp] theorem size_wrapContext :
    (wrapContext context salt path t).size = t.size + 2 * path.length := by
  induction path with
  | nil => simp
  | cons hole path ih =>
    rw [wrapContext_cons, length_cons]
    split_ifs <;> simp [ih, scopeAtom] <;> omega

theorem wellFormed_wrapContext (hcontext : validIdentifier context) (hpath : path.length ≤ 10 ^ 100)
    (ht : WellFormed t) : WellFormed (wrapContext context salt path t) := by
  induction path with
  | nil => exact ht
  | cons hole path ih =>
    rw [length_cons] at hpath
    have hinner := ih (by omega)
    have hscope : WellFormed (scopeAtom salt path.length) :=
      .atom (validIdentifier_salted (by decide +kernel) (by decide) (by omega) salt)
    rw [wrapContext_cons]
    refine .apply hcontext (by split_ifs <;> simp) fun u hu => ?_
    split_ifs at hu <;> simp only [mem_cons, not_mem_nil, or_false] at hu <;>
      rcases hu with rfl | rfl <;> assumption

end Context

/-! ## Entries -/

section Entries

variable (theory : DomainTheory) (laws : DomainLaws) (salt : UInt64)
  (config : RuliadFormalGeneratorConfig)

/-- What the loop over the leaves draws for a leaf. -/
structure LeafDraw (proofLaws : List DomainLaw) (path : List ℕ) : Prop where
  length_laws : proofLaws.length = config.rewriteDepth
  mem_laws : ∀ law ∈ proofLaws, law ∈ laws.laws
  length_path : path.length = config.contextDepth
  path_lt : ∀ hole ∈ path, hole < 2

def leafAtom (leaf : ℕ) : RuliadTerm :=
  .atom (theory.atom ++ decimal leaf ++ "_" ++ hex08 salt.toNat)

/-- The atom of a leaf in some of its laws and in its context. -/
def leafTerm (leaf : ℕ) (path : List ℕ) (proofLaws : List DomainLaw) : RuliadTerm :=
  wrapContext theory.context salt path (proofLaws.foldr DomainLaw.wrap (leafAtom theory salt leaf))

/-- The step that undoes a law. -/
def lawStep (path : List ℕ) (law : DomainLaw) : RuliadProofStep :=
  ⟨.axiom_ law.id, path, .forward⟩

/-- The step that rewrites a part of a composition with its goal. -/
def partStep (part goal : ℕ) : RuliadProofStep := ⟨.lemma_ goal, [part], .forward⟩

/-- The goal and the certificate that the generator makes for the index `i`, given the goals before. -/
inductive Generated (goals : List RuliadProofGoal) (i : ℕ) :
    RuliadProofGoal → RuliadGoalCertificate → Prop
  | leaf {leaf : ℕ} {proofLaws : List DomainLaw} {path : List ℕ} (hleaf : leaf < config.leafCount)
    (h : LeafDraw laws config proofLaws path) :
    Generated goals i
      ⟨"g" ++ decimal i, [], leafTerm theory salt leaf path proofLaws,
        leafTerm theory salt leaf path []⟩
      ⟨i, proofLaws.map (lawStep path)⟩
  | composition {left right : ℕ} {leftGoal rightGoal : RuliadProofGoal} (hlt : left < right)
    (hi : right < i) (hleft : goals[left]? = some leftGoal)
    (hright : goals[right]? = some rightGoal) :
    Generated goals i
      ⟨"g" ++ decimal i, [left, right],
        .apply theory.combine [leftGoal.claim.lhs, rightGoal.claim.lhs],
        .apply theory.combine [leftGoal.claim.rhs, rightGoal.claim.rhs]⟩
      ⟨i, [partStep 0 left, partStep 1 right]⟩

variable {theory laws salt config} {goals : List RuliadProofGoal} {i : ℕ} {goal : RuliadProofGoal}
  {node : RuliadGoalCertificate}

variable {leaf : ℕ}

theorem size_leafTerm {path : List ℕ} {proofLaws : List DomainLaw} :
    (leafTerm theory salt leaf path proofLaws).size = 1 + 2 * proofLaws.length + 2 * path.length := by
  have hlaws : (proofLaws.foldr DomainLaw.wrap (leafAtom theory salt leaf)).size =
      1 + 2 * proofLaws.length := by
    induction proofLaws with
    | nil => rfl
    | cons law proofLaws ih =>
      rw [foldr_cons, DomainLaw.size_wrap, ih, length_cons]
      omega
  rw [leafTerm, size_wrapContext, hlaws]

namespace Generated

section

variable (h : Generated theory laws salt config goals i goal node)
include h

theorem id_eq :
    goal.id = "g" ++ decimal i := by
  cases h <;> rfl

theorem goal_eq : node.goal = i := by
  cases h <;> rfl

theorem append (more : List RuliadProofGoal) :
    Generated theory laws salt config (goals ++ more) i goal node := by
  cases h with
  | leaf hleaf h => exact .leaf hleaf h
  | composition hlt hi hleft hright =>
    have hget : ∀ {j : ℕ} {g : RuliadProofGoal}, goals[j]? = some g →
        (goals ++ more)[j]? = some g := fun hj => by
      rw [List.getElem?_append_left (List.getElem?_eq_some_iff.1 hj).1, hj]
    exact .composition hlt hi (hget hleft) (hget hright)

theorem dependencies :
    goal.dependencies.Pairwise (· < ·) ∧ ∀ dependency ∈ goal.dependencies, dependency < i := by
  cases h with
  | leaf => exact ⟨.nil, by simp⟩
  | composition hlt hi => exact ⟨by simpa using hlt, by simpa using ⟨hlt.trans hi, hi⟩⟩

theorem axioms_mem {step : RuliadProofStep} (hstep : step ∈ node.steps) {id : String}
    (hid : step.source = .axiom_ id) :
    ∃ law ∈ laws.laws, law.id = id := by
  cases h with
  | leaf _ h =>
    obtain ⟨law, hlaw, rfl⟩ := mem_map.1 hstep
    exact ⟨law, h.mem_laws law hlaw, by simpa [lawStep] using hid⟩
  | composition =>
    simp only [mem_cons, not_mem_nil, or_false] at hstep
    rcases hstep with rfl | rfl <;> cases hid

theorem path_le (hcontext : config.contextDepth ≤ 4096) :
    ∀ step ∈ node.steps, step.path.length ≤ 4096 := by
  cases h with
  | leaf _ h =>
    intro step hstep
    obtain ⟨law, -, rfl⟩ := mem_map.1 hstep
    exact h.length_path.trans_le hcontext
  | composition => simp [partStep]

end

end Generated

/-! ## The invariant -/

variable {leaves : ℕ} {dag : FormalDag} {frontier : List ℕ}

namespace FormalDag

/-- The number of nodes in the sides of the goals. -/
def nodes (dag : FormalDag) : ℕ :=
  (dag.goals.map fun goal => goal.claim.lhs.size + goal.claim.rhs.size).sum

/-- The number of nodes in the sides of one goal. -/
def weight (dag : FormalDag) (i : ℕ) : ℕ :=
  match dag.goals[i]? with
  | some goal => goal.claim.lhs.size + goal.claim.rhs.size
  | none => 0

/-- Append a goal with its certificate. -/
def push (dag : FormalDag) (goal : RuliadProofGoal) (node : RuliadGoalCertificate) : FormalDag :=
  ⟨dag.goals ++ [goal], dag.certificates ++ [node]⟩

theorem weight_push_self (dag : FormalDag) :
    (dag.push goal node).weight dag.goals.length =
      goal.claim.lhs.size + goal.claim.rhs.size := by
  simp [weight, push]

theorem weight_push_of_lt {j : ℕ} (h : j < dag.goals.length) :
    (dag.push goal node).weight j = dag.weight j := by
  simp [weight, push, getElem?_append_left h]

theorem nodes_push (dag : FormalDag) :
    (dag.push goal node).nodes = dag.nodes + (goal.claim.lhs.size + goal.claim.rhs.size) := by
  simp [nodes, push]

variable (theory laws salt config)

/-- **The invariant of the generator.** The entries are generated, every goal is reachable from the
frontier, and the counts follow from the number of leaves. -/
structure Grown (leaves : ℕ) (dag : FormalDag) (frontier : List ℕ) : Prop where
  length_eq : dag.certificates.length = dag.goals.length
  generated : ∀ i goal node, dag.goals[i]? = some goal → dag.certificates[i]? = some node →
    Generated theory laws salt config dag.goals i goal node
  reached : ∀ i < dag.goals.length, ∃ f ∈ frontier, Graph.Reaches (goalDependencies dag.goals) f i
  frontier_lt : ∀ f ∈ frontier, f < dag.goals.length
  nodup : frontier.Nodup
  count : dag.goals.length + frontier.length = 2 * leaves
  leaves_le : leaves ≤ dag.goals.length
  stepCount : (dag.certificates.map fun node => node.steps.length).sum + 2 * leaves =
    leaves * config.rewriteDepth + 2 * dag.goals.length

variable {theory laws salt config} {frontier' : List ℕ}

/-- An edge between goals stays when a goal is appended. -/
theorem reaches_push {x y : ℕ} (h : Graph.Reaches (goalDependencies dag.goals) x y) :
    Graph.Reaches (goalDependencies (dag.push goal node).goals) x y := by
  refine Relation.ReflTransGen.mono (fun a b hab => ?_) x y h
  have hlen : a < dag.goals.length := by
    by_contra hlen
    rw [Graph.Edge, goalDependencies, getElem?_eq_none (by omega)] at hab
    simp at hab
  rw [Graph.Edge, goalDependencies] at hab ⊢
  rwa [push, getElem?_append_left hlen]

namespace Grown

theorem empty : Grown theory laws salt config 0 ⟨[], []⟩ [] := by
  constructor <;> simp

section

variable (h : Grown theory laws salt config leaves dag frontier)
include h

theorem perm (hperm : frontier'.Perm frontier) :
    Grown theory laws salt config leaves dag frontier' where
  length_eq := h.length_eq
  generated := h.generated
  reached i hi := by
    obtain ⟨f, hf, hreach⟩ := h.reached i hi
    exact ⟨f, hperm.mem_iff.2 hf, hreach⟩
  frontier_lt f hf := h.frontier_lt f (hperm.mem_iff.1 hf)
  nodup := hperm.nodup_iff.2 h.nodup
  count := hperm.length_eq ▸ h.count
  leaves_le := h.leaves_le
  stepCount := h.stepCount

/-- Appending an entry keeps the entries. -/
theorem generated_push
    (hnew : Generated theory laws salt config dag.goals dag.goals.length goal node) :
    ∀ i g n, (dag.push goal node).goals[i]? = some g → (dag.push goal node).certificates[i]? =
      some n → Generated theory laws salt config (dag.push goal node).goals i g n := by
  intro i g n hg hn
  rw [push] at hg hn
  by_cases hi : i < dag.goals.length
  · rw [getElem?_append_left hi] at hg
    rw [getElem?_append_left (h.length_eq ▸ hi)] at hn
    exact (h.generated i g n hg hn).append _
  · have hlen := (List.getElem?_eq_some_iff.1 hg).1
    rw [length_append, length_singleton] at hlen
    obtain rfl : i = dag.goals.length := by omega
    rw [getElem?_concat_length] at hg
    rw [← h.length_eq, getElem?_concat_length] at hn
    obtain rfl := Option.some.inj hg
    obtain rfl := Option.some.inj hn
    exact hnew.append _

/-- Appending a leaf. -/
theorem push_leaf (hnew : Generated theory laws salt config dag.goals dag.goals.length goal node)
    (hsteps : node.steps.length = config.rewriteDepth) :
    Grown theory laws salt config (leaves + 1) (dag.push goal node)
      (frontier ++ [dag.goals.length]) where
  length_eq := by simp [push, h.length_eq]
  generated := h.generated_push hnew
  reached i hi := by
    rw [push, length_append, length_singleton] at hi
    by_cases hlt : i < dag.goals.length
    · obtain ⟨f, hf, hreach⟩ := h.reached i hlt
      exact ⟨f, by simp [hf], reaches_push hreach⟩
    · obtain rfl : i = dag.goals.length := by omega
      exact ⟨_, by simp, .refl⟩
  frontier_lt f hf := by
    rw [push, length_append, length_singleton]
    rcases mem_append.1 hf with hf | hf
    · exact (h.frontier_lt f hf).trans (Nat.lt_succ_self _)
    · simp [mem_singleton.1 hf]
  nodup := by
    refine nodup_append.2 ⟨h.nodup, by simp, fun a ha b hb heq => ?_⟩
    rw [mem_singleton.1 hb] at heq
    exact absurd (h.frontier_lt a ha) (by omega)
  count := by
    have hcount := h.count
    simp only [push, length_append, length_singleton]
    omega
  leaves_le := by
    have hle := h.leaves_le
    simp only [push, length_append, length_singleton]
    omega
  stepCount := by
    have hcount := h.stepCount
    simp only [push, map_append, map_cons, map_nil, sum_append, sum_cons,
      sum_nil, length_append, length_singleton, hsteps, Nat.succ_mul]
    omega

end

/-- Combining the first two goals of the frontier. -/
theorem push_composition {left right : ℕ}
    (h : Grown theory laws salt config leaves dag (left :: right :: frontier))
    (hnew : Generated theory laws salt config dag.goals dag.goals.length goal node)
    (hdependencies : left ∈ goal.dependencies ∧ right ∈ goal.dependencies)
    (hsteps : node.steps.length = 2) :
    Grown theory laws salt config leaves (dag.push goal node) (dag.goals.length :: frontier) where
  length_eq := by simp [push, h.length_eq]
  generated := h.generated_push hnew
  reached i hi := by
    rw [push, length_append, length_singleton] at hi
    have hedge : ∀ d ∈ goal.dependencies,
        Graph.Edge (goalDependencies (dag.push goal node).goals) dag.goals.length d := by
      intro d hd
      rw [Graph.Edge, goalDependencies, push, getElem?_concat_length]
      exact hd
    by_cases hlt : i < dag.goals.length
    · obtain ⟨f, hf, hreach⟩ := h.reached i hlt
      simp only [mem_cons] at hf
      rcases hf with rfl | rfl | hf
      · exact ⟨_, by simp, (reaches_push hreach).head (hedge _ hdependencies.1)⟩
      · exact ⟨_, by simp, (reaches_push hreach).head (hedge _ hdependencies.2)⟩
      · exact ⟨f, by simp [hf], reaches_push hreach⟩
    · obtain rfl : i = dag.goals.length := by omega
      exact ⟨_, by simp, .refl⟩
  frontier_lt f hf := by
    rw [push, length_append, length_singleton]
    rcases mem_cons.1 hf with rfl | hf
    · omega
    · exact (h.frontier_lt f (by simp [hf])).trans (Nat.lt_succ_self _)
  nodup := by
    refine nodup_cons.2 ⟨fun hmem => ?_, ?_⟩
    · exact absurd (h.frontier_lt dag.goals.length (by simp [hmem])) (by omega)
    · exact (nodup_cons.1 (nodup_cons.1 h.nodup).2).2
  count := by
    have hcount := h.count
    simp only [push, length_append, length_cons, length_nil] at hcount ⊢
    omega
  leaves_le := by
    have hle := h.leaves_le
    simp only [push, length_append, length_singleton]
    omega
  stepCount := by
    have hcount := h.stepCount
    simp only [push, map_append, map_cons, map_nil, sum_append, sum_cons,
      sum_nil, length_append, length_singleton, hsteps]
    omega

/-- A property of terms that laws, contexts and combinations keep holds for the sides of all goals. -/
theorem sides (h : Grown theory laws salt config leaves dag frontier) {P : RuliadTerm → Prop}
    (hatom : ∀ leaf < config.leafCount, P (leafAtom theory salt leaf))
    (hwrap : ∀ law ∈ laws.laws, ∀ t, P t → P (law.wrap t))
    (hcontext : ∀ path : List ℕ, path.length = config.contextDepth → ∀ t, P t →
      P (wrapContext theory.context salt path t))
    (hcombine : ∀ s t, P s → P t → P (.apply theory.combine [s, t])) :
    ∀ (i : ℕ) (goal : RuliadProofGoal), dag.goals[i]? = some goal →
      P goal.claim.lhs ∧ P goal.claim.rhs := by
  intro i
  induction i using Nat.strong_induction_on with
  | _ i ih =>
    intro goal hgoal
    have hi := (List.getElem?_eq_some_iff.1 hgoal).1
    obtain ⟨node, hnode⟩ : ∃ node, dag.certificates[i]? = some node :=
      ⟨_, getElem?_eq_getElem (h.length_eq ▸ hi)⟩
    cases h.generated i goal node hgoal hnode with
    | leaf hleaf hdraw =>
      rename_i leaf proofLaws path
      have hlaws : ∀ ls : List DomainLaw, (∀ law ∈ ls, law ∈ laws.laws) →
          P (leafTerm theory salt leaf path ls) := by
        intro ls hls
        refine hcontext path hdraw.length_path _ ?_
        induction ls with
        | nil => exact hatom leaf hleaf
        | cons law ls ihl => exact hwrap law (hls law (by simp)) _ (ihl fun l hl => hls l (by simp [hl]))
      exact ⟨hlaws proofLaws hdraw.mem_laws, hlaws [] (by simp)⟩
    | composition hlt hright hleftGoal hrightGoal =>
      have hl := ih _ (hlt.trans hright) _ hleftGoal
      have hr := ih _ hright _ hrightGoal
      exact ⟨hcombine _ _ hl.1 hr.1, hcombine _ _ hl.2 hr.2⟩

end Grown

end FormalDag

/-! ## The loops -/

open FormalDag

/-- One leaf is appended. -/
theorem Draw.Yields.appendLeafGoal :
    Yields (Ruliad.appendLeafGoal theory laws salt config leaf dag) fun result =>
      ∃ proofLaws path, LeafDraw laws config proofLaws path ∧
        result = (dag.push ⟨"g" ++ decimal dag.goals.length, [],
            leafTerm theory salt leaf path proofLaws, leafTerm theory salt leaf path []⟩
          ⟨dag.goals.length, proofLaws.map (lawStep path)⟩, dag.goals.length) := by
  have hdraw : Yields laws.draw (· ∈ laws.laws) :=
    bind (nextUsize (length_pos_iff.2 laws.ne_nil)) fun i hi =>
      lift (index_of_lt hi) (getElem_mem hi)
  refine bind (times hdraw _) fun proofLaws hlaws => ?_
  refine bind (times (nextUsize (by omega)) _) fun path hpath => pure ?_
  exact ⟨proofLaws, path, ⟨hlaws.1, hlaws.2, hpath.1, hpath.2⟩, rfl⟩

/-- The loop over the leaves grows the dag. -/
theorem Draw.Yields.appendLeafGoals {remaining : ℕ}
    (h : Grown theory laws salt config leaf dag frontier)
    (hleaf : leaf + remaining ≤ config.leafCount) :
    Yields (Ruliad.appendLeafGoals theory laws salt config leaf remaining dag frontier)
      fun result => Grown theory laws salt config (leaf + remaining) result.1 result.2 := by
  induction remaining generalizing leaf dag frontier with
  | zero => exact pure h
  | succ remaining ih =>
    refine bind appendLeafGoal fun result hresult => ?_
    obtain ⟨proofLaws, path, hdraw, rfl⟩ := hresult
    have hgrown := h.push_leaf (.leaf (show leaf < config.leafCount by omega) hdraw)
      (by rw [length_map, hdraw.length_laws])
    rw [show leaf + (remaining + 1) = leaf + 1 + remaining by omega]
    exact ih hgrown (by omega)

/-- A composition goal is appended for two goals, the smaller index first. -/
theorem appendCompositionGoal_eq {left right : ℕ} (hleft : left < dag.goals.length)
    (hright : right < dag.goals.length) (hne : left ≠ right) :
    ∃ goal node, appendCompositionGoal theory dag left right =
        .ok (dag.push goal node, dag.goals.length) ∧
      Generated theory laws salt config dag.goals dag.goals.length goal node ∧
      (left ∈ goal.dependencies ∧ right ∈ goal.dependencies) ∧ node.steps.length = 2 ∧
      goal.claim.lhs.size + goal.claim.rhs.size = dag.weight left + dag.weight right + 2 := by
  have hweight : ∀ {i : ℕ} (hi : i < dag.goals.length), dag.weight i =
      dag.goals[i].claim.lhs.size + dag.goals[i].claim.rhs.size := fun hi => by
    rw [weight, getElem?_eq_getElem hi]
  by_cases hlt : left < right
  · refine ⟨_, _, ?_, .composition hlt hright (getElem?_eq_getElem hleft)
      (getElem?_eq_getElem hright), by simp, rfl, ?_⟩
    · simp only [appendCompositionGoal, if_pos hlt, index_of_lt hleft, index_of_lt hright]
      rfl
    · simp only [Term.size_apply, map_cons, map_nil, sum_cons, sum_nil,
        hweight hleft, hweight hright]
      omega
  · refine ⟨_, _, ?_, .composition (show right < left by omega) hleft
      (getElem?_eq_getElem hright) (getElem?_eq_getElem hleft), by simp, rfl, ?_⟩
    · simp only [appendCompositionGoal, if_neg hlt, index_of_lt hright, index_of_lt hleft]
      rfl
    · simp only [Term.size_apply, map_cons, map_nil, sum_cons, sum_nil,
        hweight hleft, hweight hright]
      omega

/-- Combining the first two goals of the frontier grows the dag. -/
theorem FormalDag.Grown.appendCompositionGoal {left right : ℕ}
    (h : Grown theory laws salt config leaves dag (left :: right :: frontier)) :
    ∃ goal node, Ruliad.appendCompositionGoal theory dag left right =
        .ok (dag.push goal node, dag.goals.length) ∧
      Grown theory laws salt config leaves (dag.push goal node) (dag.goals.length :: frontier) ∧
      goal.claim.lhs.size + goal.claim.rhs.size = dag.weight left + dag.weight right + 2 := by
  have hne : left ≠ right := fun heq => (nodup_cons.1 h.nodup).1 (by simp [heq])
  obtain ⟨goal, node, heq, hnew, hdependencies, hsteps, hsize⟩ :=
    @appendCompositionGoal_eq theory laws salt config dag left right
      (h.frontier_lt left (by simp)) (h.frontier_lt right (by simp)) hne
  exact ⟨goal, node, heq, h.push_composition hnew hdependencies hsteps, hsize⟩

/-- The left fold ends with one goal. -/
theorem FormalDag.Grown.composeLeft {root : ℕ}
    (h : Grown theory laws salt config leaves dag (root :: frontier)) :
    ∃ dag' root', Ruliad.composeLeft theory frontier dag root = .ok (dag', root') ∧
      Grown theory laws salt config leaves dag' [root'] := by
  induction frontier generalizing dag root with
  | nil => exact ⟨dag, root, rfl, h⟩
  | cons right frontier ih =>
    obtain ⟨goal, node, heq, hgrown, -⟩ := h.appendCompositionGoal
    obtain ⟨dag', root', hrest, hresult⟩ := ih hgrown
    exact ⟨dag', root', bind_eq_ok.2 ⟨_, heq, hrest⟩, hresult⟩

/-- One pass halves the frontier. -/
theorem FormalDag.Grown.composePairs :
    ∀ done : List ℕ, Grown theory laws salt config leaves dag (done ++ frontier) →
      ∃ dag' next, Ruliad.composePairs theory frontier dag = .ok (dag', next) ∧
        Grown theory laws salt config leaves dag' (done ++ next) ∧
        next.length = (frontier.length + 1) / 2 := by
  induction frontier using List.twoStepInduction generalizing dag with
  | nil => exact fun _ h => ⟨dag, [], rfl, h, rfl⟩
  | singleton left => exact fun _ h => ⟨dag, [left], rfl, h, by simp⟩
  | cons_cons left right rest ih _ =>
    intro done h
    have hperm : (left :: right :: (done ++ rest)).Perm (done ++ left :: right :: rest) :=
      (perm_middle (a := right).symm.cons left).trans perm_middle.symm
    obtain ⟨goal, node, heq, hgrown, -⟩ := (h.perm hperm).appendCompositionGoal
    obtain ⟨dag', next, hrest, hresult, hlength⟩ := ih (done ++ [dag.goals.length])
      (hgrown.perm (by simp))
    refine ⟨dag', dag.goals.length :: next, ?_, by simpa using hresult, ?_⟩
    · rw [Ruliad.composePairs]
      exact bind_eq_ok.2 ⟨_, heq, bind_eq_ok.2 ⟨_, hrest, rfl⟩⟩
    · simp only [length_cons, hlength]
      omega

/-- The passes end with one goal. -/
theorem Draw.Yields.composeLevels {shuffled : Bool} {fuel : ℕ}
    (h : Grown theory laws salt config leaves dag frontier) (hne : frontier ≠ [])
    (hfuel : frontier.length ≤ fuel + 1) :
    Yields (Ruliad.composeLevels theory shuffled fuel dag frontier) fun result =>
      ∃ root, result.2 = [root] ∧ Grown theory laws salt config leaves result.1 [root] := by
  have hpos := length_pos_iff.2 hne
  induction fuel generalizing dag frontier with
  | zero =>
    obtain ⟨root, rfl⟩ := length_eq_one_iff.1 (show frontier.length = 1 by omega)
    exact pure ⟨root, rfl, h⟩
  | succ fuel ih =>
    rw [Ruliad.composeLevels]
    split_ifs with hlength hshuffled
    · refine bind (shuffle frontier) fun shuffled hperm => ?_
      obtain ⟨dag', next, heq, hgrown, hnext⟩ := (h.perm hperm).composePairs []
      have hlen := hperm.length_eq
      refine bind (lift heq rfl) fun result hresult => ?_
      subst hresult
      exact ih hgrown (length_pos_iff.1 (by omega)) (by omega) (by omega)
    · obtain ⟨dag', next, heq, hgrown, hnext⟩ := h.composePairs []
      refine bind (pure rfl) fun frontier' hfrontier => ?_
      subst hfrontier
      refine bind (lift heq rfl) fun result hresult => ?_
      subst hresult
      exact ih hgrown (length_pos_iff.1 (by omega)) (by omega) (by omega)
    · obtain ⟨root, rfl⟩ := length_eq_one_iff.1 (show frontier.length = 1 by omega)
      exact pure ⟨root, rfl, h⟩

/-- The goals are combined to one root. -/
theorem Draw.Yields.composeGoals {split : RuliadFormalGenerationSplit}
    (h : Grown theory laws salt config leaves dag frontier) (hne : frontier ≠ []) :
    Yields (Ruliad.composeGoals theory split dag frontier) fun result =>
      Grown theory laws salt config leaves result.1 [result.2] := by
  have hlevels : ∀ shuffled, Yields (do
      let composed ← Ruliad.composeLevels theory shuffled frontier.length dag frontier
      let root ← StateT.lift (index composed.2 0)
      return (composed.1, root)) fun result =>
        Grown theory laws salt config leaves result.1 [result.2] := by
    intro shuffled
    refine bind (composeLevels h hne (by omega)) fun result hresult => ?_
    obtain ⟨dag', frontier'⟩ := result
    obtain ⟨root, rfl, hgrown⟩ := hresult
    refine bind (lift rfl rfl) fun root' hroot => pure ?_
    subst hroot
    exact hgrown
  cases split with
  | shared => exact hlevels _
  | structuralTrainV1 => exact hlevels _
  | structuralValidationV1 =>
    obtain ⟨first, rest, rfl⟩ := exists_cons_of_ne_nil hne
    obtain ⟨dag', root, heq, hgrown⟩ := h.composeLeft
    refine bind (lift rfl rfl) fun first' hfirst => ?_
    subst hfirst
    exact lift heq hgrown

/-- **The goals are generated and reachable from the root.** -/
theorem Draw.Yields.formalGoals (hleaves : config.leafCount ≠ 0) :
    Yields (Ruliad.formalGoals theory laws salt config) fun result =>
      Grown theory laws salt config config.leafCount result.1 [result.2] := by
  refine bind (appendLeafGoals .empty (by omega)) fun result hgrown => ?_
  rw [Nat.zero_add] at hgrown
  refine composeGoals hgrown fun hnil => ?_
  have hle := hgrown.leaves_le
  obtain ⟨f, hf, -⟩ := hgrown.reached 0 (by omega)
  simp [hnil] at hf

end Entries

end BurnDragon.Ruliad
