import BurnDragon.Ruliad.Formal
import BurnDragon.Ruliad.Soundness

/-!
# Renaming symbols

What `alpha_rename_bundle` does. Its maps give every symbol of the problem a label of its own
(`Draw.Yields.localSymbolMap`), so no lookup fails and the bundle is renamed by a `Renaming` up to the
order of the axioms (`Draw.Yields.alphaRenameDraw`). A renaming commutes with matching, so it keeps
proofs (`IsRenamed.proves`), and it keeps what validation checks (`IsRenamed.validProblem`).
-/

namespace BurnDragon.Ruliad

open Equational Rust List

/-! ## Renamings -/

/-- New names for the axioms, the operators, the atoms and the goals. -/
structure Renaming where
  axioms : String → String
  operators : String → String
  atoms : String → String
  goals : String → String

namespace Renaming

def term (r : Renaming) (t : RuliadTerm) : RuliadTerm := t.map id r.atoms r.operators

def rule (r : Renaming) (rule : RuliadRewriteAxiom) : RuliadRewriteAxiom :=
  ⟨r.axioms rule.id, r.term rule.lhs, r.term rule.rhs⟩

def equality (r : Renaming) (equality : RuliadEquality) : RuliadEquality :=
  ⟨r.term equality.lhs, r.term equality.rhs⟩

def goal (r : Renaming) (goal : RuliadProofGoal) : RuliadProofGoal :=
  ⟨r.goals goal.id, goal.dependencies, r.equality goal.claim⟩

def source (r : Renaming) : RuliadProofSource → RuliadProofSource
  | .axiom_ id => .axiom_ (r.axioms id)
  | .lemma_ goal => .lemma_ goal

def step (r : Renaming) (step : RuliadProofStep) : RuliadProofStep :=
  { step with source := r.source step.source }

def node (r : Renaming) (node : RuliadGoalCertificate) : RuliadGoalCertificate :=
  { node with steps := node.steps.map r.step }

end Renaming

/-- The bundle `renamed` is `bundle` with its symbols renamed, another theory and its axioms in
another order. -/
structure IsRenamed (r : Renaming) (bundle renamed : RuliadProofBundle) : Prop where
  version : renamed.problem.version = bundle.problem.version
  theory : ∃ n : ℕ, renamed.problem.theory = "t" ++ decimal n
  axioms : renamed.problem.axioms.Perm (bundle.problem.axioms.map r.rule)
  goals : renamed.problem.goals = bundle.problem.goals.map r.goal
  root : renamed.problem.root = bundle.problem.root
  certificate : renamed.certificate =
    { bundle.certificate with goals := bundle.certificate.goals.map r.node }

/-- The new names of the axioms and of the goals of the problem are distinct. -/
structure Renaming.Distinguishes (r : Renaming) (problem : RuliadProofProblem) : Prop where
  axioms : ∀ a ∈ problem.axioms, ∀ b ∈ problem.axioms, r.axioms a.id = r.axioms b.id → a.id = b.id
  goals : ∀ a ∈ problem.goals, ∀ b ∈ problem.goals, r.goals a.id = r.goals b.id → a.id = b.id

/-- The new names of the symbols of the problem are identifiers. -/
structure Renaming.Labels (r : Renaming) (problem : RuliadProofProblem) : Prop where
  axioms : ∀ rule ∈ problem.axioms, validIdentifier (r.axioms rule.id)
  goals : ∀ goal ∈ problem.goals, validIdentifier (r.goals goal.id)
  operators : ∀ t ∈ problem.terms, ∀ f ∈ t.operators, validIdentifier (r.operators f)
  atoms : ∀ t ∈ problem.terms, ∀ a ∈ t.atoms, validIdentifier (r.atoms a)

section Preservation

variable {r : Renaming} {bundle renamed : RuliadProofBundle} {limits : RuliadKernelLimits}

variable {goal : RuliadProofGoal}

/-- With distinct axiom ids, an axiom source stands for the sides of the axiom of that id. -/
theorem sourceClaim_axiom_eq_some_iff {problem : RuliadProofProblem}
    (hnodup : (problem.axioms.map (·.id)).Nodup) {id : String} {equality : RuliadEquality} :
    sourceClaim problem goal (.axiom_ id) = some equality ↔
      ∃ rule ∈ problem.axioms, rule.id = id ∧ ⟨rule.lhs, rule.rhs⟩ = equality := by
  rw [sourceClaim, ← axiomMap_eq_find? hnodup, axiomMap, Map.ofList, foldl_map,
    Option.map_eq_some_iff]
  simp only [Map.foldl_insert_eq_some_iff hnodup]
  constructor
  · rintro ⟨_, ⟨rule, hrule, hid, rfl⟩, h⟩
    exact ⟨rule, hrule, hid, h⟩
  · rintro ⟨rule, hrule, hid, h⟩
    exact ⟨rule, ⟨rule, hrule, hid, rfl⟩, h⟩

section

variable (hdist : r.Distinguishes bundle.problem) (h : IsRenamed r bundle renamed)
  (hnodup : (bundle.problem.axioms.map (·.id)).Nodup)
include hdist h hnodup

theorem axioms_nodup_rename :
    (renamed.problem.axioms.map (·.id)).Nodup := by
  rw [(h.axioms.map _).nodup_iff, map_map]
  rw [List.Nodup, pairwise_map] at hnodup ⊢
  exact hnodup.imp_of_mem fun ha hb hne heq => hne (hdist.axioms _ ha _ hb heq)

/-- The renamed source stands for the renamed claim. -/
theorem sourceClaim_rename {source : RuliadProofSource} {equality : RuliadEquality}
    (hclaim : sourceClaim bundle.problem goal source = some equality) :
    sourceClaim renamed.problem (r.goal goal) (r.source source) = some (r.equality equality) := by
  cases source with
  | axiom_ id =>
    obtain ⟨rule, hrule, rfl, rfl⟩ := (sourceClaim_axiom_eq_some_iff hnodup).1 hclaim
    refine (sourceClaim_axiom_eq_some_iff (axioms_nodup_rename hdist h hnodup)).2
      ⟨r.rule rule, ?_, rfl, rfl⟩
    exact h.axioms.mem_iff.2 (mem_map_of_mem hrule)
  | lemma_ dependency =>
    obtain ⟨hdep, hclaim⟩ := Option.ite_none_right_eq_some.1 hclaim
    obtain ⟨lemmaGoal, hgoal, rfl⟩ := Option.map_eq_some_iff.1 hclaim
    refine Option.ite_none_right_eq_some.2 ⟨hdep, ?_⟩
    rw [h.goals, getElem?_map, hgoal]
    rfl

end

variable {t : RuliadTerm}

section

variable (hdist : r.Distinguishes bundle.problem) (h : IsRenamed r bundle renamed)
  (hnodup : (bundle.problem.axioms.map (·.id)).Nodup)
include hdist h hnodup

/-- Renaming keeps a step. -/
theorem Applies.rename {step : RuliadProofStep} {s : RuliadTerm}
    (happlies : Applies bundle.problem goal step s t) :
    Applies renamed.problem (r.goal goal) (r.step step) (r.term s) (r.term t) := by
  obtain ⟨equality, hclaim, hat⟩ := happlies
  refine ⟨r.equality equality, sourceClaim_rename hdist h hnodup hclaim, ?_⟩
  have hinst : ∀ p q u v : RuliadTerm, Instance p q u v →
      Instance (r.term p) (r.term q) (r.term u) (r.term v) :=
    fun _ _ _ _ hi => hi.map id fun _ _ _ _ hij => hij
  have hat := hat.map fun u v => hinst _ _ u v
  simp only [Renaming.step]
  cases hdirection : step.direction with
  | forward => rwa [hdirection] at hat
  | reverse => rwa [hdirection] at hat

/-- Renaming keeps the steps of a goal. -/
theorem Replays.rename {steps : List RuliadProofStep} {s : RuliadTerm}
    (hreplays : Replays bundle.problem goal steps s t) :
    Replays renamed.problem (r.goal goal) (steps.map r.step) (r.term s) (r.term t) := by
  induction steps generalizing s with
  | nil => exact congrArg r.term hreplays
  | cons step steps ih =>
    obtain ⟨u, happlies, hrest⟩ := hreplays
    exact ⟨r.term u, happlies.rename hdist h hnodup, ih hrest⟩

end

namespace IsRenamed

section

variable (h : IsRenamed r bundle renamed)
include h

theorem goalDependencies_eq :
    goalDependencies renamed.problem.goals = goalDependencies bundle.problem.goals := by
  funext i
  rw [goalDependencies, goalDependencies, h.goals, getElem?_map]
  cases bundle.problem.goals[i]? <;> rfl

/-- The required goals stay the same. -/
theorem requiredGoalIndices_eq :
    renamed.problem.requiredGoalIndices = bundle.problem.requiredGoalIndices := by
  rw [RuliadProofProblem.requiredGoalIndices, RuliadProofProblem.requiredGoalIndices,
    h.goalDependencies_eq, h.root, h.goals, length_map]

theorem map_goal_eq :
    renamed.certificate.goals.map (·.goal) = bundle.certificate.goals.map (·.goal) := by
  rw [h.certificate, map_map]
  rfl

theorem stepCount_eq :
    renamed.certificate.stepCount = bundle.certificate.stepCount := by
  rw [RuliadProofCertificate.stepCount, RuliadProofCertificate.stepCount, h.certificate, map_map]
  congr 1
  exact map_congr_left fun node _ => length_map ..

/-- **Renaming keeps proofs.** -/
theorem proves (hdist : r.Distinguishes bundle.problem)
    (hnodup : (bundle.problem.axioms.map (·.id)).Nodup)
    (hproves : Proves bundle.problem bundle.certificate) :
    Proves renamed.problem renamed.certificate := by
  refine ⟨by rw [h.map_goal_eq, h.requiredGoalIndices_eq, hproves.goals], fun node hnode => ?_⟩
  rw [h.certificate] at hnode
  obtain ⟨original, horiginal, rfl⟩ := mem_map.1 hnode
  obtain ⟨goal, hgoal, hreplays⟩ := hproves.steps original horiginal
  refine ⟨r.goal goal, ?_, hreplays.rename hdist h hnodup⟩
  rw [h.goals, getElem?_map]
  exact congrArg (Option.map r.goal) hgoal

/-- The paths of the certificate stay the same. -/
theorem paths {n : ℕ} :
    (∀ node ∈ renamed.certificate.goals, ∀ step ∈ node.steps, step.path.length ≤ n) ↔
      ∀ node ∈ bundle.certificate.goals, ∀ step ∈ node.steps, step.path.length ≤ n := by
  rw [h.certificate]
  simp [Renaming.node, Renaming.step]

theorem nodes_eq :
    renamed.problem.nodes = bundle.problem.nodes := by
  rw [RuliadProofProblem.nodes, RuliadProofProblem.nodes, h.goals,
    (h.axioms.map fun rule => rule.lhs.size + rule.rhs.size).sum_eq, map_map, map_map]
  congr 2
  · exact map_congr_left fun rule _ => by simp [Renaming.rule, Renaming.term]
  · exact map_congr_left fun goal _ => by
      simp [Renaming.goal, Renaming.equality, Renaming.term]

theorem length_axioms_eq :
    renamed.problem.axioms.length = bundle.problem.axioms.length := by
  rw [h.axioms.length_eq, length_map]

theorem length_goals_eq :
    renamed.problem.goals.length = bundle.problem.goals.length := by
  rw [h.goals, length_map]

end

end IsRenamed

/-- A renamed term is well formed when the labels of its symbols are identifiers. -/
theorem WellFormed.rename (h : WellFormed t)
    (hoperators : ∀ f ∈ t.operators, validIdentifier (r.operators f))
    (hatoms : ∀ a ∈ t.atoms, validIdentifier (r.atoms a)) : WellFormed (r.term t) := by
  induction t using Term.ind with
  | var i => exact .var i
  | atom a => exact .atom (hatoms a (by simp))
  | apply f args ih =>
    cases h with
    | apply _ hne hargs =>
      rw [Renaming.term, Term.map_apply]
      refine .apply (hoperators f (by simp)) (by simpa using hne) fun u hu => ?_
      obtain ⟨t, ht, rfl⟩ := mem_map.1 hu
      exact ih t ht (hargs t ht)
        (fun g hg => hoperators g (Term.mem_operators_apply.2 (.inr ⟨t, ht, hg⟩)))
        fun a ha => hatoms a (Term.mem_atoms_apply.2 ⟨t, ht, ha⟩)

theorem mem_terms {problem : RuliadProofProblem} :
    t ∈ problem.terms ↔ (∃ rule ∈ problem.axioms, t = rule.lhs ∨ t = rule.rhs) ∨
      ∃ goal ∈ problem.goals, t = goal.claim.lhs ∨ t = goal.claim.rhs := by
  simp [RuliadProofProblem.terms]

/-- **Renaming keeps what validation checks.** -/
theorem IsRenamed.validProblem (h : IsRenamed r bundle renamed)
    (hdist : r.Distinguishes bundle.problem) (hlabels : r.Labels bundle.problem)
    (hvalid : ValidProblem bundle.problem limits) : ValidProblem renamed.problem limits := by
  have hterm : ∀ t ∈ bundle.problem.terms, WellFormed t → WellFormed (r.term t) :=
    fun t ht hwf => hwf.rename (hlabels.operators t ht) (hlabels.atoms t ht)
  have haxiom : ∀ rule ∈ bundle.problem.axioms, ValidAxiom (r.rule rule) := by
    intro rule hrule
    have hv := hvalid.axioms rule hrule
    refine ⟨hlabels.axioms rule hrule, hterm _ (mem_terms.2 (.inl ⟨rule, hrule, .inl rfl⟩)) hv.lhs,
      hterm _ (mem_terms.2 (.inl ⟨rule, hrule, .inr rfl⟩)) hv.rhs, fun i hi => ?_, fun i hi => ?_⟩
    · obtain ⟨j, hj, rfl⟩ := Term.mem_vars_map.1 hi
      exact Term.mem_vars_map.2 ⟨j, hv.bound j hj, rfl⟩
    · cases hlhs : rule.lhs using Term.ind with
      | var j => exact hv.lhs_ne_var j hlhs
      | atom a => simp [Renaming.rule, Renaming.term, hlhs] at hi
      | apply f args => simp [Renaming.rule, Renaming.term, hlhs] at hi
  have hgoal : ∀ i goal, renamed.problem.goals[i]? = some goal → ValidGoal i goal := by
    intro i goal hi
    rw [h.goals, getElem?_map] at hi
    obtain ⟨original, horiginal, rfl⟩ := Option.map_eq_some_iff.1 hi
    have hmem := mem_of_getElem? horiginal
    have hv := hvalid.goals i original horiginal
    exact ⟨hlabels.goals original hmem,
      hterm _ (mem_terms.2 (.inr ⟨original, hmem, .inl rfl⟩)) hv.lhs,
      hterm _ (mem_terms.2 (.inr ⟨original, hmem, .inr rfl⟩)) hv.rhs, hv.sorted, hv.lt⟩
  have hgoalsNodup : (renamed.problem.goals.map (·.id)).Nodup := by
    have hnodup := hvalid.goals_nodup
    rw [h.goals, map_map]
    rw [List.Nodup, pairwise_map] at hnodup ⊢
    exact hnodup.imp_of_mem fun ha hb hne heq => hne (hdist.goals _ ha _ hb heq)
  obtain ⟨n, htheory⟩ := h.theory
  refine ⟨h.version.trans hvalid.version, ?_, ?_, ?_, ?_, fun rule hrule => ?_,
    axioms_nodup_rename hdist h hvalid.axioms_nodup, hgoal, hgoalsNodup, ?_⟩
  · have hchars : ∀ c ∈ ("t" ++ decimal n).toList, isWhitespace c = false := by
      intro c hc
      rw [String.toList_append, mem_append] at hc
      rcases hc with hc | hc
      · obtain rfl : c = 't' := by simpa using hc
        decide
      · exact isWhitespace_of_isDigit (isDigit_of_mem_decimal hc)
    rw [htheory, trim_eq_self hchars]
    simp
  · rw [h.root, h.length_goals_eq]
    exact hvalid.root_lt
  · rw [h.length_axioms_eq]
    exact hvalid.axioms_length
  · rw [h.length_goals_eq]
    exact hvalid.goals_length
  · obtain ⟨original, horiginal, rfl⟩ := mem_map.1 (h.axioms.mem_iff.1 hrule)
    exact haxiom original horiginal
  · have := hvalid.termNodes_le
    rwa [termNodes_eq, h.nodes_eq, ← termNodes_eq]

end Preservation

/-! ## Symbols -/

/-- Collecting the symbols of the terms, after those found before, ends with `found'`. -/
structure Collects (found : List String × List String) (ts : List RuliadTerm)
    (found' : List String × List String) : Prop where
  operators : ∀ f, f ∈ found'.1 ↔ f ∈ found.1 ∨ ∃ t ∈ ts, f ∈ t.operators
  atoms : ∀ a, a ∈ found'.2 ↔ a ∈ found.2 ∨ ∃ t ∈ ts, a ∈ t.atoms
  sorted : found.1.Pairwise (· < ·) ∧ found.2.Pairwise (· < ·) →
    found'.1.Pairwise (· < ·) ∧ found'.2.Pairwise (· < ·)
  length_le : found'.1.length + found'.2.length ≤
    found.1.length + found.2.length + (ts.map Term.size).sum

namespace Collects

variable {found found' found'' : List String × List String} {ts us : List RuliadTerm}

theorem nil : Collects found [] found := ⟨by simp, by simp, id, by simp⟩

theorem append (h : Collects found ts found') (h' : Collects found' us found'') :
    Collects found (ts ++ us) found'' := by
  refine ⟨fun f => ?_, fun a => ?_, fun hs => h'.sorted (h.sorted hs), ?_⟩
  · rw [h'.operators, h.operators]
    simp only [mem_append, or_and_right, exists_or, or_assoc]
  · rw [h'.atoms, h.atoms]
    simp only [mem_append, or_and_right, exists_or, or_assoc]
  · have hlen := h.length_le
    have hlen' := h'.length_le
    rw [map_append, sum_append]
    omega

/-- An application adds its operator to the symbols of its arguments. -/
theorem apply {f : String} (h : Collects (insertSorted f found.1, found.2) ts found') :
    Collects found [.apply f ts] found' := by
  refine ⟨fun g => ?_, fun a => ?_, fun hs => ?_, ?_⟩
  · rw [h.operators, mem_insertSorted]
    simp only [mem_singleton, exists_eq_left, Term.mem_operators_apply]
    tauto
  · rw [h.atoms]
    simp only [mem_singleton, exists_eq_left, Term.mem_atoms_apply]
  · exact h.sorted ⟨pairwise_insertSorted hs.1, hs.2⟩
  · have hlen := h.length_le
    have hinsert := length_insertSorted_le f found.1
    simp only [map_cons, map_nil, sum_cons, sum_nil, Term.size_apply] at hlen ⊢
    omega

end Collects

theorem collectTermSymbols_collects (t : RuliadTerm) :
    ∀ found, Collects found [t] (collectTermSymbols found t) := by
  have hfold : ∀ ts : List RuliadTerm,
      (∀ t ∈ ts, ∀ found, Collects found [t] (collectTermSymbols found t)) →
      ∀ found, Collects found ts (collectTermSymbolsFold found ts) := by
    intro ts
    induction ts with
    | nil => exact fun _ _ => .nil
    | cons t ts ih =>
      intro h found
      exact (h t (by simp) found).append (ih (fun t ht => h t (by simp [ht])) _)
  induction t using Term.ind with
  | var i => exact fun found => ⟨by simp [collectTermSymbols], by simp [collectTermSymbols], id,
      by simp [collectTermSymbols]⟩
  | atom a =>
    refine fun found => ⟨by simp [collectTermSymbols], fun b => ?_, fun hs => ?_, ?_⟩
    · simp [collectTermSymbols, or_comm]
    · exact ⟨hs.1, pairwise_insertSorted hs.2⟩
    · have hinsert := length_insertSorted_le a found.2
      simp only [collectTermSymbols, map_cons, map_nil, sum_cons, sum_nil, Term.size_atom]
      omega
  | apply f args ih => exact fun found => (hfold args ih _).apply

theorem foldl_collectTermSymbols (ts : List RuliadTerm) (found : List String × List String) :
    Collects found ts (ts.foldl collectTermSymbols found) := by
  induction ts generalizing found with
  | nil => exact .nil
  | cons t ts ih => exact (collectTermSymbols_collects t found).append (ih _)

/-! ## Drawing the renaming -/

/-- The map gives every symbol the label `f symbol`; the labels are distinct and numbered. -/
structure IsSymbolMap (m : Map String String) (symbols : List String) (labelPrefix : String)
    (f : String → String) : Prop where
  apply : ∀ s ∈ symbols, m s = some (f s)
  injective : ∀ s ∈ symbols, ∀ t ∈ symbols, f s = f t → s = t
  label : ∀ s ∈ symbols, ∃ i < symbols.length, f s = labelPrefix ++ decimal i

/-- Every symbol gets a label of its own. -/
theorem Draw.Yields.localSymbolMap {symbols : List String} (hs : symbols.Pairwise (· < ·))
    (labelPrefix : String) : Yields (Ruliad.localSymbolMap symbols labelPrefix)
      fun m => ∃ f, IsSymbolMap m symbols labelPrefix f := by
  refine bind (shuffle _) fun labels hperm => pure ⟨fun s => (Map.ofList (symbols.zip labels) s).getD "", ?_⟩
  have hlen : labels.length = symbols.length := by simpa using hperm.length_eq
  have hnodup : labels.Nodup := by
    refine hperm.nodup_iff.2 (List.Nodup.map (fun i j h => ?_) nodup_range)
    exact decimal_injective ((String.append_right_inj _).1 h)
  have hkeys : ((symbols.zip labels).map Prod.fst).Nodup := by
    rw [map_fst_zip hlen.ge]
    exact hs.imp ne_of_lt
  -- the i-th symbol finds the i-th label
  have hget : ∀ i (h : i < symbols.length),
      Map.ofList (symbols.zip labels) symbols[i] = some labels[i] := by
    intro i h
    rw [Map.ofList_eq_some_iff hkeys]
    exact mem_iff_getElem.2 ⟨i, by simp [hlen, h], by simp⟩
  refine ⟨fun s hmem => ?_, fun s hmem t hmem' heq => ?_, fun s hmem => ?_⟩
  · obtain ⟨i, hi, rfl⟩ := mem_iff_getElem.1 hmem
    simp [hget i hi]
  · obtain ⟨i, hi, rfl⟩ := mem_iff_getElem.1 hmem
    obtain ⟨j, hj, rfl⟩ := mem_iff_getElem.1 hmem'
    simp only [hget i hi, hget j hj, Option.getD_some] at heq
    obtain rfl := (hnodup.getElem_inj_iff).1 heq
    rfl
  · obtain ⟨i, hi, rfl⟩ := mem_iff_getElem.1 hmem
    have hlabel : labels[i] ∈ (List.range symbols.length).map fun index =>
        labelPrefix ++ decimal index := hperm.mem_iff.1 (getElem_mem _)
    obtain ⟨k, hk, heq⟩ := mem_map.1 hlabel
    exact ⟨k, mem_range.1 hk, by simp [hget i hi, heq]⟩

section Lookups

variable {r : Renaming} {maps : RenameMaps}

/-- Lookups that all succeed rename a term. -/
theorem renameTermSymbols_eq {t : RuliadTerm}
    (hoperators : ∀ f ∈ t.operators, maps.operators f = some (r.operators f))
    (hatoms : ∀ a ∈ t.atoms, maps.atoms a = some (r.atoms a)) :
    renameTermSymbols maps.operators maps.atoms t = .ok (r.term t) := by
  have hlist : ∀ ts : List RuliadTerm,
      (∀ t ∈ ts, renameTermSymbols maps.operators maps.atoms t = .ok (r.term t)) →
      renameTermsSymbols maps.operators maps.atoms ts = .ok (ts.map r.term) := by
    intro ts
    induction ts with
    | nil => exact fun _ => rfl
    | cons t ts ih =>
      intro h
      rw [renameTermsSymbols, h t (by simp), ih fun t ht => h t (by simp [ht])]
      rfl
  induction t using Term.ind with
  | var i => rfl
  | atom a =>
    rw [renameTermSymbols, lookup_eq_ok.2 (hatoms a (by simp))]
    rfl
  | apply f args ih =>
    have hargs := hlist args fun t ht => ih t ht
      (fun g hg => hoperators g (Term.mem_operators_apply.2 (.inr ⟨t, ht, hg⟩)))
      fun a ha => hatoms a (Term.mem_atoms_apply.2 ⟨t, ht, ha⟩)
    rw [renameTermSymbols, lookup_eq_ok.2 (hoperators f (by simp)), hargs, Renaming.term,
      Term.map_apply]
    rfl

/-- The maps give every symbol of the problem its new name. -/
structure RenameMaps.Covers (maps : RenameMaps) (r : Renaming) (problem : RuliadProofProblem) :
    Prop where
  axioms : ∀ rule ∈ problem.axioms, maps.axioms rule.id = some (r.axioms rule.id)
  goals : ∀ goal ∈ problem.goals, maps.goals goal.id = some (r.goals goal.id)
  operators : ∀ t ∈ problem.terms, ∀ f ∈ t.operators, maps.operators f = some (r.operators f)
  atoms : ∀ t ∈ problem.terms, ∀ a ∈ t.atoms, maps.atoms a = some (r.atoms a)

/-- Every axiom that the certificate uses is one of the problem. -/
def RuliadProofBundle.UsesAxioms (bundle : RuliadProofBundle) : Prop :=
  ∀ node ∈ bundle.certificate.goals, ∀ step ∈ node.steps, ∀ id, step.source = .axiom_ id →
    ∃ rule ∈ bundle.problem.axioms, rule.id = id

namespace RenameMaps.Covers

variable {bundle : RuliadProofBundle}

variable {problem : RuliadProofProblem}

theorem term (h : maps.Covers r problem) {t : RuliadTerm} (ht : t ∈ problem.terms) :
    renameTermSymbols maps.operators maps.atoms t = .ok (r.term t) :=
  renameTermSymbols_eq (h.operators t ht) (h.atoms t ht)

theorem renameAxioms (h : maps.Covers r problem) :
    problem.axioms.mapM (renameAxiom maps) = .ok (problem.axioms.map r.rule) := by
  refine mapM_eq_ok fun rule hrule => ?_
  rw [renameAxiom, lookup_eq_ok.2 (h.axioms rule hrule),
    h.term (mem_terms.2 (.inl ⟨rule, hrule, .inl rfl⟩)),
    h.term (mem_terms.2 (.inl ⟨rule, hrule, .inr rfl⟩))]
  rfl

theorem renameGoals (h : maps.Covers r problem) :
    problem.goals.mapM (renameGoal maps) = .ok (problem.goals.map r.goal) := by
  refine mapM_eq_ok fun goal hgoal => ?_
  rw [renameGoal, lookup_eq_ok.2 (h.goals goal hgoal),
    h.term (mem_terms.2 (.inr ⟨goal, hgoal, .inl rfl⟩)),
    h.term (mem_terms.2 (.inr ⟨goal, hgoal, .inr rfl⟩))]
  rfl

theorem renameNodes (h : maps.Covers r bundle.problem) (huses : bundle.UsesAxioms) :
    bundle.certificate.goals.mapM (renameGoalCertificate maps) =
      .ok (bundle.certificate.goals.map r.node) := by
  refine mapM_eq_ok fun node hnode => ?_
  have hsteps : node.steps.mapM (renameStep maps) = .ok (node.steps.map r.step) := by
    refine mapM_eq_ok fun step hstep => ?_
    unfold renameStep
    split
    · rename_i id hsource
      obtain ⟨rule, hrule, rfl⟩ := huses node hnode step hstep id hsource
      rw [lookup_eq_ok.2 (h.axioms rule hrule), Renaming.step, hsource]
      rfl
    · rename_i hsource
      rw [Renaming.step, hsource, Renaming.source, ← hsource]
      rfl
  rw [renameGoalCertificate, hsteps]
  rfl

end RenameMaps.Covers

end Lookups

/-- The labels of an `IsSymbolMap` are identifiers. -/
theorem IsSymbolMap.validIdentifier {m : Map String String} {symbols : List String}
    {labelPrefix : String} {f : String → String} (h : IsSymbolMap m symbols labelPrefix f)
    (hbase : Ruliad.validIdentifier labelPrefix) (hlen : labelPrefix.toList.length ≤ 28)
    (hn : symbols.length ≤ 10 ^ 100) {s : String} (hs : s ∈ symbols) : Ruliad.validIdentifier (f s) := by
  obtain ⟨i, hi, heq⟩ := h.label s hs
  rw [heq]
  exact validIdentifier_numbered hbase hlen (by omega)

/-- The size of a problem, as far as its symbols can be numbered. -/
structure RuliadProofProblem.Small (problem : RuliadProofProblem) : Prop where
  axioms : problem.axioms.length ≤ 10 ^ 100
  goals : problem.goals.length ≤ 10 ^ 100
  nodes : problem.nodes ≤ 10 ^ 100

theorem sum_size_terms (problem : RuliadProofProblem) :
    (problem.terms.map Term.size).sum = problem.nodes := by
  have hpair : ∀ {X : Type} (f g : X → ℕ) (xs : List X),
      (xs.flatMap fun x => [f x, g x]).sum = (xs.map fun x => f x + g x).sum := by
    intro X f g xs
    induction xs with
    | nil => rfl
    | cons x xs ih =>
      rw [flatMap_cons, sum_append, ih, map_cons, sum_cons]
      simp
  simp only [RuliadProofProblem.terms, RuliadProofProblem.nodes, map_append,
    map_flatMap, sum_append, map_cons, map_nil, hpair]

/-- **`alpha_rename_bundle` renames.** -/
theorem Draw.Yields.alphaRenameDraw {bundle : RuliadProofBundle} (huses : bundle.UsesAxioms) :
    Yields (Ruliad.alphaRenameDraw bundle) fun renamed => ∃ r, IsRenamed r bundle renamed ∧
      r.Distinguishes bundle.problem ∧ (bundle.problem.Small → r.Labels bundle.problem) := by
  have hcollects := foldl_collectTermSymbols bundle.problem.terms ([], [])
  obtain ⟨hsortedOperators, hsortedAtoms⟩ := hcollects.sorted ⟨.nil, .nil⟩
  have hmemOperators : ∀ t ∈ bundle.problem.terms, ∀ f ∈ t.operators,
      f ∈ (bundle.problem.terms.foldl collectTermSymbols ([], [])).1 :=
    fun t ht f hf => (hcollects.operators f).2 (.inr ⟨t, ht, hf⟩)
  have hmemAtoms : ∀ t ∈ bundle.problem.terms, ∀ a ∈ t.atoms,
      a ∈ (bundle.problem.terms.foldl collectTermSymbols ([], [])).2 :=
    fun t ht a ha => (hcollects.atoms a).2 (.inr ⟨t, ht, ha⟩)
  have hmemAxioms : ∀ rule ∈ bundle.problem.axioms, rule.id ∈
      bundle.problem.axioms.foldl (fun ids rule => insertSorted rule.id ids) [] :=
    fun rule hrule => mem_foldl_insertSorted.2 (.inr ⟨rule, hrule, rfl⟩)
  have hmemGoals : ∀ goal ∈ bundle.problem.goals, goal.id ∈
      bundle.problem.goals.foldl (fun ids goal => insertSorted goal.id ids) [] :=
    fun goal hgoal => mem_foldl_insertSorted.2 (.inr ⟨goal, hgoal, rfl⟩)
  refine bind (localSymbolMap (pairwise_foldl_insertSorted .nil) "r") fun axiomMap haxioms => ?_
  refine bind (localSymbolMap hsortedOperators "f") fun operatorMap hoperators => ?_
  refine bind (localSymbolMap hsortedAtoms "c") fun atomMap hatoms => ?_
  refine bind (localSymbolMap (pairwise_foldl_insertSorted .nil) "g") fun goalMap hgoals => ?_
  obtain ⟨axiomLabel, haxioms⟩ := haxioms
  obtain ⟨operatorLabel, hoperators⟩ := hoperators
  obtain ⟨atomLabel, hatoms⟩ := hatoms
  obtain ⟨goalLabel, hgoals⟩ := hgoals
  let r : Renaming := ⟨axiomLabel, operatorLabel, atomLabel, goalLabel⟩
  have hcovers : RenameMaps.Covers ⟨axiomMap, operatorMap, atomMap, goalMap⟩ r bundle.problem := {
    axioms := fun rule hrule => haxioms.apply _ (hmemAxioms rule hrule)
    goals := fun goal hgoal => hgoals.apply _ (hmemGoals goal hgoal)
    operators := fun t ht f hf => hoperators.apply _ (hmemOperators t ht f hf)
    atoms := fun t ht a ha => hatoms.apply _ (hmemAtoms t ht a ha) }
  refine bind (nextUsize (by omega)) fun theoryIndex _ => ?_
  refine bind (lift hcovers.renameAxioms rfl) fun axioms haxiomsEq => ?_
  refine bind (lift hcovers.renameGoals rfl) fun goals hgoalsEq => ?_
  refine bind (lift (hcovers.renameNodes huses) rfl) fun nodes hnodesEq => ?_
  refine bind (shuffle axioms) fun shuffled hshuffled => pure ⟨r, ?_, ?_, fun hsmall => ?_⟩
  · subst haxiomsEq hgoalsEq hnodesEq
    exact ⟨rfl, ⟨theoryIndex, rfl⟩, hshuffled, rfl, rfl, rfl⟩
  · exact ⟨fun a ha b hb heq => haxioms.injective _ (hmemAxioms a ha) _ (hmemAxioms b hb) heq,
      fun a ha b hb heq => hgoals.injective _ (hmemGoals a ha) _ (hmemGoals b hb) heq⟩
  · have hsymbols := hcollects.length_le
    have hnodes := hsmall.nodes
    rw [sum_size_terms] at hsymbols
    simp only [length_nil] at hsymbols
    refine ⟨fun rule hrule => haxioms.validIdentifier (by decide +kernel) (by decide) ?_
        (hmemAxioms rule hrule),
      fun goal hgoal => hgoals.validIdentifier (by decide +kernel) (by decide) ?_
        (hmemGoals goal hgoal),
      fun t ht f hf => hoperators.validIdentifier (by decide +kernel) (by decide) (by omega)
        (hmemOperators t ht f hf),
      fun t ht a ha => hatoms.validIdentifier (by decide +kernel) (by decide) (by omega)
        (hmemAtoms t ht a ha)⟩
    · exact ((length_foldl_insertSorted_le _ _).trans (by simp)).trans hsmall.axioms
    · exact ((length_foldl_insertSorted_le _ _).trans (by simp)).trans hsmall.goals

/-! ## Accepted bundles -/

/-- Store the hash of the problem in the certificate. -/
def RuliadProofBundle.rehash (S : Serde) (bundle : RuliadProofBundle) :
    Except String RuliadProofBundle := do
  let problemHash ← bundle.problem.canonicalHash S
  return { bundle with certificate := { bundle.certificate with problemHash } }

/-- The vectors and the terms of the problem fit in the address space. -/
structure RuliadProofProblem.InMemory (problem : RuliadProofProblem) : Prop where
  axioms : problem.axioms.length ≤ usizeMax
  goals : problem.goals.length ≤ usizeMax
  nodes : problem.nodes ≤ usizeMax

section Accepted

variable {S : Serde} {bundle renamed : RuliadProofBundle} {limits : RuliadKernelLimits}
  {r : Renaming}

variable {problem : RuliadProofProblem}

theorem RuliadProofProblem.InMemory.small (h : problem.InMemory) :
    problem.Small := by
  obtain ⟨haxioms, hgoals, hnodes⟩ := h
  rw [usizeMax] at haxioms hgoals hnodes
  exact ⟨by omega, by omega, by omega⟩

/-- The default limits only admit problems that fit in memory. -/
theorem ValidProblem.inMemory (h : ValidProblem problem .default) :
    problem.InMemory := by
  have haxioms : problem.axioms.length ≤ 16384 := h.axioms_length
  have hgoals : problem.goals.length ≤ 16384 := h.goals_length
  have hnodes : problem.termNodes ≤ 4194304 := h.termNodes_le
  rw [termNodes_eq, usizeMax] at hnodes
  refine ⟨?_, ?_, ?_⟩ <;> rw [usizeMax] <;> omega

/-- Every step of a proof has a source. -/
theorem Replays.sourceClaim {goal : RuliadProofGoal} {steps : List RuliadProofStep}
    {s t : RuliadTerm} (h : Replays problem goal steps s t) {step : RuliadProofStep}
    (hstep : step ∈ steps) :
    ∃ equality, Ruliad.sourceClaim problem goal step.source = some equality := by
  induction steps generalizing s with
  | nil => simp at hstep
  | cons first steps ih =>
    obtain ⟨u, ⟨equality, hclaim, -⟩, hrest⟩ := h
    rcases mem_cons.1 hstep with rfl | hstep
    · exact ⟨equality, hclaim⟩
    · exact ih hrest hstep

/-- The axioms used by a proof are axioms of the problem. -/
theorem Proves.usesAxioms (hnodup : (bundle.problem.axioms.map (·.id)).Nodup)
    (h : Proves bundle.problem bundle.certificate) : bundle.UsesAxioms := by
  intro node hnode step hstep id hsource
  obtain ⟨goal, -, hreplays⟩ := h.steps node hnode
  obtain ⟨equality, hclaim⟩ := hreplays.sourceClaim hstep
  rw [hsource] at hclaim
  obtain ⟨rule, hrule, hid, -⟩ := (sourceClaim_axiom_eq_some_iff hnodup).1 hclaim
  exact ⟨rule, hrule, hid⟩

/-- Renaming and rehashing an accepted bundle gives an accepted bundle. -/
theorem IsRenamed.accepts (h : IsRenamed r bundle renamed) (hdist : r.Distinguishes bundle.problem)
    (hlabels : r.Labels bundle.problem)
    (haccepts : Accepts S bundle.problem bundle.certificate limits) {problemHash : String}
    (hhash : renamed.problem.canonicalHash S = .ok problemHash) :
    Accepts S renamed.problem { renamed.certificate with problemHash } limits := by
  obtain ⟨hproblem, hcertificate, hproves, hpaths⟩ := accepts_iff.1 haccepts
  have hproves' := h.proves hdist hproblem.axioms_nodup hproves
  have hversion : renamed.certificate.version = bundle.certificate.version := by rw [h.certificate]
  refine accepts_iff.2 ⟨h.validProblem hdist hlabels hproblem, {
    version := hversion.trans hcertificate.version
    problemHash := hhash
    stepCount_le := h.stepCount_eq.trans_le hcertificate.stepCount_le
    sorted := h.map_goal_eq ▸ hcertificate.sorted
    required := ?_ }, ⟨hproves'.goals, hproves'.steps⟩, h.paths.2 hpaths⟩
  intro i hi
  rw [h.requiredGoalIndices_eq]
  exact hcertificate.required i (h.map_goal_eq ▸ hi)

/-- **Renaming keeps acceptance.** Every seed renames a bundle that the kernel accepts into one that,
rehashed, the kernel accepts with the same numbers of verified goals and steps. -/
theorem alphaRenameBundle_accepts (haccepts : Accepts S bundle.problem bundle.certificate limits)
    (hsize : limits = .default ∨ bundle.problem.InMemory) (seed : UInt64) :
    ∃ renamed rehashed report report', alphaRenameBundle bundle seed = .ok renamed ∧
      renamed.rehash S = .ok rehashed ∧
      replayCertificate S bundle.problem bundle.certificate limits = .ok report ∧
      replayCertificate S rehashed.problem rehashed.certificate limits = .ok report' ∧
      report'.accepted = true ∧ report'.verifiedGoals = report.verifiedGoals ∧
      report'.verifiedSteps = report.verifiedSteps := by
  obtain ⟨hproblem, -, hproves, -⟩ := accepts_iff.1 haccepts
  have hmemory : bundle.problem.InMemory := by
    rcases hsize with rfl | hmemory
    · exact hproblem.inMemory
    · exact hmemory
  obtain ⟨renamed, rng, hrun, r, hrenamed, hdist, hlabels⟩ :=
    Draw.Yields.alphaRenameDraw (hproves.usesAxioms hproblem.axioms_nodup) ⟨seed⟩
  obtain ⟨problemHash, hhash⟩ := renamed.problem.canonicalHash_ok S
  obtain ⟨report, hreport, -, hgoals, hsteps⟩ := replayCertificate_of_accepts haccepts
  obtain ⟨report', hreport', haccepted, hgoals', hsteps'⟩ := replayCertificate_of_accepts
    (hrenamed.accepts hdist (hlabels hmemory.small) haccepts hhash)
  refine ⟨renamed, { renamed with certificate := { renamed.certificate with problemHash } },
    report, report', bind_eq_ok.2 ⟨_, hrun, rfl⟩, bind_eq_ok.2 ⟨_, hhash, rfl⟩, hreport, hreport',
    haccepted, ?_, ?_⟩
  · rw [hgoals', hgoals, hrenamed.requiredGoalIndices_eq]
  · rw [hsteps', hsteps, ← hrenamed.stepCount_eq]
    rfl

end Accepted

/-- The hashes of `unitProblem` and of what seed 7 renames it to. -/
def unitSerde : Serde where
  toVec problem := .ok problem.toJson.toUTF8.toList
  sha256Hex bytes :=
    if bytes = unitProblem.toJson.toUTF8.toList then unitDigest
    else "4ce2e4525129ddc05231d804d3f4cd7384c6d0c4ec08573d4b5d23558f397db5"
  toVec_ok := (Serde.ofDigest unitDigest).toVec_ok

def unitBundle : RuliadProofBundle := ⟨unitProblem, unitCertificate⟩

theorem accepts_unitBundle :
    Accepts unitSerde unitBundle.problem unitBundle.certificate .default := by
  obtain ⟨hproblem, hcertificate, hproves⟩ := accepts_iff.1 accepts_unitCertificate
  have hhash : unitProblem.canonicalHash unitSerde = .ok unitDigest :=
    congrArg Except.ok (if_pos rfl)
  exact accepts_iff.2 ⟨hproblem, { hcertificate with problemHash := hhash }, hproves⟩

theorem alphaRenameBundle_accepts_unitBundle :
    ∃ renamed rehashed report report', alphaRenameBundle unitBundle 7 = .ok renamed ∧
      renamed.rehash unitSerde = .ok rehashed ∧
      replayCertificate unitSerde unitBundle.problem unitBundle.certificate .default =
        .ok report ∧
      replayCertificate unitSerde rehashed.problem rehashed.certificate .default = .ok report' ∧
      report'.accepted = true ∧ report'.verifiedGoals = report.verifiedGoals ∧
      report'.verifiedSteps = report.verifiedSteps :=
  alphaRenameBundle_accepts accepts_unitBundle (.inl rfl) 7

end BurnDragon.Ruliad
