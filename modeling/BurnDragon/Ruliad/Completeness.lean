import BurnDragon.Ruliad.Generation

/-!
# Completeness of the generator

`Built` says what the generator guarantees of the bundle that it is about to replay: its certificate
proves its problem, and the problem is valid if it is not too large. This holds of the assembled bundle
(`FormalDag.Grown.built`) and after the renaming of the structural splits (`Built.rename`).

`generateFormalBundle_within_limits` says that the generator succeeds exactly if the bundle respects the
five limits of the kernel.
-/

namespace BurnDragon.Ruliad

open Equational Rust List DomainLaw RuliadProofProblem Renaming

/-! ## The axioms -/

variable {theory : DomainTheory} {laws : DomainLaws}

section Axioms

variable {distractors : ℕ}

/-- The axioms of a generated problem. -/
def generatedAxioms (theory : DomainTheory) (laws : DomainLaws) (distractors : ℕ) :
    List RuliadRewriteAxiom :=
  laws.laws.map DomainLaw.rule ++
    (List.range distractors).map fun index => theory.derivedDistractor index laws

theorem validAxiom_rule (htheory : theory.Valid) {law : DomainLaw} (hlaw : law ∈ theory.laws.laws) :
    ValidAxiom law.rule where
  id := (htheory.ids law hlaw).1
  lhs := wellFormed_wrap (htheory.symbols law hlaw) (.var 0)
  rhs := .var 0
  bound i hi := by simpa [DomainLaw.rule] using hi
  lhs_ne_var _ := law.wrap_ne_var

section

variable (hlaws : laws.laws.Sublist theory.laws.laws) (htheory : theory.Valid)
include hlaws htheory

/-- A term wrapped in the laws in turn. -/
theorem foldl_wrap (indices : List ℕ) {t : RuliadTerm} (ht : WellFormed t) (hvars : 0 ∈ t.vars) :
    WellFormed (indices.foldl (fun t i => (laws.cyclic i).wrap t) t) ∧
      0 ∈ (indices.foldl (fun t i => (laws.cyclic i).wrap t) t).vars := by
  induction indices generalizing t with
  | nil => exact ⟨ht, hvars⟩
  | cons i indices ih =>
    have hmem : laws.cyclic i ∈ theory.laws.laws := hlaws.subset (getElem_mem _)
    exact ih (wellFormed_wrap (htheory.symbols _ hmem) ht) (by simpa using hvars)

theorem validAxiom_derivedDistractor {index : ℕ} (hindex : index < 10 ^ 100) :
    ValidAxiom (theory.derivedDistractor index laws) := by
  unfold DomainTheory.derivedDistractor
  split_ifs with h
  · have happly : ∀ s t : RuliadTerm, WellFormed s → WellFormed t →
        WellFormed (.apply theory.combine [s, t]) :=
      fun s t hs ht => .apply htheory.combine (by simp) (by simpa using ⟨hs, ht⟩)
    have hid : validIdentifier "aux_assoc" := by decide +kernel
    exact ⟨hid, happly _ _ (happly _ _ (.var 0) (.var 1)) (.var 2),
      happly _ _ (.var 0) (happly _ _ (.var 1) (.var 2)), by simp, by simp⟩
  · have hwrapped := foldl_wrap hlaws htheory (List.range (index + 1)) (.var 0) (by simp)
    refine ⟨validIdentifier_numbered (by decide +kernel) (by decide) hindex, hwrapped.1, .var 0,
      by simpa using hwrapped.2, fun i => ?_⟩
    -- the last law is around the whole term
    rw [range_succ, foldl_append]
    exact wrap_ne_var _

theorem validAxiom_generatedAxioms (hdistractors : distractors ≤ 10 ^ 100) :
    ∀ rule ∈ generatedAxioms theory laws distractors, ValidAxiom rule := by
  intro rule hrule
  rcases mem_append.1 hrule with hrule | hrule
  · obtain ⟨law, hlaw, rfl⟩ := mem_map.1 hrule
    exact validAxiom_rule htheory (hlaws.subset hlaw)
  · obtain ⟨index, hindex, rfl⟩ := mem_map.1 hrule
    have hlt := mem_range.1 hindex
    exact validAxiom_derivedDistractor hlaws htheory (by omega)

/-- The ids of the axioms are distinct. -/
theorem nodup_generatedAxioms :
    ((generatedAxioms theory laws distractors).map (·.id)).Nodup := by
  have haux : ∀ index, "aux_".toList <+: (theory.derivedDistractor index laws).id.toList := by
    intro index
    unfold DomainTheory.derivedDistractor
    split_ifs
    · exact ⟨"assoc".toList, by simp⟩
    · exact ⟨"derived_".toList ++ (decimal index).toList, by simp [String.toList_append]⟩
  have hinjective : ∀ i j, (theory.derivedDistractor i laws).id =
      (theory.derivedDistractor j laws).id → i = j := by
    -- the two kinds of ids differ in their fifth character
    have hassoc : ∀ n, "aux_assoc" ≠ "aux_derived_" ++ decimal n := fun n h => by
      have h5 := congrArg (fun s : String => s.toList[4]?) h
      simp [String.toList_append] at h5
    intro i j h
    unfold DomainTheory.derivedDistractor at h
    split_ifs at h with hi hj hj
    · omega
    · exact absurd h (hassoc j)
    · exact absurd h.symm (hassoc i)
    · exact decimal_injective ((String.append_right_inj _).1 h)
  rw [generatedAxioms, map_append, map_map, map_map]
  refine nodup_append.2 ⟨?_, ?_, fun a ha b hb heq => ?_⟩
  · exact htheory.nodup.sublist (hlaws.map _)
  · exact List.Nodup.map (fun i j h => hinjective i j h) nodup_range
  · obtain ⟨law, hlaw, rfl⟩ := mem_map.1 ha
    obtain ⟨index, -, rfl⟩ := mem_map.1 hb
    have hid : law.id = (theory.derivedDistractor index laws).id := heq
    refine (htheory.ids law (hlaws.subset hlaw)).2 ?_
    rw [hid]
    exact haux index

end

end Axioms

/-! ## Bundles -/

/-- What the generator guarantees of a bundle, whatever it draws. -/
structure Built (config : RuliadFormalGeneratorConfig) (bundle : RuliadProofBundle) : Prop where
  version : bundle.problem.version = ruliadIrVersion
  certificateVersion : bundle.certificate.version = ruliadIrVersion
  axioms_nodup : (bundle.problem.axioms.map (·.id)).Nodup
  usesAxioms : bundle.UsesAxioms
  proves : Proves bundle.problem bundle.certificate
  paths : config.contextDepth ≤ 4096 →
    ∀ node ∈ bundle.certificate.goals, ∀ step ∈ node.steps, step.path.length ≤ 4096
  path_eq : config.rewriteDepth ≠ 0 →
    ∃ node ∈ bundle.certificate.goals, ∃ step ∈ node.steps, step.path.length = config.contextDepth
  steps_ne_nil : config.rewriteDepth ≠ 0 → ∀ node ∈ bundle.certificate.goals, node.steps ≠ []
  valid : config.contextDepth ≤ 10 ^ 100 → bundle.problem.axioms.length ≤ 16384 →
    bundle.problem.goals.length ≤ 16384 → bundle.problem.termNodes ≤ 4194304 →
    ValidProblem bundle.problem .default
  goals_length : bundle.problem.goals.length + 1 = 2 * config.leafCount
  stepCount : bundle.certificate.stepCount + 2 * config.leafCount =
    config.leafCount * config.rewriteDepth + 2 * bundle.problem.goals.length

variable {config : RuliadFormalGeneratorConfig}

section Assembly

variable {salt : UInt64} {dag : FormalDag} {root : ℕ}

/-- The laws of a leaf undo each other from the outside. -/
theorem replays_lawSteps {problem : RuliadProofProblem} {goal : RuliadProofGoal}
    (hnodup : (problem.axioms.map (·.id)).Nodup) {path : List ℕ} (hpath : ∀ hole ∈ path, hole < 2)
    (leaf : ℕ) {proofLaws : List DomainLaw} (hmem : ∀ law ∈ proofLaws, law.rule ∈ problem.axioms) :
    Replays problem goal (proofLaws.map (lawStep path)) (leafTerm theory salt leaf path proofLaws)
      (leafTerm theory salt leaf path []) := by
  induction proofLaws with
  | nil => rfl
  | cons law proofLaws ih =>
    have hclaim : sourceClaim problem goal (.axiom_ law.id) = some ⟨law.rule.lhs, law.rule.rhs⟩ :=
      (sourceClaim_axiom_eq_some_iff hnodup).2 ⟨law.rule, hmem law (by simp), rfl, rfl⟩
    exact ⟨_, ⟨_, hclaim, at_wrapContext hpath (law.instance_wrap _)⟩,
      ih fun l hl => hmem l (by simp [hl])⟩

/-- The two parts of a composition are rewritten with their goals. -/
theorem replays_partSteps {problem : RuliadProofProblem} {goal leftGoal rightGoal : RuliadProofGoal}
    {left right : ℕ} (hdependencies : goal.dependencies = [left, right])
    (hleft : problem.goals[left]? = some leftGoal) (hright : problem.goals[right]? = some rightGoal)
    (hground : ∀ g ∈ [leftGoal, rightGoal], g.claim.lhs.vars = [] ∧ g.claim.rhs.vars = []) :
    Replays problem goal [partStep 0 left, partStep 1 right]
      (.apply theory.combine [leftGoal.claim.lhs, rightGoal.claim.lhs])
      (.apply theory.combine [leftGoal.claim.rhs, rightGoal.claim.rhs]) := by
  have hclaimLeft : sourceClaim problem goal (.lemma_ left) = some leftGoal.claim := by
    rw [sourceClaim, if_pos (by simp [hdependencies]), hleft, Option.map_some]
  have hclaimRight : sourceClaim problem goal (.lemma_ right) = some rightGoal.claim := by
    rw [sourceClaim, if_pos (by simp [hdependencies]), hright, Option.map_some]
  have hl := hground leftGoal (by simp)
  have hr := hground rightGoal (by simp)
  exact ⟨_, ⟨_, hclaimLeft, (At.root (.of_vars_eq_nil hl.1 hl.2)).fst⟩,
    _, ⟨_, hclaimRight, (At.root (.of_vars_eq_nil hr.1 hr.2)).snd⟩, rfl⟩

namespace FormalDag.Grown

variable {leaves : ℕ} {frontier : List ℕ}

section

variable (h : Grown theory laws salt config leaves dag frontier)
include h

/-- The sides of the goals have no variables. -/
theorem ground (i : ℕ) (goal : RuliadProofGoal) (hgoal : dag.goals[i]? = some goal) :
    goal.claim.lhs.vars = [] ∧ goal.claim.rhs.vars = [] := by
  simp only [eq_nil_iff_forall_not_mem]
  refine h.sides (P := fun t => ∀ j, j ∉ t.vars) (fun leaf _ => by simp [leafAtom])
    (fun law _ t ht => by simpa using ht) (fun path hpath t ht => ?_) (fun s t hs ht => ?_) i goal
    hgoal
  · clear hpath
    induction path with
    | nil => exact ht
    | cons hole path ih =>
      rw [wrapContext_cons]
      split_ifs <;> simpa [scopeAtom] using ih
  · simpa using fun j => ⟨hs j, ht j⟩

theorem wellFormed (htheory : theory.Valid) (hlaws : laws.laws.Sublist theory.laws.laws)
    (hcontext : config.contextDepth ≤ 10 ^ 100) (hleaves : config.leafCount ≤ 10 ^ 100) (i : ℕ)
    (goal : RuliadProofGoal) (hgoal : dag.goals[i]? = some goal) :
    WellFormed goal.claim.lhs ∧ WellFormed goal.claim.rhs := by
  refine h.sides (fun leaf hleaf => .atom ?_)
    (fun law hlaw t ht => wellFormed_wrap (htheory.symbols law (hlaws.subset hlaw)) ht)
    (fun path hpath t ht => wellFormed_wrapContext htheory.context (hpath.trans_le hcontext) ht)
    (fun s t hs ht => .apply htheory.combine (by simp) (by simpa using ⟨hs, ht⟩)) i goal hgoal
  exact validIdentifier_salted htheory.atom.1 htheory.atom.2 (by omega) salt

theorem node_goal {node : RuliadGoalCertificate} (hnode : node ∈ dag.certificates) :
    ∃ i goal, dag.goals[i]? = some goal ∧ dag.certificates[i]? = some node ∧
      Generated theory laws salt config dag.goals i goal node := by
  obtain ⟨i, hi, rfl⟩ := mem_iff_getElem.1 hnode
  have hgoal := getElem?_eq_getElem (h.length_eq ▸ hi)
  exact ⟨i, _, hgoal, getElem?_eq_getElem hi,
    h.generated i _ _ hgoal (getElem?_eq_getElem hi)⟩

theorem goal_node {i : ℕ} {goal : RuliadProofGoal} (hgoal : dag.goals[i]? = some goal) :
    ∃ node, dag.certificates[i]? = some node ∧
      Generated theory laws salt config dag.goals i goal node := by
  have hi := (List.getElem?_eq_some_iff.1 hgoal).1
  have hnode := List.getElem?_eq_getElem (h.length_eq ▸ hi)
  exact ⟨_, hnode, h.generated i goal _ hgoal hnode⟩

end

/-- The required goals are all goals. -/
theorem requiredGoalIndices_eq {problem : RuliadProofProblem}
    (h : Grown theory laws salt config leaves dag [root]) (hgoals : problem.goals = dag.goals)
    (hroot : problem.root = root) :
    problem.requiredGoalIndices = List.range dag.goals.length := by
  refine pairwise_requiredGoalIndices.eq_of_mem_iff pairwise_lt_range
    fun i => ?_
  rw [mem_requiredGoalIndices, mem_range, RuliadProofProblem.Requires,
    hgoals, hroot]
  constructor
  · intro hreach
    induction hreach with
    | refl => exact h.frontier_lt root (by simp)
    | tail _ hedge ih =>
      rename_i j k _
      obtain ⟨node, -, hnew⟩ := h.goal_node (getElem?_eq_getElem ih)
      rw [Graph.Edge, goalDependencies, getElem?_eq_getElem ih] at hedge
      exact (hnew.dependencies.2 k hedge).trans ih
  · intro hi
    obtain ⟨f, hf, hreach⟩ := h.reached i hi
    rwa [mem_singleton.1 hf] at hreach

/-- **The generated certificate proves the generated problem.** -/
theorem built (h : Grown theory laws salt config config.leafCount dag [root])
    (htheory : theory.Valid) (hlaws : laws.laws.Sublist theory.laws.laws)
    (domain : RuliadFormalDomain) :
    Built config ⟨⟨ruliadIrVersion, domain, theory.name,
      generatedAxioms theory laws config.distractorAxioms, dag.goals, root⟩,
      ⟨ruliadIrVersion, "", dag.certificates⟩⟩ where
  version := rfl
  certificateVersion := rfl
  axioms_nodup := nodup_generatedAxioms hlaws htheory
  usesAxioms node hnode step hstep id hid := by
    obtain ⟨i, goal, -, -, hnew⟩ := h.node_goal hnode
    obtain ⟨law, hlaw, rfl⟩ := hnew.axioms_mem hstep hid
    exact ⟨law.rule, mem_append_left _ (mem_map_of_mem hlaw), rfl⟩
  proves := by
    refine ⟨?_, fun node hnode => ?_⟩
    · rw [h.requiredGoalIndices_eq rfl rfl]
      refine ext_getElem (by simp [h.length_eq]) fun i hi hi' => ?_
      rw [length_map] at hi
      obtain ⟨goal, hgoal⟩ : ∃ goal, dag.goals[i]? = some goal :=
        ⟨_, getElem?_eq_getElem (h.length_eq ▸ hi)⟩
      rw [getElem_map, getElem_range]
      exact (h.generated i goal _ hgoal (getElem?_eq_getElem hi)).goal_eq
    · obtain ⟨i, goal, hgoal, -, hnew⟩ := h.node_goal hnode
      refine ⟨goal, by rw [hnew.goal_eq]; exact hgoal, ?_⟩
      cases hnew with
      | leaf _ hdraw =>
        exact replays_lawSteps (nodup_generatedAxioms hlaws htheory) hdraw.path_lt _ fun law hlaw =>
          mem_append_left _ (mem_map_of_mem (hdraw.mem_laws law hlaw))
      | composition _ _ hleft hright =>
        refine replays_partSteps rfl hleft hright fun g hg => ?_
        simp only [mem_cons, not_mem_nil, or_false] at hg
        rcases hg with rfl | rfl
        · exact h.ground _ _ hleft
        · exact h.ground _ _ hright
  paths hcontext node hnode := by
    obtain ⟨i, goal, -, -, hnew⟩ := h.node_goal hnode
    exact hnew.path_le hcontext
  path_eq hdepth := by
    have hpos : 0 < dag.goals.length := (Nat.zero_le _).trans_lt (h.frontier_lt root (by simp))
    obtain ⟨goal, hgoal⟩ : ∃ goal, dag.goals[0]? = some goal := ⟨_, getElem?_eq_getElem hpos⟩
    obtain ⟨node, hnode, hnew⟩ := h.goal_node hgoal
    refine ⟨node, mem_of_getElem? hnode, ?_⟩
    cases hnew with
    | leaf hleaf hdraw =>
      rename_i proofLaws path
      obtain ⟨law, rest, rfl⟩ := exists_cons_of_ne_nil (l := proofLaws) fun hnil => hdepth
        (by rw [← hdraw.length_laws, hnil, length_nil])
      exact ⟨lawStep path law, by simp, hdraw.length_path⟩
    | composition hlt hright => omega
  steps_ne_nil hdepth node hnode hnil := by
    obtain ⟨i, goal, -, -, hnew⟩ := h.node_goal hnode
    cases hnew with
    | leaf _ hdraw =>
      exact hdepth (by rw [← hdraw.length_laws, map_eq_nil_iff.1 hnil, length_nil])
    | composition => cases hnil
  valid hcontext haxioms hgoals hnodes := by
    have hdistractors : config.distractorAxioms ≤ 16384 := by
      have hlength : (generatedAxioms theory laws config.distractorAxioms).length ≤ 16384 := haxioms
      rw [generatedAxioms, length_append, length_map, length_map, length_range] at hlength
      omega
    have hlength : dag.goals.length ≤ 16384 := hgoals
    have hleaves := h.leaves_le
    have hid : ∀ i goal, dag.goals[i]? = some goal → goal.id = "g" ++ decimal i := by
      intro i goal hgoal
      obtain ⟨node, -, hnew⟩ := h.goal_node hgoal
      exact hnew.id_eq
    refine ⟨rfl, htheory.name, h.frontier_lt root (by simp), haxioms, hgoals,
      validAxiom_generatedAxioms hlaws htheory (by omega), nodup_generatedAxioms hlaws htheory,
      fun i goal hgoal => ?_, ?_, hnodes⟩
    · have hi := (List.getElem?_eq_some_iff.1 hgoal).1
      obtain ⟨node, -, hnew⟩ := h.goal_node hgoal
      have hsides := h.wellFormed htheory hlaws hcontext (by omega) i goal hgoal
      refine ⟨?_, hsides.1, hsides.2, hnew.dependencies.1, hnew.dependencies.2⟩
      rw [hid i goal hgoal]
      exact validIdentifier_numbered (by decide +kernel) (by decide) (by omega)
    · have hids : dag.goals.map (·.id) =
          (List.range dag.goals.length).map fun i => "g" ++ decimal i := by
        refine ext_getElem (by simp) fun i hi _ => ?_
        rw [length_map] at hi
        rw [getElem_map, getElem_map, getElem_range]
        exact hid i _ (getElem?_eq_getElem hi)
      show (dag.goals.map (·.id)).Nodup
      rw [hids]
      exact List.Nodup.map (fun i j hij => decimal_injective ((String.append_right_inj _).1 hij))
        nodup_range
  goals_length := h.count
  stepCount := h.stepCount

end FormalDag.Grown

/-- Renaming keeps what the generator guarantees. -/
theorem Built.rename {bundle renamed : RuliadProofBundle} {r : Renaming} (h : Built config bundle)
    (hrenamed : IsRenamed r bundle renamed) (hdist : r.Distinguishes bundle.problem)
    (hlabels : bundle.problem.Small → r.Labels bundle.problem) : Built config renamed where
  version := hrenamed.version.trans h.version
  certificateVersion := by rw [hrenamed.certificate, h.certificateVersion]
  axioms_nodup := axioms_nodup_rename hdist hrenamed h.axioms_nodup
  usesAxioms node hnode step hstep id hid := by
    rw [hrenamed.certificate] at hnode
    obtain ⟨original, horiginal, rfl⟩ := mem_map.1 hnode
    obtain ⟨originalStep, hmem, rfl⟩ := mem_map.1 hstep
    cases hsource : originalStep.source with
    | axiom_ originalId =>
      obtain ⟨rule, hrule, rfl⟩ := h.usesAxioms original horiginal originalStep hmem _ hsource
      refine ⟨r.rule rule, hrenamed.axioms.mem_iff.2 (mem_map_of_mem hrule), ?_⟩
      simpa [Renaming.step, hsource, Renaming.source, Renaming.rule] using hid
    | lemma_ goal => simp [step, hsource, source] at hid
  proves := hrenamed.proves hdist h.axioms_nodup h.proves
  paths hcontext := hrenamed.paths.2 (h.paths hcontext)
  path_eq hdepth := by
    obtain ⟨node, hnode, step, hstep, hpath⟩ := h.path_eq hdepth
    refine ⟨r.node node, ?_, r.step step, mem_map_of_mem hstep, hpath⟩
    rw [hrenamed.certificate]
    exact mem_map_of_mem hnode
  steps_ne_nil hdepth node hnode := by
    rw [hrenamed.certificate] at hnode
    obtain ⟨original, horiginal, rfl⟩ := mem_map.1 hnode
    simpa [node] using h.steps_ne_nil hdepth original horiginal
  valid hcontext haxioms hgoals hnodes := by
    rw [hrenamed.length_axioms_eq] at haxioms
    rw [hrenamed.length_goals_eq] at hgoals
    rw [termNodes_eq, hrenamed.nodes_eq, ← termNodes_eq] at hnodes
    have hsmall : bundle.problem.Small := by
      refine ⟨by omega, by omega, ?_⟩
      rw [termNodes_eq, usizeMax] at hnodes
      omega
    exact hrenamed.validProblem hdist (hlabels hsmall) (h.valid hcontext haxioms hgoals hnodes)
  goals_length := by rw [hrenamed.length_goals_eq, h.goals_length]
  stepCount := by rw [hrenamed.stepCount_eq, hrenamed.length_goals_eq, h.stepCount]

end Assembly

/-! ## The generator -/

section Generator

variable {Q : RuliadFormalDomain → FormalDag → Prop}

/-- The size of a bundle in terms of the axioms and the goals that it was made of. -/
structure Sized (config : RuliadFormalGeneratorConfig) (domain : RuliadFormalDomain)
    (dag : FormalDag) (bundle : RuliadProofBundle) : Prop where
  axioms_length : bundle.problem.axioms.length =
    (selectedDomainLaws (domainTheory domain) config.generationSplit).laws.length +
      config.distractorAxioms
  nodes : bundle.problem.nodes = ((generatedAxioms (domainTheory domain)
    (selectedDomainLaws (domainTheory domain) config.generationSplit)
    config.distractorAxioms).map fun rule => rule.lhs.size + rule.rhs.size).sum + dag.nodes

/-- **Building a bundle never panics.** What the goals satisfy carries over to the bundle. -/
theorem Draw.Yields.buildFormalDraw (hleaves : config.leafCount ≠ 0)
    (hQ : ∀ domain salt, Yields (Ruliad.formalGoals (domainTheory domain)
      (selectedDomainLaws (domainTheory domain) config.generationSplit) salt config)
        fun result => Q domain result.1) :
    Yields (Ruliad.buildFormalDraw config) fun bundle =>
      Built config bundle ∧ ∃ domain dag, Q domain dag ∧ Sized config domain dag bundle := by
  have hdomain : Yields (drawDomain config.domain) fun _ => True := by
    unfold drawDomain
    split
    · exact pure trivial
    · exact bind (nextUsize (by decide)) fun i hi => lift (index_of_lt hi) trivial
  refine bind hdomain fun domain _ => bind nextU64 fun salt _ => ?_
  refine bind ((formalGoals hleaves).and (hQ domain salt)) fun result hresult => ?_
  obtain ⟨dag, root⟩ := result
  obtain ⟨hgrown, hq⟩ := hresult
  have hbuilt := hgrown.built (domainTheory_valid domain)
    (selectedDomainLaws_sublist _ config.generationSplit) domain
  have hsized : Sized config domain dag ⟨⟨ruliadIrVersion, domain, (domainTheory domain).name,
      generatedAxioms (domainTheory domain)
        (selectedDomainLaws (domainTheory domain) config.generationSplit) config.distractorAxioms,
      dag.goals, root⟩, ⟨ruliadIrVersion, "", dag.certificates⟩⟩ :=
    ⟨by simp [generatedAxioms], rfl⟩
  dsimp only
  split_ifs
  · refine bind nextU64 fun seed _ => ?_
    obtain ⟨renamed, rng, hrun, r, hrenamed, hdist, hlabels⟩ :=
      alphaRenameDraw hbuilt.usesAxioms ⟨seed⟩
    have halpha : alphaRenameBundle _ seed = .ok renamed := bind_eq_ok.2 ⟨_, hrun, rfl⟩
    refine lift halpha ⟨hbuilt.rename hrenamed hdist hlabels, domain, dag, hq, ?_, ?_⟩
    · rw [hrenamed.length_axioms_eq, hsized.axioms_length]
    · rw [hrenamed.nodes_eq, hsized.nodes]
  · exact pure ⟨hbuilt, domain, dag, hq, hsized⟩

/-- Every seed builds a bundle. -/
theorem buildFormalBundle_of_yields (seed : UInt64) {P : RuliadProofBundle → Prop}
    (h : Draw.Yields (buildFormalDraw config) P) :
    ∃ bundle, buildFormalBundle seed config = .ok bundle ∧ P bundle := by
  obtain ⟨bundle, rng, hrun, hP⟩ := h ⟨seed⟩
  exact ⟨bundle, bind_eq_ok.2 ⟨_, hrun, rfl⟩, hP⟩

/-- The bundle respects the limits of the kernel. -/
structure WithinLimits (bundle : RuliadProofBundle) (limits : RuliadKernelLimits) : Prop where
  axioms : bundle.problem.axioms.length ≤ limits.maximumAxioms
  goals : bundle.problem.goals.length ≤ limits.maximumGoals
  termNodes : bundle.problem.termNodes ≤ limits.maximumTermNodes
  stepCount : bundle.certificate.stepCount ≤ limits.maximumSteps
  paths : ∀ node ∈ bundle.certificate.goals, ∀ step ∈ node.steps,
    step.path.length ≤ limits.maximumPathDepth

variable {S : Serde} {bundle : RuliadProofBundle}

/-- The kernel accepts a built bundle exactly within its limits. -/
theorem Built.accepts_iff (h : Built config bundle) (hdepth : config.rewriteDepth ≠ 0)
    {hash : String} (hhash : bundle.problem.canonicalHash S = .ok hash) :
    Accepts S bundle.problem { bundle.certificate with problemHash := hash } .default ↔
      WithinLimits bundle .default := by
  rw [Ruliad.accepts_iff]
  constructor
  · rintro ⟨hproblem, hcertificate, -, hpaths⟩
    exact ⟨hproblem.axioms_length, hproblem.goals_length, hproblem.termNodes_le,
      hcertificate.stepCount_le, hpaths⟩
  · intro hlimits
    obtain ⟨node, hnode, step, hstep, hpath⟩ := h.path_eq hdepth
    have hcontext : config.contextDepth ≤ 4096 := hpath ▸ hlimits.paths node hnode step hstep
    refine ⟨h.valid (by omega) hlimits.axioms hlimits.goals hlimits.termNodes,
      ⟨h.certificateVersion, hhash, hlimits.stepCount, ?_, ?_⟩, ⟨h.proves.goals, h.proves.steps⟩,
      hlimits.paths⟩
    · show (bundle.certificate.goals.map (·.goal)).Pairwise (· < ·)
      rw [h.proves.goals]
      exact pairwise_requiredGoalIndices
    · intro i hi
      rwa [← h.proves.goals]

/-- What `generate_formal_bundle` returns for a bundle that has been built. -/
theorem generateFormalBundle_eq_ok_iff {seed : UInt64} (hdepth : config.rewriteDepth ≠ 0)
    (hleaves : config.leafCount ≠ 0) (hbuild : buildFormalBundle seed config = .ok bundle)
    {result : RuliadProofBundle} :
    generateFormalBundle S seed config = .ok (.ok result) ↔ ∃ hash,
      bundle.problem.canonicalHash S = .ok hash ∧
      result = { bundle with certificate := { bundle.certificate with problemHash := hash } } ∧
      Accepts S result.problem result.certificate .default := by
  obtain ⟨hash, hhash⟩ := bundle.problem.canonicalHash_ok S
  obtain ⟨report, hreport⟩ := replayCertificate_ok S bundle.problem
    { bundle.certificate with problemHash := hash } .default
  have hguard : ¬ (config.rewriteDepth = 0 ∨ config.leafCount = 0) := by tauto
  simp only [generateFormalBundle, if_neg hguard, hbuild, hhash, hreport, bind,
    Except.bind, Except.ok.injEq]
  constructor
  · intro h
    split_ifs at h with haccepted
    · simp only [pure, Except.pure, Except.ok.injEq] at h
      exact ⟨hash, rfl, h.symm, h ▸ ⟨report, hreport, haccepted⟩⟩
    · simp [pure, Except.pure] at h
  · rintro ⟨_, rfl, rfl, report', hreport', haccepted⟩
    obtain rfl : report = report' := Except.ok.inj (hreport.symm.trans hreport')
    rw [if_pos haccepted]
    rfl

/-- The generator succeeds exactly if the bundle respects the limits. -/
theorem Built.generates_iff {seed : UInt64} (h : Built config bundle)
    (hdepth : config.rewriteDepth ≠ 0) (hleaves : config.leafCount ≠ 0)
    (hbuild : buildFormalBundle seed config = .ok bundle) :
    (∃ result, generateFormalBundle S seed config = .ok (.ok result)) ↔
      WithinLimits bundle .default := by
  obtain ⟨hash, hhash⟩ := bundle.problem.canonicalHash_ok S
  rw [← h.accepts_iff hdepth hhash]
  constructor
  · rintro ⟨result, hresult⟩
    obtain ⟨hash', hhash', rfl, haccepts⟩ :=
      (generateFormalBundle_eq_ok_iff hdepth hleaves hbuild).1 hresult
    obtain rfl := Except.ok.inj (hhash.symm.trans hhash')
    exact haccepts
  · exact fun haccepts => ⟨_, (generateFormalBundle_eq_ok_iff hdepth hleaves hbuild).2
      ⟨hash, hhash, rfl, haccepts⟩⟩

/-- **Generator completeness.** The generator succeeds exactly if the bundle that it builds respects
the limits of the kernel, and then every required goal is verified. -/
theorem generateFormalBundle_within_limits (S : Serde) (seed : UInt64)
    (config : RuliadFormalGeneratorConfig) (hdepth : config.rewriteDepth ≠ 0)
    (hleaves : config.leafCount ≠ 0) :
    ∃ bundle, buildFormalBundle seed config = .ok bundle ∧
      ((∃ result, generateFormalBundle S seed config = .ok (.ok result)) ↔
        WithinLimits bundle .default) ∧
      ∀ result, generateFormalBundle S seed config = .ok (.ok result) →
        result.problem = bundle.problem ∧
        ∃ report, replayCertificate S result.problem result.certificate .default = .ok report ∧
          report.accepted = true ∧
          report.verifiedGoals = result.problem.requiredGoalIndices.length := by
  obtain ⟨bundle, hbuild, hbuilt, -⟩ := buildFormalBundle_of_yields seed
    (Draw.Yields.buildFormalDraw (Q := fun _ _ => True) hleaves fun domain salt =>
      (Draw.Yields.formalGoals hleaves).mono fun _ _ => trivial)
  refine ⟨bundle, hbuild, hbuilt.generates_iff hdepth hleaves hbuild, fun result hresult => ?_⟩
  obtain ⟨hash, -, rfl, haccepts⟩ :=
    (generateFormalBundle_eq_ok_iff hdepth hleaves hbuild).1 hresult
  obtain ⟨report, hreport, haccepted, hgoals, -⟩ := replayCertificate_of_accepts haccepts
  exact ⟨rfl, report, hreport, haccepted, hgoals⟩

/-- Two leaves of category theory with renamed symbols. -/
def smallConfig : RuliadFormalGeneratorConfig := ⟨some .category, 1, 2, 1, 1, .structuralTrainV1⟩

/-- The hash of the problem that the seed 7 gives. -/
def smallDigest : String := "56b551a81e3da9497c52db1df4ceea0de1e2a633800b3b8defc19c3a3d5fd6dc"

theorem generateFormalBundle_within_limits_smallConfig :
    ∃ bundle, buildFormalBundle 7 smallConfig = .ok bundle ∧
      ((∃ result, generateFormalBundle (.ofDigest smallDigest) 7 smallConfig = .ok (.ok result)) ↔
        WithinLimits bundle .default) ∧
      ∀ result, generateFormalBundle (.ofDigest smallDigest) 7 smallConfig = .ok (.ok result) →
        result.problem = bundle.problem ∧
        ∃ report, replayCertificate (.ofDigest smallDigest) result.problem result.certificate
            .default = .ok report ∧
          report.accepted = true ∧
          report.verifiedGoals = result.problem.requiredGoalIndices.length :=
  generateFormalBundle_within_limits (.ofDigest smallDigest) 7 smallConfig (by decide) (by decide)

/-! ## A context beyond the path limit -/

/-- The goals over a single leaf. -/
theorem FormalDag.Grown.nodes_of_single {salt : UInt64} {dag : FormalDag} {root : ℕ}
    (h : Grown theory laws salt config 1 dag [root]) :
    dag.nodes = 2 + 2 * config.rewriteDepth + 4 * config.contextDepth := by
  have hcount := h.count
  rw [length_singleton] at hcount
  obtain ⟨goal, hgoals⟩ := length_eq_one_iff.1 (show dag.goals.length = 1 by omega)
  have hgoal : dag.goals[0]? = some goal := by rw [hgoals]; rfl
  obtain ⟨node, -, hnew⟩ := h.goal_node hgoal
  rw [nodes, hgoals]
  cases hnew with
  | leaf hleaf hdraw =>
    simp only [map_cons, map_nil, sum_cons, sum_nil, size_leafTerm,
      length_nil, hdraw.length_laws, hdraw.length_path]
    omega
  | composition hlt hright => omega

/-- One leaf in a context that is one deeper than the kernel follows a path. -/
def deepContext : RuliadFormalGeneratorConfig := ⟨some .equational, 1, 1, 4097, 0, .shared⟩

/-- A problem within its limits whose certificate the kernel rejects. -/
theorem generateFormalBundle_deepContext :
    (deepContext.rewriteDepth ≠ 0 ∧ deepContext.leafCount ≠ 0) ∧ ∀ S : Serde,
      ∃ bundle, buildFormalBundle 0 deepContext = .ok bundle ∧
        (∃ hash, validateProblem S bundle.problem .default = .ok hash) ∧
        ¬ ∃ result, generateFormalBundle S 0 deepContext = .ok (.ok result) := by
  have hleaves : deepContext.leafCount ≠ 0 := by decide
  have hdepth : deepContext.rewriteDepth ≠ 0 := by decide
  refine ⟨⟨hdepth, hleaves⟩, fun S => ?_⟩
  obtain ⟨bundle, hbuild, hbuilt, domain, dag, hnodes, hsized⟩ := buildFormalBundle_of_yields
    0 (Draw.Yields.buildFormalDraw (Q := fun _ dag => dag.nodes = 16392) hleaves
      fun domain salt => (Draw.Yields.formalGoals hleaves).mono fun _ h => h.nodes_of_single)
  refine ⟨bundle, hbuild, ?_, fun hgenerates => ?_⟩
  · have haxioms : ((generatedAxioms (domainTheory domain) (selectedDomainLaws (domainTheory domain)
        deepContext.generationSplit) deepContext.distractorAxioms).map
          fun rule => rule.lhs.size + rule.rhs.size).sum ≤ 12 := by
      cases domain <;> decide
    have hlength : (selectedDomainLaws (domainTheory domain)
        deepContext.generationSplit).laws.length ≤ 3 := by
      cases domain <;> decide
    have hsize := hsized.nodes
    have hgoals := hbuilt.goals_length
    have hvalid : ValidProblem bundle.problem .default := by
      refine hbuilt.valid (by decide) ?_ ?_ ?_
      · rw [hsized.axioms_length]
        exact (Nat.add_le_add_right hlength _).trans (by decide)
      · rw [show deepContext.leafCount = 1 from rfl] at hgoals
        omega
      · rw [termNodes_eq]
        omega
    obtain ⟨hash, hhash⟩ := bundle.problem.canonicalHash_ok S
    exact ⟨hash, validateProblem_eq_ok_iff.2 ⟨hvalid, hhash⟩⟩
  · have hlimits := (hbuilt.generates_iff hdepth hleaves hbuild).1 hgenerates
    obtain ⟨node, hnode, step, hstep, hpath⟩ := hbuilt.path_eq hdepth
    have hle := hlimits.paths node hnode step hstep
    rw [hpath] at hle
    exact absurd hle (by decide)

end Generator

end BurnDragon.Ruliad
