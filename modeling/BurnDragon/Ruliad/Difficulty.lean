import BurnDragon.Ruliad.Completeness

/-!
# The size of a difficulty level

How many term nodes the goals of a generated problem have, and which difficulty levels stay within the
limits of the kernel. A leaf has `leafNodes` nodes and a composition two more than its parts, so a left
fold over `n` leaves grows with the square of `n` (`FormalDag.Grown.composeLeft_nodes`), and passes over
`2 ^ k` leaves with `k * 2 ^ k` (`Draw.Yields.composeLevels_nodes`).

`generates_forDifficulty_iff` compares this with the limits for every level: the levels up to
`highestLevel` succeed and all others fail.
-/

namespace BurnDragon.Ruliad

open Equational Rust FormalDag List RuliadFormalGeneratorConfig

/-! ## Sizes -/

section Sizes

variable {theory : DomainTheory} {laws : DomainLaws} {salt : UInt64}
  {config : RuliadFormalGeneratorConfig} {leaves w : ℕ} {dag : FormalDag} {frontier : List ℕ}

/-- The number of nodes in the sides of a leaf goal. -/
def leafNodes (config : RuliadFormalGeneratorConfig) : ℕ :=
  2 + 2 * config.rewriteDepth + 4 * config.contextDepth

/-- The nodes of the leaves. -/
theorem Draw.Yields.appendLeafGoals_nodes (remaining : ℕ) {leaf : ℕ}
    (h : Grown theory laws salt config leaf dag frontier)
    (hleaf : leaf + remaining ≤ config.leafCount)
    (hw : ∀ i ∈ frontier, dag.weight i = leafNodes config) :
    Yields (Ruliad.appendLeafGoals theory laws salt config leaf remaining dag frontier)
      fun result => result.2.length = frontier.length + remaining ∧
        (∀ i ∈ result.2, result.1.weight i = leafNodes config) ∧
        result.1.nodes = dag.nodes + remaining * leafNodes config := by
  induction remaining generalizing leaf dag frontier with
  | zero => exact pure ⟨rfl, hw, by simp⟩
  | succ remaining ih =>
    refine bind appendLeafGoal fun result hresult => ?_
    obtain ⟨proofLaws, path, hdraw, rfl⟩ := hresult
    have hgrown := h.push_leaf (.leaf (show leaf < config.leafCount by omega) hdraw)
      (by rw [length_map, hdraw.length_laws])
    have hsize : (leafTerm theory salt leaf path proofLaws).size +
        (leafTerm theory salt leaf path []).size = leafNodes config := by
      rw [size_leafTerm, size_leafTerm, hdraw.length_laws, hdraw.length_path, length_nil, leafNodes]
      omega
    refine (ih hgrown (by omega) fun i hi => ?_).mono fun result hresult => ?_
    · rcases mem_append.1 hi with hi | hi
      · rw [weight_push_of_lt (h.frontier_lt i hi), hw i hi]
      · rw [mem_singleton.1 hi, weight_push_self, hsize]
    · obtain ⟨hlength, hweights, hnodes⟩ := hresult
      refine ⟨by rw [hlength, length_append, length_singleton]; omega, hweights, ?_⟩
      rw [hnodes, nodes_push, hsize, Nat.succ_mul]
      omega

/-- The nodes of a left fold over goals of one size. -/
theorem FormalDag.Grown.composeLeft_nodes {root root' : ℕ} {dag' : FormalDag}
    (h : Grown theory laws salt config leaves dag (root :: frontier))
    (hw : ∀ i ∈ frontier, dag.weight i = w)
    (heq : Ruliad.composeLeft theory frontier dag root = .ok (dag', root')) :
    2 * dag'.nodes + 4 * frontier.length = 2 * dag.nodes +
      frontier.length * (2 * (dag.weight root + 2) + (frontier.length + 1) * (w + 2)) := by
  induction frontier generalizing dag root with
  | nil =>
    obtain ⟨rfl, rfl⟩ := Prod.mk.inj (Except.ok.inj heq)
    simp
  | cons right frontier ih =>
    obtain ⟨goal, node, happend, hgrown, hsize⟩ := h.appendCompositionGoal
    obtain ⟨_, hfirst, hrest⟩ := bind_eq_ok.1 heq
    obtain rfl := Except.ok.inj (happend.symm.trans hfirst)
    have hlt : ∀ i ∈ frontier, i < dag.goals.length := fun i hi => h.frontier_lt i (by simp [hi])
    have hih := ih hgrown (fun i hi => by rw [weight_push_of_lt (hlt i hi), hw i (by simp [hi])])
      hrest
    rw [weight_push_self, nodes_push, hsize, hw right (by simp)] at hih
    rw [length_cons]
    linarith

/-- The nodes of one pass over goals of one size. -/
theorem FormalDag.Grown.composePairs_nodes {dag' : FormalDag} {next : List ℕ} :
    ∀ (done : List ℕ) {m : ℕ}, Grown theory laws salt config leaves dag (done ++ frontier) →
      frontier.length = 2 * m → (∀ i ∈ frontier, dag.weight i = w) →
      Ruliad.composePairs theory frontier dag = .ok (dag', next) →
      dag'.nodes = dag.nodes + m * (2 * w + 2) ∧ (∀ i ∈ next, dag'.weight i = 2 * w + 2) ∧
        ∀ i < dag.goals.length, dag'.weight i = dag.weight i := by
  induction frontier using List.twoStepInduction generalizing dag next with
  | nil =>
    intro done m _ hlength _ heq
    obtain ⟨rfl, rfl⟩ := Prod.mk.inj (Except.ok.inj heq)
    obtain rfl : m = 0 := by simpa using hlength.symm
    simp
  | singleton left =>
    intro done m _ hlength
    simp only [length_singleton] at hlength
    omega
  | cons_cons left right rest ih _ =>
    intro done m h hlength hw heq
    have hperm : (left :: right :: (done ++ rest)).Perm (done ++ left :: right :: rest) :=
      (perm_middle (a := right).symm.cons left).trans perm_middle.symm
    obtain ⟨goal, node, happend, hgrown, hsize⟩ := (h.perm hperm).appendCompositionGoal
    obtain ⟨_, hfirst, heq⟩ := bind_eq_ok.1 heq
    obtain rfl := Except.ok.inj (happend.symm.trans hfirst)
    obtain ⟨⟨dag'', next'⟩, hrest, heq⟩ := bind_eq_ok.1 heq
    obtain ⟨rfl, rfl⟩ := Prod.mk.inj (Except.ok.inj heq)
    obtain ⟨m, rfl⟩ : ∃ k, m = k + 1 := ⟨m - 1, by simp only [length_cons] at hlength; omega⟩
    rw [hw left (by simp), hw right (by simp)] at hsize
    have hlt : ∀ i ∈ rest, i < dag.goals.length := fun i hi => h.frontier_lt i (by simp [hi])
    have hpush : (dag.push goal node).goals.length = dag.goals.length + 1 := by simp [push]
    have hlength' : rest.length = 2 * m := by
      simp only [length_cons] at hlength
      omega
    obtain ⟨hnodes, hweights, hold⟩ := ih (done ++ [dag.goals.length])
      (hgrown.perm (by simp)) hlength'
      (fun i hi => by rw [weight_push_of_lt (hlt i hi), hw i (by simp [hi])]) hrest
    refine ⟨?_, fun i hi => ?_, fun i hi => ?_⟩
    · rw [hnodes, nodes_push, hsize]
      linarith
    · rcases mem_cons.1 hi with rfl | hi
      · rw [hold _ (by omega), weight_push_self, hsize]
        omega
      · exact hweights i hi
    · rw [hold i (by omega), weight_push_of_lt hi]

/-- The nodes of the passes over `2 ^ k` goals of one size. -/
theorem Draw.Yields.composeLevels_nodes {shuffled : Bool} {k fuel : ℕ}
    (h : Grown theory laws salt config leaves dag frontier) (hlength : frontier.length = 2 ^ k)
    (hw : ∀ i ∈ frontier, dag.weight i = w) (hfuel : frontier.length ≤ fuel + 1) :
    Yields (Ruliad.composeLevels theory shuffled fuel dag frontier) fun result =>
      result.1.nodes + 2 * 2 ^ k = dag.nodes + k * 2 ^ k * (w + 2) + 2 := by
  induction k generalizing fuel dag frontier w with
  | zero =>
    cases fuel with
    | zero => exact pure (by simp)
    | succ fuel =>
      rw [Ruliad.composeLevels, if_neg (by omega)]
      exact pure (by simp)
  | succ k ih =>
    have hpow : 2 ^ (k + 1) = 2 * 2 ^ k := by rw [pow_succ, Nat.mul_comm]
    have hpos : 0 < 2 ^ k := Nat.two_pow_pos k
    obtain ⟨fuel, rfl⟩ : ∃ n, fuel = n + 1 := ⟨fuel - 1, by omega⟩
    have hpass : ∀ order : List ℕ, order.Perm frontier →
        Yields (do
          let paired ← StateT.lift (Ruliad.composePairs theory order dag)
          Ruliad.composeLevels theory shuffled fuel paired.1 paired.2) fun result =>
          result.1.nodes + 2 * 2 ^ (k + 1) = dag.nodes + (k + 1) * 2 ^ (k + 1) * (w + 2) + 2 := by
      intro order hperm
      have hgrown := h.perm hperm
      have hlen := hperm.length_eq
      obtain ⟨dag', next, heq, hgrown', hnext⟩ := hgrown.composePairs []
      obtain ⟨hnodes, hweights, -⟩ := hgrown.composePairs_nodes [] (m := 2 ^ k)
        (by omega) (fun i hi => hw i (hperm.mem_iff.1 hi)) heq
      rw [nil_append] at hgrown'
      refine bind (lift heq rfl) fun result hresult => ?_
      subst hresult
      refine (ih hgrown' (by omega) hweights (by omega)).mono fun result hresult => ?_
      rw [hnodes] at hresult
      rw [hpow]
      linarith
    rw [Ruliad.composeLevels, if_pos (by omega)]
    split_ifs
    · exact bind (shuffle frontier) fun order hperm => hpass order hperm
    · refine bind (pure rfl) fun order horder => ?_
      subst horder
      exact hpass _ (List.Perm.refl _)

/-- The nodes of all goals: of a left fold for the validation split, of passes for the others. -/
def GoalNodes (config : RuliadFormalGeneratorConfig) (dag : FormalDag) : Prop :=
  match config.generationSplit with
  | .structuralValidationV1 => ∀ m, config.leafCount = m + 1 →
    2 * dag.nodes + 4 * m = 2 * ((m + 1) * leafNodes config) +
      m * (2 * (leafNodes config + 2) + (m + 1) * (leafNodes config + 2))
  | _ => ∀ k, config.leafCount = 2 ^ k →
    dag.nodes + 2 * 2 ^ k = 2 ^ k * leafNodes config + k * 2 ^ k * (leafNodes config + 2) + 2

/-- **The nodes of the goals**, whatever the draws are. -/
theorem Draw.Yields.formalGoals_nodes (hleaves : config.leafCount ≠ 0) :
    Yields (Ruliad.formalGoals theory laws salt config) fun result => GoalNodes config result.1 := by
  refine bind ((appendLeafGoals .empty (by omega)).and
    (appendLeafGoals_nodes config.leafCount .empty (by omega) (by simp)))
    fun result hresult => ?_
  obtain ⟨dag, frontier⟩ := result
  obtain ⟨hgrown, hlength, hweights, hnodes⟩ := hresult
  have hempty : FormalDag.nodes ⟨[], []⟩ = 0 := rfl
  simp only [length_nil, Nat.zero_add, hempty] at hgrown hlength hweights hnodes
  obtain ⟨first, rest, rfl⟩ := exists_cons_of_ne_nil (l := frontier) fun hnil => hleaves
    (by rw [← hlength, hnil, length_nil])
  have hlevels : ∀ shuffled, Yields (do
      let composed ← Ruliad.composeLevels theory shuffled (first :: rest).length dag
        (first :: rest)
      let root ← StateT.lift (index composed.2 0)
      return (composed.1, root)) fun result => ∀ k, config.leafCount = 2 ^ k →
        result.1.nodes + 2 * 2 ^ k =
          2 ^ k * leafNodes config + k * 2 ^ k * (leafNodes config + 2) + 2 := by
    intro shuffled
    have hroot := @composeLevels _ _ _ _ _ _ _ shuffled (first :: rest).length hgrown (by simp)
      (by omega)
    by_cases hpow : ∃ k, config.leafCount = 2 ^ k
    · obtain ⟨k, hk⟩ := hpow
      refine bind (hroot.and (composeLevels_nodes hgrown (hlength.trans hk) hweights (by omega)))
        fun result hresult => ?_
      obtain ⟨dag', frontier'⟩ := result
      obtain ⟨⟨root, rfl, -⟩, hsize⟩ := hresult
      refine bind (lift rfl rfl) fun root' _ => pure fun k' hk' => ?_
      obtain rfl := Nat.pow_right_injective (le_refl 2) (hk.symm.trans hk')
      simpa only [hnodes, hk] using hsize
    · refine bind hroot fun result hresult => ?_
      obtain ⟨dag', frontier'⟩ := result
      obtain ⟨root, rfl, -⟩ := hresult
      exact bind (lift rfl rfl) fun root' _ => pure fun k hk => absurd ⟨k, hk⟩ hpow
  unfold GoalNodes Ruliad.composeGoals
  cases hsplit : config.generationSplit with
  | structuralValidationV1 =>
    obtain ⟨dag', root, heq, -⟩ := hgrown.composeLeft
    have hsize := hgrown.composeLeft_nodes (fun i hi => hweights i (by simp [hi])) heq
    refine bind (lift rfl rfl) fun first' hfirst => ?_
    subst hfirst
    refine lift heq fun m hm => ?_
    obtain rfl : rest.length = m := by
      rw [length_cons] at hlength
      omega
    rw [hweights first (by simp), hnodes, hm] at hsize
    exact hsize
  | shared => exact hlevels _
  | structuralTrainV1 => exact hlevels _

end Sizes

/-! ## Levels -/

/-- The binary digits that `for_difficulty` reads off a level: `depth` of them set the depths,
`dependency` the number of leaves. -/
structure LevelBits (level depth dependency : ℕ) : Prop where
  depth_le : depth ≤ 64
  dependency_pos : 1 ≤ dependency
  dependency_le : dependency ≤ 64
  depth_le_iff : depth ≤ 17 ↔ level ≤ 131070
  dependency_le_iff : dependency ≤ 8 ↔ level ≤ 508
  of_low_dependency : dependency ≤ 8 → depth ≤ 9
  of_high_dependency : 8 < dependency → 9 ≤ depth
  of_low_depth : depth ≤ 17 → dependency ≤ 17
  of_high_depth : 17 < depth → 12 ≤ dependency

/-- **The configuration of a level.** -/
theorem forDifficulty_eq (level : ℕ) : ∃ depth dependency, LevelBits level depth dependency ∧
    forDifficulty level =
      ⟨none, 2 + depth, 2 ^ min dependency 12, 1 + depth / 2, depth + dependency / 2, .shared⟩ := by
  have hiff : ∀ a n : ℕ, bitLength a ≤ n ↔ a < 2 ^ n := fun a n => bitLength_le_iff
  have hcoordinate : saturatingAdd level 1 = min (level + 1) (2 ^ 64 - 1) := rfl
  let depth := bitLength (saturatingAdd level 1)
  let dependency := bitLength (saturatingAdd level 1 / 2 + 1)
  have h64 := hiff (saturatingAdd level 1) 64
  have h17 := hiff (saturatingAdd level 1) 17
  have h9 := hiff (saturatingAdd level 1) 9
  have h8 := hiff (saturatingAdd level 1) 8
  have h0' := hiff (saturatingAdd level 1 / 2 + 1) 0
  have h8' := hiff (saturatingAdd level 1 / 2 + 1) 8
  have h11' := hiff (saturatingAdd level 1 / 2 + 1) 11
  have h17' := hiff (saturatingAdd level 1 / 2 + 1) 17
  have h64' := hiff (saturatingAdd level 1 / 2 + 1) 64
  have hbits : LevelBits level depth dependency := by
    constructor <;> simp only [depth, dependency] <;> omega
  refine ⟨depth, dependency, hbits, ?_⟩
  have hdepth := hbits.depth_le
  have hdependency := hbits.dependency_le
  have hpos := hbits.dependency_pos
  have hlow : 2 ^ 1 ≤ 2 ^ min dependency 12 := Nat.pow_le_pow_right (by omega) (by omega)
  have hhigh : 2 ^ min dependency 12 ≤ 2 ^ 12 := Nat.pow_le_pow_right (by omega) (by omega)
  have hadd : ∀ {a b : ℕ}, a ≤ 64 → b ≤ 64 → saturatingAdd a b = a + b := fun ha hb =>
    saturatingAdd_of_le (by rw [usizeMax]; omega)
  unfold forDifficulty
  change mk none (saturatingAdd 2 depth)
    (max 2 (min ((checkedShl 1 (min dependency 12)).getD 4096) 4096))
    (saturatingAdd 1 (depth / 2)) (saturatingAdd depth (dependency / 2)) .shared = _
  rw [checkedShl_one (by omega), Option.getD_some, hadd (by omega) hdepth,
    hadd (by omega) (by omega), hadd hdepth (by omega)]
  congr 1
  omega

/-- The configuration of a level, for a split and a domain that the caller chooses. -/
def levelConfig (domain : Option RuliadFormalDomain) (split : RuliadFormalGenerationSplit)
    (level : ℕ) : RuliadFormalGeneratorConfig :=
  { RuliadFormalGeneratorConfig.forDifficulty level with domain, generationSplit := split }

/-- The highest level whose problems respect the limits of the kernel. -/
def highestLevel : RuliadFormalGenerationSplit → ℕ
  | .shared => 131070
  | .structuralTrainV1 => 131070
  | .structuralValidationV1 => 508

/-- The axioms of a level are few and small. -/
theorem sum_generatedAxioms_le (theory : DomainTheory) (laws : DomainLaws) (distractors : ℕ) :
    ((generatedAxioms theory laws distractors).map fun rule => rule.lhs.size + rule.rhs.size).sum ≤
      4 * laws.laws.length + distractors * (2 * distractors + 10) := by
  have hwraps : ∀ (indices : List ℕ) (t : RuliadTerm),
      (indices.foldl (fun t i => (laws.cyclic i).wrap t) t).size = t.size + 2 * indices.length := by
    intro indices
    induction indices with
    | nil => simp
    | cons i indices ih =>
      intro t
      rw [foldl_cons, ih, DomainLaw.size_wrap, length_cons]
      omega
  have hdistractor : ∀ index < distractors,
      (theory.derivedDistractor index laws).lhs.size +
        (theory.derivedDistractor index laws).rhs.size ≤ 2 * distractors + 10 := by
    intro index hindex
    unfold DomainTheory.derivedDistractor
    split_ifs
    · simp
    · simp only [hwraps, length_range, Term.size_var]
      omega
  have hlaws : ((laws.laws.map DomainLaw.rule).map fun rule => rule.lhs.size + rule.rhs.size).sum =
      4 * laws.laws.length := by
    rw [map_map, map_congr_left (g := fun _ => 4) fun law _ => by simp [DomainLaw.rule]]
    simp [Nat.mul_comm]
  have hrest : (((List.range distractors).map fun index =>
      theory.derivedDistractor index laws).map fun rule => rule.lhs.size + rule.rhs.size).sum ≤
        distractors * (2 * distractors + 10) := by
    rw [map_map]
    refine (sum_le_card_nsmul _ (2 * distractors + 10) fun x hx => ?_).trans (by simp)
    obtain ⟨index, hindex, rfl⟩ := mem_map.1 hx
    exact hdistractor index (mem_range.1 hindex)
  rw [generatedAxioms, map_append, sum_append, hlaws]
  omega

section Levels

variable {domain : Option RuliadFormalDomain} {split : RuliadFormalGenerationSplit} {level : ℕ}
  {drawn : RuliadFormalDomain} {dag : FormalDag} {bundle : RuliadProofBundle}

theorem length_selectedDomainLaws_le (drawn : RuliadFormalDomain)
    (split : RuliadFormalGenerationSplit) :
    (selectedDomainLaws (domainTheory drawn) split).laws.length ≤ 3 := by
  cases drawn <;> cases split <;> decide

/-- The leaves of a level. -/
theorem leafNodes_levelConfig {depth dependency : ℕ}
    (hconfig : forDifficulty level =
      ⟨none, 2 + depth, 2 ^ min dependency 12, 1 + depth / 2, depth + dependency / 2, .shared⟩) :
    leafNodes (levelConfig domain split level) = 10 + 2 * depth + 4 * (depth / 2) := by
  rw [leafNodes, levelConfig, hconfig]
  simp only
  omega

/-- A left fold over at most 256 leaves is small and one over at least 512 leaves is not. -/
theorem leftFold_nodes {m w nodes : ℕ} (h : 2 * nodes + 4 * m =
    2 * ((m + 1) * w) + m * (2 * (w + 2) + (m + 1) * (w + 2))) :
    (m ≤ 255 → w ≤ 44 → nodes ≤ 1600000) ∧ (511 ≤ m → 44 ≤ w → 4194304 < nodes) := by
  constructor
  · intro hm hw
    have hleaves : (m + 1) * w ≤ 256 * 44 := by gcongr; omega
    have hfold : m * (2 * (w + 2) + (m + 1) * (w + 2)) ≤ 255 * (2 * 46 + 256 * 46) := by
      gcongr <;> omega
    omega
  · intro hm hw
    have hpart : 512 * 46 ≤ (m + 1) * (w + 2) := Nat.mul_le_mul (by omega) (by omega)
    have hfold : m * (2 * 46 + 512 * 46) ≤ m * (2 * (w + 2) + (m + 1) * (w + 2)) :=
      Nat.mul_le_mul_left m (by omega)
    omega

/-- Passes over at most 4096 small leaves are small, and over 4096 large leaves they are not. -/
theorem levels_nodes {k w nodes : ℕ}
    (h : nodes + 2 * 2 ^ k = 2 ^ k * w + k * 2 ^ k * (w + 2) + 2) :
    (k ≤ 12 → w ≤ 76 → nodes ≤ 4150000) ∧ (k = 12 → 82 ≤ w → 4194304 < nodes) := by
  constructor
  · intro hk hw
    have hpow : 2 ^ k ≤ 2 ^ 12 := Nat.pow_le_pow_right (by omega) hk
    have hleaves : 2 ^ k * w ≤ 2 ^ 12 * 76 := by gcongr
    have hpasses : k * 2 ^ k * (w + 2) ≤ 12 * 2 ^ 12 * 78 := by gcongr; omega
    omega
  · rintro rfl hw
    omega

/-- The nodes of a level against the limit. -/
theorem nodes_le_iff_level (hsized : Sized (levelConfig domain split level) drawn dag bundle)
    (hgoals : GoalNodes (levelConfig domain split level) dag) :
    bundle.problem.nodes ≤ 4194304 ↔ level ≤ highestLevel split := by
  obtain ⟨depth, dependency, hbits, hconfig⟩ := forDifficulty_eq level
  have hleaves : (levelConfig domain split level).leafCount = 2 ^ min dependency 12 := by
    rw [levelConfig, hconfig]
  have hdistractors :
      (levelConfig domain split level).distractorAxioms = depth + dependency / 2 := by
    rw [levelConfig, hconfig]
  have hnodes := hsized.nodes
  have haxioms := sum_generatedAxioms_le (domainTheory drawn)
    (selectedDomainLaws (domainTheory drawn) split) (depth + dependency / 2)
  have hlaws := length_selectedDomainLaws_le drawn split
  -- up to depth 17 the axioms have few nodes
  have hfew : depth ≤ 17 → bundle.problem.nodes ≤ 1512 + dag.nodes := by
    intro hdepth
    have hdependency := hbits.of_low_depth hdepth
    have hproduct : (depth + dependency / 2) * (2 * (depth + dependency / 2) + 10) ≤ 25 * 60 := by
      gcongr <;> omega
    rw [hdistractors] at hnodes
    change _ = ((generatedAxioms (domainTheory drawn)
      (selectedDomainLaws (domainTheory drawn) split) _).map _).sum + _ at hnodes
    omega
  have hmore : dag.nodes ≤ bundle.problem.nodes := by omega
  have hbalanced : (∀ k, (levelConfig domain split level).leafCount = 2 ^ k →
      dag.nodes + 2 * 2 ^ k = 2 ^ k * leafNodes (levelConfig domain split level) +
        k * 2 ^ k * (leafNodes (levelConfig domain split level) + 2) + 2) →
      (bundle.problem.nodes ≤ 4194304 ↔ level ≤ 131070) := by
    intro h
    have hsize := levels_nodes (h _ hleaves)
    rw [leafNodes_levelConfig hconfig] at hsize
    rw [← hbits.depth_le_iff]
    constructor
    · intro hle
      by_contra hdepth
      have hdependency := hbits.of_high_depth (by omega)
      have hlarge := hsize.2 (by omega) (by omega)
      omega
    · intro hdepth
      have hsmall := hsize.1 (by omega) (by omega)
      have hsum := hfew hdepth
      omega
  unfold GoalNodes at hgoals
  cases split with
  | shared => exact hbalanced hgoals
  | structuralTrainV1 => exact hbalanced hgoals
  | structuralValidationV1 =>
    have hpos : 0 < 2 ^ min dependency 12 := Nat.two_pow_pos _
    have hsize := leftFold_nodes (hgoals (2 ^ min dependency 12 - 1) (by omega))
    rw [leafNodes_levelConfig hconfig] at hsize
    rw [highestLevel, ← hbits.dependency_le_iff]
    constructor
    · intro hle
      by_contra hdependency
      have hpow : 2 ^ 9 ≤ 2 ^ min dependency 12 := Nat.pow_le_pow_right (by omega) (by omega)
      have hdepth := hbits.of_high_dependency (by omega)
      have hlarge := hsize.2 (by omega) (by omega)
      omega
    · intro hdependency
      have hpow : 2 ^ min dependency 12 ≤ 2 ^ 8 := Nat.pow_le_pow_right (by omega) (by omega)
      have hdepth := hbits.of_low_dependency hdependency
      have hsmall := hsize.1 (by omega) (by omega)
      have hsum := hfew (by omega)
      omega

/-- The other limits of the kernel leave room for every level. -/
theorem withinLimits_iff_nodes (hsized : Sized (levelConfig domain split level) drawn dag bundle)
    (hbuilt : Built (levelConfig domain split level) bundle) :
    WithinLimits bundle .default ↔ bundle.problem.nodes ≤ 4194304 := by
  obtain ⟨depth, dependency, hbits, hconfig⟩ := forDifficulty_eq level
  have hdepth := hbits.depth_le
  have hdependency := hbits.dependency_le
  have hpow : 2 ^ min dependency 12 ≤ 2 ^ 12 := Nat.pow_le_pow_right (by omega) (by omega)
  have hlaws := length_selectedDomainLaws_le drawn split
  have haxioms := hsized.axioms_length
  have hgoals := hbuilt.goals_length
  have hsteps := hbuilt.stepCount
  have hpaths := hbuilt.paths
  simp only [levelConfig, hconfig] at haxioms hgoals hsteps hpaths
  have hproduct : 2 ^ min dependency 12 * (2 + depth) ≤ 2 ^ 12 * 66 := by gcongr; omega
  have htermNodes := termNodes_eq bundle.problem
  rw [usizeMax] at htermNodes
  constructor
  · intro hlimits
    have hle : bundle.problem.termNodes ≤ 4194304 := hlimits.termNodes
    omega
  · intro hle
    refine ⟨?_, ?_, ?_, ?_, hpaths (by omega)⟩
    · show bundle.problem.axioms.length ≤ 16384
      omega
    · show bundle.problem.goals.length ≤ 16384
      omega
    · show bundle.problem.termNodes ≤ 4194304
      omega
    · show bundle.certificate.stepCount ≤ 1048576
      omega

/-- What building the bundle of a level gives. -/
theorem buildFormalBundle_levelConfig (seed : UInt64) (domain : Option RuliadFormalDomain)
    (split : RuliadFormalGenerationSplit) (level : ℕ) :
    ((levelConfig domain split level).rewriteDepth ≠ 0 ∧
      (levelConfig domain split level).leafCount ≠ 0) ∧
    ∃ bundle, buildFormalBundle seed (levelConfig domain split level) = .ok bundle ∧
      Built (levelConfig domain split level) bundle ∧
      (WithinLimits bundle .default ↔ level ≤ highestLevel split) := by
  obtain ⟨depth, dependency, hbits, hconfig⟩ := forDifficulty_eq level
  have hleaves : (levelConfig domain split level).leafCount ≠ 0 := by
    rw [levelConfig, hconfig]
    exact (Nat.two_pow_pos _).ne'
  have hdepth : (levelConfig domain split level).rewriteDepth ≠ 0 := by
    rw [levelConfig, hconfig]
    simp
  obtain ⟨bundle, hbuild, hbuilt, drawn, dag, hgoals, hsized⟩ := buildFormalBundle_of_yields
    seed (Draw.Yields.buildFormalDraw (Q := fun _ dag => GoalNodes _ dag) hleaves
      fun drawn salt => Draw.Yields.formalGoals_nodes hleaves)
  exact ⟨⟨hdepth, hleaves⟩, bundle, hbuild, hbuilt,
    (withinLimits_iff_nodes hsized hbuilt).trans (nodes_le_iff_level hsized hgoals)⟩

/-- **The levels that the generator materializes** are those up to `highestLevel`. -/
theorem generates_forDifficulty_iff (S : Serde) (seed : UInt64) (domain : Option RuliadFormalDomain)
    (split : RuliadFormalGenerationSplit) (level : ℕ) :
    (∃ result, generateFormalBundle S seed (levelConfig domain split level) = .ok (.ok result)) ↔
      level ≤ highestLevel split := by
  obtain ⟨⟨hdepth, hleaves⟩, bundle, hbuild, hbuilt, hlimits⟩ :=
    buildFormalBundle_levelConfig seed domain split level
  rw [hbuilt.generates_iff hdepth hleaves hbuild, hlimits]

/-- Level 509 is beyond the limit of the validation split. -/
theorem not_generates_level_509 : ¬ ∃ (S : Serde) (result : RuliadProofBundle),
    generateFormalBundle S 0 (levelConfig none .structuralValidationV1 509) =
      .ok (.ok result) := by
  rintro ⟨S, hgenerates⟩
  obtain ⟨⟨hdepth, hleaves⟩, bundle, hbuild, hbuilt, hlimits⟩ :=
    buildFormalBundle_levelConfig 0 none .structuralValidationV1 509
  rw [hbuilt.generates_iff hdepth hleaves hbuild, hlimits] at hgenerates
  exact absurd hgenerates (by decide)

end Levels

end BurnDragon.Ruliad
