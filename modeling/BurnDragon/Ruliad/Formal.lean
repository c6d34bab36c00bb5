import BurnDragon.Ruliad.Kernel
import BurnDragon.Ruliad.Rng

/-!
# The generator of formal problems

`formal.rs`: a problem of a domain and its certificate, drawn from a seed. Every leaf goal wraps an
atom into laws of the domain and into a context and is proved by undoing the laws; the leaves are
combined pairwise into goals that use both parts as lemmas, until one root is left. The structural
splits also rename all symbols.

`buildFormalBundle` is everything up to the replay that `generateFormalBundle` ends with. The error
of a failed replay carries the failure that the code prints.
-/

namespace BurnDragon.Ruliad

open Equational Rust

/-! ## Configuration -/

inductive RuliadFormalGenerationSplit
  | shared
  | structuralTrainV1
  | structuralValidationV1
  deriving DecidableEq

/-- `alpha_renamed`. -/
def RuliadFormalGenerationSplit.alphaRenamed : RuliadFormalGenerationSplit → Bool
  | shared => false
  | structuralTrainV1 => true
  | structuralValidationV1 => true

structure RuliadFormalGeneratorConfig where
  domain : Option RuliadFormalDomain
  rewriteDepth : ℕ
  leafCount : ℕ
  contextDepth : ℕ
  distractorAxioms : ℕ
  generationSplit : RuliadFormalGenerationSplit
  deriving DecidableEq

/-- `for_difficulty`. -/
def RuliadFormalGeneratorConfig.forDifficulty (level : ℕ) : RuliadFormalGeneratorConfig :=
  let coordinate := saturatingAdd level 1
  let depthBits := bitLength coordinate
  let dependencyBits := bitLength (coordinate / 2 + 1)
  { domain := none
    rewriteDepth := saturatingAdd 2 depthBits
    leafCount := max 2 (min ((checkedShl 1 (min dependencyBits 12)).getD 4096) 4096)
    contextDepth := saturatingAdd 1 (depthBits / 2)
    distractorAxioms := saturatingAdd depthBits (dependencyBits / 2)
    generationSplit := .shared }

/-! ## Domain theories -/

inductive DomainLawShape
  | leftUnit (operator unit : String)
  | rightUnit (operator unit : String)
  | cancelPair (outer inner : String)
  deriving DecidableEq

structure DomainLaw where
  id : String
  shape : DomainLawShape
  deriving DecidableEq

/-- `wrap`: the left side of the law around a term. -/
def DomainLaw.wrap (law : DomainLaw) (term : RuliadTerm) : RuliadTerm :=
  match law.shape with
  | .leftUnit operator unit => .apply operator [.atom unit, term]
  | .rightUnit operator unit => .apply operator [term, .atom unit]
  | .cancelPair outer inner => .apply outer [.apply inner [term]]

/-- `axiom`. -/
def DomainLaw.rule (law : DomainLaw) : RuliadRewriteAxiom :=
  ⟨law.id, law.wrap (.var 0), .var 0⟩

/-- A list of laws that is not empty. -/
structure DomainLaws where
  laws : List DomainLaw
  ne_nil : laws ≠ []

/-- `laws[index % laws.len()]`. -/
def DomainLaws.cyclic (laws : DomainLaws) (index : ℕ) : DomainLaw :=
  laws.laws.get ⟨index % laws.laws.length, Nat.mod_lt _ (List.length_pos_iff.2 laws.ne_nil)⟩

structure DomainTheory where
  name : String
  atom : String
  context : String
  combine : String
  laws : DomainLaws

def equationalLaws : DomainLaws where
  laws := [
    ⟨"add_zero_left", .leftUnit "add" "zero"⟩,
    ⟨"mul_one_right", .rightUnit "mul" "one"⟩,
    ⟨"double_negation", .cancelPair "neg" "neg"⟩]
  ne_nil := by simp

def categoryLaws : DomainLaws where
  laws := [
    ⟨"identity_left", .leftUnit "compose" "identity"⟩,
    ⟨"identity_right", .rightUnit "compose" "identity"⟩]
  ne_nil := by simp

def logicLaws : DomainLaws where
  laws := [
    ⟨"and_top", .leftUnit "and" "top"⟩,
    ⟨"or_bottom", .leftUnit "or" "bottom"⟩,
    ⟨"double_negation", .cancelPair "not" "not"⟩]
  ne_nil := by simp

def automataLaws : DomainLaws where
  laws := [
    ⟨"epsilon_prefix", .leftUnit "concat" "epsilon"⟩,
    ⟨"empty_union", .leftUnit "union" "empty_language"⟩,
    ⟨"encode_decode", .cancelPair "decode_state" "encode_state"⟩]
  ne_nil := by simp

def processLaws : DomainLaws where
  laws := [
    ⟨"nil_parallel", .leftUnit "parallel" "nil"⟩,
    ⟨"nil_choice", .leftUnit "choice" "nil"⟩,
    ⟨"quote_eval", .cancelPair "unquote" "quote"⟩]
  ne_nil := by simp

def metagraphLaws : DomainLaws where
  laws := [
    ⟨"empty_merge", .leftUnit "merge" "empty_graph"⟩,
    ⟨"empty_overlay", .leftUnit "overlay" "empty_graph"⟩,
    ⟨"quote_unquote", .cancelPair "unquote_atom" "quote_atom"⟩]
  ne_nil := by simp

def domainTheory : RuliadFormalDomain → DomainTheory
  | .equational =>
    ⟨"equational_monoid_normalization", "a", "equational_context", "conjoin_equalities",
      equationalLaws⟩
  | .category =>
    ⟨"free_category_path_normalization", "morphism", "functor_map", "conjoin_diagrams",
      categoryLaws⟩
  | .logic =>
    ⟨"propositional_normalization", "prop", "under_assumption", "conjoin", logicLaws⟩
  | .automata =>
    ⟨"regular_language_normalization", "language", "left_quotient", "language_product",
      automataLaws⟩
  | .process =>
    ⟨"rho_process_structural_congruence", "process", "process_context", "parallel", processLaws⟩
  | .metagraph =>
    ⟨"metagraph_pattern_rewriting", "atom", "grounded_scope", "merge", metagraphLaws⟩

/-- `selected_domain_laws`: training leaves the last law out, validation keeps only that one. -/
def selectedDomainLaws (theory : DomainTheory) :
    RuliadFormalGenerationSplit → DomainLaws
  | .shared => theory.laws
  | .structuralTrainV1 =>
    if h : theory.laws.laws.length > 1 then
      ⟨theory.laws.laws.take (theory.laws.laws.length - 1), by
        rw [← List.length_pos_iff, List.length_take]
        omega⟩
    else
      theory.laws
  | .structuralValidationV1 =>
    if h : theory.laws.laws.length > 1 then
      ⟨theory.laws.laws.drop (theory.laws.laws.length - 1), by
        rw [← List.length_pos_iff, List.length_drop]
        omega⟩
    else
      theory.laws

/-- `derived_distractor`. -/
def DomainTheory.derivedDistractor (theory : DomainTheory) (index : ℕ)
    (selectedLaws : DomainLaws) : RuliadRewriteAxiom :=
  if index = 0 then
    { id := "aux_assoc"
      lhs := .apply theory.combine [.apply theory.combine [.var 0, .var 1], .var 2]
      rhs := .apply theory.combine [.var 0, .apply theory.combine [.var 1, .var 2]] }
  else
    { id := "aux_derived_" ++ decimal index
      lhs := (List.range (index + 1)).foldl
        (fun term lawIndex => (selectedLaws.cyclic lawIndex).wrap term) (.var 0)
      rhs := .var 0 }

/-- `wrap_context`. -/
def wrapContext (context : String) (salt : UInt64) (path : List ℕ) (term : RuliadTerm) :
    RuliadTerm :=
  path.reverse.zipIdx.foldl
    (fun term (hole, index) =>
      let scope := .atom ("scope" ++ decimal index ++ "_" ++ hex08 salt.toNat)
      .apply context (if hole = 0 then [term, scope] else [scope, term])) term

/-! ## Goals -/

/-- The goals and the certificates generated so far. -/
structure FormalDag where
  goals : List RuliadProofGoal
  certificates : List RuliadGoalCertificate

/-- `selected_laws[rng.next_usize(selected_laws.len())]`. -/
def DomainLaws.draw (laws : DomainLaws) : Draw DomainLaw := do
  let i ← Draw.nextUsize laws.laws.length
  StateT.lift (index laws.laws i)

/-- The body of the loop over the leaves. -/
def appendLeafGoal (theory : DomainTheory) (selectedLaws : DomainLaws) (salt : UInt64)
    (config : RuliadFormalGeneratorConfig) (leaf : ℕ) (dag : FormalDag) :
    Draw (FormalDag × ℕ) := do
  let proofLaws ← Draw.times selectedLaws.draw config.rewriteDepth
  let rewritePath ← Draw.times (Draw.nextUsize 2) config.contextDepth
  let atom : RuliadTerm := .atom (theory.atom ++ decimal leaf ++ "_" ++ hex08 salt.toNat)
  let reducible := proofLaws.foldr DomainLaw.wrap atom
  let lhs := wrapContext theory.context salt rewritePath reducible
  let rhs := wrapContext theory.context salt rewritePath atom
  let goalIndex := dag.goals.length
  return ({
    goals := dag.goals ++ [⟨"g" ++ decimal goalIndex, [], ⟨lhs, rhs⟩⟩]
    certificates := dag.certificates ++
      [⟨goalIndex, proofLaws.map fun law => ⟨.axiom_ law.id, rewritePath, .forward⟩⟩] }, goalIndex)

/-- The loop over the leaves, from the given one on, with the frontier so far. -/
def appendLeafGoals (theory : DomainTheory) (selectedLaws : DomainLaws) (salt : UInt64)
    (config : RuliadFormalGeneratorConfig) (leaf : ℕ) :
    ℕ → FormalDag → List ℕ → Draw (FormalDag × List ℕ)
  | 0, dag, frontier => pure (dag, frontier)
  | remaining + 1, dag, frontier => do
    let (dag, goalIndex) ← appendLeafGoal theory selectedLaws salt config leaf dag
    appendLeafGoals theory selectedLaws salt config (leaf + 1) remaining dag
      (frontier ++ [goalIndex])

/-- `append_composition_goal`. -/
def appendCompositionGoal (theory : DomainTheory) (dag : FormalDag) (left right : ℕ) :
    Run (FormalDag × ℕ) := do
  let (left, right) := if left < right then (left, right) else (right, left)
  let leftGoal ← index dag.goals left
  let rightGoal ← index dag.goals right
  let goalIndex := dag.goals.length
  return ({
    goals := dag.goals ++ [{
      id := "g" ++ decimal goalIndex
      dependencies := [left, right]
      claim := {
        lhs := .apply theory.combine [leftGoal.claim.lhs, rightGoal.claim.lhs]
        rhs := .apply theory.combine [leftGoal.claim.rhs, rightGoal.claim.rhs] } }]
    certificates := dag.certificates ++ [{
      goal := goalIndex
      steps := [⟨.lemma_ left, [0], .forward⟩, ⟨.lemma_ right, [1], .forward⟩] }] }, goalIndex)

/-- The left fold of the validation split. -/
def composeLeft (theory : DomainTheory) : List ℕ → FormalDag → ℕ → Run (FormalDag × ℕ)
  | [], dag, root => .ok (dag, root)
  | right :: rest, dag, root => do
    let (dag, root) ← appendCompositionGoal theory dag root right
    composeLeft theory rest dag root

/-- One pass over the frontier in chunks of two. -/
def composePairs (theory : DomainTheory) : List ℕ → FormalDag → Run (FormalDag × List ℕ)
  | left :: right :: rest, dag => do
    let (dag, goalIndex) ← appendCompositionGoal theory dag left right
    let (dag, next) ← composePairs theory rest dag
    return (dag, goalIndex :: next)
  | frontier, dag => .ok (dag, frontier)

/-- The passes until one goal is left. Every pass shortens the frontier, so its length bounds their
number. -/
def composeLevels (theory : DomainTheory) (shuffled : Bool) :
    ℕ → FormalDag → List ℕ → Draw (FormalDag × List ℕ)
  | 0, dag, frontier => pure (dag, frontier)
  | fuel + 1, dag, frontier =>
    if frontier.length > 1 then do
      let frontier ← if shuffled then Draw.shuffle frontier else pure frontier
      let (dag, next) ← StateT.lift (composePairs theory frontier dag)
      composeLevels theory shuffled fuel dag next
    else
      pure (dag, frontier)

/-! ## Renaming -/

mutual

/-- `collect_term_symbols`: the operators and the atoms found. -/
def collectTermSymbols (found : List String × List String) :
    RuliadTerm → List String × List String
  | .var _ => found
  | .atom symbol => (found.1, insertSorted symbol found.2)
  | .apply operator arguments =>
    collectTermSymbolsFold (insertSorted operator found.1, found.2) arguments

/-- `collect_term_symbols` for the arguments in order. -/
def collectTermSymbolsFold (found : List String × List String) :
    List RuliadTerm → List String × List String
  | [] => found
  | t :: ts => collectTermSymbolsFold (collectTermSymbols found t) ts

end

mutual

/-- `rename_term_symbols`. -/
def renameTermSymbols (operators atoms : Map String String) : RuliadTerm → Run RuliadTerm
  | .var index => .ok (.var index)
  | .atom symbol => do
    let symbol ← lookup atoms symbol
    return .atom symbol
  | .apply operator arguments => do
    let operator ← lookup operators operator
    let arguments ← renameTermsSymbols operators atoms arguments
    return .apply operator arguments

/-- `rename_term_symbols` for the arguments in order. -/
def renameTermsSymbols (operators atoms : Map String String) :
    List RuliadTerm → Run (List RuliadTerm)
  | [] => .ok []
  | t :: ts => do
    let t ← renameTermSymbols operators atoms t
    let ts ← renameTermsSymbols operators atoms ts
    return t :: ts

end

/-- `local_symbol_map`. -/
def localSymbolMap (symbols : List String) (labelPrefix : String) : Draw (Map String String) := do
  let labels ← Draw.shuffle ((List.range symbols.length).map fun index =>
    labelPrefix ++ decimal index)
  return Map.ofList (symbols.zip labels)

/-- The maps of `alpha_rename_bundle`. -/
structure RenameMaps where
  axioms : Map String String
  operators : Map String String
  atoms : Map String String
  goals : Map String String

def renameAxiom (maps : RenameMaps) (rule : RuliadRewriteAxiom) : Run RuliadRewriteAxiom := do
  let id ← lookup maps.axioms rule.id
  let lhs ← renameTermSymbols maps.operators maps.atoms rule.lhs
  let rhs ← renameTermSymbols maps.operators maps.atoms rule.rhs
  return ⟨id, lhs, rhs⟩

def renameGoal (maps : RenameMaps) (goal : RuliadProofGoal) : Run RuliadProofGoal := do
  let id ← lookup maps.goals goal.id
  let lhs ← renameTermSymbols maps.operators maps.atoms goal.claim.lhs
  let rhs ← renameTermSymbols maps.operators maps.atoms goal.claim.rhs
  return ⟨id, goal.dependencies, ⟨lhs, rhs⟩⟩

def renameStep (maps : RenameMaps) (step : RuliadProofStep) : Run RuliadProofStep := do
  match step.source with
  | .axiom_ id =>
    let id ← lookup maps.axioms id
    return { step with source := .axiom_ id }
  | .lemma_ _ => return step

def renameGoalCertificate (maps : RenameMaps) (node : RuliadGoalCertificate) :
    Run RuliadGoalCertificate := do
  let steps ← node.steps.mapM (renameStep maps)
  return { node with steps }

/-- `alpha_rename_bundle`, with draws from a generator of its own. -/
def alphaRenameDraw (bundle : RuliadProofBundle) : Draw RuliadProofBundle := do
  let problem := bundle.problem
  let axiomIds := problem.axioms.foldl (fun ids rule => insertSorted rule.id ids) []
  let goalIds := problem.goals.foldl (fun ids goal => insertSorted goal.id ids) []
  let (operators, atoms) := problem.terms.foldl collectTermSymbols ([], [])
  let axiomMap ← localSymbolMap axiomIds "r"
  let operatorMap ← localSymbolMap operators "f"
  let atomMap ← localSymbolMap atoms "c"
  let goalMap ← localSymbolMap goalIds "g"
  let maps : RenameMaps := ⟨axiomMap, operatorMap, atomMap, goalMap⟩
  let theoryIndex ← Draw.nextUsize 32
  let axioms ← StateT.lift (problem.axioms.mapM (renameAxiom maps))
  let goals ← StateT.lift (problem.goals.mapM (renameGoal maps))
  let nodes ← StateT.lift (bundle.certificate.goals.mapM (renameGoalCertificate maps))
  let axioms ← Draw.shuffle axioms
  return {
    problem := { problem with theory := "t" ++ decimal theoryIndex, axioms, goals }
    certificate := { bundle.certificate with goals := nodes } }

/-- `alpha_rename_bundle`. -/
def alphaRenameBundle (bundle : RuliadProofBundle) (seed : UInt64) : Run RuliadProofBundle := do
  let (bundle, _) ← (alphaRenameDraw bundle).run ⟨seed⟩
  return bundle

/-! ## Bundles -/

/-- The goals over the leaves and the index of the root. -/
def composeGoals (theory : DomainTheory) (split : RuliadFormalGenerationSplit) (dag : FormalDag)
    (frontier : List ℕ) : Draw (FormalDag × ℕ) := do
  match split with
  | .structuralValidationV1 => do
    let first ← StateT.lift (index frontier 0)
    StateT.lift (composeLeft theory (frontier.drop 1) dag first)
  | split => do
    let (dag, frontier) ← composeLevels theory (split = .shared) frontier.length dag frontier
    let root ← StateT.lift (index frontier 0)
    return (dag, root)

/-- The goals of `generate_formal_bundle` with their certificates and the index of the root. -/
def formalGoals (theory : DomainTheory) (selectedLaws : DomainLaws) (salt : UInt64)
    (config : RuliadFormalGeneratorConfig) : Draw (FormalDag × ℕ) := do
  let (dag, frontier) ← appendLeafGoals theory selectedLaws salt config 0 config.leafCount
    ⟨[], []⟩ []
  composeGoals theory config.generationSplit dag frontier

/-- The given domain, or one of all domains. -/
def drawDomain : Option RuliadFormalDomain → Draw RuliadFormalDomain
  | some domain => pure domain
  | none => do
    let i ← Draw.nextUsize RuliadFormalDomain.all.length
    StateT.lift (index RuliadFormalDomain.all i)

/-- `generate_formal_bundle` up to the hash of the problem. -/
def buildFormalDraw (config : RuliadFormalGeneratorConfig) : Draw RuliadProofBundle := do
  let domain ← drawDomain config.domain
  let salt ← Draw.nextU64
  let theory := domainTheory domain
  let selectedLaws := selectedDomainLaws theory config.generationSplit
  let axioms := selectedLaws.laws.map DomainLaw.rule ++
    (List.range config.distractorAxioms).map fun index =>
      theory.derivedDistractor index selectedLaws
  let (dag, root) ← formalGoals theory selectedLaws salt config
  let bundle : RuliadProofBundle := {
    problem := {
      version := ruliadIrVersion
      domain
      theory := theory.name
      axioms
      goals := dag.goals
      root }
    certificate := { version := ruliadIrVersion, problemHash := "", goals := dag.certificates } }
  if config.generationSplit.alphaRenamed then do
    let renameSeed ← Draw.nextU64
    StateT.lift (alphaRenameBundle bundle renameSeed)
  else
    pure bundle

/-- The bundle that `generate_formal_bundle` builds before it hashes and replays it. -/
def buildFormalBundle (seed : UInt64) (config : RuliadFormalGeneratorConfig) :
    Run RuliadProofBundle := do
  let (bundle, _) ← (buildFormalDraw config).run ⟨seed⟩
  return bundle

/-- The errors of `generate_formal_bundle`. -/
inductive FormalError
  | zeroDepthOrLeaves
  | hash (message : String)
  | failedReplay (failure : Option RuliadKernelFailure)
  deriving DecidableEq

/-- `generate_formal_bundle`. -/
def generateFormalBundle (S : Serde) (seed : UInt64) (config : RuliadFormalGeneratorConfig) :
    Run (Except FormalError RuliadProofBundle) := do
  if config.rewriteDepth = 0 ∨ config.leafCount = 0 then
    return .error .zeroDepthOrLeaves
  let bundle ← buildFormalBundle seed config
  match bundle.problem.canonicalHash S with
  | .error message => return .error (.hash message)
  | .ok problemHash => do
    let certificate := { bundle.certificate with problemHash }
    let report ← replayCertificate S bundle.problem certificate .default
    if report.accepted then
      return .ok { bundle with certificate }
    else
      return .error (.failedReplay report.failure)

end BurnDragon.Ruliad
