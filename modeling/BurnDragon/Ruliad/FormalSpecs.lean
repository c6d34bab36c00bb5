import BurnDragon.Ruliad.Completeness
import BurnDragon.Ruliad.Corruption
import BurnDragon.Ruliad.Family
import BurnDragon.Ruliad.FormalScores

/-!
# Generated formal proofs

`generate_formal_spec` draws the size of a bundle, generates it, and adds what the task needs: a
candidate to check, the index of a step, the rotation of a menu. Of its own errors only the one for a
foreign task occurs. A spec that it returns passes `verify_spec`, unless its task is to select an
action, its reference answers earn full credit, and the candidate that it asks to check is accepted
exactly if it is the certificate (`generateFormalSpec_verified`).
-/

namespace BurnDragon.Ruliad

open Equational Rust List RuliadProofCertificate

/-! ## The generator -/

/-- The errors of `generate_formal_spec`: the one for a foreign task, those of the bundle, and its own
messages. -/
inductive FormalSpecError
  | unsupportedTask (task : RuliadTaskKind)
  | bundle (error : FormalError)
  | message (text : String)

/-- The tasks of the family. -/
def formalTasks : List RuliadTaskKind :=
  [.constructProof, .advanceProof, .selectProofAction, .checkProof]

/-- The size of the bundle for a depth and a number of leaves. -/
def formalSpecConfig (split : RuliadFormalGenerationSplit) (rewriteDepth leafCount : ℕ) :
    RuliadFormalGeneratorConfig where
  domain := none
  rewriteDepth := rewriteDepth
  leafCount := leafCount
  contextDepth := saturatingAdd 1 (Nat.log2 rewriteDepth)
  distractorAxioms := (rewriteDepth + 1) / 2
  generationSplit := split

/-- The certificate that is to be checked: the right one or a corrupted one. -/
def drawCandidate (task : RuliadTaskKind) (certificate : RuliadProofCertificate) :
    Draw (Except String (Option RuliadProofCertificate)) :=
  if task = .checkProof then do
    if ← Draw.nextBool then return .ok (some certificate)
    else return (corruptFormalCertificate certificate).map some
  else return .ok none

def drawProofStepIndex (task : RuliadTaskKind) (certificate : RuliadProofCertificate) :
    Draw (Except String (Option ℕ)) :=
  if task = .advanceProof ∨ task = .selectProofAction then
    if certificate.stepCount = 0 then
      return .error "advance-proof oracle certificate has no steps"
    else do return .ok (some (← Draw.nextUsize certificate.stepCount))
  else return .ok none

def drawActionRotation (task : RuliadTaskKind) : Draw (Option ℕ) :=
  if task = .selectProofAction then do return some (← Draw.nextUsize defaultProofActionCandidates)
  else return none

section Generate

variable (overflowChecks : Bool) (S : Serde)

/-- `generate_formal_spec`. -/
def generateFormalSpec (family : RuliadFamilyConfig) (task : RuliadTaskKind)
    (actionAnswerContract : RuliadProofActionAnswerContract) (split : RuliadFormalGenerationSplit) :
    Draw (Except FormalSpecError FormalProofSpec) := do
  if task ∉ formalTasks then
    return .error (.unsupportedTask task)
  let width ← Draw.rangeOr overflowChecks family.width 2 4
  let steps ← Draw.rangeOr overflowChecks family.steps 2 4
  let seed ← Draw.nextU64
  match ← StateT.lift (generateFormalBundle S seed (formalSpecConfig split (max steps 2) (max width 2)))
    with
  | .error error => return .error (.bundle error)
  | .ok bundle =>
    match ← drawCandidate task bundle.certificate with
    | .error text => return .error (.message text)
    | .ok candidate =>
      match ← drawProofStepIndex task bundle.certificate with
      | .error text => return .error (.message text)
      | .ok proofStepIndex =>
        let actionPresentationRotation ← drawActionRotation task
        return .ok { problem := bundle.problem, certificate := bundle.certificate, candidate,
                     proofStepIndex, actionPresentationRotation, actionAnswerContract, task }

end Generate

/-! ## What it returns -/

variable {S : Serde} {problem : RuliadProofProblem} {certificate : RuliadProofCertificate}
  {task : RuliadTaskKind}

/-- A corrupted certificate is not accepted: no term has as many arguments as its path asks for. -/
theorem not_accepts_of_corrupt {corrupted : RuliadProofCertificate}
    (h : corruptFormalCertificate certificate = .ok corrupted) :
    ¬Accepts S problem corrupted .default := by
  intro haccepts
  obtain ⟨nodes, index, step, steps, -, rfl⟩ := corruptFormalCertificate_eq_ok h
  obtain ⟨hproblem, -, hproves, -⟩ := accepts_iff.1 haccepts
  obtain ⟨goal, hgoal, u, ⟨equality, -, hat⟩, -⟩ :=
    hproves.steps ⟨index, { step with path := usizeMax :: step.path } :: steps⟩ (by simp)
  exact lt_irrefl _ (lt_usizeMax_of_at hat (hproblem.over_claim (mem_of_getElem? hgoal))
    usizeMax mem_cons_self)

/-- Every proof whose goals have steps can be corrupted. -/
theorem exists_corrupt (h : Proves problem certificate)
    (hblocks : ∀ block ∈ certificate.goals, block.steps ≠ []) :
    ∃ corrupted, corruptFormalCertificate certificate = .ok corrupted := by
  have hne : certificate.goals ≠ [] := fun hnil =>
    stepCount_ne_zero h hblocks (by simp [stepCount, hnil])
  rw [corruptFormalCertificate, getLast?_eq_some_getLast hne]
  obtain ⟨step, steps, hsteps⟩ :=
    exists_cons_of_ne_nil (hblocks _ (getLast_mem hne))
  exact ⟨_, by dsimp only; rw [hsteps]⟩

/-- What the generator guarantees of a spec. -/
structure GeneratedSpec (S : Serde) (task : RuliadTaskKind) (spec : FormalProofSpec) : Prop where
  task_eq : spec.task = task
  accepts : Accepts S spec.problem spec.certificate .default
  steps_ne_nil : ∀ block ∈ spec.certificate.goals, block.steps ≠ []
  candidate : if task = .checkProof then ∃ candidate, spec.candidate = some candidate ∧
      (candidate = spec.certificate ∨ corruptFormalCertificate spec.certificate = .ok candidate)
    else spec.candidate = none
  proofStepIndex : if task = .advanceProof ∨ task = .selectProofAction then
      ∃ i < spec.certificate.stepCount, spec.proofStepIndex = some i
    else spec.proofStepIndex = none
  rotation : task ≠ .selectProofAction → spec.actionPresentationRotation = none

/-- A generated spec, or an error of the bundle or for a foreign task. -/
def SpecOutcome (S : Serde) (task : RuliadTaskKind) : Except FormalSpecError FormalProofSpec → Prop
  | .ok spec => GeneratedSpec S task spec
  | .error (.message _) => False
  | .error (.unsupportedTask _) => task ∉ formalTasks
  | .error (.bundle _) => True

variable {family : RuliadFamilyConfig} {overflowChecks : Bool}

/-- A draw from a range that does not span the machine integers does not panic. -/
theorem Draw.Yields.rangeOr_any {range : Option Nca.UsizeRangeConfig} {defaultMin defaultMax : ℕ}
    (hdefault : defaultMax < usizeMax) (hrange : ∀ r ∈ range, r.max - r.min < usizeMax) :
    Yields (Draw.rangeOr overflowChecks range defaultMin defaultMax) fun _ => True := by
  have hany : ∀ {min max : ℕ}, max - min < usizeMax →
      Yields (Draw.rangeUsize overflowChecks min max) fun _ => True := by
    intro min max hlt
    rcases le_or_gt max min with hge | hlt'
    · rw [Draw.rangeUsize, if_pos hge]
      exact pure trivial
    · exact (rangeUsize hlt'.le hlt).mono fun _ _ => trivial
  cases range with
  | none => exact hany (by omega)
  | some r => exact hany (hrange r rfl)

section

variable (h : Proves problem certificate) (hblocks : ∀ block ∈ certificate.goals, block.steps ≠ [])
include h hblocks

theorem Draw.Yields.drawCandidate :
    Yields (Ruliad.drawCandidate task certificate) fun result => ∃ candidate, result = .ok candidate ∧
      if task = .checkProof then ∃ checked, candidate = some checked ∧
        (checked = certificate ∨ corruptFormalCertificate certificate = .ok checked)
      else candidate = none := by
  obtain ⟨corrupted, hcorrupted⟩ := exists_corrupt h hblocks
  unfold Ruliad.drawCandidate
  split_ifs
  · refine bind nextBool fun keep _ => ?_
    cases keep with
    | true => exact pure ⟨_, rfl, _, rfl, .inl rfl⟩
    | false => exact pure ⟨some corrupted, by rw [hcorrupted]; rfl, _, rfl, .inr hcorrupted⟩
  · exact pure ⟨none, rfl, rfl⟩

theorem Draw.Yields.drawProofStepIndex :
    Yields (Ruliad.drawProofStepIndex task certificate) fun result => ∃ index, result = .ok index ∧
      if task = .advanceProof ∨ task = .selectProofAction then
        ∃ i < certificate.stepCount, index = some i
      else index = none := by
  have hsteps := stepCount_ne_zero h hblocks
  unfold Ruliad.drawProofStepIndex
  split_ifs
  · exact bind (nextUsize (Nat.pos_of_ne_zero hsteps)) fun i hi => pure ⟨_, rfl, i, hi, rfl⟩
  · exact pure ⟨none, rfl, rfl⟩

end

theorem Draw.Yields.drawActionRotation : Yields (Ruliad.drawActionRotation task) fun rotation =>
    task ≠ .selectProofAction → rotation = none := by
  unfold Ruliad.drawActionRotation
  split_ifs with htask
  · exact bind (nextUsize (by decide)) fun _ _ => pure fun hne => absurd htask hne
  · exact pure fun _ => rfl

/-- A bundle that the generator returns is accepted, and its goals have steps. -/
theorem exists_generateFormalBundle (S : Serde) (seed : UInt64)
    (config : RuliadFormalGeneratorConfig) (hdepth : config.rewriteDepth ≠ 0)
    (hleaves : config.leafCount ≠ 0) :
    ∃ result, generateFormalBundle S seed config = .ok result ∧ ∀ bundle, result = .ok bundle →
      Accepts S bundle.problem bundle.certificate .default ∧
        ∀ block ∈ bundle.certificate.goals, block.steps ≠ [] := by
  obtain ⟨built, hbuild, hbuilt, -⟩ := buildFormalBundle_of_yields seed
    (Draw.Yields.buildFormalDraw (Q := fun _ _ => True) hleaves fun domain salt =>
      (Draw.Yields.formalGoals hleaves).mono fun _ _ => trivial)
  have hok : ∃ result, generateFormalBundle S seed config = .ok result := by
    obtain ⟨hash, hhash⟩ := built.problem.canonicalHash_ok S
    obtain ⟨report, hreport⟩ := replayCertificate_ok S built.problem
      { built.certificate with problemHash := hash } .default
    have hguard : ¬(config.rewriteDepth = 0 ∨ config.leafCount = 0) := by tauto
    simp only [generateFormalBundle, if_neg hguard, hbuild, hhash, hreport, bind, Except.bind]
    split_ifs <;> exact ⟨_, rfl⟩
  obtain ⟨result, hresult⟩ := hok
  refine ⟨result, hresult, ?_⟩
  rintro bundle rfl
  obtain ⟨hash, -, rfl, haccepts⟩ := (generateFormalBundle_eq_ok_iff hdepth hleaves hbuild).1 hresult
  exact ⟨haccepts, hbuilt.steps_ne_nil hdepth⟩

/-- The generator does not panic, and what it returns is as it says. -/
theorem Draw.Yields.generateFormalSpec (S : Serde)
    (hwidth : ∀ r ∈ family.width, r.max - r.min < usizeMax)
    (hsteps : ∀ r ∈ family.steps, r.max - r.min < usizeMax) (task : RuliadTaskKind)
    (contract : RuliadProofActionAnswerContract) (split : RuliadFormalGenerationSplit) :
    Yields (Ruliad.generateFormalSpec overflowChecks S family task contract split)
      (SpecOutcome S task) := by
  have hdefault : 4 < usizeMax := by decide
  by_cases htask : task ∉ formalTasks
  · rw [Ruliad.generateFormalSpec, if_pos htask]
    exact pure htask
  rw [Ruliad.generateFormalSpec, if_neg htask]
  refine bind (rangeOr_any hdefault hwidth) fun width _ =>
    bind (rangeOr_any hdefault hsteps) fun steps _ => bind nextU64 fun seed _ => ?_
  obtain ⟨result, hresult, hbundle⟩ := exists_generateFormalBundle S seed
    (formalSpecConfig split (max steps 2) (max width 2))
    (show max steps 2 ≠ 0 by omega) (show max width 2 ≠ 0 by omega)
  refine bind (lift hresult rfl) fun _ heq => ?_
  subst heq
  cases result with
  | error error => exact pure trivial
  | ok bundle =>
    obtain ⟨haccepts, hblocks⟩ := hbundle bundle rfl
    have hproves := (accepts_iff.1 haccepts).2.2.1
    refine bind (drawCandidate hproves hblocks) ?_
    rintro _ ⟨candidate, rfl, hcandidate⟩
    refine bind (drawProofStepIndex hproves hblocks) ?_
    rintro _ ⟨index, rfl, hindex⟩
    exact bind drawActionRotation fun rotation hrotation =>
      pure ⟨rfl, haccepts, hblocks, hcandidate, hindex, hrotation⟩

/-! ## Its specs stand -/

/-- The spec passes the verifier, the reference answer to a proof or to a step earns full credit, and
the report on a candidate that is to be checked tells whether it is the certificate. -/
structure Stands (overflowChecks : Bool) (E : EvalPackages) (spec : FormalProofSpec) : Prop where
  verifies : VerifiesOk overflowChecks E.toPackages (.formalProof spec)
  fullCredit : spec.task = .constructProof ∨ spec.task = .advanceProof → ∃ answer score,
    compactAnswer E.toSerde (.formalProof spec) = .ok answer ∧
    scoreRuliadAnswer overflowChecks E (some (.formalProof spec)) answer.toList
      (some answer.toList) = .ok score ∧
    score.verifierMatch = true ∧ score.partialProgressPpm = 1000000
  checked : spec.task = .checkProof → ∃ candidate report, spec.candidate = some candidate ∧
    replayCertificate E.toSerde spec.problem candidate .default = .ok report ∧
    compactAnswer E.toSerde (.formalProof spec) = .ok (formalCheckAnswer report) ∧
    (report.accepted = true ↔ candidate = spec.certificate)

theorem isSome_stepAt {i : ℕ} (h : i < certificate.stepCount) :
    (certificate.stepAt i).isSome = true := by
  rw [stepCount_eq] at h
  rw [stepAt, stepAtGoals_eq]
  exact Option.isSome_iff_exists.2 ⟨_, getElem?_eq_getElem h⟩

theorem GeneratedSpec.stands {E : EvalPackages} {spec : FormalProofSpec}
    (h : GeneratedSpec E.toSerde task spec) (htask : task ∈ formalTasks)
    (hselect : task ≠ .selectProofAction) (overflowChecks : Bool) :
    Stands overflowChecks E spec := by
  obtain ⟨rfl, haccepts, hblocks, hcandidate, hindex, hrotation⟩ := h
  have hrotation := hrotation hselect
  have hadvance : spec.task = .advanceProof → ∃ i, spec.proofStepIndex = some i ∧
      (spec.certificate.stepAt i).isSome = true := by
    intro htask
    rw [if_pos (.inl htask)] at hindex
    obtain ⟨i, hi, hindex⟩ := hindex
    exact ⟨i, hindex, isSome_stepAt hi⟩
  constructor
  · obtain ⟨report, hreport, haccepted⟩ := haccepts
    have hshape : taskShapeOk E.toSerde spec = true := by
      simp only [formalTasks, mem_cons, not_mem_nil, or_false] at htask
      rcases htask with htask | htask | htask | htask
      · simp_all [taskShapeOk]
      · obtain ⟨i, hi, hstep⟩ := hadvance htask
        simp_all [taskShapeOk]
      · exact absurd htask hselect
      · obtain ⟨checked, hchecked, -⟩ := (if_pos htask ▸ hcandidate : _)
        simp_all [taskShapeOk]
    refine verifiesOk_iff.2 ?_
    simp only [verifyFamily, verifyFormalProof, hreport, haccepted, hshape, bind, Except.bind]
    rfl
  · intro htask
    obtain ⟨answer, score, hanswer, hscore, hfull⟩ :=
      scoreRuliadAnswer_compactAnswer_of_accepts overflowChecks haccepts
        (htask.imp_right fun htask => ⟨htask, hadvance htask⟩)
    exact ⟨answer, score, hanswer, hscore, hfull.2 fun _ => hblocks⟩
  · intro htask
    rw [if_pos htask] at hcandidate
    obtain ⟨candidate, hsome, hcandidate⟩ := hcandidate
    obtain ⟨report, hreport⟩ := replayCertificate_ok E.toSerde spec.problem candidate .default
    refine ⟨candidate, report, hsome, hreport, ?_, fun haccepted => ?_, ?_⟩
    · simp only [compactAnswer, formalAnswer, htask, hsome, hreport, bind, Except.bind]
      rfl
    · exact hcandidate.resolve_right fun hcorrupt =>
        not_accepts_of_corrupt hcorrupt ⟨report, hreport, haccepted⟩
    · rintro rfl
      obtain ⟨report', hreport', haccepted⟩ := haccepts
      obtain rfl := Except.ok.inj (hreport.symm.trans hreport')
      exact haccepted

end BurnDragon.Ruliad
