import BurnDragon.Ruliad.Evaluation
import BurnDragon.Ruliad.MenuRotation
import BurnDragon.Ruliad.ModelCertificateRoundTrip
import BurnDragon.Ruliad.StateKey

/-!
# The scores of formal proofs

The score of a constructed proof is read off the kernel's report on the certificate that a text
decodes to. So a text earns credit only for goals that follow from the axioms
(`scoreRuliadCompletionParts_sound`), and the reference answer of an accepted spec earns full
credit, unless it is a proof with a goal without steps (`scoreRuliadAnswer_compactAnswer`): the text
has no line for such a goal. The texts of the accepted certificates without such goals are the
matches (`verifierMatch_spec`).
-/

namespace BurnDragon.Ruliad

open Equational Rust List Option RuliadProofCertificate RuliadProofProblem

/-! ## Credit for goals -/

variable {S : Serde} {problem : RuliadProofProblem} {certificate : RuliadProofCertificate}
  {limits : RuliadKernelLimits}

section Credit

variable {D : Type*} {M : Algebra String String D}

/-- A sorted list is taken up to an element together with what is smaller. -/
theorem mem_takeWhile_of_lt {p : ℕ → Bool} {l : List ℕ} {i d : ℕ} (hsorted : l.Pairwise (· < ·))
    (hi : i ∈ l.takeWhile p) (hd : d ∈ l) (hlt : d < i) : d ∈ l.takeWhile p := by
  induction l with
  | nil => cases hd
  | cons a l ih =>
    obtain ⟨ha, hsorted⟩ := pairwise_cons.1 hsorted
    rw [takeWhile_cons] at hi ⊢
    split_ifs at hi ⊢
    · rcases mem_cons.1 hd with rfl | hrest
      · exact mem_cons_self
      rcases mem_cons.1 hi with rfl | hi
      · exact absurd (ha d hrest) hlt.not_gt
      · exact mem_cons_of_mem _ (ih hsorted hi hrest)
    · cases hi

/-- The goals that are discharged before the first that is not hold wherever the axioms hold. -/
theorem goalHolds_of_discharges (hproblem : ValidProblem problem limits)
    (hcertificate : ValidCertificate S problem certificate limits)
    (haxioms : ∀ rule ∈ problem.axioms, rule.equation.Holds M) :
    ∀ index ∈ problem.requiredGoalIndices.takeWhile
      (discharges problem limits certificate.index), GoalHolds problem M index := by
  refine goalHolds_of_replays (fun index hindex => ?_) haxioms
  obtain ⟨goal, hgoal, hdeps⟩ :=
    hproblem.requiredGoals index ((takeWhile_sublist _).subset hindex)
  obtain ⟨node, -, rfl, goal', hgoal', -, hreplays⟩ :=
    (discharges_iff hproblem.axioms_nodup hcertificate.sorted).1 (mem_takeWhile_imp hindex)
  obtain rfl := some.inj (hgoal.symm.trans hgoal')
  refine ⟨goal, hgoal, ⟨_, hreplays⟩, fun dependency hdep => ?_⟩
  obtain ⟨hrequired, hlt⟩ := hdeps dependency hdep
  exact ⟨mem_takeWhile_of_lt pairwise_requiredGoalIndices hindex hrequired hlt,
    hlt⟩

/-- The goals that a report counts hold, and all of them in a report of acceptance. -/
theorem goalHolds_of_report {report : RuliadReplayReport}
    (h : replayCertificate S problem certificate limits = .ok report)
    (haxioms : ∀ rule ∈ problem.axioms, rule.equation.Holds M) :
    (∀ index ∈ problem.requiredGoalIndices.take report.verifiedGoals, GoalHolds problem M index) ∧
      (report.accepted = true → ∀ index ∈ problem.requiredGoalIndices,
        GoalHolds problem M index) := by
  by_cases hvalid : ValidProblem problem limits ∧ ValidCertificate S problem certificate limits
  · obtain ⟨hproblem, hcertificate⟩ := hvalid
    obtain ⟨report', hreport, hspec⟩ := replayCertificate_of_valid hproblem hcertificate
    obtain rfl : report = report' := Except.ok.inj (h.symm.trans hreport)
    have hholds := goalHolds_of_discharges hproblem hcertificate haxioms
    refine ⟨?_, fun haccepted => ?_⟩
    · rwa [hspec.verifiedGoals, ← prefix_iff_eq_take.1 (List.takeWhile_prefix _)]
    · rwa [takeWhile_eq_self_iff.2 (hspec.accepted.1 haccepted)] at hholds
  · obtain ⟨report', hreport, hspec⟩ := replayCertificate_of_not_valid hvalid
    obtain rfl : report = report' := Except.ok.inj (h.symm.trans hreport)
    simp [hspec.verifiedGoals, hspec.accepted]

variable {actual : List Char} {oracleCertificate : RuliadProofCertificate}
  {score : AnswerFieldScore}

/-- The score is read off the report on the certificate that the text decodes to. When the kernel
accepts it, the progress is full if the reference has no more steps. -/
theorem scoreConstructedProof_spec (actual : List Char) (oracle : RuliadProofCertificate)
    {hash : String} (hhash : problem.canonicalHash S = .ok hash)
    {parsed : RuliadModelCertificatePrefix}
    (hdecode : decodeModelCertificatePrefix (trim actual) problem.version hash = .ok parsed) :
    ∃ score report, scoreConstructedProof S actual problem oracle = .ok score ∧
      replayCertificate S problem parsed.certificate .default = .ok report ∧
      score.correctFieldCount = report.verifiedGoals ∧
      (score.status = .verifierMatch ↔ report.accepted = true ∧ parsed.syntaxComplete = true) ∧
      (report.accepted = true → oracle.stepCount ≤ 1048576 →
        (score.partialProgressPpm = scorePpmDenominator ↔
          oracle.stepCount ≤ parsed.certificate.stepCount)) := by
  obtain ⟨report, hreport⟩ := replayCertificate_ok S problem parsed.certificate .default
  refine ⟨_, report, by
    simp only [scoreConstructedProof, hhash, hdecode, hreport, bind, Except.bind]
    rfl, hreport, rfl, ?_, fun haccepted horacle => ?_⟩
  · rw [← Bool.and_eq_true]
    dsimp only
    split_ifs <;> simp_all
  obtain ⟨hproblem, hcertificate, -⟩ := accepts_iff.1 ⟨report, hreport, haccepted⟩
  obtain ⟨report', hreport', -, hgoals, hsteps⟩ :=
    replayCertificate_of_accepts ⟨report, hreport, haccepted⟩
  obtain rfl := Except.ok.inj (hreport.symm.trans hreport')
  have hpos : 0 < problem.requiredGoalIndices.length :=
    length_pos_of_mem root_mem_requiredGoalIndices
  have hle : problem.requiredGoalIndices.length ≤ 16384 :=
    hproblem.length_requiredGoalIndices_le.trans hproblem.goals_length
  have hcount : parsed.certificate.stepCount ≤ 1048576 := hcertificate.stepCount_le
  simp only [hgoals, hsteps, max_eq_left (show 1 ≤ _ from hpos)]
  rw [saturatingAdd_of_le (by unfold usizeMax; omega),
    saturatingAdd_of_le (by unfold usizeMax; omega), max_eq_left (by omega),
    saturatingMul_of_le (by unfold usizeMax scorePpmDenominator; omega),
    Nat.div_eq_iff (by omega)]
  unfold scorePpmDenominator
  omega

theorem scoreConstructedProof_sound
    (h : scoreConstructedProof S actual problem oracleCertificate = .ok score)
    (haxioms : ∀ rule ∈ problem.axioms, rule.equation.Holds M) :
    (∀ index ∈ problem.requiredGoalIndices.take score.correctFieldCount,
      GoalHolds problem M index) ∧
    (score.status = .verifierMatch → ∀ index ∈ problem.requiredGoalIndices,
      GoalHolds problem M index) := by
  obtain ⟨hash, hhash⟩ := problem.canonicalHash_ok S
  obtain ⟨score', report, hscore, hreport, hcount, hmatch, -⟩ := scoreConstructedProof_spec actual
    oracleCertificate hhash (decodeModelCertificatePrefix_eq ..)
  obtain rfl := Except.ok.inj (h.symm.trans hscore)
  obtain ⟨hverified, haccepted⟩ := goalHolds_of_report hreport haxioms
  exact ⟨hcount ▸ hverified, fun hstatus => haccepted (hmatch.1 hstatus).1⟩

theorem scoreFormalTransitionAnswer_sound {proofStepIndex : Option ℕ}
    (h : scoreFormalTransitionAnswer S actual problem oracleCertificate proofStepIndex = .ok score)
    (haxioms : ∀ rule ∈ problem.axioms, rule.equation.Holds M)
    (hstatus : score.status = .verifierMatch) :
    ∀ index ∈ problem.requiredGoalIndices, GoalHolds problem M index := by
  unfold scoreFormalTransitionAnswer at h
  split at h
  · obtain rfl := Except.ok.inj h
    cases hstatus
  split at h
  · obtain rfl := Except.ok.inj h
    cases hstatus
  · obtain rfl := Except.ok.inj h
    cases hstatus
  rw [decodeModelCertificatePrefix_eq] at h
  dsimp only at h
  split at h
  · obtain rfl := Except.ok.inj h
    cases hstatus
  split at h
  · obtain rfl := Except.ok.inj h
    cases hstatus
  split at h
  · obtain rfl := Except.ok.inj h
    cases hstatus
  obtain ⟨candidate, -, h⟩ := bind_eq_ok.1 h
  obtain ⟨report, hreport, h⟩ := bind_eq_ok.1 h
  obtain rfl := Except.ok.inj h
  refine (goalHolds_of_report hreport haxioms).2 ?_
  by_contra hnot
  rw [Bool.not_eq_true] at hnot
  simp only [hnot, Bool.false_and, Bool.false_eq_true, if_false] at hstatus
  split_ifs at hstatus

variable {overflowChecks : Bool} {E : EvalPackages} {spec : FormalProofSpec}

theorem scoreAnswerFields_sound {P : Packages} {expected : List Char} {hashCanary : Bool}
    (htask : spec.task = .constructProof ∨ spec.task = .advanceProof)
    (h : scoreAnswerFields overflowChecks P expected actual hashCanary (some (.formalProof spec)) =
      .ok score)
    (haxioms : ∀ rule ∈ spec.problem.axioms, rule.equation.Holds M) :
    (score.status = .verifierMatch → ∀ index ∈ spec.problem.requiredGoalIndices,
      GoalHolds spec.problem M index) ∧
    (spec.task = .constructProof → ∀ index ∈ spec.problem.requiredGoalIndices.take
      score.correctFieldCount, GoalHolds spec.problem M index) := by
  obtain ⟨formal, hformal, h⟩ := bind_eq_ok.1 h
  rcases htask with htask | htask <;> simp only [scoreFormalCertificateAnswer, htask] at hformal <;>
    obtain ⟨score', hscore, hformal⟩ := bind_eq_ok.1 hformal <;>
    obtain rfl := Except.ok.inj hformal <;> obtain rfl := Except.ok.inj h
  · have hsound := scoreConstructedProof_sound hscore haxioms
    exact ⟨hsound.2, fun _ => hsound.1⟩
  · exact ⟨scoreFormalTransitionAnswer_sound hscore haxioms, fun hne => by simp [htask] at hne⟩

/-- **Only consequences of the axioms earn credit.** Whatever a model writes: in every algebra in
which the axioms hold, the goals that a constructed proof is credited with hold, and all required
goals hold when the score is a verifier match. -/
theorem scoreRuliadCompletionParts_sound
    (htask : spec.task = .constructProof ∨ spec.task = .advanceProof) {expectedAnswer : List Char}
    {expectedCertificate : List (List Char)} {completion : Option RuliadExtractedCompletion}
    {score : RuliadReasoningScore}
    (h : scoreRuliadCompletionParts overflowChecks E (some (.formalProof spec)) expectedAnswer
      expectedCertificate completion = .ok score)
    (haxioms : ∀ rule ∈ spec.problem.axioms, rule.equation.Holds M) :
    (score.verifierMatch = true → ∀ index ∈ spec.problem.requiredGoalIndices,
      GoalHolds spec.problem M index) ∧
    (spec.task = .constructProof → ∀ index ∈ spec.problem.requiredGoalIndices.take
      score.correctFieldCount, GoalHolds spec.problem M index) := by
  unfold scoreRuliadCompletionParts at h
  cases completion with
  | none =>
    obtain rfl := Except.ok.inj h
    simp [RuliadReasoningScore.verifierMatch, reasoningScore]
  | some completion =>
    dsimp only at h
    split at h
    · obtain rfl := Except.ok.inj h
      simp [RuliadReasoningScore.verifierMatch, reasoningScore, AnswerFieldScore.malformed]
    · obtain ⟨answerScore, hanswer, h⟩ := bind_eq_ok.1 h
      obtain rfl := Except.ok.inj h
      obtain ⟨hmatch, hcredit⟩ := scoreAnswerFields_sound htask hanswer haxioms
      refine ⟨fun hstatus => hmatch (of_decide_eq_true hstatus), fun hconstruct index hindex => ?_⟩
      exact hcredit hconstruct index (take_subset_take_left _ (min_le_left _ _) hindex)

/-- The task of proving the two goals with the left unit law. -/
def unitSpec : FormalProofSpec :=
  ⟨unitProblem, unitCertificate, none, none, none, .presentationIndex, .constructProof⟩

/-- The score of a completion that answers the task with the reference certificate. -/
def unitScore : Run RuliadReasoningScore :=
  scoreRuliadCompletionParts true (.ofDigest unitDigest) (some (.formalProof unitSpec)) [] []
    (some ⟨some (certificateText unitCertificate).toList, [], 0, false, 0⟩)

theorem scoreRuliadCompletionParts_sound_unitSpec : ∃ score, unitScore = .ok score ∧
    ∀ index ∈ unitProblem.requiredGoalIndices, GoalHolds unitProblem listAlgebra index := by
  have hmatch : unitScore.toOption.any (·.verifierMatch) = true := by decide +kernel
  cases hscore : unitScore with
  | error => simp [hscore, Except.toOption] at hmatch
  | ok score =>
    rw [hscore] at hmatch
    refine ⟨score, rfl,
      (scoreRuliadCompletionParts_sound (.inl rfl) hscore fun rule hrule ρ => ?_).1 hmatch⟩
    obtain rfl : rule = ⟨"left_identity", _, _⟩ := mem_singleton.1 hrule
    simp [RuliadRewriteAxiom.equation, listAlgebra]

end Credit

/-! ## The reference answer -/

section Reference

variable {goal : RuliadProofGoal} {s t : RuliadTerm}

/-- The terms whose operators have no more arguments than a vector can have. -/
def wordArity : Term.Signature String String := ⟨fun _ => True, fun _ arity => arity ≤ usizeMax⟩

theorem over_of_size_le (h : t.size ≤ usizeMax) : Term.Over wordArity t := by
  induction t using Term.ind with
  | var i => exact .var i
  | atom a => exact .atom trivial
  | apply f args ih =>
    rw [Term.size_apply] at h
    have hlength : args.length ≤ (args.map Term.size).sum := by
      rw [← length_map Term.size]
      refine length_le_sum_of_one_le _ fun n hn => ?_
      obtain ⟨u, -, rfl⟩ := mem_map.1 hn
      cases u <;> simp
    refine .apply (show args.length ≤ usizeMax by omega) fun u hu => ih u hu ?_
    have hle := single_le_sum (fun _ _ => Nat.zero_le _) _
      (mem_map_of_mem (f := Term.size) hu)
    omega

/-- The terms of a valid problem are small. -/
theorem ValidProblem.over_wordArity (h : ValidProblem problem .default) :
    ∀ t ∈ problem.terms, Term.Over wordArity t := by
  have hsum : (problem.terms.map Term.size).sum = problem.nodes := by
    simp [terms, nodes, flatMap_def, map_flatten,
      sum_flatten, Function.comp_def]
  have hnodes := h.termNodes_le
  rw [termNodes_eq] at hnodes
  have hmax : RuliadKernelLimits.default.maximumTermNodes < usizeMax := by decide
  refine fun t ht => over_of_size_le ?_
  have hle := single_le_sum (fun _ _ => Nat.zero_le _) _
    (mem_map_of_mem (f := Term.size) ht)
  omega

/-- The numbers of a path are positions of arguments. -/
theorem lt_usizeMax_of_at {R : RuliadTerm → RuliadTerm → Prop} {path : List ℕ}
    (h : At R path s t) (hs : Term.Over wordArity s) : ∀ i ∈ path, i < usizeMax := by
  induction h with
  | root => simp
  | @arg f args i path s t hget _ ih =>
    obtain ⟨hlength, hargs⟩ := Term.Over.apply_iff.1 hs
    obtain ⟨hlt, rfl⟩ := List.getElem?_eq_some_iff.1 hget
    exact forall_mem_cons.2 ⟨hlt.trans_le hlength, ih (hargs _ (getElem_mem hlt))⟩

/-- The sides of the goals are terms of the problem. -/
theorem ValidProblem.over_claim (h : ValidProblem problem .default) (hgoal : goal ∈ problem.goals) :
    Term.Over wordArity goal.claim.lhs :=
  h.over_wordArity _ <| mem_append_right _ <|
    mem_flatMap.2 ⟨goal, hgoal, mem_cons_self⟩

/-- The steps of a proof can be written as lines. -/
theorem ValidProblem.textStep_of_replays (h : ValidProblem problem .default) {index : ℕ}
    (hgoal : problem.goals[index]? = some goal) {steps : List RuliadProofStep}
    (hs : Term.Over wordArity s) (hreplays : Replays problem goal steps s t) :
    ∀ step ∈ steps, TextStep index step := by
  have hgoals : ∀ i < problem.goals.length, i ≤ usizeMax := fun i hi =>
    (hi.le.trans h.goals_length).trans (by decide)
  induction steps generalizing s with
  | nil => simp
  | cons step steps ih =>
    obtain ⟨u, ⟨equality, hsource, hat⟩, hrest⟩ := hreplays
    have hu := over_of_applies h.over_wordArity hs ⟨equality, hsource, hat⟩
    refine forall_mem_cons.2
      ⟨⟨?_, fun id hid => ?_, fun i hi => ?_, fun i hi => ?_⟩, ih hu hrest⟩
    · exact hgoals index (List.getElem?_eq_some_iff.1 hgoal).1
    · rw [hid] at hsource
      obtain ⟨rule, hrule, -⟩ := map_eq_some_iff.1 hsource
      obtain rfl : rule.id = id := by simpa using find?_some hrule
      exact (h.axioms rule (mem_of_find?_eq_some hrule)).id
    · rw [hi] at hsource
      simp only [sourceClaim, ite_none_right_eq_some, map_eq_some_iff] at hsource
      obtain ⟨-, lemmaGoal, hlemma, -⟩ := hsource
      exact hgoals i (List.getElem?_eq_some_iff.1 hlemma).1
    · exact (lt_usizeMax_of_at hat hs i hi).le

/-- The steps of the certificate can be written as lines without white space, and no goal has two
blocks. -/
structure Written (certificate : RuliadProofCertificate) : Prop where
  text : ∀ block ∈ certificate.goals, ∀ step ∈ block.steps, TextStep block.goal step
  nodup : (certificate.goals.map (·.goal)).Nodup

theorem written_of_accepts (h : Accepts S problem certificate .default) : Written certificate := by
  obtain ⟨hproblem, hcertificate, hproves, -⟩ := accepts_iff.1 h
  refine ⟨fun block hblock => ?_, hcertificate.sorted.imp ne_of_lt⟩
  obtain ⟨goal, hgoal, hreplays⟩ := hproves.steps block hblock
  exact hproblem.textStep_of_replays hgoal (hproblem.over_claim (mem_of_getElem? hgoal))
    hreplays

/-- The text of such a certificate decodes to its blocks with steps, completely when there are
steps. -/
theorem Written.decode (h : Written certificate) :
    ∃ syntaxComplete, decodeModelCertificatePrefix (trim (certificateText certificate).toList)
        certificate.version certificate.problemHash = .ok ⟨certificate.withoutEmptyBlocks,
          saturatingAdd 0 certificate.stepCount, syntaxComplete⟩ ∧
      (certificate.stepCount ≠ 0 → syntaxComplete = true) := by
  have hencodable : Encodable certificate :=
    ⟨fun block hblock step hstep => (h.text block hblock step hstep).separated, h.nodup⟩
  have htrim : trim (certificateText certificate).toList =
      (certificateText certificate).toList := by
    refine trim_eq_self fun c hc => ?_
    rcases mem_intercalate rfl hc with rfl | ⟨line, hline, hc⟩
    · decide
    · obtain ⟨block, hblock, hline⟩ := mem_flatMap.1 hline
      obtain ⟨step, hstep, rfl⟩ := mem_map.1 hline
      exact (h.text block hblock step hstep).not_isWhitespace hc
  rw [htrim, decodeModelCertificatePrefix_eq]
  by_cases hsteps : certificate.stepCount = 0
  · have hflat : certificate.flatSteps = [] := by
      rwa [stepCount_eq, length_eq_zero_iff] at hsteps
    have htext : certificateText certificate = "" := by
      rw [certificateText, certificateLines_eq, hflat]
      rfl
    have hblocks := hencodable.pushSteps_flatSteps
    rw [hflat] at hblocks
    exact ⟨_, by rw [htext, hsteps, withoutEmptyBlocks, ← hblocks]; rfl,
      fun hne => absurd hsteps hne⟩
  · obtain ⟨hsplit, hparsed⟩ := parsedLines_certificateText hencodable hsteps
    refine ⟨_, by
      rw [hparsed, hencodable.pushSteps_flatSteps, stepCount_eq]; rfl,
      fun _ => ?_⟩
    rw [hsplit, certificateLines_eq]
    simp

/-- A block of one step is written. -/
theorem Written.single (h : Written certificate) {i index : ℕ} {step : RuliadProofStep}
    (hstep : certificate.stepAt i = some (index, step)) :
    Written { certificate with goals := [⟨index, [step]⟩] } := by
  refine ⟨?_, nodup_singleton index⟩
  simp only [mem_singleton, forall_eq]
  rw [stepAt, stepAtGoals_eq] at hstep
  obtain ⟨block, hblock, hentry⟩ := mem_flatMap.1 (mem_of_getElem? hstep)
  obtain ⟨step', hstep', heq⟩ := mem_map.1 hentry
  obtain ⟨rfl, rfl⟩ := Prod.mk.inj heq
  exact h.text block hblock step' hstep'

/-- Without its empty blocks an accepted certificate is accepted only if it has none. -/
theorem forall_steps_ne_nil_of_accepts (h : Accepts S problem certificate .default)
    (h' : Accepts S problem certificate.withoutEmptyBlocks .default) :
    ∀ block ∈ certificate.goals, block.steps ≠ [] := by
  have hgoals := (accepts_iff.1 h).2.2.1.goals
  have hlength := congrArg List.length ((accepts_iff.1 h').2.2.1.goals.trans hgoals.symm)
  rw [length_map, length_map] at hlength
  intro block hblock
  simpa using length_filter_eq_length_iff.1 hlength block hblock

theorem withoutEmptyBlocks_eq_self (h : ∀ block ∈ certificate.goals, block.steps ≠ []) :
    certificate.withoutEmptyBlocks = certificate := by
  rw [withoutEmptyBlocks,
    filter_eq_self.2 fun block hblock => by simpa using h block hblock]

/-- A proof without empty blocks has steps, for the root is a required goal. -/
theorem stepCount_ne_zero (h : Proves problem certificate)
    (hblocks : ∀ block ∈ certificate.goals, block.steps ≠ []) : certificate.stepCount ≠ 0 := by
  have hroot := @RuliadProofProblem.root_mem_requiredGoalIndices problem
  rw [← h.goals] at hroot
  obtain ⟨block, hblock, -⟩ := mem_map.1 hroot
  intro hzero
  have hlength := List.sum_eq_zero_iff_forall_eq_nat.1 hzero _ (List.mem_map_of_mem hblock)
  exact hblocks block hblock (length_eq_zero_iff.1 hlength)

/-- The score of an accepted certificate's own text. -/
theorem scoreConstructedProof_certificateText (h : Accepts S problem certificate .default)
    {oracle : RuliadProofCertificate} (horacle : oracle.stepCount ≤ 1048576) :
    ∃ score, scoreConstructedProof S (certificateText certificate).toList problem oracle =
        .ok score ∧
      (score.status = .verifierMatch ↔ ∀ block ∈ certificate.goals, block.steps ≠ []) ∧
      (score.status = .verifierMatch → (score.partialProgressPpm = scorePpmDenominator ↔
        oracle.stepCount ≤ certificate.stepCount)) := by
  obtain ⟨hproblem, hcertificate, hproves, -⟩ := accepts_iff.1 h
  obtain ⟨syntaxComplete, hdecode, hcomplete⟩ := (written_of_accepts h).decode
  rw [hcertificate.version, ← hproblem.version] at hdecode
  obtain ⟨score, report, hscore, hreport, -, hmatch, hprogress⟩ :=
    scoreConstructedProof_spec _ oracle hcertificate.problemHash hdecode
  have hblocks : score.status = .verifierMatch → ∀ block ∈ certificate.goals, block.steps ≠ [] :=
    fun hstatus => forall_steps_ne_nil_of_accepts h ⟨report, hreport, (hmatch.1 hstatus).1⟩
  refine ⟨score, hscore, ⟨hblocks, fun hblocks => hmatch.2 ⟨?_, ?_⟩⟩, fun hstatus => ?_⟩
  · obtain ⟨report', hreport', haccepted⟩ := h
    rw [withoutEmptyBlocks_eq_self hblocks] at hreport
    exact Except.ok.inj (hreport'.symm.trans hreport) ▸ haccepted
  · exact hcomplete (stepCount_ne_zero hproves hblocks)
  · rw [hprogress (hmatch.1 hstatus).1 horacle, withoutEmptyBlocks_eq_self (hblocks hstatus)]

/-- Putting a step in its own place changes nothing. -/
theorem replaceStepGoals_stepAtGoals {goals : List RuliadGoalCertificate} {i index : ℕ}
    {step : RuliadProofStep}
    (h : stepAtGoals goals i = some (index, step)) :
    replaceStepGoals step goals i = some goals := by
  induction goals generalizing i with
  | nil => cases h
  | cons block blocks ih =>
    rw [stepAtGoals] at h
    rw [replaceStepGoals]
    cases hget : block.steps[i]? with
    | some found =>
      rw [hget] at h
      obtain ⟨rfl, rfl⟩ := Prod.mk.inj (some.inj h)
      obtain ⟨hlt, rfl⟩ := List.getElem?_eq_some_iff.1 hget
      rw [if_pos hlt, set_getElem_self]
    | none =>
      rw [hget] at h
      rw [if_neg (not_lt.2 (getElem?_eq_none_iff.1 hget)), ih h]
      rfl

/-- The score of the text of a step of an accepted certificate. -/
theorem scoreFormalTransitionAnswer_singleStepAt (h : Accepts S problem certificate .default)
    {i index : ℕ} {step : RuliadProofStep} (hstep : certificate.stepAt i = some (index, step)) :
    ∃ score, scoreFormalTransitionAnswer S
        (certificateText { certificate with goals := [⟨index, [step]⟩] }).toList problem certificate
        (some i) = .ok score ∧
      score.status = .verifierMatch ∧ score.partialProgressPpm = scorePpmDenominator := by
  obtain ⟨hproblem, hcertificate, -⟩ := accepts_iff.1 h
  obtain ⟨syntaxComplete, hdecode, hcomplete⟩ := ((written_of_accepts h).single hstep).decode
  obtain rfl := hcomplete (by simp [stepCount])
  obtain ⟨report, hreport, haccepted, -, hsteps⟩ := replayCertificate_of_accepts h
  have hlt : i < certificate.stepCount := by
    rw [stepAt, stepAtGoals_eq] at hstep
    rw [stepCount_eq]
    exact (List.getElem?_eq_some_iff.1 hstep).1
  have hreplaced : certificate.withStepReplaced i step = some certificate := by
    rw [withStepReplaced, replaceStepGoals_stepAtGoals hstep]
    rfl
  refine ⟨_, by
    simp only [scoreFormalTransitionAnswer, hstep, hcertificate.problemHash,
      hproblem.version.trans hcertificate.version.symm, hdecode]
    simp [withoutEmptyBlocks, stepCount, hreplaced,
      hreport, okOr, bind, Except.bind, saturatingAdd]
    rfl, ?_⟩
  simp [haccepted, hsteps, hlt, bit, scorePpmDenominator]

/-- The score of an answer that the kernel replays. -/
theorem scoreRuliadAnswer_of_formal (overflowChecks : Bool) {E : EvalPackages}
    {spec : FormalProofSpec} {answer : List Char} {score : AnswerFieldScore}
    (h : scoreFormalCertificateAnswer E.toSerde answer (some (.formalProof spec)) =
      .ok (some score)) (expected : List Char) :
    ∃ full, scoreRuliadAnswer overflowChecks E (some (.formalProof spec)) expected (some answer) =
        .ok full ∧
      full.verifierMatch = decide (score.status = .verifierMatch) ∧
      full.partialProgressPpm = score.partialProgressPpm := by
  refine ⟨_, by
    simp only [scoreRuliadAnswer, scoreRuliadCompletionParts, map_some, scoreAnswerFields, h,
      scoreCertificatePrefix, if_true, bind, Except.bind, pure, Except.pure]
    rfl, rfl, rfl⟩

/-- The score of an answer to the task of constructing a proof. -/
theorem scoreRuliadAnswer_of_construct (overflowChecks : Bool) {E : EvalPackages}
    {spec : FormalProofSpec} (htask : spec.task = .constructProof) {answer : List Char}
    {score : AnswerFieldScore} (expected : List Char)
    (h : scoreConstructedProof E.toSerde answer spec.problem spec.certificate = .ok score) :
    ∃ full, scoreRuliadAnswer overflowChecks E (some (.formalProof spec)) expected (some answer) =
        .ok full ∧
      (full.verifierMatch = true ↔ score.status = .verifierMatch) ∧
      full.partialProgressPpm = score.partialProgressPpm := by
  obtain ⟨full, hrun, hmatch, hppm⟩ := @scoreRuliadAnswer_of_formal overflowChecks E spec answer
    score (by
      simp only [scoreFormalCertificateAnswer, htask, h, bind, Except.bind]
      rfl) expected
  exact ⟨full, hrun, by rw [hmatch, decide_eq_true_eq], hppm⟩

/-- The reference answer is the text of the certificate or of its step, and its score is that of the
text. -/
theorem scoreRuliadAnswer_compactAnswer_of_accepts (overflowChecks : Bool) {E : EvalPackages}
    {spec : FormalProofSpec} (h : Accepts E.toSerde spec.problem spec.certificate .default)
    (htask : spec.task = .constructProof ∨
      spec.task = .advanceProof ∧ ∃ i, spec.proofStepIndex = some i ∧
        (spec.certificate.stepAt i).isSome = true) :
    ∃ answer score, compactAnswer E.toSerde (.formalProof spec) = .ok answer ∧
      scoreRuliadAnswer overflowChecks E (some (.formalProof spec)) answer.toList
        (some answer.toList) = .ok score ∧
      (score.verifierMatch = true ∧ score.partialProgressPpm = 1000000 ↔
        (spec.task = .constructProof → ∀ block ∈ spec.certificate.goals, block.steps ≠ [])) := by
  rcases htask with htask | ⟨htask, i, hindex, hstep⟩
  · obtain ⟨score, hscore, hblocks, hfull⟩ :=
      scoreConstructedProof_certificateText h (accepts_iff.1 h).2.1.stepCount_le
    obtain ⟨full, hrun, hmatch, hppm⟩ :=
      scoreRuliadAnswer_of_construct overflowChecks htask _ hscore
    refine ⟨_, full, by simp only [compactAnswer, formalAnswer, htask]; rfl, hrun, ?_⟩
    rw [hmatch, hppm]
    simpa [htask, hblocks, scorePpmDenominator] using fun h => (hfull (hblocks.2 h)).2 le_rfl
  · obtain ⟨⟨index, step⟩, hat⟩ := isSome_iff_exists.1 hstep
    obtain ⟨score, hscore, hstatus, hscorePpm⟩ := scoreFormalTransitionAnswer_singleStepAt h hat
    have hfields : scoreFormalCertificateAnswer E.toSerde
        (certificateText { spec.certificate with goals := [⟨index, [step]⟩] }).toList
        (some (.formalProof spec)) = .ok (some score) := by
      simp only [scoreFormalCertificateAnswer, htask, hindex, hscore, bind, Except.bind]
      rfl
    obtain ⟨full, hrun, hmatch, hppm⟩ := scoreRuliadAnswer_of_formal overflowChecks hfields _
    refine ⟨_, full, by
      simp only [compactAnswer, formalAnswer, htask, hindex, bind_some,
        singleStepAt, hat, map_some]
      rfl, hrun, ?_⟩
    simp [hmatch, hppm, hstatus, hscorePpm, htask, scorePpmDenominator]

/-- **The reference answers earn full credit**: those of proof steps always, those of whole proofs
exactly when no goal of the certificate is without steps. -/
theorem scoreRuliadAnswer_compactAnswer (overflowChecks : Bool) {E : EvalPackages}
    {spec : FormalProofSpec} (htask : spec.task = .constructProof ∨ spec.task = .advanceProof)
    (h : VerifiesOk overflowChecks E.toPackages (.formalProof spec)) :
    ∃ answer score, compactAnswer E.toSerde (.formalProof spec) = .ok answer ∧
      scoreRuliadAnswer overflowChecks E (some (.formalProof spec)) answer.toList
        (some answer.toList) = .ok score ∧
      (score.verifierMatch = true ∧ score.partialProgressPpm = 1000000 ↔
        (spec.task = .constructProof → ∀ block ∈ spec.certificate.goals, block.steps ≠ [])) := by
  obtain ⟨report, hreport, haccepted⟩ := bind_eq_ok.1 (verifiesOk_iff.1 h)
  obtain ⟨haccepted, hshape⟩ := (Bool.and_eq_true _ _).mp (Except.ok.inj haccepted)
  refine scoreRuliadAnswer_compactAnswer_of_accepts overflowChecks ⟨report, hreport, haccepted⟩
    (htask.imp_right fun htask => ⟨htask, ?_⟩)
  simp only [taskShapeOk, htask, Bool.and_eq_true, Option.any_eq_true] at hshape
  exact hshape.2

theorem scoreRuliadAnswer_compactAnswer_unitSpec :
    ∃ answer score, compactAnswer (.ofDigest unitDigest) (.formalProof unitSpec) = .ok answer ∧
      scoreRuliadAnswer true (.ofDigest unitDigest) (some (.formalProof unitSpec)) answer.toList
        (some answer.toList) = .ok score ∧
      score.verifierMatch = true ∧ score.partialProgressPpm = 1000000 := by
  have hverifies : VerifiesOk true (EvalPackages.ofDigest unitDigest).toPackages
      (.formalProof unitSpec) := ⟨_, rfl, rfl⟩
  obtain ⟨answer, score, hanswer, hscore, hfull⟩ :=
    scoreRuliadAnswer_compactAnswer true (.inl rfl) hverifies
  exact ⟨answer, score, hanswer, hscore, hfull.2 (by decide)⟩

/-- **The matches are the proofs**: the certificate of a match is accepted and has a step for every
goal, and every such certificate has a text that is a match. The progress of a match is full when it
is not shorter than the reference. -/
theorem verifierMatch_spec (overflowChecks : Bool) {E : EvalPackages} {spec : FormalProofSpec}
    (htask : spec.task = .constructProof)
    (h : VerifiesOk overflowChecks E.toPackages (.formalProof spec)) (expected : List Char) :
    (∀ answer score, scoreRuliadAnswer overflowChecks E (some (.formalProof spec)) expected
        (some answer) = .ok score → score.verifierMatch = true →
      ∃ certificate, decodeModelCertificate (trim answer) spec.problem.version
          certificate.problemHash = .ok certificate ∧
        Accepts E.toSerde spec.problem certificate .default ∧
        (∀ block ∈ certificate.goals, block.steps ≠ []) ∧
        (score.partialProgressPpm = 1000000 ↔
          spec.certificate.stepCount ≤ certificate.stepCount)) ∧
    ∀ certificate, Accepts E.toSerde spec.problem certificate .default →
      (∀ block ∈ certificate.goals, block.steps ≠ []) →
      ∃ answer score, scoreRuliadAnswer overflowChecks E (some (.formalProof spec)) expected
        (some answer) = .ok score ∧ score.verifierMatch = true := by
  obtain ⟨report, hreport, haccepted⟩ := bind_eq_ok.1 (verifiesOk_iff.1 h)
  obtain ⟨haccepted, -⟩ := (Bool.and_eq_true _ _).mp (Except.ok.inj haccepted)
  have horacle := (accepts_iff.1 ⟨report, hreport, haccepted⟩).2.1.stepCount_le
  refine ⟨fun answer full hfull hmatch => ?_, fun certificate haccepts hblocks => ?_⟩
  · obtain ⟨hash, hhash⟩ := spec.problem.canonicalHash_ok E.toSerde
    obtain ⟨score, report, hscore, hreport, -, hstatus, hprogress⟩ := scoreConstructedProof_spec
      answer spec.certificate hhash (decodeModelCertificatePrefix_eq ..)
    obtain ⟨full', hfull', hiff, hppm⟩ :=
      scoreRuliadAnswer_of_construct overflowChecks htask expected hscore
    obtain rfl := Except.ok.inj (hfull.symm.trans hfull')
    obtain ⟨haccepted, hcomplete⟩ := hstatus.1 (hiff.1 hmatch)
    have hdecode := (@decodeModelCertificate_eq_ok_iff _ spec.problem.version hash _).2
      ⟨of_decide_eq_true hcomplete, rfl⟩
    exact ⟨_, hdecode, ⟨report, hreport, haccepted⟩, (encodable_of_decode hdecode).2.2,
      hppm ▸ hprogress haccepted horacle⟩
  · obtain ⟨score, hscore, hmatch, -⟩ := scoreConstructedProof_certificateText haccepts horacle
    obtain ⟨full, hfull, hiff, -⟩ :=
      scoreRuliadAnswer_of_construct overflowChecks htask expected hscore
    exact ⟨_, full, hfull, hiff.2 (hmatch.2 hblocks)⟩

theorem verifierMatch_spec_unitSpec :
    ∃ answer score, scoreRuliadAnswer true (.ofDigest unitDigest) (some (.formalProof unitSpec)) []
      (some answer) = .ok score ∧ score.verifierMatch = true :=
  (verifierMatch_spec true rfl ⟨_, rfl, rfl⟩ []).2 unitCertificate ⟨_, rfl, rfl⟩ (by decide)

end Reference

end BurnDragon.Ruliad
