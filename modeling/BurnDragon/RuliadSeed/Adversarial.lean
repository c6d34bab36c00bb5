import BurnDragon.RuliadSeed.Agreement

/-!
# Adversarial certificates

`lean.rs` changes a certificate in three ways that both checkers must refuse: it drops the last goal,
it replaces the source of the first step by an axiom that does not exist, and it replaces the path of
the first step by an argument index that no term of the problem has. None of the changed certificates
proves the problem, so both refuse them (`adversarialCertificates_rejected`).

`unknownAxiom` recurses at most once for every axiom. The capacity of the vector of cases is not
modelled.
-/

namespace BurnDragon.RuliadSeed

open Equational Rust Ruliad List Option

mutual

def maximumTermArity : RuliadTerm → ℕ
  | .var _ => 0
  | .atom _ => 0
  | .apply _ arguments => max (maximumTermArities arguments) arguments.length

/-- The maximum of `maximum_term_arity` over the arguments, and 0 without arguments. -/
def maximumTermArities : List RuliadTerm → ℕ
  | [] => 0
  | t :: ts => max (maximumTermArity t) (maximumTermArities ts)

end

def maximumTermArityProblem (problem : RuliadProofProblem) : ℕ :=
  max (maximumTermArities (problem.axioms.flatMap fun rule => [rule.lhs, rule.rhs]))
    (maximumTermArities (problem.goals.flatMap fun goal => [goal.claim.lhs, goal.claim.rhs]))

/-- Change the first step of a certificate, if it has one (`first_step_mut`). -/
def modifyFirstStep (change : RuliadProofStep → RuliadProofStep) :
    List RuliadGoalCertificate → Option (List RuliadGoalCertificate)
  | [] => none
  | ⟨goal, step :: steps⟩ :: nodes => some (⟨goal, change step :: steps⟩ :: nodes)
  | ⟨goal, []⟩ :: nodes => (modifyFirstStep change nodes).map (⟨goal, []⟩ :: ·)

/-- The loop that makes an identifier longer while an axiom has it. -/
def unknownAxiom (ids : List String) : ℕ → String → String
  | 0, id => id
  | fuel + 1, id => if id ∈ ids then unknownAxiom ids fuel (id.push '_') else id

/-- `adversarial_certificates`. -/
def adversarialCertificates (bundle : RuliadProofBundle) : List (String × RuliadProofCertificate) :=
  let certificate := bundle.certificate
  let missingId := unknownAxiom (bundle.problem.axioms.map (·.id)) bundle.problem.axioms.length
    "__lean_external_missing_axiom__"
  let invalidIndex := maximumTermArityProblem bundle.problem
  let missingGoal := if certificate.goals = [] then none else some certificate.goals.dropLast
  let unknownSource := modifyFirstStep (fun step => { step with source := .axiom_ missingId })
    certificate.goals
  let invalidPath := modifyFirstStep (fun step => { step with path := [invalidIndex] })
    certificate.goals
  [("missing_goal", missingGoal), ("unknown_source", unknownSource), ("invalid_path", invalidPath)].filterMap
    fun (label, goals) => goals.map fun goals => (label, { certificate with goals })

/-! ## The changes -/

theorem le_maximumTermArities {t : RuliadTerm} {ts : List RuliadTerm} (h : t ∈ ts) :
    maximumTermArity t ≤ maximumTermArities ts := by
  induction ts with
  | nil => cases h
  | cons u us ih =>
    rw [maximumTermArities]
    rcases mem_cons.1 h with rfl | h
    · exact le_max_left _ _
    · exact (ih h).trans (le_max_right _ _)

/-- No left side of a goal has more arguments. -/
theorem length_le_maximumTermArityProblem {problem : RuliadProofProblem} {goal : RuliadProofGoal}
    {operator : String} {arguments : List RuliadTerm} (hgoal : goal ∈ problem.goals)
    (hlhs : goal.claim.lhs = .apply operator arguments) :
    arguments.length ≤ maximumTermArityProblem problem := by
  have hmem : goal.claim.lhs ∈ problem.goals.flatMap fun goal => [goal.claim.lhs, goal.claim.rhs] :=
    mem_flatMap.2 ⟨goal, hgoal, mem_cons_self⟩
  have harity : arguments.length ≤ maximumTermArity goal.claim.lhs := by
    rw [hlhs, maximumTermArity]
    exact le_max_right _ _
  exact harity.trans ((le_maximumTermArities hmem).trans (le_max_right _ _))

/-- The identifier that the loop ends with is not an axiom's: every identifier it leaves behind is
shorter than those it can still meet. -/
theorem unknownAxiom_not_mem {ids : List String} {fuel : ℕ} {id : String}
    (h : (ids.filter fun other => id.length ≤ other.length).length ≤ fuel) :
    unknownAxiom ids fuel id ∉ ids := by
  induction fuel generalizing id with
  | zero =>
    intro hmem
    have hfilter := eq_nil_of_length_eq_zero (Nat.le_zero.1 h)
    have hid : id ∈ ids.filter fun other => id.length ≤ other.length :=
      mem_filter.2 ⟨hmem, by simp⟩
    rw [hfilter] at hid
    cases hid
  | succ fuel ih =>
    rw [unknownAxiom]
    split_ifs with hmem
    · refine ih (Nat.le_of_lt_succ (lt_of_lt_of_le ?_ h))
      have hsub : (ids.filter fun other => (id.push '_').length ≤ other.length).Sublist
          (ids.filter fun other => id.length ≤ other.length) :=
        monotone_filter_right ids fun other hother => by
          simp only [String.length_push, decide_eq_true_eq] at hother ⊢
          omega
      refine lt_of_le_of_ne hsub.length_le fun heq => ?_
      have hid : id ∈ ids.filter fun other => id.length ≤ other.length :=
        mem_filter.2 ⟨hmem, by simp⟩
      rw [← hsub.eq_of_length heq] at hid
      have hlength := (mem_filter.1 hid).2
      rw [decide_eq_true_eq, String.length_push] at hlength
      omega
    · exact hmem

/-- The changed step is the first of its goal. -/
theorem exists_of_modifyFirstStep {change : RuliadProofStep → RuliadProofStep}
    {nodes changed : List RuliadGoalCertificate} (h : modifyFirstStep change nodes = some changed) :
    ∃ goal step steps, ⟨goal, step :: steps⟩ ∈ nodes ∧ ⟨goal, change step :: steps⟩ ∈ changed := by
  induction nodes generalizing changed with
  | nil => cases h
  | cons node nodes ih =>
    obtain ⟨goal, _ | ⟨step, steps⟩⟩ := node
    · obtain ⟨rest, hrest, rfl⟩ := map_eq_some_iff.1 h
      obtain ⟨g, step, steps, hmem, hchanged⟩ := ih hrest
      exact ⟨g, step, steps, mem_cons_of_mem _ hmem, mem_cons_of_mem _ hchanged⟩
    · obtain rfl := some.inj h
      exact ⟨goal, step, steps, mem_cons_self, mem_cons_self⟩

/-! ## Rejection -/

section Rejection

variable {problem : RuliadProofProblem} {certificate : RuliadProofCertificate}
  {nodes : List RuliadGoalCertificate}

/-- A certificate without the last goal proves nothing. -/
theorem not_proves_dropLast (h : Proves problem certificate) :
    ¬ Proves problem { certificate with goals := certificate.goals.dropLast } := by
  intro hdropped
  have hlength := congrArg List.length (h.goals.trans hdropped.goals.symm)
  have hpos : 0 < certificate.goals.length := by
    have hroot := length_pos_of_mem
      (@RuliadProofProblem.root_mem_requiredGoalIndices problem)
    rwa [← h.goals, length_map] at hroot
  simp only [length_map, length_dropLast] at hlength
  omega

/-- Nor does one whose first step does not apply to the left side of its goal. -/
theorem not_proves_modifyFirstStep {change : RuliadProofStep → RuliadProofStep}
    (hchange : ∀ goal ∈ problem.goals, ∀ step t, ¬ Applies problem goal (change step) goal.claim.lhs t)
    (h : modifyFirstStep change certificate.goals = some nodes) :
    ¬ Proves problem { certificate with goals := nodes } := by
  intro hproves
  obtain ⟨index, step, steps, -, hmem⟩ := exists_of_modifyFirstStep h
  obtain ⟨goal, hgoal, t, happlies, -⟩ := hproves.steps _ hmem
  exact hchange goal (mem_of_getElem? hgoal) step t happlies

theorem not_applies_unknownAxiom {goal : RuliadProofGoal} {step : RuliadProofStep}
    {s t : RuliadTerm} {id : String} (hid : id ∉ problem.axioms.map (·.id)) :
    ¬ Applies problem goal { step with source := .axiom_ id } s t := by
  rintro ⟨equality, hsource, -⟩
  obtain ⟨rule, hfind, -⟩ := map_eq_some_iff.1 hsource
  refine hid (mem_map.2 ⟨rule, mem_of_find?_eq_some hfind, ?_⟩)
  simpa using find?_some hfind

theorem not_applies_invalidPath {goal : RuliadProofGoal} {step : RuliadProofStep} {t : RuliadTerm}
    (hgoal : goal ∈ problem.goals) :
    ¬ Applies problem goal { step with path := [maximumTermArityProblem problem] } goal.claim.lhs
      t := by
  rintro ⟨equality, -, hat⟩
  generalize hlhs : goal.claim.lhs = s at hat
  cases hat with
  | arg hargument _ =>
    have hle := length_le_maximumTermArityProblem hgoal hlhs
    have hlt := (List.getElem?_eq_some_iff.1 hargument).1
    omega

/-- None of the adversarial certificates proves the problem. -/
theorem not_proves_of_mem_adversarialCertificates {bundle : RuliadProofBundle}
    {label : String} {changed : RuliadProofCertificate}
    (h : Proves bundle.problem bundle.certificate)
    (hmem : (label, changed) ∈ adversarialCertificates bundle) :
    ¬ Proves bundle.problem changed := by
  obtain ⟨⟨label', goals⟩, hcase, hchanged⟩ := mem_filterMap.1 hmem
  obtain ⟨nodes, rfl, hnodes⟩ := map_eq_some_iff.1 hchanged
  obtain ⟨-, rfl⟩ := Prod.mk.inj hnodes
  simp only [mem_cons, Prod.mk.injEq, not_mem_nil, or_false] at hcase
  obtain ⟨-, hgoals⟩ | ⟨-, hgoals⟩ | ⟨-, hgoals⟩ := hcase
  · obtain ⟨-, hdropped⟩ := ite_none_left_eq_some.1 hgoals.symm
    obtain rfl := some.inj hdropped
    exact not_proves_dropLast h
  · refine not_proves_modifyFirstStep (fun _ _ _ _ => not_applies_unknownAxiom ?_) hgoals.symm
    exact unknownAxiom_not_mem ((length_filter_le _ _).trans (length_map ..).le)
  · exact not_proves_modifyFirstStep (fun _ hgoal _ _ => not_applies_invalidPath hgoal) hgoals.symm

end Rejection

/-- **Adversarial certificates are rejected** by the kernel, with any limits, and by the seed
checker. -/
theorem adversarialCertificates_rejected {S : Serde} {bundle : RuliadProofBundle}
    {limits : RuliadKernelLimits} (h : Accepts S bundle.problem bundle.certificate limits)
    (limits' : RuliadKernelLimits) :
    ∀ case ∈ adversarialCertificates bundle,
      (∃ report, replayCertificate S bundle.problem case.2 limits' = .ok report ∧
        report.accepted = false) ∧
      checkCertificate (.ofKernel bundle.problem) (.ofKernel case.2) = false := by
  rintro ⟨label, changed⟩ hmem
  obtain ⟨hproblem, -, hproves, -⟩ := accepts_iff.1 h
  have hnot := not_proves_of_mem_adversarialCertificates hproves hmem
  refine ⟨?_, Bool.eq_false_iff.2 fun hcheck => hnot ((checkCertificate_iff hproblem).1 hcheck).2⟩
  obtain ⟨report, hreport⟩ := replayCertificate_ok S bundle.problem changed limits'
  refine ⟨report, hreport, Bool.eq_false_iff.2 fun haccepted => hnot ?_⟩
  exact (accepts_iff.1 ⟨report, hreport, haccepted⟩).2.2.1

/-- The three certificates for the unit problem. -/
theorem adversarialCertificates_rejected_unitProblem :
    (adversarialCertificates ⟨unitProblem, unitCertificate⟩).length = 3 ∧
      ∀ case ∈ adversarialCertificates ⟨unitProblem, unitCertificate⟩,
        checkCertificate (.ofKernel unitProblem) (.ofKernel case.2) = false :=
  ⟨by decide +kernel, fun case hcase => (@adversarialCertificates_rejected _
    ⟨unitProblem, unitCertificate⟩ _ accepts_unitCertificate .default case hcase).2⟩

end BurnDragon.RuliadSeed
