import BurnDragon.Ruliad.Oracles

/-!
# When the verifier returns

Which specs `verify_spec` gives a verdict on, instead of a panic. The automata, the operation tables,
the categories and the formal proofs are checked before they are indexed. A trace reserves a capacity
that the spec chooses, the remainders of a proof tree come before the check of its modulus, and a
functor is applied to the composition table before the table is checked.
`verifySpec_returns_iff` puts the families together.
-/

namespace BurnDragon.Ruliad

open Rust List

/-! ## Automata and rewriting -/

theorem automatonFrom_returns {stateCount : ℕ} {transitions : List (List ℕ)}
    (h : validTransitionTable stateCount transitions 2) (input : List Char) {state : ℕ}
    (hstate : state < stateCount) : ∃ trace, automatonFrom transitions state input = .ok trace := by
  simp only [validTransitionTable, Bool.and_eq_true, decide_eq_true_eq, all_eq_true] at h
  obtain ⟨⟨-, hlen⟩, hrows⟩ := h
  induction input generalizing state with
  | nil => exact ⟨_, rfl⟩
  | cons symbol rest ih =>
    rw [automatonFrom]
    split
    · exact ⟨_, rfl⟩
    rename_i inputIndex hsymbol
    have hinput : inputIndex < 2 := by
      split_ifs at hsymbol <;> simp at hsymbol <;> omega
    have hrow : state < transitions.length := hlen ▸ hstate
    obtain ⟨hwidth, hnext⟩ := hrows _ (getElem_mem hrow)
    have hcolumn : inputIndex < transitions[state].length := by omega
    obtain ⟨trace, htrace⟩ := ih (hnext _ (getElem_mem hcolumn))
    simp only [index_of_lt hrow, index_of_lt hcolumn, bind, Except.bind, htrace]
    exact ⟨_, rfl⟩

theorem verifyAutomaton_returns (spec : AutomatonSpec) : ∃ ok, verifyAutomaton spec = .ok ok := by
  have htrace : ∃ trace, automatonTrace spec.stateCount spec.transitions spec.startState
      spec.input = .ok trace := by
    unfold automatonTrace
    split
    · exact ⟨_, rfl⟩
    rename_i h
    simp only [Bool.or_eq_true, Bool.not_eq_true', decide_eq_true_eq, not_or, Bool.not_eq_false,
      not_le] at h
    obtain ⟨trace, htrace⟩ := automatonFrom_returns h.1 spec.input.toList h.2
    simp only [htrace, bind, Except.bind]
    exact ⟨_, rfl⟩
  obtain ⟨trace, htrace⟩ := htrace
  simp only [verifyAutomaton, htrace, bind, Except.bind]
  exact ⟨_, rfl⟩

theorem betterMatch_eq {value : String} {best : Option (ℕ × ℕ)} {entry : RuliadRewriteRule × ℕ} :
    betterMatch value best entry = best ∨
      ∃ position, betterMatch value best entry = some (position, entry.2) := by
  unfold betterMatch
  split_ifs
  · exact .inl rfl
  · split
    · exact .inl rfl
    · split_ifs
      · exact .inr ⟨_, rfl⟩
      · exact .inl rfl

/-- The best match names one of the rules. -/
theorem bestMatch_lt {value : String} {rules : List RuliadRewriteRule} {position ruleIndex : ℕ}
    (h : bestMatch value rules = some (position, ruleIndex)) : ruleIndex < rules.length := by
  have hfold : ∀ (entries : List (RuliadRewriteRule × ℕ)) (best : Option (ℕ × ℕ)),
      (∀ entry ∈ entries, entry.2 < rules.length) → (∀ m, best = some m → m.2 < rules.length) →
      ∀ m, entries.foldl (betterMatch value) best = some m → m.2 < rules.length := by
    intro entries
    induction entries with
    | nil => exact fun best _ hbest => hbest
    | cons entry entries ih =>
      intro best hentries hbest
      refine ih _ (fun e he => hentries e (by simp [he])) fun m hm => ?_
      rcases @betterMatch_eq value best entry with heq | ⟨position, heq⟩
      · exact hbest m (heq.symm.trans hm)
      · obtain rfl := Option.some.inj (heq.symm.trans hm)
        exact hentries entry (by simp)
  exact hfold rules.zipIdx none (fun entry hentry => (mem_zipIdx' hentry).1) (by simp) _ h

theorem applyRewriteOnce_returns (value : String) (rules : List RuliadRewriteRule) :
    ∃ next, applyRewriteOnce value rules = .ok next := by
  unfold applyRewriteOnce
  split
  · exact ⟨_, rfl⟩
  · rename_i hbest
    simp only [index_of_lt (bestMatch_lt hbest), bind, Except.bind]
    exact ⟨_, rfl⟩

theorem rewriteFrom_returns (rules : List RuliadRewriteRule) (steps : ℕ) (current : String) :
    ∃ trace, rewriteFrom rules steps current = .ok trace := by
  induction steps generalizing current with
  | zero => exact ⟨_, rfl⟩
  | succ steps ih =>
    obtain ⟨next, hnext⟩ := applyRewriteOnce_returns current rules
    simp only [rewriteFrom, hnext, bind, Except.bind]
    cases next with
    | none => exact ⟨_, rfl⟩
    | some next =>
      obtain ⟨trace, htrace⟩ := ih next
      simp only [htrace]
      exact ⟨_, rfl⟩

theorem verifyRewrite_returns_iff {spec : RewriteSpec} :
    (∃ ok, verifyRewrite spec = .ok ok) ↔ 24 * (spec.steps + 1) ≤ isizeMax := by
  obtain ⟨trace, htrace⟩ := rewriteFrom_returns spec.rules spec.steps spec.initial
  rw [← withCapacity_saturatingAdd_iff (by omega), verifyRewrite, rewriteTrace, htrace]
  cases withCapacity 24 (saturatingAdd spec.steps 1) <;>
    simp [bind, Except.bind, pure, Except.pure]

/-! ## Cellular automata -/

theorem verifyEca_returns_iff {spec : EcaSpec} :
    (∃ ok, verifyEca spec = .ok ok) ↔ 24 * (spec.steps + 1) ≤ isizeMax := by
  rw [← Eca.trace_returns_iff spec.rule (Eca.parseState spec.initial), verifyEca]
  cases Eca.trace spec.rule (Eca.parseState spec.initial) spec.steps <;>
    simp [bind, Except.bind, pure, Except.pure]

theorem verifySimulation_returns_iff {spec : SimulationSpec} :
    (∃ ok, verifySimulation spec = .ok ok) ↔ 24 * (spec.steps + 1) ≤ isizeMax := by
  have htrace := fun rule initial => @Eca.trace_returns_iff rule spec.steps initial
  constructor
  · rintro ⟨ok, h⟩
    obtain ⟨frames, hframes, -⟩ := bind_eq_ok.1 h
    exact (htrace _ _).1 ⟨frames, hframes⟩
  · intro h
    obtain ⟨source, hsource⟩ := (htrace spec.sourceRule (Eca.parseState spec.sourceInitial)).2 h
    obtain ⟨target, htarget⟩ := (htrace spec.targetRule (Eca.parseState spec.targetInitial)).2 h
    simp only [verifySimulation, hsource, htarget, bind, Except.bind]
    exact ⟨_, rfl⟩

/-! ## Algebra -/

/-- A valid table is closed: the result of an operation is an operand again. -/
theorem operation_returns {carrierSize : ℕ} {table : List (List ℕ)}
    (h : validOperationTable carrierSize table) {a b : ℕ} (ha : a < carrierSize)
    (hb : b < carrierSize) : ∃ c < carrierSize, operation table a b = .ok c := by
  simp only [validOperationTable, Bool.and_eq_true, decide_eq_true_eq, all_eq_true] at h
  obtain ⟨⟨-, hlen⟩, hrows⟩ := h
  have hrow : a < table.length := by omega
  obtain ⟨hwidth, hvalues⟩ := hrows _ (getElem_mem hrow)
  have hcolumn : b < table[a].length := by omega
  refine ⟨_, hvalues _ (getElem_mem hcolumn), ?_⟩
  simp only [operation, index_of_lt hrow, index_of_lt hcolumn, bind, Except.bind]

theorem lawSides_returns {carrierSize : ℕ} {table : List (List ℕ)}
    (h : validOperationTable carrierSize table) (law : RuliadAlgebraLaw) {operands : List ℕ}
    (hoperands : ∀ a ∈ operands, a < carrierSize) :
    ∃ sides, lawSides table law operands = .ok sides := by
  unfold lawSides
  split
  · rename_i a b c
    obtain ⟨ha, hb, hc⟩ : a < carrierSize ∧ b < carrierSize ∧ c < carrierSize := by
      simpa using hoperands
    obtain ⟨ab, hab, hopab⟩ := operation_returns h ha hb
    obtain ⟨bc, hbc, hopbc⟩ := operation_returns h hb hc
    obtain ⟨lhs, -, hlhs⟩ := operation_returns h hab hc
    obtain ⟨rhs, -, hrhs⟩ := operation_returns h ha hbc
    simp only [hopab, hopbc, hlhs, hrhs, bind, Except.bind]
    exact ⟨_, rfl⟩
  · rename_i a b
    obtain ⟨ha, hb⟩ : a < carrierSize ∧ b < carrierSize := by simpa using hoperands
    obtain ⟨lhs, -, hlhs⟩ := operation_returns h ha hb
    obtain ⟨rhs, -, hrhs⟩ := operation_returns h hb ha
    simp only [hlhs, hrhs, bind, Except.bind]
    exact ⟨_, rfl⟩
  · exact ⟨_, rfl⟩

theorem verifyAlgebra_returns (spec : AlgebraSpec) : ∃ ok, verifyAlgebra spec = .ok ok := by
  have hresult : ∃ sides, algebraLawResult spec.carrierSize spec.operationTable spec.law
      spec.operands = .ok sides := by
    unfold algebraLawResult
    split
    · exact ⟨_, rfl⟩
    rename_i h
    simp only [Bool.or_eq_true, Bool.not_eq_true', not_or, Bool.not_eq_false, any_eq_true,
      decide_eq_true_eq, not_exists, not_and, not_le] at h
    exact lawSides_returns h.1 spec.law h.2
  obtain ⟨sides, hsides⟩ := hresult
  simp only [verifyAlgebra, hsides, bind, Except.bind]
  exact ⟨_, rfl⟩

/-! ## Categories -/

/-- The category verifier of the spec's task does not apply a functor, or it returns when it does. -/
def CategorySpec.Readable (spec : CategorySpec) : Prop :=
  ∀ functor, spec.functor = some functor →
    spec.task = .verifyFunctorPreservation ∨
      spec.task = .verifyNaturalitySquare ∧ spec.naturality.isSome →
    Category.FunctorReadable spec.objectCount spec.morphisms spec.identities spec.composition
      functor

theorem categoryTaskOk_returns_iff {spec : CategorySpec} :
    (∃ ok, categoryTaskOk spec = .ok ok) ↔ spec.Readable := by
  have hok : ∀ b : Bool, ∃ ok, (.ok b : Run Bool) = .ok ok := fun b => ⟨b, rfl⟩
  unfold categoryTaskOk CategorySpec.Readable
  simp only [← Category.validFunctor_returns_iff]
  split
  · simp_all [-Bool.exists_bool, andThen_returns_iff]
  · simp_all [-Bool.exists_bool, andThen_returns_iff]
  · simp_all [-Bool.exists_bool, andThen_returns_iff]
  · simp_all [-Bool.exists_bool, andThen_returns_iff, Category.naturalityCommutes_returns]
  · rename_i hcompose hlaw hfunctor hnaturality
    refine iff_of_true (hok false) fun functor heq htask => ?_
    rcases htask with htask | ⟨htask, hsome⟩
    · exact absurd heq (hfunctor _ htask)
    · obtain ⟨naturality, hn⟩ := Option.isSome_iff_exists.1 hsome
      exact absurd hn (hnaturality _ _ htask heq)

theorem verifyCategory_returns_iff {spec : CategorySpec} :
    (∃ ok, verifyCategory spec = .ok ok) ↔ spec.Readable := by
  rw [← categoryTaskOk_returns_iff, verifyCategory]
  cases categoryTaskOk spec with
  | error panic => simp [bind, Except.bind]
  | ok taskOk =>
    refine iff_of_true ?_ ⟨_, rfl⟩
    simp only [bind, Except.bind]
    exact andThen_returns_iff.2 ⟨Category.validFiniteCategory_returns, fun _ => ⟨_, rfl⟩⟩

/-! ## Proof trees -/

/-- The scalar product of two pairs. -/
def dotProduct (left right : ℕ × ℕ) : ℕ := left.1 * right.1 + left.2 * right.2

/-- The sums and products of a proof tree's verifier are machine integers. -/
structure ProofTreeSpec.InRange (spec : ProofTreeSpec) : Prop where
  sumFirst : spec.u.1 + spec.v.1 ≤ usizeMax
  sumSecond : spec.u.2 + spec.v.2 ≤ usizeMax
  dot : dotProduct spec.u spec.v ≤ usizeMax
  normU : dotProduct spec.u spec.u ≤ usizeMax
  normV : dotProduct spec.v spec.v ≤ usizeMax
  normSum : dotProduct spec.sum spec.sum ≤ usizeMax
  norms : dotProduct spec.u spec.u % spec.modulus + dotProduct spec.v spec.v % spec.modulus ≤
    usizeMax

section ProofTree

variable {a b c modulus : ℕ} {left right : ℕ × ℕ} {spec : ProofTreeSpec}

theorem usizeResult_true_eq_ok_iff : usizeResult true a = .ok c ↔ a ≤ usizeMax ∧ a = c := by
  unfold usizeResult
  by_cases h : a ≤ usizeMax <;> simp [h]

theorem modAdd_true_eq_ok_iff : modAdd true a b modulus = .ok c ↔
    a + b ≤ usizeMax ∧ modulus ≠ 0 ∧ (a + b) % modulus = c := by
  simp only [modAdd, bind_eq_ok, usizeResult_true_eq_ok_iff, remainder, ite_error_eq_ok,
    Except.ok.injEq]
  constructor
  · rintro ⟨_, ⟨hle, rfl⟩, hne, h⟩
    exact ⟨hle, hne, h⟩
  · rintro ⟨hle, hne, h⟩
    exact ⟨_, ⟨hle, rfl⟩, hne, h⟩

theorem modAdd_false_returns_iff : (∃ c, modAdd false a b modulus = .ok c) ↔ modulus ≠ 0 := by
  obtain ⟨total, htotal⟩ := usizeResult_false_returns (a + b)
  simp only [modAdd, htotal, bind, Except.bind, remainder, ite_error_eq_ok]
  simp

theorem modDot_true_eq_ok_iff (h : modulus ≠ 0) : modDot true left right modulus = .ok c ↔
    dotProduct left right ≤ usizeMax ∧ dotProduct left right % modulus = c := by
  simp only [modDot, if_neg h, bind_eq_ok, usizeResult_true_eq_ok_iff, modAdd_true_eq_ok_iff,
    dotProduct]
  constructor
  · rintro ⟨_, ⟨-, rfl⟩, _, ⟨-, rfl⟩, hle, -, h⟩
    exact ⟨hle, h⟩
  · rintro ⟨hle, hc⟩
    exact ⟨_, ⟨by omega, rfl⟩, _, ⟨by omega, rfl⟩, hle, h, hc⟩

theorem modDot_false_returns (left right : ℕ × ℕ) (modulus : ℕ) :
    ∃ c, modDot false left right modulus = .ok c := by
  unfold modDot
  split
  · exact ⟨_, rfl⟩
  · rename_i h
    obtain ⟨first, hfirst⟩ := usizeResult_false_returns (left.1 * right.1)
    obtain ⟨second, hsecond⟩ := usizeResult_false_returns (left.2 * right.2)
    obtain ⟨c, hc⟩ := modAdd_false_returns_iff.2 h
    exact ⟨c, by simp only [hfirst, hsecond, bind, Except.bind]; exact hc⟩

theorem verifyProofTree_returns_of {overflowChecks : Bool}
    {first second dot normU normV normSum rhs : ℕ}
    (hfirst : modAdd overflowChecks spec.u.1 spec.v.1 spec.modulus = .ok first)
    (hsecond : modAdd overflowChecks spec.u.2 spec.v.2 spec.modulus = .ok second)
    (hdot : modDot overflowChecks spec.u spec.v spec.modulus = .ok dot)
    (hu : modDot overflowChecks spec.u spec.u spec.modulus = .ok normU)
    (hv : modDot overflowChecks spec.v spec.v spec.modulus = .ok normV)
    (hs : modDot overflowChecks spec.sum spec.sum spec.modulus = .ok normSum)
    (hrhs : modAdd overflowChecks normU normV spec.modulus = .ok rhs) :
    ∃ ok, verifyProofTree overflowChecks spec = .ok ok := by
  simp only [verifyProofTree, modNorm, hfirst, hsecond, hdot, hu, hv, hs, hrhs, bind, Except.bind]
  exact ⟨_, rfl⟩

theorem verifyProofTree_true_returns_iff :
    (∃ ok, verifyProofTree true spec = .ok ok) ↔ spec.modulus ≠ 0 ∧ spec.InRange := by
  constructor
  · rintro ⟨ok, h⟩
    simp only [verifyProofTree, modNorm, bind_eq_ok, modAdd_true_eq_ok_iff] at h
    obtain ⟨_, ⟨hsum, hne, rfl⟩, _, ⟨hsum', -, rfl⟩, h⟩ := h
    simp only [modDot_true_eq_ok_iff hne] at h
    obtain ⟨_, ⟨hdot, rfl⟩, _, ⟨hu, rfl⟩, _, ⟨hv, rfl⟩, _, ⟨hs, rfl⟩, _, ⟨hnorms, -, rfl⟩, -⟩ := h
    exact ⟨hne, ⟨hsum, hsum', hdot, hu, hv, hs, hnorms⟩⟩
  · rintro ⟨hne, h⟩
    have hmod := fun c left right => @modDot_true_eq_ok_iff c spec.modulus left right hne
    exact verifyProofTree_returns_of (modAdd_true_eq_ok_iff.2 ⟨h.sumFirst, hne, rfl⟩)
      (modAdd_true_eq_ok_iff.2 ⟨h.sumSecond, hne, rfl⟩) ((hmod _ _ _).2 ⟨h.dot, rfl⟩)
      ((hmod _ _ _).2 ⟨h.normU, rfl⟩) ((hmod _ _ _).2 ⟨h.normV, rfl⟩) ((hmod _ _ _).2 ⟨h.normSum, rfl⟩)
      (modAdd_true_eq_ok_iff.2 ⟨h.norms, hne, rfl⟩)

theorem verifyProofTree_false_returns_iff :
    (∃ ok, verifyProofTree false spec = .ok ok) ↔ spec.modulus ≠ 0 := by
  constructor
  · rintro ⟨ok, h⟩
    obtain ⟨c, hc, -⟩ := bind_eq_ok.1 h
    exact modAdd_false_returns_iff.1 ⟨c, hc⟩
  · intro hne
    have hadd := fun a b => (@modAdd_false_returns_iff a b spec.modulus).2 hne
    have hdot := fun left right => modDot_false_returns left right spec.modulus
    obtain ⟨first, hfirst⟩ := hadd spec.u.1 spec.v.1
    obtain ⟨second, hsecond⟩ := hadd spec.u.2 spec.v.2
    obtain ⟨dot, hdot'⟩ := hdot spec.u spec.v
    obtain ⟨normU, hu⟩ := hdot spec.u spec.u
    obtain ⟨normV, hv⟩ := hdot spec.v spec.v
    obtain ⟨normSum, hs⟩ := hdot spec.sum spec.sum
    obtain ⟨rhs, hrhs⟩ := hadd normU normV
    exact verifyProofTree_returns_of hfirst hsecond hdot' hu hv hs hrhs

end ProofTree

/-! ## Formal proofs -/

theorem verifyFormalProof_returns (S : Serde) (spec : FormalProofSpec) :
    ∃ ok, verifyFormalProof S spec = .ok ok := by
  obtain ⟨report, hreport⟩ := replayCertificate_ok S spec.problem spec.certificate .default
  simp only [verifyFormalProof, hreport, bind, Except.bind]
  exact ⟨_, rfl⟩

/-! ## Specs -/

/-- The spec does not make its verifier panic. -/
def RuliadSampleSpec.Verifiable (overflowChecks : Bool) : RuliadSampleSpec → Prop
  | .eca spec => 24 * (spec.steps + 1) ≤ isizeMax
  | .simulation spec => 24 * (spec.steps + 1) ≤ isizeMax
  | .rewrite spec => 24 * (spec.steps + 1) ≤ isizeMax
  | .category spec => spec.Readable
  | .proofTree spec => spec.modulus ≠ 0 ∧ (overflowChecks → spec.InRange)
  | .automaton _ | .algebra _ | .formalProof _ | .leanTask _ | .hashNoise _ => True

theorem verifyFamily_returns_iff {overflowChecks : Bool} {P : Packages} {spec : RuliadSampleSpec} :
    (∃ ok, verifyFamily overflowChecks P spec = .ok ok) ↔ spec.Verifiable overflowChecks := by
  cases spec with
  | eca spec => exact verifyEca_returns_iff
  | simulation spec => exact verifySimulation_returns_iff
  | automaton spec => exact iff_of_true (verifyAutomaton_returns spec) trivial
  | rewrite spec => exact verifyRewrite_returns_iff
  | algebra spec => exact iff_of_true (verifyAlgebra_returns spec) trivial
  | category spec => exact verifyCategory_returns_iff
  | proofTree spec =>
    cases overflowChecks with
    | true =>
      refine verifyProofTree_true_returns_iff.trans ?_
      simp [RuliadSampleSpec.Verifiable]
    | false =>
      refine verifyProofTree_false_returns_iff.trans ?_
      simp [RuliadSampleSpec.Verifiable]
  | formalProof spec => exact iff_of_true (verifyFormalProof_returns P.toSerde spec) trivial
  | leanTask spec => exact iff_of_true ⟨_, rfl⟩ trivial
  | hashNoise spec => exact iff_of_true ⟨_, rfl⟩ trivial

/-- **When the verifier gives a verdict.** -/
theorem verifySpec_returns_iff (overflowChecks : Bool) (P : Packages) (spec : RuliadSampleSpec) :
    (∃ report, verifySpec overflowChecks P spec = .ok (.ok report)) ↔
      spec.Verifiable overflowChecks := by
  obtain ⟨hash, hhash⟩ := spec.stableJsonHash_ok P
  rw [← verifyFamily_returns_iff (P := P), verifySpec]
  cases verifyFamily overflowChecks P spec <;>
    simp [hhash, bind, Except.bind, pure, Except.pure]

/-! ## Specs that panic -/

/-- The modulus is checked after the first remainder. -/
def zeroModulusSpec : ProofTreeSpec where
  modulus := 0
  u := (1, 0)
  v := (0, 1)
  sum := (1, 1)
  dot := 0
  normU := 1
  normV := 1
  normSum := 2
  lhs := 2
  rhs := 2
  holds := true
  lemmas := []
  proofSteps := []
  task := .proveTheorem

/-- The composition table, which is checked after the functor, refers to a missing morphism. -/
def missingCompositeSpec : CategorySpec where
  objectCount := 1
  morphisms := [⟨"id", 0, 0, true⟩]
  identities := [0]
  composition := [[some 1]]
  path := [0]
  composed := 0
  lhs := 0
  rhs := 0
  holds := true
  proofSteps := []
  functor := some ⟨"identity", [0], [0]⟩
  naturality := none
  task := .verifyFunctorPreservation

theorem verifySpec_panics :
    verifySpec false (.ofDigest "") (.proofTree zeroModulusSpec) = .error .divisionByZero ∧
      verifySpec false (.ofDigest "") (.category missingCompositeSpec) =
        .error .indexOutOfBounds :=
  ⟨rfl, rfl⟩

end BurnDragon.Ruliad
