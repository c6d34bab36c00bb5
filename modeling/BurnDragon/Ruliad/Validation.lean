import BurnDragon.Ruliad.Kernel

/-!
# What validation guarantees

`validate_problem` succeeds on exactly the problems that satisfy `ValidProblem`, with the canonical
hash as its result (`validateProblem_eq_ok_iff`). The later modules only use the fields of
`ValidProblem`.
-/

namespace BurnDragon.Ruliad

open Equational Rust List RuliadTerm RuliadProofProblem

/-! ## Terms -/

/-- The symbols of the term are identifiers and its operators have arguments. -/
inductive WellFormed : RuliadTerm → Prop
  | var (index : ℕ) : WellFormed (.var index)
  | atom {symbol : String} (h : validIdentifier symbol) : WellFormed (.atom symbol)
  | apply {operator : String} {arguments : List RuliadTerm} (h : validIdentifier operator)
    (hne : arguments ≠ []) (hargs : ∀ t ∈ arguments, WellFormed t) :
    WellFormed (.apply operator arguments)

theorem validateSymbol_eq_ok_iff {symbol : String} :
    validateSymbol symbol = .ok () ↔ validIdentifier symbol := by
  unfold validateSymbol
  split <;> simp_all

theorem validateTerms_eq_ok_iff {ts : List RuliadTerm} :
    validateTerms ts = .ok () ↔ ∀ t ∈ ts, validateTerm t = .ok () := by
  induction ts with
  | nil => simp [validateTerms]
  | cons t ts ih => simp [validateTerms, check_bind_eq_ok, ih]

theorem validateTerm_eq_ok_iff {t : RuliadTerm} : validateTerm t = .ok () ↔ WellFormed t := by
  induction t using Term.ind with
  | var i => simp [validateTerm, WellFormed.var]
  | atom symbol =>
    rw [validateTerm, validateSymbol_eq_ok_iff]
    exact ⟨.atom, fun h => by cases h with | atom h => exact h⟩
  | apply operator arguments ih =>
    simp only [validateTerm, check_bind_eq_ok, validateSymbol_eq_ok_iff, ite_error_eq_ok,
      validateTerms_eq_ok_iff, List.isEmpty_iff]
    constructor
    · rintro ⟨h, hne, hargs⟩
      exact .apply h hne fun t ht => (ih t ht).1 (hargs t ht)
    · rintro (_ | _ | ⟨h, hne, hargs⟩)
      exact ⟨h, hne, fun t ht => (ih t ht).2 (hargs t ht)⟩

/-- `node_count` is the number of nodes, as far as it does not saturate. -/
theorem nodeCount_eq (t : RuliadTerm) : nodeCount t = min t.size usizeMax := by
  have hfold : ∀ {ts : List RuliadTerm} {acc : ℕ}, (∀ t ∈ ts,
      nodeCount t = min t.size usizeMax) → acc ≤ usizeMax →
      nodeCountFold acc ts = min (acc + (ts.map Term.size).sum) usizeMax := by
    intro ts
    induction ts with
    | nil =>
      intro acc _ hacc
      simp [nodeCountFold, hacc]
    | cons t ts ih =>
      intro acc h hacc
      rw [nodeCountFold, h t (by simp), saturatingAdd,
        ih (fun t ht => h t (by simp [ht])) (min_le_right _ _), map_cons, sum_cons]
      omega
  induction t using Term.ind with
  | var i => simp [nodeCount, usizeMax]
  | atom a => simp [nodeCount, usizeMax]
  | apply f args ih =>
    rw [nodeCount, hfold ih (Nat.zero_le _), saturatingAdd, Term.size_apply]
    omega

/-- The characters of an identifier. -/
def IdentifierChar (c : Char) : Prop := c.isAlphanum ∨ c = '_' ∨ c = '-' ∨ c = '.'

instance : DecidablePred IdentifierChar := fun _ => inferInstanceAs (Decidable (_ ∨ _))

variable {c : Char}

theorem utf8Size_of_identifierChar (h : IdentifierChar c) : c.utf8Size = 1 := by
  have hascii : c.val ≤ 127 := by
    rcases h with h | rfl | rfl | rfl
    · simp only [Char.isAlphanum, Char.isAlpha, Char.isUpper, Char.isLower, Char.isDigit,
        Bool.or_eq_true, Bool.and_eq_true, decide_eq_true_eq, ge_iff_le,
        UInt32.le_iff_toNat_le] at h ⊢
      have hZ : 'Z'.val.toNat = 90 := rfl
      have hz : 'z'.val.toNat = 122 := rfl
      have h9 : '9'.val.toNat = 57 := rfl
      have h127 : (127 : UInt32).toNat = 127 := rfl
      omega
    · decide
    · decide
    · decide
  exact if_pos hascii

theorem isWhitespace_of_identifierChar (h : IdentifierChar c) :
    isWhitespace c = false := by
  rcases h with h | rfl | rfl | rfl
  · have hrange : 48 ≤ c.toNat ∧ c.toNat ≤ 122 := by
      simp only [Char.isAlphanum, Char.isAlpha, Char.isUpper, Char.isLower, Char.isDigit,
        Bool.or_eq_true, Bool.and_eq_true, decide_eq_true_eq, ge_iff_le,
        UInt32.le_iff_toNat_le] at h
      have hA : 'A'.val.toNat = 65 := rfl
      have hZ : 'Z'.val.toNat = 90 := rfl
      have ha : 'a'.val.toNat = 97 := rfl
      have hz : 'z'.val.toNat = 122 := rfl
      have h0 : '0'.val.toNat = 48 := rfl
      have h9 : '9'.val.toNat = 57 := rfl
      have hc : c.toNat = c.val.toNat := rfl
      omega
    simp only [isWhitespace, Bool.or_eq_false_iff, Bool.and_eq_false_iff, decide_eq_false_iff_not,
      beq_eq_false_iff_ne]
    omega
  · decide
  · decide
  · decide

/-- A text of identifier characters that is neither empty nor too long is an identifier. -/
theorem validIdentifier_of {s : String} (hchars : ∀ c ∈ s.toList, IdentifierChar c)
    (hpos : 0 < s.toList.length) (hlen : s.toList.length ≤ 128) : validIdentifier s := by
  have hbytes : byteLen s.toList = s.toList.length := by
    rw [byteLen, map_congr_left fun c hc => utf8Size_of_identifierChar (hchars c hc)]
    simp
  simp only [validIdentifier, Bool.and_eq_true, decide_eq_true_eq, all_eq_true,
    Bool.or_eq_true, beq_iff_eq, hbytes]
  refine ⟨⟨fun h => by simp [h] at hpos, hlen⟩, fun c hc => ?_⟩
  have := hchars c hc
  simp only [IdentifierChar] at this
  tauto

theorem identifierChar_of_validIdentifier {s : String} (h : validIdentifier s) (hc : c ∈ s.toList) :
    IdentifierChar c := by
  simp only [validIdentifier, Bool.and_eq_true, all_eq_true, Bool.or_eq_true, beq_iff_eq] at h
  have hchar := h.2 c hc
  unfold IdentifierChar
  tauto

variable {n : ℕ}

/-- A short identifier with a number is an identifier. -/
theorem validIdentifier_numbered {base : String} (hbase : validIdentifier base)
    (hlen : base.toList.length ≤ 28) (hn : n < 10 ^ 100) :
    validIdentifier (base ++ decimal n) := by
  have hdigits : (decimal n).toList.length ≤ 100 := length_decimal_le (by omega) hn
  have hpos := length_pos_iff.2 (decimal_ne_nil n)
  refine validIdentifier_of (fun c hc => ?_) ?_ ?_
  · rw [String.toList_append, mem_append] at hc
    rcases hc with hc | hc
    · exact identifierChar_of_validIdentifier hbase hc
    · exact .inl (by simp [Char.isAlphanum, isDigit_of_mem_decimal hc])
  · rw [String.toList_append, length_append]
    omega
  · rw [String.toList_append, length_append]
    omega

/-- The same with the salt of a problem. -/
theorem validIdentifier_salted {base : String} (hbase : validIdentifier base)
    (hlen : base.toList.length ≤ 8) (hn : n < 10 ^ 100) (salt : UInt64) :
    validIdentifier (base ++ decimal n ++ "_" ++ hex08 salt.toNat) := by
  have hdigits : (decimal n).toList.length ≤ 100 := length_decimal_le (by omega) hn
  have hsalt : (hex08 salt.toNat).toList.length ≤ 16 :=
    length_hex08_le (by omega) (by have := salt.toNat_lt; omega)
  have htext : (base ++ decimal n ++ "_" ++ hex08 salt.toNat).toList =
      base.toList ++ (decimal n).toList ++ ['_'] ++ (hex08 salt.toNat).toList := by
    simp [String.toList_append]
  refine validIdentifier_of (fun c hc => ?_) ?_ ?_
  · rw [htext] at hc
    simp only [mem_append, mem_singleton] at hc
    rcases hc with ((hc | hc) | rfl) | hc
    · exact identifierChar_of_validIdentifier hbase hc
    · exact .inl (by simp [Char.isAlphanum, isDigit_of_mem_decimal hc])
    · decide
    · exact .inl (isAlphanum_of_mem_hex08 hc)
  · simp only [htext, length_append, length_singleton]
    omega
  · simp only [htext, length_append, length_singleton]
    omega

/-! ## Axioms and goals -/

structure ValidAxiom (rule : RuliadRewriteAxiom) : Prop where
  id : validIdentifier rule.id
  lhs : WellFormed rule.lhs
  rhs : WellFormed rule.rhs
  bound : ∀ i ∈ rule.rhs.vars, i ∈ rule.lhs.vars
  lhs_ne_var : ∀ i, rule.lhs ≠ .var i

structure ValidGoal (index : ℕ) (goal : RuliadProofGoal) : Prop where
  id : validIdentifier goal.id
  lhs : WellFormed goal.claim.lhs
  rhs : WellFormed goal.claim.rhs
  sorted : goal.dependencies.Pairwise (· < ·)
  lt : ∀ dependency ∈ goal.dependencies, dependency < index

/-- The number of term nodes that `validate_problem` counts. -/
def countAxioms (termNodes : ℕ) (rules : List RuliadRewriteAxiom) : ℕ :=
  rules.foldl (fun n rule => addNodes n rule.lhs rule.rhs) termNodes

def countGoals (termNodes : ℕ) (goals : List RuliadProofGoal) : ℕ :=
  goals.foldl (fun n goal => addNodes n goal.claim.lhs goal.claim.rhs) termNodes

variable {ids : List String}

/-- The identifiers do not repeat and are none of those seen before. -/
theorem nodup_cons_fresh {id : String} {seen : List String} :
    (id :: ids).Nodup ∧ (∀ x ∈ id :: ids, x ∉ seen) ↔
      id ∉ seen ∧ ids.Nodup ∧ ∀ x ∈ ids, x ∉ id :: seen := by
  rw [forall_mem_cons]
  simp only [nodup_cons, mem_cons, not_or]
  constructor
  · rintro ⟨⟨hid, hids⟩, hseen, h⟩
    exact ⟨hseen, hids, fun x hx => ⟨fun heq => hid (heq ▸ hx), h x hx⟩⟩
  · rintro ⟨hseen, hids, h⟩
    exact ⟨⟨fun hid => (h id hid).1 rfl, hids⟩, hseen, fun x hx => (h x hx).2⟩

theorem matches_var_iff {t : RuliadTerm} : (t matches .var _) ↔ ∃ i, t = .var i := by
  cases t using Term.ind <;> simp

theorem validAxiom_iff {rule : RuliadRewriteAxiom} :
    ValidAxiom rule ↔ validIdentifier rule.id ∧ WellFormed rule.lhs ∧ WellFormed rule.rhs ∧
      (∀ i ∈ variableSet rule.rhs, i ∈ variableSet rule.lhs) ∧
      ¬ (rule.lhs matches .var _) := by
  simp only [mem_variableSet, matches_var_iff, not_exists]
  constructor
  · exact fun h => ⟨h.id, h.lhs, h.rhs, h.bound, h.lhs_ne_var⟩
  · rintro ⟨hid, hlhs, hrhs, hbound, hne⟩
    exact ⟨hid, hlhs, hrhs, hbound, hne⟩

variable {m : ℕ}

theorem validateAxioms_cons_eq_ok_iff {rule : RuliadRewriteAxiom} {rules : List RuliadRewriteAxiom} :
    validateAxioms ids m (rule :: rules) = .ok n ↔ (ValidAxiom rule ∧ rule.id ∉ ids) ∧
      validateAxioms (rule.id :: ids) (addNodes m rule.lhs rule.rhs) rules = .ok n := by
  simp only [validateAxioms, throw_bind, ite_error_eq_ok, check_bind_eq_ok, validateTerm_eq_ok_iff,
    validAxiom_iff, Bool.or_eq_true, Bool.not_eq_true', decide_eq_true_eq, not_or, not_not,
    Bool.not_eq_false]
  tauto

theorem validateAxioms_eq_ok_iff {rules : List RuliadRewriteAxiom} :
    validateAxioms ids m rules = .ok n ↔ (∀ rule ∈ rules, ValidAxiom rule) ∧
      ((rules.map (·.id)).Nodup ∧ ∀ id ∈ rules.map (·.id), id ∉ ids) ∧
      n = countAxioms m rules := by
  induction rules generalizing ids m with
  | nil => simp [validateAxioms, countAxioms, eq_comm]
  | cons rule rules ih =>
    rw [validateAxioms_cons_eq_ok_iff, ih, map_cons, nodup_cons_fresh, forall_mem_cons]
    simp only [countAxioms, foldl_cons]
    tauto

/-- The check of consecutive dependencies is the check of all pairs. -/
theorem windows_sorted_iff {dependencies : List ℕ} :
    ((dependencies.zip dependencies.tail).any fun (a, b) => a ≥ b) = false ↔
      dependencies.Pairwise (· < ·) := by
  induction dependencies with
  | nil => simp
  | cons a as ih =>
    cases as with
    | nil => simp
    | cons b bs =>
      simp only [tail_cons, zip_cons_cons, any_cons, Bool.or_eq_false_iff,
        decide_eq_false_iff_not, not_le] at ih ⊢
      rw [ih]
      constructor
      · rintro ⟨hab, h⟩
        refine pairwise_cons.2 ⟨fun c hc => ?_, h⟩
        obtain rfl | hc := mem_cons.1 hc
        · exact hab
        · exact hab.trans ((pairwise_cons.1 h).1 c hc)
      · intro h
        obtain ⟨ha, h⟩ := pairwise_cons.1 h
        exact ⟨ha b (by simp), h⟩

variable {index : ℕ}

theorem validGoal_iff {goal : RuliadProofGoal} :
    ValidGoal index goal ↔ validIdentifier goal.id ∧ WellFormed goal.claim.lhs ∧
      WellFormed goal.claim.rhs ∧
      ((goal.dependencies.zip goal.dependencies.tail).any fun (a, b) => a ≥ b) = false ∧
      (goal.dependencies.any fun dependency => dependency ≥ index) = false := by
  rw [windows_sorted_iff]
  simp only [any_eq_false, decide_eq_true_eq, not_le]
  exact ⟨fun h => ⟨h.id, h.lhs, h.rhs, h.sorted, h.lt⟩,
    fun ⟨h₁, h₂, h₃, h₄, h₅⟩ => ⟨h₁, h₂, h₃, h₄, h₅⟩⟩

theorem validateGoals_cons_eq_ok_iff {goal : RuliadProofGoal} {goals : List RuliadProofGoal} :
    validateGoals index ids m (goal :: goals) = .ok n ↔ (ValidGoal index goal ∧ goal.id ∉ ids) ∧
      validateGoals (index + 1) (goal.id :: ids) (addNodes m goal.claim.lhs goal.claim.rhs)
        goals = .ok n := by
  simp only [validateGoals, throw_bind, ite_error_eq_ok, check_bind_eq_ok, validateTerm_eq_ok_iff,
    validGoal_iff, Bool.or_eq_true, Bool.not_eq_true', decide_eq_true_eq, not_or,
    Bool.not_eq_false, Bool.not_eq_true]
  tauto

theorem validateGoals_eq_ok_iff {goals : List RuliadProofGoal} :
    validateGoals index ids m goals = .ok n ↔
      (∀ i goal, goals[i]? = some goal → ValidGoal (index + i) goal) ∧
      ((goals.map (·.id)).Nodup ∧ ∀ id ∈ goals.map (·.id), id ∉ ids) ∧
      n = countGoals m goals := by
  induction goals generalizing ids index m with
  | nil => simp [validateGoals, countGoals, eq_comm]
  | cons goal goals ih =>
    have hsplit : (∀ i g, (goal :: goals)[i]? = some g → ValidGoal (index + i) g) ↔
        ValidGoal index goal ∧ ∀ i g, goals[i]? = some g → ValidGoal (index + 1 + i) g := by
      constructor
      · refine fun h => ⟨h 0 goal rfl, fun i g hg => ?_⟩
        have := h (i + 1) g hg
        rwa [show index + (i + 1) = index + 1 + i by omega] at this
      · rintro ⟨h₀, h⟩ (_ | i) g hg
        · simpa using (Option.some.inj hg) ▸ h₀
        · have := h i g hg
          rwa [show index + 1 + i = index + (i + 1) by omega] at this
    rw [validateGoals_cons_eq_ok_iff, ih, map_cons, nodup_cons_fresh, hsplit]
    simp only [countGoals, foldl_cons]
    tauto

/-! ## Problems -/

/-- The number of term nodes of a problem, as `validate_problem` counts it. -/
def RuliadProofProblem.termNodes (problem : RuliadProofProblem) : ℕ :=
  countGoals (countAxioms 0 problem.axioms) problem.goals

/-- What `validate_problem` checks. -/
structure ValidProblem (problem : RuliadProofProblem) (limits : RuliadKernelLimits) : Prop where
  version : problem.version = ruliadIrVersion
  theory : trim problem.theory.toList ≠ []
  root_lt : problem.root < problem.goals.length
  axioms_length : problem.axioms.length ≤ limits.maximumAxioms
  goals_length : problem.goals.length ≤ limits.maximumGoals
  axioms : ∀ rule ∈ problem.axioms, ValidAxiom rule
  axioms_nodup : (problem.axioms.map (·.id)).Nodup
  goals : ∀ index goal, problem.goals[index]? = some goal → ValidGoal index goal
  goals_nodup : (problem.goals.map (·.id)).Nodup
  termNodes_le : problem.termNodes ≤ limits.maximumTermNodes

/-- The number of nodes in the sides of the axioms and of the goals. -/
def RuliadProofProblem.nodes (problem : RuliadProofProblem) : ℕ :=
  (problem.axioms.map fun rule => rule.lhs.size + rule.rhs.size).sum +
    (problem.goals.map fun goal => goal.claim.lhs.size + goal.claim.rhs.size).sum

variable {S : Serde} {problem : RuliadProofProblem} {limits : RuliadKernelLimits} {hash : String}

/-- `validate_problem` counts the nodes, as far as the count does not saturate. -/
theorem termNodes_eq (problem : RuliadProofProblem) :
    problem.termNodes = min problem.nodes usizeMax := by
  have haxioms : ∀ (rules : List RuliadRewriteAxiom) (n : ℕ), n ≤ usizeMax →
      countAxioms n rules =
        min (n + (rules.map fun rule => rule.lhs.size + rule.rhs.size).sum) usizeMax := by
    intro rules
    induction rules with
    | nil => exact fun n hn => by simp [countAxioms, hn]
    | cons rule rules ih =>
      intro n hn
      have := ih (addNodes n rule.lhs rule.rhs) (min_le_right _ _)
      simp only [countAxioms, addNodes, saturatingAdd, nodeCount_eq, foldl_cons,
        map_cons, sum_cons] at this ⊢
      omega
  have hgoals : ∀ (goals : List RuliadProofGoal) (n : ℕ), n ≤ usizeMax →
      countGoals n goals =
        min (n + (goals.map fun goal => goal.claim.lhs.size + goal.claim.rhs.size).sum)
          usizeMax := by
    intro goals
    induction goals with
    | nil => exact fun n hn => by simp [countGoals, hn]
    | cons goal goals ih =>
      intro n hn
      have := ih (addNodes n goal.claim.lhs goal.claim.rhs) (min_le_right _ _)
      simp only [countGoals, addNodes, saturatingAdd, nodeCount_eq, foldl_cons,
        map_cons, sum_cons] at this ⊢
      omega
  have h := haxioms problem.axioms 0 (Nat.zero_le _)
  rw [termNodes, h, hgoals _ _ (min_le_right _ _), nodes]
  omega

/-- **Validation succeeds on exactly the valid problems**, with the canonical hash. -/
theorem validateProblem_eq_ok_iff :
    validateProblem S problem limits = .ok hash ↔
      ValidProblem problem limits ∧ problem.canonicalHash S = .ok hash := by
  obtain ⟨h, hh⟩ := problem.canonicalHash_ok S
  simp only [validateProblem, throw_bind, ite_error_eq_ok, bind_eq_ok, validateAxioms_eq_ok_iff,
    validateGoals_eq_ok_iff, hh, pure, Except.pure, Except.ok.injEq, not_or,
    not_not, not_lt, not_le, Nat.zero_add]
  constructor
  · rintro ⟨hversion, ⟨htheory, -, hroot⟩, ⟨haxioms, hgoals⟩, _, ⟨ha, ⟨ha', -⟩, rfl⟩, _,
      ⟨hg, ⟨hg', -⟩, rfl⟩, hnodes, hhash⟩
    exact ⟨⟨hversion, htheory, by omega, haxioms, hgoals, ha, ha', hg, hg', hnodes⟩, hhash⟩
  · rintro ⟨hv, hhash⟩
    refine ⟨hv.version, ⟨hv.theory, fun hnil => ?_, by have := hv.root_lt; omega⟩,
      ⟨hv.axioms_length, hv.goals_length⟩, _, ⟨hv.axioms, ⟨hv.axioms_nodup, by simp⟩, rfl⟩, _,
      ⟨hv.goals, ⟨hv.goals_nodup, by simp⟩, rfl⟩, hv.termNodes_le, hhash⟩
    have := hv.root_lt
    simp [hnil] at this

namespace ValidProblem

variable (h : ValidProblem problem limits)
include h

/-- The required goals of a valid problem exist. -/
theorem requires_lt (hreq : problem.Requires index) :
    index < problem.goals.length := by
  induction hreq with
  | refl => exact h.root_lt
  | tail _ hedge ih =>
    rename_i i j _
    have hi : goalDependencies problem.goals i = problem.goals[i].dependencies := by
      simp [goalDependencies, getElem?_eq_getElem ih]
    rw [Graph.Edge, hi] at hedge
    exact ((h.goals i _ (getElem?_eq_getElem ih)).lt j hedge).trans ih

/-- No more goals are required than there are. -/
theorem length_requiredGoalIndices_le :
    problem.requiredGoalIndices.length ≤ problem.goals.length := by
  have hnodup : problem.requiredGoalIndices.Nodup :=
    pairwise_requiredGoalIndices.imp ne_of_lt
  have hsub : problem.requiredGoalIndices ⊆ List.range problem.goals.length := fun i hi =>
    mem_range.2 (h.requires_lt (mem_requiredGoalIndices.1 hi))
  simpa using (hnodup.subperm hsub).length_le

theorem requires_getElem? (hreq : problem.Requires index) :
    ∃ goal, problem.goals[index]? = some goal :=
  ⟨_, getElem?_eq_getElem (h.requires_lt hreq)⟩

end ValidProblem

end BurnDragon.Ruliad
