import BurnDragon.Ruliad.Rewriting
import BurnDragon.Ruliad.Rollout

/-!
# State keys

A policy remembers the states that it visited by their keys, the number of a goal and the canonical
text of a term. The text is no injective rendering in general, but the terms that the kernel reaches
are built from the identifiers of the problem (`Reached.over`), and on such terms it is
(`canonicalText_injective`), since neither the separators nor the question mark of a variable occur
in an identifier. So equal keys are keys of the same state (`stateKey_identifies`).
-/

namespace BurnDragon.Ruliad

open Equational Rust List RuliadTerm RuliadGoalTransitionKernel

/-! ## Terms over the symbols of a problem -/

/-- The identifiers among the symbols of the problem. Every operator has an argument. -/
def RuliadProofProblem.signature (problem : RuliadProofProblem) : Term.Signature String String where
  atom symbol := validIdentifier symbol ∧ ∃ t ∈ problem.terms, symbol ∈ t.atoms
  op operator arity := validIdentifier operator ∧ arity ≠ 0 ∧
    ∃ t ∈ problem.terms, operator ∈ t.operators

/-- A term reached from the left side of a goal's claim by steps of the kernel. -/
inductive Reached (problem : RuliadProofProblem) (limits : RuliadKernelLimits) (goalIndex : ℕ)
    (goal : RuliadProofGoal) : RuliadTerm → Prop
  | initial : Reached problem limits goalIndex goal goal.claim.lhs
  | step {s t : RuliadTerm} (step : RuliadProofStep) (hs : Reached problem limits goalIndex goal s)
    (h : applyStep problem goalIndex goal (axiomMap problem) limits s step = .ok t) :
    Reached problem limits goalIndex goal t

section Signature

variable {problem : RuliadProofProblem} {limits limits' : RuliadKernelLimits} {goalIndex : ℕ}
  {goal : RuliadProofGoal} {t : RuliadTerm}

theorem WellFormed.over_of_subset (h : WellFormed t)
    (hatoms : ∀ a ∈ t.atoms, ∃ u ∈ problem.terms, a ∈ u.atoms)
    (hoperators : ∀ f ∈ t.operators, ∃ u ∈ problem.terms, f ∈ u.operators) :
    Term.Over problem.signature t := by
  induction h with
  | var i => exact .var i
  | atom h => exact .atom ⟨h, hatoms _ (by simp)⟩
  | apply h hne _ ih =>
    refine .apply ⟨h, by simpa using hne, hoperators _ (by simp)⟩ fun u hu => ?_
    exact ih u hu (fun a ha => hatoms a (Term.mem_atoms_apply.2 ⟨u, hu, ha⟩))
      fun f hf => hoperators f (Term.mem_operators_apply.2 (.inr ⟨u, hu, hf⟩))

theorem WellFormed.over (h : WellFormed t) (ht : t ∈ problem.terms) :
    Term.Over problem.signature t :=
  h.over_of_subset (fun _ ha => ⟨t, ht, ha⟩) fun _ hf => ⟨t, ht, hf⟩

theorem wellFormed_of_over (h : Term.Over problem.signature t) : WellFormed t := by
  induction h with
  | var i => exact .var i
  | atom h => exact .atom h.1
  | apply h _ ih => exact .apply h.1 (by simpa using h.2.1) ih

theorem ValidProblem.over_terms (h : ValidProblem problem limits) :
    ∀ t ∈ problem.terms, Term.Over problem.signature t := by
  intro t ht
  refine WellFormed.over ?_ ht
  simp only [RuliadProofProblem.terms, mem_append, mem_flatMap, mem_cons,
    not_mem_nil, or_false] at ht
  rcases ht with ⟨rule, hrule, rfl | rfl⟩ | ⟨goal, hgoal, ht⟩
  · exact (h.axioms rule hrule).lhs
  · exact (h.axioms rule hrule).rhs
  · obtain ⟨index, hindex⟩ := mem_iff_getElem?.1 hgoal
    obtain rfl | rfl := ht
    · exact (h.goals index goal hindex).lhs
    · exact (h.goals index goal hindex).rhs

section Applies

variable {Q : Term.Signature String String} (h : ∀ t ∈ problem.terms, Term.Over Q t)

include h

/-- The sides of the equations that a step can use are over a signature of the problem's terms. -/
theorem over_sourceClaim {source : RuliadProofSource} {equality : RuliadEquality}
    (hsource : sourceClaim problem goal source = some equality) :
    Term.Over Q equality.lhs ∧ Term.Over Q equality.rhs := by
  cases source with
  | axiom_ id =>
    obtain ⟨rule, hrule, rfl⟩ := Option.map_eq_some_iff.1 hsource
    have hmem := mem_of_find?_eq_some hrule
    constructor <;> refine h _ (mem_append_left _ (mem_flatMap.2 ⟨rule, hmem, by simp⟩))
  | lemma_ dependency =>
    simp only [sourceClaim, Option.ite_none_right_eq_some, Option.map_eq_some_iff] at hsource
    obtain ⟨-, lemmaGoal, hgoal, rfl⟩ := hsource
    have hmem := mem_of_getElem? hgoal
    constructor <;>
      refine h _ (mem_append_right _ (mem_flatMap.2 ⟨lemmaGoal, hmem, by simp⟩))

/-- A step keeps the terms over the signature. -/
theorem over_of_applies {step : RuliadProofStep} {s : RuliadTerm} (hs : Term.Over Q s)
    (hstep : Applies problem goal step s t) : Term.Over Q t := by
  obtain ⟨equality, hsource, hat⟩ := hstep
  obtain ⟨hlhs, hrhs⟩ := over_sourceClaim h hsource
  refine hat.over_right hs fun s t hs hinst => hinst.over_right ?_ hs
  cases step.direction
  · exact hrhs
  · exact hlhs

end Applies

/-- **The kernel stays over the problem's symbols.** -/
theorem Reached.over (h : ValidProblem problem limits)
    (hgoal : problem.goals[goalIndex]? = some goal)
    (ht : Reached problem limits' goalIndex goal t) : Term.Over problem.signature t := by
  induction ht with
  | initial =>
    exact (h.goals goalIndex goal hgoal).lhs.over
      (mem_append_right _ (mem_flatMap.2 ⟨goal, mem_of_getElem? hgoal, by simp⟩))
  | step _ _ hstep ih =>
    exact over_of_applies h.over_terms ih ((applyStep_eq_ok_iff h.axioms_nodup).1 hstep).2

end Signature

/-! ## The text of a term -/

/-- A text that may stand behind a term: it is empty or begins with a separator. -/
def Ends (rest : List Char) : Prop := ∀ c ∈ rest.head?, c = ',' ∨ c = ')'

/-- The text of a term determines it and the text behind it. -/
def ReadsTerm (s : RuliadTerm) : Prop :=
  ∀ (t : RuliadTerm) (rest rest' : List Char), WellFormed t → Ends rest → Ends rest' →
    (RuliadTerm.canonicalText s).toList ++ rest = (RuliadTerm.canonicalText t).toList ++ rest' →
    s = t ∧ rest = rest'

theorem ends_separator (c : Char) (h : c = ',' ∨ c = ')') (rest : List Char) : Ends (c :: rest) := by
  simpa [Ends] using h

theorem Ends.not_identifierChar {rest : List Char} (h : Ends rest) :
    ∀ c ∈ rest.head?, ¬ IdentifierChar c := by
  intro c hc
  rcases h c hc with rfl | rfl <;> decide

theorem Ends.not_isDigit {rest : List Char} (h : Ends rest) :
    ∀ c ∈ rest.head?, ¬ c.isDigit := by
  intro c hc
  rcases h c hc with rfl | rfl <;> decide

section Text

variable {s t : RuliadTerm} {operator : String} {args : List RuliadTerm} {rest : List Char}

/-- The texts of the arguments with the separators behind them. -/
theorem toList_canonicalTexts_cons (t : RuliadTerm) (ts : List RuliadTerm) :
    (String.intercalate "," (canonicalTexts (t :: ts))).toList =
      (canonicalText t).toList ++
        if ts = [] then []
        else ',' :: (String.intercalate "," (canonicalTexts ts)).toList := by
  have hcomma : ",".toList = [','] := rfl
  cases ts with
  | nil => simp [canonicalTexts]
  | cons u us =>
    simp only [canonicalTexts, String.toList_intercalate, map_cons, hcomma,
      intercalate_cons_cons]
    simp

/-- What an identifier begins: it is not empty, and all its characters belong to it. -/
theorem validIdentifier_chars {symbol : String} (h : validIdentifier symbol) :
    symbol.toList ≠ [] ∧ ∀ c ∈ symbol.toList, IdentifierChar c := by
  refine ⟨fun hnil => ?_, fun c hc => identifierChar_of_validIdentifier h hc⟩
  simp [validIdentifier, hnil] at h

/-- No identifier begins with the question mark of a variable. -/
theorem question_ne_identifier {symbol : String} (h : validIdentifier symbol)
    {chars chars' : List Char} : '?' :: chars ≠ symbol.toList ++ chars' := by
  intro heq
  obtain ⟨hne, hchars⟩ := validIdentifier_chars h
  obtain ⟨c, cs, hcs⟩ := exists_cons_of_ne_nil hne
  rw [hcs, cons_append] at heq
  have hc := hchars c (by simp [hcs])
  rw [← (List.cons.inj heq).1] at hc
  exact absurd hc (by decide)

/-- A nonempty list of arguments is determined by their joined texts. -/
theorem readsTerms (hargs : ∀ s ∈ args, ReadsTerm s) (hne : args ≠ [])
    {args' : List RuliadTerm} {rest' : List Char} (hargs' : ∀ t ∈ args', WellFormed t)
    (hne' : args' ≠ [])
    (h : (String.intercalate "," (canonicalTexts args)).toList ++ ')' :: rest =
      (String.intercalate "," (canonicalTexts args')).toList ++ ')' :: rest') :
    args = args' ∧ rest = rest' := by
  induction args generalizing args' with
  | nil => exact absurd rfl hne
  | cons s ss ih =>
    obtain ⟨t, ts, rfl⟩ := exists_cons_of_ne_nil hne'
    rw [toList_canonicalTexts_cons, toList_canonicalTexts_cons, append_assoc, append_assoc] at h
    have hends : ∀ (us : List RuliadTerm) (rest : List Char), Ends ((if us = [] then [] else
        ',' :: (String.intercalate "," (canonicalTexts us)).toList) ++ ')' :: rest) := by
      intro us rest
      split_ifs
      · exact ends_separator ')' (.inr rfl) _
      · exact ends_separator ',' (.inl rfl) _
    obtain ⟨rfl, hrest⟩ := hargs s (by simp) t _ _ (hargs' t (by simp)) (hends _ _) (hends _ _) h
    -- a comma says that there are more arguments on both sides, a bracket that there are none
    by_cases hss : ss = []
    · by_cases hts : ts = []
      · subst hss hts
        simpa using hrest
      · rw [if_pos hss, if_neg hts] at hrest
        exact absurd (List.cons.inj hrest).1 (by decide)
    · by_cases hts : ts = []
      · rw [if_neg hss, if_pos hts] at hrest
        exact absurd (List.cons.inj hrest).1 (by decide)
      · rw [if_neg hss, if_neg hts, cons_append, cons_append] at hrest
        obtain ⟨rfl, hrests⟩ := ih (fun u hu => hargs u (by simp [hu])) hss
          (fun u hu => hargs' u (by simp [hu])) hts (List.cons.inj hrest).2
        exact ⟨rfl, hrests⟩

theorem toList_canonicalText_var (i : ℕ) :
    (canonicalText (.var i)).toList = '?' :: (decimal i).toList := by
  simp [canonicalText, String.toList_append]

theorem toList_canonicalText_atom (symbol : String) :
    (canonicalText (.atom symbol)).toList = symbol.toList := rfl

theorem toList_canonicalText_apply (operator : String) (args : List RuliadTerm)
    (rest : List Char) :
    (canonicalText (.apply operator args)).toList ++ rest = operator.toList ++ '(' ::
      ((String.intercalate "," (canonicalTexts args)).toList ++ ')' :: rest) := by
  simp [canonicalText, String.toList_append]

theorem WellFormed.readsTerm (hs : WellFormed s) : ReadsTerm s := by
  have hopen : ∀ (chars : List Char), ∀ c ∈ ('(' :: chars).head?, ¬ IdentifierChar c := by
    intro chars c hc
    obtain rfl : '(' = c := by simpa using hc
    decide
  induction hs with
  | var i =>
    intro t rest rest' ht hrest hrest' h
    rw [toList_canonicalText_var] at h
    cases ht with
    | var j =>
      rw [toList_canonicalText_var, cons_append, cons_append] at h
      obtain ⟨hij, hrests⟩ := append_inj_of_head (fun c hc => isDigit_of_mem_decimal hc)
        (fun c hc => isDigit_of_mem_decimal hc) hrest.not_isDigit hrest'.not_isDigit
        (List.cons.inj h).2
      exact ⟨by rw [decimal_injective (String.toList_inj.1 hij)], hrests⟩
    | atom hid => exact absurd h (question_ne_identifier hid)
    | apply hid _ _ =>
      rw [toList_canonicalText_apply] at h
      exact absurd h (question_ne_identifier hid)
  | atom hsymbol =>
    intro t rest rest' ht hrest hrest' h
    have hchars := (validIdentifier_chars hsymbol).2
    rw [toList_canonicalText_atom] at h
    cases ht with
    | var j =>
      rw [toList_canonicalText_var, cons_append] at h
      exact absurd h.symm (question_ne_identifier hsymbol)
    | atom hid =>
      obtain ⟨hsymbols, hrests⟩ := append_inj_of_head hchars (validIdentifier_chars hid).2
        hrest.not_identifierChar hrest'.not_identifierChar h
      exact ⟨by rw [String.toList_inj.1 hsymbols], hrests⟩
    | apply hid _ _ =>
      rw [toList_canonicalText_apply] at h
      obtain ⟨-, hrests⟩ := append_inj_of_head hchars (validIdentifier_chars hid).2
        hrest.not_identifierChar (hopen _) h
      exact absurd (hrest '(' (by simp [hrests])) (by decide)
  | apply hoperator hne _ ih =>
    intro t rest rest' ht hrest hrest' h
    have hchars := (validIdentifier_chars hoperator).2
    rw [toList_canonicalText_apply] at h
    cases ht with
    | var j =>
      rw [toList_canonicalText_var, cons_append] at h
      exact absurd h.symm (question_ne_identifier hoperator)
    | atom hid =>
      obtain ⟨-, hrests⟩ := append_inj_of_head hchars (validIdentifier_chars hid).2
        (hopen _) hrest'.not_identifierChar h
      have hends := hrest' '(' (by simp [← hrests])
      exact absurd hends (by decide)
    | apply hid hne' hargs' =>
      rw [toList_canonicalText_apply] at h
      obtain ⟨hoperators, hrests⟩ := append_inj_of_head hchars (validIdentifier_chars hid).2
        (hopen _) (hopen _) h
      obtain ⟨rfl, rfl⟩ := readsTerms ih hne hargs' hne' (List.cons.inj hrests).2
      exact ⟨by rw [String.toList_inj.1 hoperators], rfl⟩

/-- **The canonical text is injective on well-formed terms.** -/
theorem canonicalText_injective (hs : WellFormed s) (ht : WellFormed t)
    (h : canonicalText s = canonicalText t) : s = t :=
  (hs.readsTerm t [] [] ht (by simp [Ends]) (by simp [Ends]) (by rw [h])).1

end Text

/-! ## Keys -/

namespace RuliadProofPolicyState

/-- `canonical_state_key`. A state is solved when there is no goal at the cursor. -/
def canonicalStateKey (S : Serde) (problem : RuliadProofProblem) (state : RuliadProofPolicyState) :
    Except String String :=
  match state.goalOrder[state.goalCursor]? with
  | none => return "solved"
  | some goal => do
    let transition ← (RuliadGoalTransitionKernel.new S problem goal .default).mapError
      fun failure => "invalid proof policy problem: " ++ failure.message
    let current ← (transition.replayPrefix state.localSteps).mapError
      fun failure => "invalid proof policy state: " ++ failure.message
    return proofStateKey goal current

/-- The state is at the goal, and its local steps lead to the term. -/
def IsAt (S : Serde) (problem : RuliadProofProblem) (state : RuliadProofPolicyState) (goal : ℕ)
    (current : RuliadTerm) : Prop :=
  state.goalOrder[state.goalCursor]? = some goal ∧ ∃ transition,
    RuliadGoalTransitionKernel.new S problem goal .default = .ok transition ∧
    transition.replayPrefix state.localSteps = .ok current

end RuliadProofPolicyState

section Keys

variable {S : Serde} {problem : RuliadProofProblem} {limits : RuliadKernelLimits} {hash : String}
  {state : RuliadProofPolicyState} {goal goal' : ℕ} {s t : RuliadTerm} {key : String}

theorem canonicalStateKey_eq_ok (h : state.canonicalStateKey S problem = .ok key) :
    (state.solved ∧ key = "solved") ∨ ∃ goal t, state.IsAt S problem goal t ∧
      key = proofStateKey goal t := by
  unfold RuliadProofPolicyState.canonicalStateKey at h
  split at h
  · rename_i hnone
    refine .inl ⟨?_, (Except.ok.inj h).symm⟩
    simpa [RuliadProofPolicyState.solved] using getElem?_eq_none_iff.1 hnone
  · rename_i goal hgoal
    simp only [bind_eq_ok, mapError_eq_ok, pure, Except.pure, Except.ok.injEq] at h
    obtain ⟨transition, hnew, current, hreplay, hkey⟩ := h
    exact .inr ⟨goal, current, ⟨hgoal, transition, hnew, hreplay⟩, hkey.symm⟩

/-- A transition kernel stays on reached terms. -/
theorem reached_of_replayFrom {kernel : RuliadGoalTransitionKernel}
    (hnew : new S problem goal limits = .ok kernel) {stepIndex : ℕ}
    {steps : List RuliadProofStep} (hs : Reached problem limits goal kernel.goal s)
    (h : kernel.replayFrom stepIndex s steps = .ok t) :
    Reached problem limits goal kernel.goal t := by
  obtain ⟨-, -, goalSpec, -, rfl⟩ := new_eq_ok_iff.1 hnew
  induction steps generalizing s stepIndex with
  | nil => exact Except.ok.inj h ▸ hs
  | cons step steps ih =>
    rw [replayFrom] at h
    split at h
    · rename_i next hnext
      exact ih (.step step hs hnext) h
    · simp at h

theorem RuliadProofPolicyState.IsAt.over (h : state.IsAt S problem goal t) :
    Term.Over problem.signature t := by
  obtain ⟨-, kernel, hnew, hreplay⟩ := h
  obtain ⟨hvalid, -, goalSpec, hgoal, hkernel⟩ := new_eq_ok_iff.1 hnew
  have hspec : kernel.goal = goalSpec := by rw [hkernel]
  unfold replayPrefix at hreplay
  split at hreplay
  · simp at hreplay
  · exact (reached_of_replayFrom hnew .initial hreplay).over hvalid (hspec ▸ hgoal)

theorem toList_proofStateKey (goal : ℕ) (t : RuliadTerm) : (proofStateKey goal t).toList =
    (decimal goal).toList ++ ':' :: (canonicalText t).toList := by
  simp [proofStateKey, String.toList_append]

theorem proofStateKey_ne_solved (goal : ℕ) (t : RuliadTerm) : proofStateKey goal t ≠ "solved" := by
  intro h
  obtain ⟨c, cs, hcs⟩ := exists_cons_of_ne_nil (decimal_ne_nil goal)
  have hdigit : c.isDigit := isDigit_of_mem_decimal (n := goal) (by simp [hcs])
  have hchars := congrArg String.toList h
  rw [toList_proofStateKey, hcs, cons_append] at hchars
  obtain rfl : c = 's' := (List.cons.inj hchars).1
  exact absurd hdigit (by decide)

theorem proofStateKey_injective (hs : WellFormed s) (ht : WellFormed t)
    (h : proofStateKey goal s = proofStateKey goal' t) : goal = goal' ∧ s = t := by
  have hcolon : ∀ (chars : List Char), ∀ c ∈ (':' :: chars).head?, ¬ c.isDigit := by
    intro chars c hc
    obtain rfl : ':' = c := by simpa using hc
    decide
  have hchars := congrArg String.toList h
  rw [toList_proofStateKey, toList_proofStateKey] at hchars
  obtain ⟨hgoals, hrests⟩ := append_inj_of_head (fun c hc => isDigit_of_mem_decimal hc)
    (fun c hc => isDigit_of_mem_decimal hc) (hcolon _) (hcolon _) hchars
  exact ⟨decimal_injective (String.toList_inj.1 hgoals),
    canonicalText_injective hs ht (String.toList_inj.1 (List.cons.inj hrests).2)⟩

/-- **State keys identify states**: in a problem that passes validation, the terms reached by kernel
steps from the left side of a goal's claim are well formed over the problem's symbols; on well-formed
terms the canonical text is injective; so two policy states with the same key are at the same goal
with the same term, or both solved. -/
theorem stateKey_identifies (h : validateProblem S problem limits = .ok hash) :
    (∀ (limits' : RuliadKernelLimits) (goalIndex : ℕ) (goal : RuliadProofGoal) (t : RuliadTerm),
      problem.goals[goalIndex]? = some goal → Reached problem limits' goalIndex goal t →
      WellFormed t ∧ Term.Over problem.signature t) ∧
    (∀ s t, WellFormed s → WellFormed t →
      RuliadTerm.canonicalText s = RuliadTerm.canonicalText t → s = t) ∧
    (∀ goal goal' s t, Term.Over problem.signature s → Term.Over problem.signature t →
      proofStateKey goal s = proofStateKey goal' t → goal = goal' ∧ s = t) ∧
    ∀ (state state' : RuliadProofPolicyState) (key : String),
      state.canonicalStateKey S problem = .ok key → state'.canonicalStateKey S problem = .ok key →
      (state.solved ∧ state'.solved) ∨
        ∃ goal t, state.IsAt S problem goal t ∧ state'.IsAt S problem goal t := by
  have hvalid := (validateProblem_eq_ok_iff.1 h).1
  refine ⟨fun limits' goalIndex goal t hgoal ht => ?_, fun s t => canonicalText_injective,
    fun goal goal' s t hs ht => ?_, fun state state' key hkey hkey' => ?_⟩
  · have hover := ht.over hvalid hgoal
    exact ⟨wellFormed_of_over hover, hover⟩
  · exact proofStateKey_injective (wellFormed_of_over hs) (wellFormed_of_over ht)
  · rcases canonicalStateKey_eq_ok hkey with ⟨hsolved, rfl⟩ | ⟨goal, t, hat, rfl⟩
    · rcases canonicalStateKey_eq_ok hkey' with ⟨hsolved', -⟩ | ⟨goal', t', -, heq⟩
      · exact .inl ⟨hsolved, hsolved'⟩
      · exact absurd heq.symm (proofStateKey_ne_solved goal' t')
    · rcases canonicalStateKey_eq_ok hkey' with ⟨-, heq⟩ | ⟨goal', t', hat', heq⟩
      · exact absurd heq (proofStateKey_ne_solved goal t)
      · obtain ⟨rfl, rfl⟩ := proofStateKey_injective (wellFormed_of_over hat.over)
          (wellFormed_of_over hat'.over) heq
        exact .inr ⟨goal, t, hat, hat'⟩

theorem stateKey_identifies_unitProblem :
    WellFormed (.atom "a") ∧ Term.Over unitProblem.signature (.atom "a" : RuliadTerm) :=
  (stateKey_identifies (show validateProblem (.ofDigest unitDigest) unitProblem .default =
    .ok unitDigest by rfl)).1 .default 0
    ⟨"unit", [], ⟨.apply "compose" [.atom "id", .atom "a"], .atom "a"⟩⟩ _ rfl
    (.step ⟨.axiom_ "left_identity", [], .forward⟩ .initial rfl)

end Keys

end BurnDragon.Ruliad
