import BurnDragon.Ruliad.Totality
import BurnDragon.Words.Rewriting

/-!
# The string rewriting of the verifier

`apply_rewrite_once` scans the rules and keeps the leftmost match, so it takes the first step of
`Words.FirstStep`; the trace is a bounded run of it. The rules that the verifier admits shorten the word,
counted in bytes or in characters, since the letters of an admitted alphabet are ASCII.
-/

namespace BurnDragon.Ruliad

open Rust Words List

/-- The rules as rules on words. -/
def wordRules (rules : List RuliadRewriteRule) : List (Rule Char) :=
  rules.map fun rule => ⟨rule.from_.toList, rule.to_.toList⟩

/-! ## Searching -/

section Find

variable {pattern word : List Char} {i : ℕ}

theorem findText_eq_none_iff (hne : pattern ≠ []) :
    findText pattern word = none ↔ ∀ i, ¬ OccursAt pattern word i := by
  induction word with
  | nil =>
    simp only [findText, if_neg hne, true_iff]
    rintro i ⟨-, hprefix⟩
    rw [drop_nil, prefix_nil] at hprefix
    exact hne hprefix
  | cons c rest ih =>
    rw [findText]
    by_cases hprefix : pattern.isPrefixOf (c :: rest)
    · rw [if_pos hprefix]
      simp only [reduceCtorEq, false_iff, not_forall, not_not]
      exact ⟨0, occursAt_zero.2 (List.isPrefixOf_iff_prefix.1 hprefix)⟩
    · rw [if_neg hprefix, Option.map_eq_none_iff, ih]
      constructor
      · rintro h (_ | i)
        · rwa [occursAt_zero, ← isPrefixOf_iff_prefix]
        · rw [occursAt_cons_succ]
          exact h i
      · intro h i
        rw [← occursAt_cons_succ (c := c)]
        exact h (i + 1)

/-- `str::find` finds the first occurrence. -/
theorem findText_eq_some_iff (hne : pattern ≠ []) : findText pattern word = some i ↔
    OccursAt pattern word i ∧ ∀ j < i, ¬ OccursAt pattern word j := by
  induction word generalizing i with
  | nil =>
    simp only [findText, if_neg hne, reduceCtorEq, false_iff, not_and]
    rintro ⟨-, hprefix⟩
    rw [drop_nil, prefix_nil] at hprefix
    exact absurd hprefix hne
  | cons c rest ih =>
    rw [findText]
    by_cases hprefix : pattern.isPrefixOf (c :: rest)
    · have hzero : OccursAt pattern (c :: rest) 0 :=
        occursAt_zero.2 (List.isPrefixOf_iff_prefix.1 hprefix)
      rw [if_pos hprefix, Option.some.injEq]
      constructor
      · rintro rfl
        exact ⟨hzero, by omega⟩
      · rintro ⟨-, hfirst⟩
        by_contra hpos
        exact hfirst 0 (by omega) hzero
    · have hzero : ¬ OccursAt pattern (c :: rest) 0 := by
        rwa [occursAt_zero, ← isPrefixOf_iff_prefix]
      rw [if_neg hprefix, Option.map_eq_some_iff]
      constructor
      · rintro ⟨position, hposition, rfl⟩
        obtain ⟨hoccurs, hfirst⟩ := ih.1 hposition
        refine ⟨occursAt_cons_succ.2 hoccurs, ?_⟩
        rintro (_ | j) hj
        · exact hzero
        · rw [occursAt_cons_succ]
          exact hfirst j (by omega)
      · rintro ⟨hoccurs, hfirst⟩
        cases i with
        | zero => exact absurd hoccurs hzero
        | succ i =>
          refine ⟨i, ih.2 ⟨occursAt_cons_succ.1 hoccurs, fun j hj hj' => ?_⟩, rfl⟩
          exact hfirst (j + 1) (by omega) (occursAt_cons_succ.2 hj')

end Find

/-! ## The best match -/

section Best

variable {value : String} {entries : List (RuliadRewriteRule × ℕ)}

/-- The match is the first by position and then by index, among those of the entries. -/
def BestOf (value : String) (entries : List (RuliadRewriteRule × ℕ)) (best : Option (ℕ × ℕ)) : Prop :=
  (∀ m, best = some m → ∃ rule, (rule, m.2) ∈ entries ∧
    findText rule.from_.toList value.toList = some m.1) ∧
  ∀ entry ∈ entries, ∀ position, findText entry.1.from_.toList value.toList = some position →
    ∃ m, best = some m ∧ (m.1 < position ∨ m.1 = position ∧ m.2 ≤ entry.2)

theorem BestOf.betterMatch {best : Option (ℕ × ℕ)} {entry : RuliadRewriteRule × ℕ}
    (h : BestOf value entries best) (hne : entry.1.from_ ≠ "") :
    BestOf value (entries ++ [entry]) (betterMatch value best entry) := by
  obtain ⟨hbest, hall⟩ := h
  have hmem : ∀ m, best = some m → ∃ rule, (rule, m.2) ∈ entries ++ [entry] ∧
      findText rule.from_.toList value.toList = some m.1 := fun m hm => by
    obtain ⟨rule, hrule, hfind⟩ := hbest m hm
    exact ⟨rule, mem_append_left _ hrule, hfind⟩
  rw [Ruliad.betterMatch, if_neg hne]
  cases hfind : findText entry.1.from_.toList value.toList with
  | none =>
    refine ⟨hmem, fun e he position hposition => ?_⟩
    rcases mem_append.1 he with he | he
    · exact hall e he position hposition
    · obtain rfl := mem_singleton.1 he
      simp [hfind] at hposition
  | some position =>
    simp only
    split_ifs with hbetter
    · -- the new match comes before the best so far
      refine ⟨?_, fun e he q hq => ⟨_, rfl, ?_⟩⟩
      · rintro _ ⟨⟩
        exact ⟨entry.1, by simp, hfind⟩
      · rcases mem_append.1 he with he | he
        · obtain ⟨m, rfl, hm⟩ := hall e he q hq
          have hlt : position < m.1 ∨ position = m.1 ∧ entry.2 < m.2 := by simpa using hbetter
          omega
        · obtain rfl := mem_singleton.1 he
          obtain rfl : position = q := Option.some.inj (hfind.symm.trans hq)
          exact .inr ⟨rfl, le_rfl⟩
    · refine ⟨hmem, fun e he q hq => ?_⟩
      rcases mem_append.1 he with he | he
      · exact hall e he q hq
      · obtain rfl := mem_singleton.1 he
        obtain rfl : position = q := Option.some.inj (hfind.symm.trans hq)
        cases best with
        | none => simp at hbetter
        | some m =>
          have hle : ¬ (position < m.1 ∨ position = m.1 ∧ e.2 < m.2) := by simpa using hbetter
          exact ⟨m, rfl, by omega⟩

theorem bestMatch_bestOf {rules : List RuliadRewriteRule} (value : String)
    (hne : ∀ rule ∈ rules, rule.from_ ≠ "") :
    BestOf value rules.zipIdx (bestMatch value rules) := by
  have hfold : ∀ (todo done : List (RuliadRewriteRule × ℕ)) (best : Option (ℕ × ℕ)),
      (∀ entry ∈ todo, entry.1.from_ ≠ "") → BestOf value done best →
      BestOf value (done ++ todo) (todo.foldl (Ruliad.betterMatch value) best) := by
    intro todo
    induction todo with
    | nil => exact fun done best _ h => by simpa using h
    | cons entry todo ih =>
      intro done best htodo h
      obtain ⟨hentry, htodo⟩ := forall_mem_cons.1 htodo
      rw [append_cons]
      exact ih _ _ htodo (h.betterMatch hentry)
  have hempty : BestOf value [] none := ⟨by simp, by simp⟩
  refine hfold rules.zipIdx [] none (fun entry hentry => hne _ ?_) hempty
  exact mem_of_getElem? (mem_zipIdx_iff_getElem?.1 hentry)

end Best

/-! ## The step -/

section Step

variable {rules : List RuliadRewriteRule} {value : String}

theorem redex_iff {i k : ℕ} : Redex (wordRules rules) value.toList i k ↔
    ∃ rule, rules[k]? = some rule ∧ OccursAt rule.from_.toList value.toList i := by
  simp only [Redex, wordRules, getElem?_map, Option.map_eq_some_iff]
  constructor
  · rintro ⟨_, ⟨rule, hrule, rfl⟩, hoccurs⟩
    exact ⟨rule, hrule, hoccurs⟩
  · rintro ⟨rule, hrule, hoccurs⟩
    exact ⟨_, ⟨rule, hrule, rfl⟩, hoccurs⟩

/-- A rule that occurs is found, at its first occurrence. -/
theorem exists_findText {rule : RuliadRewriteRule} (hne : rule.from_ ≠ "") {i : ℕ}
    (h : OccursAt rule.from_.toList value.toList i) :
    ∃ position ≤ i, findText rule.from_.toList value.toList = some position := by
  have hne' : rule.from_.toList ≠ [] := by simpa using hne
  cases hfind : findText rule.from_.toList value.toList with
  | none => exact absurd h ((findText_eq_none_iff hne').1 hfind i)
  | some position =>
    refine ⟨position, ?_, rfl⟩
    by_contra hlt
    exact ((findText_eq_some_iff hne').1 hfind).2 i (by omega) h

section

variable (hne : ∀ rule ∈ rules, rule.from_ ≠ "")
include hne

/-- Without a best match the word is irreducible. -/
theorem irreducible_of_bestMatch (h : bestMatch value rules = none) :
    Irreducible (wordRules rules) value.toList := by
  intro i _ hmem hoccurs
  obtain ⟨rule, hrule, rfl⟩ := mem_map.1 hmem
  obtain ⟨k, hk⟩ := mem_iff_getElem?.1 hrule
  obtain ⟨position, -, hfind⟩ := exists_findText (hne rule hrule) hoccurs
  obtain ⟨m, hm, -⟩ := (bestMatch_bestOf value hne).2 (rule, k) (mem_zipIdx_iff_getElem?.2 hk)
    position hfind
  simp [h] at hm

/-- The best match is the first redex. -/
theorem firstStep_of_bestMatch {position ruleIndex : ℕ}
    (h : bestMatch value rules = some (position, ruleIndex)) : ∃ next,
    applyRewriteOnce value rules = .ok (some next) ∧
    FirstStep (wordRules rules) value.toList next.toList := by
  obtain ⟨hmatch, hall⟩ := bestMatch_bestOf value hne
  obtain ⟨rule, hrule, hfind⟩ := hmatch _ h
  have hget : rules[ruleIndex]? = some rule := mem_zipIdx_iff_getElem?.1 hrule
  have hne' : rule.from_.toList ≠ [] := by simpa using hne rule (mem_of_getElem? hget)
  refine ⟨_, ?_, position, ruleIndex, ⟨rule.from_.toList, rule.to_.toList⟩, ?_,
    ((findText_eq_some_iff hne').1 hfind).1, ?_, String.toList_ofList⟩
  · rw [applyRewriteOnce, h]
    exact bind_eq_ok.2 ⟨rule, index_eq_ok.2 hget, rfl⟩
  · simp [wordRules, hget]
  · intro i' k' hredex
    obtain ⟨rule', hrule', hoccurs⟩ := redex_iff.1 hredex
    obtain ⟨position', hle, hfind'⟩ := exists_findText (hne _ (mem_of_getElem? hrule')) hoccurs
    obtain ⟨m, hm, hmle⟩ := hall (rule', k') (mem_zipIdx_iff_getElem?.2 hrule') position' hfind'
    rw [h] at hm
    obtain rfl := Option.some.inj hm
    simp only at hmle
    omega

/-- **`apply_rewrite_once` takes the first step.** -/
theorem applyRewriteOnce_eq_some_iff {next : String} :
    applyRewriteOnce value rules = .ok (some next) ↔
      FirstStep (wordRules rules) value.toList next.toList := by
  cases hbest : bestMatch value rules with
  | none =>
    have hirreducible := irreducible_of_bestMatch hne hbest
    rw [applyRewriteOnce, hbest]
    exact iff_of_false (by simp) fun h => h.not_irreducible hirreducible
  | some m =>
    obtain ⟨next', hnext', hfirst⟩ := firstStep_of_bestMatch hne hbest
    rw [hnext', Except.ok.injEq, Option.some.injEq]
    constructor
    · rintro rfl
      exact hfirst
    · exact fun h => String.toList_injective (hfirst.unique h)

theorem applyRewriteOnce_eq_none_iff :
    applyRewriteOnce value rules = .ok none ↔ Irreducible (wordRules rules) value.toList := by
  cases hbest : bestMatch value rules with
  | none =>
    rw [applyRewriteOnce, hbest]
    exact iff_of_true rfl (irreducible_of_bestMatch hne hbest)
  | some m =>
    obtain ⟨next', hnext', hfirst⟩ := firstStep_of_bestMatch hne hbest
    rw [hnext']
    exact iff_of_false (by simp) hfirst.not_irreducible

end

end Step

/-! ## Admitted rules -/

section Admitted

/-- The alphabet and the rules pass the checks of the verifier. -/
structure AdmittedRules (alphabet : String) (rules : List RuliadRewriteRule) : Prop where
  valid : validAlphabet alphabet = true
  rules_ne : rules ≠ []
  rule : ∀ rule ∈ rules, validRewriteRule alphabet rule = true

variable {alphabet : String} {rules : List RuliadRewriteRule}

/-- The letters of a valid alphabet are one byte long. -/
theorem byteLen_eq_length (halphabet : validAlphabet alphabet = true) {value : String}
    (h : alphabetContains alphabet value = true) : byteLen value.toList = value.toList.length := by
  have hsize : ∀ c ∈ value.toList, c.utf8Size = 1 := by
    intro c hc
    simp only [validAlphabet, Bool.and_eq_true, all_eq_true, decide_eq_true_eq] at halphabet
    have hmem : c ∈ alphabet.toList := by
      have := all_eq_true.1 h c hc
      simpa using this
    have hascii := halphabet.1.1.2 c hmem
    rw [Char.utf8Size_eq_one_iff, UInt32.le_iff_toNat_le]
    change c.toNat ≤ 127
    omega
  rw [byteLen, map_congr_left hsize]
  simp

namespace AdmittedRules

variable (h : AdmittedRules alphabet rules)

include h

theorem from_ne {rule : RuliadRewriteRule} (hrule : rule ∈ rules) : rule.from_ ≠ "" := by
  have := h.rule rule hrule
  simp only [validRewriteRule, Bool.and_eq_true, decide_eq_true_eq] at this
  exact this.1.1.1.1

/-- An admitted rule shortens the word, in bytes and in characters. -/
theorem shortens {rule : Rule Char} (hrule : rule ∈ wordRules rules) :
    byteLen rule.rhs < byteLen rule.lhs ∧ rule.rhs.length < rule.lhs.length := by
  obtain ⟨rule, hmem, rfl⟩ := mem_map.1 hrule
  have hvalid := h.rule rule hmem
  simp only [validRewriteRule, Bool.and_eq_true, decide_eq_true_eq] at hvalid
  obtain ⟨⟨⟨⟨-, hlt⟩, -⟩, hfrom⟩, hto⟩ := hvalid
  have hlt' := hlt
  rw [byteLen_eq_length h.valid hfrom, byteLen_eq_length h.valid hto] at hlt'
  exact ⟨hlt, hlt'⟩

theorem firstStep_shortens {word word' : List Char}
    (hstep : FirstStep (wordRules rules) word word') :
    byteLen word' < byteLen word ∧ word'.length < word.length :=
  ⟨hstep.size_lt byteLen_append fun _ hrule => (h.shortens hrule).1,
    hstep.size_lt (fun _ _ => length_append) fun _ hrule => (h.shortens hrule).2⟩

end AdmittedRules

end Admitted

/-! ## Traces -/

section Trace

variable {alphabet : String} {rules : List RuliadRewriteRule}

variable (rules) in
/-- The next word, if the word has a step. -/
def rewriteNext (value : String) : Option String := (applyRewriteOnce value rules).toOption.join

theorem applyRewriteOnce_eq (value : String) :
    applyRewriteOnce value rules = .ok (rewriteNext rules value) := by
  obtain ⟨next, hnext⟩ := applyRewriteOnce_returns value rules
  rw [rewriteNext, hnext]
  rfl

/-- The loop of the trace is a bounded run of the step. -/
theorem rewriteFrom_eq (steps : ℕ) (value : String) :
    rewriteFrom rules steps value = .ok (statesAfter (rewriteNext rules) steps value) := by
  induction steps generalizing value with
  | zero => rfl
  | succ steps ih =>
    rw [rewriteFrom, applyRewriteOnce_eq, statesAfter]
    cases rewriteNext rules value with
    | none => rfl
    | some next => simp only [bind, Except.bind, ih]; rfl

theorem rewriteTrace_eq_ok {steps : ℕ} {value : String} {trace : List String}
    (h : rewriteTrace value rules steps = .ok trace) :
    trace = value :: statesAfter (rewriteNext rules) steps value := by
  rw [rewriteTrace, rewriteFrom_eq] at h
  obtain ⟨_, -, h⟩ := bind_eq_ok.1 h
  exact (Except.ok.inj h).symm

theorem rewriteTrace_returns {steps : ℕ} (value : String) (h : 24 * (steps + 1) ≤ isizeMax) :
    ∃ trace, rewriteTrace value rules steps = .ok trace := by
  rw [rewriteTrace, rewriteFrom_eq, (withCapacity_saturatingAdd_iff (by omega)).2 h]
  exact ⟨_, rfl⟩

/-- **Rewriting by admitted rules.** A step rewrites the leftmost match, by the first rule that matches
there, and there is none exactly when no rule matches; a step shortens the word. A trace consists of
such steps, and it ends in an irreducible word when it is shorter than its bound or the bound reaches
the length of the first word. -/
theorem rewriting_takes_first_steps (h : AdmittedRules alphabet rules) (value : String) :
    (∀ next, applyRewriteOnce value rules = .ok (some next) ↔
      FirstStep (wordRules rules) value.toList next.toList) ∧
    (applyRewriteOnce value rules = .ok none ↔ Irreducible (wordRules rules) value.toList) ∧
    (∀ next, applyRewriteOnce value rules = .ok (some next) →
      byteLen next.toList < byteLen value.toList ∧ next.toList.length < value.toList.length) ∧
    ∀ steps, (24 * (steps + 1) ≤ isizeMax → ∃ trace,
        rewriteTrace value rules steps = .ok trace) ∧
      ∀ trace, rewriteTrace value rules steps = .ok trace →
        trace.head? = some value ∧
        (trace.IsChain fun a b => FirstStep (wordRules rules) a.toList b.toList) ∧
        ∃ last, trace.getLast? = some last ∧
          (trace.length < steps + 1 → Irreducible (wordRules rules) last.toList) ∧
          (value.toList.length ≤ steps → Irreducible (wordRules rules) last.toList) := by
  have hsome : ∀ a b, rewriteNext rules a = some b ↔
      FirstStep (wordRules rules) a.toList b.toList := fun a b => by
    rw [← applyRewriteOnce_eq_some_iff fun rule => h.from_ne, applyRewriteOnce_eq, Except.ok.injEq]
  have hnone : ∀ a, rewriteNext rules a = none ↔ Irreducible (wordRules rules) a.toList :=
    fun a => by
      rw [← applyRewriteOnce_eq_none_iff fun rule => h.from_ne, applyRewriteOnce_eq,
        Except.ok.injEq]
  refine ⟨fun next => applyRewriteOnce_eq_some_iff fun rule => h.from_ne,
    applyRewriteOnce_eq_none_iff fun rule => h.from_ne, fun next hnext => ?_,
    fun steps => ⟨rewriteTrace_returns value, fun trace htrace => ?_⟩⟩
  · exact h.firstStep_shortens ((applyRewriteOnce_eq_some_iff fun rule => h.from_ne).1 hnext)
  · obtain rfl := rewriteTrace_eq_ok htrace
    refine ⟨rfl, (isChain_statesAfter steps value).imp fun a b => (hsome a b).1,
      (statesAfter (rewriteNext rules) steps value).getLastD value,
      by rw [List.getLast?_cons, List.getLastD_eq_getLast?], fun hshort => ?_, fun hlength => ?_⟩
    · exact (hnone _).1 (next_getLastD (by simpa using hshort))
    · refine (hnone _).1 (next_getLastD_of_size_le (fun a => a.toList.length) ?_ hlength)
      exact fun a b hab => (h.firstStep_shortens ((hsome a b).1 hab)).2

/-- Two rules that overlap: at the first letter the second rule matches, the first one later. -/
def overlappingRules : List RuliadRewriteRule := [⟨"bb", "a"⟩, ⟨"ab", "b"⟩]

theorem rewriting_takes_first_steps_overlap :
    FirstStep (wordRules overlappingRules) "abb".toList "bb".toList := by
  have hadmitted : AdmittedRules "ab" overlappingRules :=
    ⟨by decide +kernel, List.cons_ne_nil _ _, by decide +kernel⟩
  exact ((rewriting_takes_first_steps hadmitted "abb").1 "bb").1 (by decide +kernel)

end Trace

end BurnDragon.Ruliad
