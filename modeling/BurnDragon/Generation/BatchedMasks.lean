import BurnDragon.Generation.BatchAgreement
import BurnDragon.Generation.HistoryModel

/-!
# When batched decoding is plain decoding

If some summary bit of the ragged batch is not that of the mask of the whole prompt, then a model
notices it. `distinguish` is what such a model emits: it recognises the prompt, tells whether the bit is
the expected one, and lets every other row stop as the schedule says. So the masks agree if and only if
batched greedy decoding is plain decoding for every model (`batchedEqualsPlain_iff_masksAgree`).
-/

namespace BurnDragon.Generation

open Layout Transition List Option

/-! ## Sequences of one token -/

section Sequence

variable {emit : History → ℤ} {h : History}

theorem getElem?_extend {e : ℕ} (he : e < h.length) (k : ℕ) : (extend emit h k)[e]? = h[e]? := by
  induction k with
  | zero => rfl
  | succ k ih => rw [extend, getElem?_append_left (by rw [length_extend]; omega), ih]

theorem map_fst_extend {token : ℤ} {k : ℕ} (hk : ∀ j < k, sequence emit h j = token) :
    (extend emit h k).map Prod.fst = h.map Prod.fst ++ List.replicate k token := by
  induction k with
  | zero => simp [extend]
  | succ k ih =>
    have hlast : emit (extend emit h k) = token := hk k (Nat.lt_succ_self k)
    rw [extend, map_append, ih fun j hj => hk j (hj.trans (Nat.lt_succ_self k)), hlast,
      replicate_succ', append_assoc]
    rfl

end Sequence

/-! ## A model that notices a summary bit -/

section Distinguish

variable (filler mark stop : ℕ) (stopCount : List ℤ → Option ℕ) (prompt : List ℤ) (e : ℕ)
  (expected : Option ℤ)

/-- The prompt of a history, when every generated token is a filler or a mark. -/
def ownPrompt (tokens : List ℤ) : List ℤ :=
  tokens.takeWhile fun token => decide (token ≠ filler ∧ token ≠ mark)

/-- After `prompt`: the filler when bit `e` is the expected one, and else the mark. After other
prompts: the filler, until it is time to stop. -/
def distinguish (h : History) : ℕ :=
  let tokens := h.map Prod.fst
  let own := ownPrompt filler mark tokens
  if own = prompt then if (h[e]?).map Prod.snd = expected then filler else mark
  else if stopCount own = some (tokens.length - own.length + 1) then stop
  else filler

variable {filler mark stop stopCount prompt e expected} {own : List ℤ} {h : History}
  {emit : History → ℤ}

theorem ownPrompt_append (hfresh : ∀ a ∈ own, a ≠ filler ∧ a ≠ mark) {token : ℤ}
    (htoken : token = filler ∨ token = mark) (k : ℕ) :
    ownPrompt filler mark (own ++ List.replicate k token) = own := by
  have hnone : decide (token ≠ filler ∧ token ≠ mark) = false := by
    rcases htoken with rfl | rfl <;> simp
  rw [ownPrompt, takeWhile_append_of_pos fun a ha => decide_eq_true (hfresh a ha),
    takeWhile_replicate, hnone]
  simp

/-- After the prompt the same token comes for ever. -/
theorem sequence_distinguish_prompt (hfresh : ∀ a ∈ prompt, a ≠ filler ∧ a ≠ mark)
    (hemit : ∀ j, emit (extend emit h j) =
      distinguish filler mark stop stopCount prompt e expected (extend emit h j))
    (htokens : h.map Prod.fst = prompt) (he : e < h.length) (j : ℕ) :
    sequence emit h j = if (h[e]?).map Prod.snd = expected then (filler : ℤ) else mark := by
  induction j using Nat.strongRecOn with
  | ind j ih =>
    have hfirst : (if (h[e]?).map Prod.snd = expected then (filler : ℤ) else mark) = filler ∨
        (if (h[e]?).map Prod.snd = expected then (filler : ℤ) else mark) = mark := by
      split
      · exact .inl rfl
      · exact .inr rfl
    rw [sequence, hemit, distinguish]
    simp only [map_fst_extend ih, htokens, ownPrompt_append hfresh hfirst, if_true,
      getElem?_extend he]
    split <;> rfl

/-- After another prompt the filler comes, until it is time to stop. -/
theorem sequence_distinguish_other (hfresh : ∀ a ∈ own, a ≠ filler ∧ a ≠ mark)
    (hemit : ∀ j, emit (extend emit h j) =
      distinguish filler mark stop stopCount prompt e expected (extend emit h j))
    (htokens : h.map Prod.fst = own) (hne : own ≠ prompt) (j : ℕ)
    (hbefore : ∀ i < j, stopCount own ≠ some (i + 1)) :
    sequence emit h j = if stopCount own = some (j + 1) then (stop : ℤ) else filler := by
  induction j using Nat.strongRecOn with
  | ind j ih =>
    have hfiller : ∀ i < j, sequence emit h i = filler := fun i hi =>
      (ih i hi fun i' hi' => hbefore i' (hi'.trans hi)).trans (if_neg (hbefore i hi))
    have hcount : (own ++ List.replicate j (filler : ℤ)).length - own.length + 1 = j + 1 := by
      rw [length_append, length_replicate, Nat.add_sub_cancel_left]
    rw [sequence, hemit, distinguish]
    simp only [map_fst_extend hfiller, htokens, ownPrompt_append hfresh (.inl rfl), if_neg hne, hcount]
    split <;> rfl

end Distinguish

/-! ## The masks agree when every model decodes plainly -/

section Agreement

variable {triggers : Option (List ℕ)} {promptTokens : List (List ℤ)} {maxNewTokens : List ℕ}
  {stopOnToken : Option ℤ} {deviceBufferTokens : ℕ}

theorem raggedReturns_unique {State F Rng : Type} {backend : Backend F Rng}
    {model : DragonModel State F} {strategy : ContextStrategy}
    {result result' : Except String (List (List ℤ))}
    (h : RaggedReturns backend model promptTokens maxNewTokens strategy stopOnToken
      deviceBufferTokens result)
    (h' : RaggedReturns backend model promptTokens maxNewTokens strategy stopOnToken
      deviceBufferTokens result') : result = result' := by
  obtain ⟨fuel, hrun⟩ := h
  obtain ⟨fuel', hrun'⟩ := h'
  rw [generateGreedyBatchRagged] at hrun hrun'
  split_ifs at hrun hrun'
  · exact some.inj (hrun.symm.trans hrun')
  · exact some.inj (hrun.symm.trans hrun')
  · exact some.inj (hrun.symm.trans hrun')
  · simp only at hrun hrun'
    split_ifs at hrun hrun'
    · exact some.inj (hrun.symm.trans hrun')
    · exact Loop.Returns.unique ⟨fuel, hrun⟩ ⟨fuel', hrun'⟩

/-- Tokens that occur in no prompt and do not stop. -/
theorem exists_fresh (promptTokens : List (List ℤ)) (stop : ℕ) :
    ∃ fresh, stop < fresh ∧ ∀ r, ∀ a ∈ promptTokens.getD r [], a < (fresh : ℤ) := by
  refine ⟨(promptTokens.flatten.map Int.natAbs).sum + stop + 1, by omega, fun r a ha => ?_⟩
  have hmem : a ∈ promptTokens.flatten := by
    rw [getD_eq_getElem?_getD] at ha
    cases hget : promptTokens[r]? with
    | none => simp [hget] at ha
    | some prompt =>
      rw [hget, getD_some] at ha
      exact mem_flatten_of_mem (mem_of_getElem? hget) ha
  have hle : a.natAbs ≤ (promptTokens.flatten.map Int.natAbs).sum :=
    single_le_sum (fun _ _ => Nat.zero_le _) _ (mem_map_of_mem hmem)
  omega

variable (stopOnToken) in
/-- What `distinguish` needs of its tokens. -/
structure FreshTokens (promptTokens : List (List ℤ)) (filler mark stop : ℕ) : Prop where
  prompts : ∀ r, ∀ a ∈ promptTokens.getD r [], a ≠ filler ∧ a ≠ mark
  stop_eq : ∀ k : ℕ, stopOnToken = some (k : ℤ) → k = stop
  filler_ne : filler ≠ stop
  mark_ne : mark ≠ stop
  distinct : filler ≠ mark

variable {e : ℕ} {stopCount : List ℤ → Option ℕ}

variable (triggers) in
/-- The tokens that the model with `distinguish` emits. -/
theorem emit_extend_distinguish {filler mark stop vocab : ℕ} {prompt : List ℤ} {expected : Option ℤ}
    (hvocab : ∀ h, distinguish filler mark stop stopCount prompt e expected h < vocab) {h : History}
    (hne : h ≠ []) (j : ℕ) :
    emit exactBackend (historyModel
        (distinguish filler mark stop stopCount prompt e expected) vocab triggers)
        (extend (emit exactBackend (historyModel
          (distinguish filler mark stop stopCount prompt e expected) vocab triggers)) h j) =
      distinguish filler mark stop stopCount prompt e expected
        (extend (emit exactBackend (historyModel
          (distinguish filler mark stop stopCount prompt e expected) vocab triggers)) h j) := by
  refine emit_historyModel _ _ _ (fun hnil => ?_) (hvocab _)
  have hlen := congrArg List.length hnil
  rw [length_extend] at hlen
  exact hne (eq_nil_of_length_eq_zero (Nat.eq_zero_of_add_eq_zero_right hlen))

variable (triggers) in
/-- In the batch, the rows of this model end as the schedule says. -/
theorem endsAt_distinguish (bitOk : ℕ → ℕ → ℤ → Prop) {filler mark stop vocab : ℕ} {prompt : List ℤ}
    {expected : Option ℤ} (hfresh : FreshTokens stopOnToken promptTokens filler mark stop)
    (hcounts : StopCounts stopOnToken stopCount) (hprompt : stopCount prompt = none)
    (hnonempty : ∀ r, 0 < maxNewTokens.getD r 0 → promptTokens.getD r [] ≠ [])
    (he : e < prompt.length)
    (hvocab : ∀ h, distinguish filler mark stop stopCount prompt e expected h < vocab) :
    EndsAt exactBackend
      (historyModel (distinguish filler mark stop stopCount prompt e expected) vocab triggers)
      promptTokens maxNewTokens stopOnToken bitOk (rowEnd promptTokens maxNewTokens stopCount) := by
  refine endsAt_rowEnd hcounts fun r h hbudget hh hlen => ?_
  have htokens := hh.map_fst hlen
  have hne : h ≠ [] := fun hnil => hnonempty r hbudget (by rw [← htokens, hnil]; rfl)
  have hemit := emit_extend_distinguish triggers hvocab hne
  by_cases hown : promptTokens.getD r [] = prompt
  · rw [hown, hprompt]
    refine ⟨nofun, fun _ i hi => ?_⟩
    rw [sequence_distinguish_prompt (hown ▸ hfresh.prompts r) hemit (htokens.trans hown)
      (by rw [hlen, hown]; exact he)] at hi
    split at hi
    · exact hfresh.filler_ne (hfresh.stop_eq _ hi)
    · exact hfresh.mark_ne (hfresh.stop_eq _ hi)
  · have hother := sequence_distinguish_other (hfresh.prompts r) hemit htokens hown
    constructor
    · intro k hk
      obtain ⟨i, rfl⟩ : ∃ i, k = i + 1 :=
        ⟨k - 1, by have := hcounts.pos _ _ hk; omega⟩
      obtain ⟨s, hs⟩ := hcounts.stops _ _ hk
      have hbefore : ∀ j ≤ i, ∀ i' < j, stopCount (promptTokens.getD r []) ≠ some (i' + 1) := by
        intro j hj i' hi' hcount
        have := some.inj (hk.symm.trans hcount)
        omega
      refine ⟨i, rfl, ?_, fun j hj hstop => ?_⟩
      · rw [hother i (hbefore i le_rfl), if_pos hk, hs, hfresh.stop_eq s hs]
      · rw [hother j (hbefore j hj.le), if_neg (fun hcount => by
          have := some.inj (hk.symm.trans hcount)
          omega)] at hstop
        exact hfresh.filler_ne (hfresh.stop_eq _ hstop)
    · intro hnone i hi
      rw [hother i (fun i' _ hcount => by rw [hnone] at hcount; cases hcount),
        if_neg (by rw [hnone]; exact fun hcount => by cases hcount)] at hi
      exact hfresh.filler_ne (hfresh.stop_eq _ hi)

/-- When every model decodes plainly, every fed bit is that of the whole prompt. -/
theorem serialBit_of_batchedEqualsPlain (hprompts : ∀ prompt ∈ promptTokens, prompt ≠ [])
    (hlen : promptTokens.length = maxNewTokens.length)
    (hplain : BatchedEqualsPlain triggers promptTokens maxNewTokens stopOnToken deviceBufferTokens)
    (hcounts : StopCounts stopOnToken stopCount) {r : ℕ} {bit : ℤ}
    (hfeeds : Feeds triggers promptTokens maxNewTokens (max deviceBufferTokens 1) (rowEnd
      promptTokens maxNewTokens stopCount) r e bit) :
    SerialBit triggers promptTokens r e bit := by
  by_contra hwrong
  obtain ⟨x, active, next, hschedule, -, hactive, -, -, he, -⟩ := id hfeeds
  have hbudget : ∀ r, r ∈ budgetedRows maxNewTokens → 0 < maxNewTokens.getD r 0 ∧
      r < promptTokens.length := fun r hr => by
    have hpos := mem_budgetedRows.1 hr
    refine ⟨hpos, ?_⟩
    by_contra hge
    rw [getD_eq_getElem?_getD, getElem?_eq_none (by omega)] at hpos
    exact absurd hpos (Nat.lt_irrefl 0)
  have hnonempty : ∀ r, 0 < maxNewTokens.getD r 0 → promptTokens.getD r [] ≠ [] := fun r hr => by
    have hr' := (hbudget r (mem_budgetedRows.2 hr)).2
    rw [getD_eq_getElem?_getD, getElem?_eq_getElem hr']
    exact hprompts _ (getElem_mem hr')
  obtain ⟨hpos, hr⟩ := hbudget r (hschedule.mem_start hactive)
  set prompt := promptTokens.getD r [] with hprompt
  obtain ⟨fresh, hstop, hfresh⟩ := exists_fresh promptTokens (stopOnToken.getD 0).toNat
  set stop := (stopOnToken.getD 0).toNat with hstopDef
  -- rows with this prompt go on to their budget
  set counts : List ℤ → Option ℕ := fun p => if p = prompt then none else stopCount p with hcountsDef
  have hcounts' : StopCounts stopOnToken counts := by
    refine ⟨fun p k hk => ?_, fun p k hk => ?_⟩ <;> simp only [hcountsDef] at hk <;>
      split_ifs at hk
    · exact hcounts.pos p k hk
    · exact hcounts.stops p k hk
  have hcountsPrompt : counts prompt = none := if_pos rfl
  have hfreshTokens : FreshTokens stopOnToken promptTokens fresh (fresh + 1) stop := by
    refine ⟨fun r a ha => ?_, fun k hk => ?_, hstop.ne', by omega, by omega⟩
    · have := hfresh r a ha
      constructor <;> push_cast <;> omega
    · rw [hstopDef, hk]
      rfl
  have hvocab : ∀ h, distinguish fresh (fresh + 1) stop counts prompt e
      (summaryBits triggers prompt)[e]? h < fresh + 2 := fun h => by
    simp only [distinguish]
    split_ifs <;> omega
  have hlawful := historyModel_lawful (distinguish fresh (fresh + 1) stop counts prompt e
    (summaryBits triggers prompt)[e]?) (fresh + 2) triggers
  have hends := fun bitOk => endsAt_distinguish triggers bitOk
    hfreshTokens hcounts' hcountsPrompt hnonempty he hvocab
  have hsequence := fun {h : History} (hne : h ≠ []) (htokens : h.map Prod.fst = prompt)
      (hlt : e < h.length) => sequence_distinguish_prompt (hfreshTokens.prompts r)
    (emit_extend_distinguish triggers hvocab hne) htokens hlt
  have hfeeds' : Feeds triggers promptTokens maxNewTokens (max deviceBufferTokens 1)
      (rowEnd promptTokens maxNewTokens counts) r e bit := by
    refine hfeeds.congr_end (by omega) fun r' hr' => ?_
    have hpos' := (hbudget r' hr').1
    by_cases hsame : promptTokens.getD r' [] = prompt
    · exact .inr ⟨hsame ▸ he, rowEnd_pos hcounts hpos', rowEnd_pos hcounts' hpos'⟩
    · refine .inl ?_
      rw [rowEnd, rowEnd, hcountsDef]
      simp only [if_neg hsame]
  have hend : rowEnd promptTokens maxNewTokens counts r = maxNewTokens.getD r 0 := by
    rw [rowEnd, ← hprompt, hcountsPrompt]
    rfl
  obtain ⟨⟨result, hreturns, generated, rfl, -, hrows⟩, -⟩ :=
    hplain _ _ _ exactBackend _ .infinite exactBackend_lawful hlawful rfl
  obtain ⟨result', hreturns', generated', rfl, -, hdone⟩ :=
    raggedReturns_rows .infinite hlawful (fun _ _ _ h => h) (hends _) hprompts hlen
  obtain rfl : generated = generated' := Except.ok.inj (raggedReturns_unique hreturns hreturns')
  have hnePrompt : prompt ≠ [] := hnonempty r hpos
  rcases hdone r hr with ⟨hzero, -⟩ | ⟨-, h, hh, hhlen, htokens⟩
  · omega
  have hlt : e < h.length := hhlen ▸ he
  -- the row was fed with the wrong bit, so it marks every token
  have hbit : (h[e]?).map Prod.snd = some bit := by
    rw [getElem?_eq_getElem hlt, map_some]
    exact congrArg some
      (Feeds.unique (by omega) (hh.bit_ok (getElem?_eq_getElem hlt) he) hfeeds' rfl)
  have hne : h ≠ [] := ne_nil_of_length_pos (Nat.zero_lt_of_lt hlt)
  have hmark := fun j => (hsequence hne (hh.map_fst hhlen) hlt j).trans
    (if_neg fun hexpected => hwrong (hexpected.symm.trans hbit))
  -- on its own it is fed with the mask of the prompt
  set own : History := prompt.zip (summaryBits triggers prompt) with hownDef
  have hownLen : own.length = prompt.length := by simp [hownDef]
  have hownTokens : own.map Prod.fst = prompt := map_fst_zip (by simp)
  have hownBit : (own[e]?).map Prod.snd = (summaryBits triggers prompt)[e]? := by
    have hbits : own.map Prod.snd = summaryBits triggers prompt := map_snd_zip (by simp)
    rw [← hbits, getElem?_map]
  have hfiller := fun j => (hsequence (ne_nil_of_length_pos (by omega)) hownTokens
    (hownLen ▸ he) j).trans (if_pos hownBit)
  have hcut := Cut.of_first (maxNewTokens.getD r 0) none (P := fun i => stopOnToken =
    some (sequence (emit exactBackend (historyModel (distinguish fresh (fresh + 1) stop counts prompt e
      (summaryBits triggers prompt)[e]?) (fresh + 2) triggers)) own i))
    (fun _ hsome => absurd hsome.symm (Option.some_ne_none _)) fun _ i hi => by
      rw [hfiller] at hi
      exact hfreshTokens.filler_ne (hfreshTokens.stop_eq _ hi)
  have hrow := (hrows r hr _).1
    ((generateTokensReturns_row hlawful exactBackend_lawful hnePrompt hcut).2 rfl)
  rw [Except.ok.injEq, append_cancel_left_eq, htokens, hend] at hrow
  have hsame := map_inj_left.1 hrow 0 (mem_range.2 hpos)
  have heq := (hfiller 0).symm.trans (hsame.trans (hmark 0))
  exact hfreshTokens.distinct (Int.ofNat.inj heq)

/-- A model that tells whether the second token had a summary event. -/
def secondBitModel : DragonModel (ℕ × (ℕ → History)) ℤ :=
  historyModel (fun h => if (h[1]?).map Prod.snd = some 1 then 7 else 5) 8 (some [1, 2])

end Agreement

end BurnDragon.Generation
