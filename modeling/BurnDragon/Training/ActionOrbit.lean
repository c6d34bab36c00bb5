import BurnDragon.Ruliad.FrontierSampler

/-!
# Scores of a menu in several presentations

`semantic_action_orbit_summary` of `ruliad_policy.rs` in exact arithmetic. A menu is presented in some
rotations of its order; the scores of a presentation are mapped back to the order of the menu, and the
probabilities of the presentations are averaged.

* The average does not depend on the order of the presentations (`orbitAverages_perm`).
* It is rotated with the menu (`orbitAverages_renamed`).
-/

namespace BurnDragon.Training

open Rust Ruliad List Nat

/-! ## The best candidate -/

variable {K : Type}

section Best

variable [LinearOrder K]

/-- One step of `max_by`, which keeps the later one of two equal elements. -/
def laterMax (best : Option (K × ℕ)) (entry : K × ℕ) : Option (K × ℕ) :=
  match best with
  | none => some entry
  | some best => if best.1 ≤ entry.1 then some entry else some best

/-- `best_candidate_index`. -/
def bestCandidateIndex (logProbs : List K) : Option ℕ :=
  (logProbs.zipIdx.foldl laterMax none).map Prod.snd

/-- `x` is the largest element and `i` its last place. -/
structure LastMax (values : List K) (i : ℕ) (x : K) : Prop where
  here : values[i]? = some x
  le : ∀ (j : ℕ) (y : K), values[j]? = some y → y ≤ x
  after : ∀ (j : ℕ) (y : K), values[j]? = some y → i < j → y < x

variable {values : List K} {i j : ℕ}

theorem LastMax.unique {x y : K} (hi : LastMax values i x) (hj : LastMax values j y) : i = j := by
  rcases lt_trichotomy i j with hlt | rfl | hlt
  · exact absurd (hj.le i x hi.here) (not_le_of_gt (hi.after j y hj.here hlt))
  · rfl
  · exact absurd (hi.le j y hj.here) (not_le_of_gt (hj.after i x hi.here hlt))

theorem getElem?_concat_eq_some {α : Type*} {l : List α} {x z : α} :
    (l ++ [x])[j]? = some z ↔ l[j]? = some z ∨ j = l.length ∧ x = z := by
  rcases lt_trichotomy j l.length with h | rfl | h
  · simp [getElem?_append_left h, Nat.ne_of_lt h]
  · simp
  · have hnone : (l ++ [x])[j]? = none := getElem?_eq_none (by simp; omega)
    simp [hnone, getElem?_eq_none (le_of_lt h), ne_of_gt h]

/-- What the fold of `max_by` has found among the values that it has seen. -/
def Found (values : List K) : Option (K × ℕ) → Prop
  | none => values = []
  | some best => LastMax values best.2 best.1

theorem found_foldl (values : List K) : Found values (values.zipIdx.foldl laterMax none) := by
  induction values using List.reverseRecOn with
  | nil => rfl
  | append_singleton values x ih =>
    rw [zipIdx_append, foldl_append, zipIdx_singleton, foldl_cons, foldl_nil, zero_add]
    cases hbest : values.zipIdx.foldl laterMax none with
    | none =>
      rw [hbest] at ih
      obtain rfl : values = [] := ih
      refine ⟨rfl, fun j y hj => ?_, fun j y hj hlt => ?_⟩
      · rcases getElem?_concat_eq_some.1 hj with hj | ⟨-, rfl⟩
        · simp at hj
        · exact le_refl _
      · rcases getElem?_concat_eq_some.1 hj with hj | ⟨rfl, -⟩
        · simp at hj
        · exact absurd hlt (lt_irrefl _)
    | some best =>
      rw [hbest] at ih
      have hmax : LastMax values best.2 best.1 := ih
      rw [laterMax]
      split
      · rename_i hle
        refine ⟨getElem?_concat_eq_some.2 (.inr ⟨rfl, rfl⟩), fun j y hj => ?_,
          fun j y hj hlt => ?_⟩
        · rcases getElem?_concat_eq_some.1 hj with hj | ⟨-, rfl⟩
          · exact (hmax.le j y hj).trans hle
          · exact le_refl _
        · rcases getElem?_concat_eq_some.1 hj with hj | ⟨rfl, -⟩
          · exact absurd (List.getElem?_eq_some_iff.1 hj).1 (Nat.not_lt_of_lt hlt)
          · exact absurd hlt (lt_irrefl _)
      · rename_i hnle
        have hlt := lt_of_not_ge hnle
        refine ⟨getElem?_concat_eq_some.2 (.inl hmax.here), fun j y hj => ?_,
          fun j y hj hij => ?_⟩
        · rcases getElem?_concat_eq_some.1 hj with hj | ⟨-, rfl⟩
          · exact hmax.le j y hj
          · exact hlt.le
        · rcases getElem?_concat_eq_some.1 hj with hj | ⟨-, rfl⟩
          · exact hmax.after j y hj hij
          · exact hlt

theorem bestCandidateIndex_eq_some_iff :
    bestCandidateIndex values = some i ↔ ∃ x, LastMax values i x := by
  have hfound := found_foldl values
  unfold bestCandidateIndex
  cases hbest : values.zipIdx.foldl laterMax none with
  | none =>
    rw [hbest] at hfound
    obtain rfl : values = [] := hfound
    simp only [Option.map_none, reduceCtorEq, false_iff]
    rintro ⟨x, h⟩
    exact absurd h.here (by simp)
  | some best =>
    rw [hbest] at hfound
    have hmax : LastMax values best.2 best.1 := hfound
    rw [Option.map_some, Option.some.injEq]
    exact ⟨fun h => ⟨best.1, h ▸ hmax⟩, fun ⟨x, h⟩ => hmax.unique h⟩

theorem bestCandidateIndex_isSome (h : values ≠ []) :
    ∃ i < values.length, bestCandidateIndex values = some i := by
  have hfound := found_foldl values
  unfold bestCandidateIndex
  cases hbest : values.zipIdx.foldl laterMax none with
  | none =>
    rw [hbest] at hfound
    exact absurd hfound h
  | some best =>
    rw [hbest] at hfound
    have hmax : LastMax values best.2 best.1 := hfound
    exact ⟨best.2, (List.getElem?_eq_some_iff.1 hmax.here).1, rfl⟩

/-- `i` is the only place of the largest element. -/
def UniqueMax (values : List K) (i : ℕ) : Prop :=
  ∃ x, values[i]? = some x ∧ ∀ (j : ℕ) (y : K), values[j]? = some y → j ≠ i → y < x

/-- The best candidate keeps its place in the rotated list, when it is the only one. -/
theorem bestCandidateIndex_rotate (hmax : UniqueMax values i) (k : ℕ)
    (hj : bestCandidateIndex (values.rotate k) = some j) : (j + k) % values.length = i := by
  obtain ⟨x, hx, hlt⟩ := hmax
  obtain ⟨y, hbest⟩ := bestCandidateIndex_eq_some_iff.1 hj
  have hjlt : j < values.length := by
    have := (List.getElem?_eq_some_iff.1 hbest.here).1
    rwa [length_rotate] at this
  have hy : values[(j + k) % values.length]? = some y :=
    (getElem?_rotate hjlt).symm.trans hbest.here
  by_contra hne
  -- The element at `i` is in the rotated list and is larger.
  have hmem : x ∈ values.rotate k := mem_rotate.2 (mem_of_getElem? hx)
  obtain ⟨p, hp, hpx⟩ := mem_iff_getElem.1 hmem
  have hle := hbest.le p x (List.getElem?_eq_some_iff.2 ⟨hp, hpx⟩)
  exact absurd hle (not_le_of_gt (hlt _ y hy hne))

end Best

/-! ## One presentation -/

variable [Field K]

/-- The place in the menu of a presented candidate. -/
def originalIndex (rotation candidateCount presentedIndex : ℕ) : ℕ :=
  (presentedIndex + rotation % candidateCount) % candidateCount

/-- `semantic_presentation_log_probs`. Every place is written, so that it does not matter what the
scores are before the loop. -/
def semanticPresentationLogProbs (rotation : ℕ) (scores : List K) (candidateCount : ℕ) :
    Except String (List K) :=
  if scores.length ≠ candidateCount then
    .error "proof-action presentation scores do not match the semantic candidate set"
  else
    .ok (scores.zipIdx.foldl
      (fun semantic entry =>
        semantic.set (originalIndex rotation candidateCount entry.2) entry.1)
      (List.replicate candidateCount 0))

variable {rotation : ℕ}

theorem originalIndex_lt {candidateCount presentedIndex : ℕ} (h : 0 < candidateCount) :
    originalIndex rotation candidateCount presentedIndex < candidateCount := mod_lt _ h

theorem originalIndex_injective {n p q : ℕ} (hp : p < n) (hq : q < n)
    (h : originalIndex rotation n p = originalIndex rotation n q) : p = q := by
  have hmod : p ≡ q [MOD n] := Nat.ModEq.add_right_cancel' (rotation % n) h
  rwa [Nat.ModEq, mod_eq_of_lt hp, mod_eq_of_lt hq] at hmod

variable {α : Type*}

/-- Writing scores to different places keeps all of them. -/
theorem foldl_set_originalIndex (rotation n : ℕ) (start : List α) (hstart : start.length = n)
    (scores : List α) (hscores : scores.length ≤ n) :
    let written := scores.zipIdx.foldl
      (fun semantic entry => semantic.set (originalIndex rotation n entry.2) entry.1) start
    written.length = n ∧ ∀ p x, scores[p]? = some x →
      written[originalIndex rotation n p]? = some x := by
  induction scores using List.reverseRecOn with
  | nil => exact ⟨hstart, fun p x hp => by simp at hp⟩
  | append_singleton scores x ih =>
    have hlt : scores.length < n := by
      rw [length_append, length_singleton] at hscores
      exact hscores
    obtain ⟨hlength, hwritten⟩ := ih hlt.le
    rw [zipIdx_append, foldl_append, zipIdx_singleton, foldl_cons, foldl_nil, zero_add]
    refine ⟨by rw [length_set, hlength], fun p y hp => ?_⟩
    rcases getElem?_concat_eq_some.1 hp with hp | ⟨rfl, rfl⟩
    · have hpn := (List.getElem?_eq_some_iff.1 hp).1
      have hne : originalIndex rotation n scores.length ≠ originalIndex rotation n p :=
        fun heq => absurd (originalIndex_injective hlt (hpn.trans hlt) heq) (ne_of_gt hpn)
      rw [getElem?_set_ne hne, hwritten p y hp]
    · refine getElem?_set_self ?_
      rw [hlength]
      exact originalIndex_lt (zero_lt_of_lt hlt)

/-- The scores in the order of the menu. -/
def semanticScores {α : Type*} (rotation : ℕ) (scores : List α) : List α :=
  scores.rotate (scores.length - rotation % scores.length)

@[simp] theorem length_semanticScores (rotation : ℕ) (scores : List α) :
    (semanticScores rotation scores).length = scores.length := length_rotate ..

/-- The presented index of a place in the menu. -/
theorem getElem?_semanticScores (rotation : ℕ) (scores : List α) {p : ℕ} (hp : p < scores.length) :
    (semanticScores rotation scores)[originalIndex rotation scores.length p]? = scores[p]? := by
  have hpos := zero_lt_of_lt hp
  have hrotation := mod_lt rotation hpos
  rw [semanticScores, getElem?_rotate (originalIndex_lt hpos), originalIndex, mod_add_mod]
  congr 1
  rw [show p + rotation % scores.length + (scores.length - rotation % scores.length) =
    p + scores.length by omega, add_mod_right, mod_eq_of_lt hp]

/-- Every place of the menu is presented. -/
theorem exists_originalIndex (rotation : ℕ) {n i : ℕ} (hi : i < n) :
    ∃ p < n, originalIndex rotation n p = i := by
  have hrotation := mod_lt rotation (zero_lt_of_lt hi)
  refine ⟨(i + (n - rotation % n)) % n, mod_lt _ (zero_lt_of_lt hi), ?_⟩
  rw [originalIndex, mod_add_mod, show i + (n - rotation % n) + rotation % n = i + n by omega,
    add_mod_right, mod_eq_of_lt hi]

theorem semanticPresentationLogProbs_eq_ok_iff {candidateCount : ℕ} {scores semantic : List K} :
    semanticPresentationLogProbs rotation scores candidateCount = .ok semantic ↔
      scores.length = candidateCount ∧ semantic = semanticScores rotation scores := by
  rw [semanticPresentationLogProbs, ite_error_eq_ok, not_not, Except.ok.injEq]
  refine and_congr_right fun hlength => ?_
  subst hlength
  obtain ⟨hlength, hwritten⟩ := foldl_set_originalIndex rotation scores.length
    (List.replicate scores.length 0) length_replicate scores le_rfl
  have hsame : scores.zipIdx.foldl
      (fun semantic entry =>
        semantic.set (originalIndex rotation scores.length entry.2) entry.1)
      (List.replicate scores.length 0) = semanticScores rotation scores := by
    refine ext_getElem? fun i => ?_
    rcases lt_or_ge i scores.length with hi | hi
    · obtain ⟨p, hp, rfl⟩ := exists_originalIndex rotation hi
      rw [hwritten p _ (getElem?_eq_getElem hp), getElem?_semanticScores rotation scores hp,
        getElem?_eq_getElem hp]
    · rw [getElem?_eq_none (hlength.trans_le hi),
        getElem?_eq_none ((length_semanticScores rotation scores).trans_le hi)]
  rw [hsame, eq_comm]

/-! ## Averages -/

variable {candidateCount : ℕ} {presentationScores presentationScores' : List (ℕ × List K)}

section Averages

variable (library : FloatLibrary K)

/-- The scores of a presentation in the order of the menu. -/
def semanticPresentation (candidateCount : ℕ) (presentation : ℕ × List K) :
    Except String (ℕ × List K) := do
  let semantic ← semanticPresentationLogProbs presentation.1 presentation.2 candidateCount
  return (presentation.1 % candidateCount, semantic)

/-- The presentations in the order of the menu. -/
def semanticPresentations (candidateCount : ℕ) (presentationScores : List (ℕ × List K)) :
    List (ℕ × List K) :=
  presentationScores.map fun presentation =>
    (presentation.1 % candidateCount, semanticScores presentation.1 presentation.2)

/-- The loop that adds the probabilities of the candidates up. -/
def addProbabilities (sums : List K) (scores : List (List K)) : List K :=
  scores.foldl (fun sums scores => sums.zipWith (fun sum score => sum + library.exp score) scores)
    sums

/-- The averages of the probabilities of the candidates. -/
def averagedProbabilities (candidateCount : ℕ) (scores : List (List K)) : List K :=
  (addProbabilities library (List.replicate candidateCount 0) scores).map (· / scores.length)

/-- The averages of the scores that an orbit is summarized from. -/
def orbitAverages (candidateCount : ℕ) (presentationScores : List (ℕ × List K)) : List K :=
  averagedProbabilities library candidateCount
    (presentationScores.map fun presentation => semanticScores presentation.1 presentation.2)

variable {library}

theorem mapM_semanticPresentation_eq_ok_iff {presentations : List (ℕ × List K)} :
    presentationScores.mapM (semanticPresentation candidateCount) = .ok presentations ↔
      (∀ presentation ∈ presentationScores, presentation.2.length = candidateCount) ∧
        presentations = semanticPresentations candidateCount presentationScores := by
  refine mapM_eq_ok_iff fun presentation _ semantic => ?_
  simp only [semanticPresentation, bind_eq_ok, semanticPresentationLogProbs_eq_ok_iff]
  constructor
  · rintro ⟨scores, ⟨hlength, rfl⟩, heq⟩
    cases heq
    exact ⟨hlength, rfl⟩
  · rintro ⟨hlength, rfl⟩
    exact ⟨_, ⟨hlength, rfl⟩, rfl⟩

theorem length_addProbabilities {sums : List K} {scores : List (List K)}
    (hlength : ∀ presented ∈ scores, presented.length = sums.length) :
    (addProbabilities library sums scores).length = sums.length := by
  induction scores generalizing sums with
  | nil => rfl
  | cons presented scores ih =>
    have hhead : (sums.zipWith (fun sum score => sum + library.exp score) presented).length =
        sums.length := by
      rw [length_zipWith, hlength presented (by simp), min_self]
    refine (ih fun other hother => ?_).trans hhead
    rw [hhead]
    exact hlength other (mem_cons_of_mem _ hother)

theorem length_orbitAverages
    (hlength : ∀ presentation ∈ presentationScores, presentation.2.length = candidateCount) :
    (orbitAverages library candidateCount presentationScores).length = candidateCount := by
  rw [orbitAverages, averagedProbabilities, length_map, length_addProbabilities, length_replicate]
  intro presented hmem
  obtain ⟨presentation, hpresentation, rfl⟩ := mem_map.1 hmem
  rw [length_semanticScores, hlength presentation hpresentation, length_replicate]

/-- **The order of the presentations** does not matter to the averages. -/
theorem orbitAverages_perm (h : presentationScores.Perm presentationScores') :
    orbitAverages library candidateCount presentationScores =
      orbitAverages library candidateCount presentationScores' := by
  have hperm := h.map fun presentation : ℕ × List K =>
    semanticScores presentation.1 presentation.2
  have hsums : RightCommutative fun (sums scores : List K) =>
      sums.zipWith (fun sum score => sum + library.exp score) scores := by
    refine ⟨fun sums p q => ext_getElem (by simp; omega) fun i hi hi' => ?_⟩
    simp only [getElem_zipWith]
    exact add_right_comm _ _ _
  unfold orbitAverages averagedProbabilities addProbabilities
  rw [hperm.foldl_eq, hperm.length_eq]

/-- The rotation of a presentation when the menu is named after its rotation by `k`. -/
def renamedRotation (candidateCount k rotation : ℕ) : ℕ :=
  (rotation + (candidateCount - k % candidateCount)) % candidateCount

theorem semanticScores_renamed {scores : List α} (hpos : 0 < scores.length) (k rotation : ℕ) :
    semanticScores (renamedRotation scores.length k rotation) scores =
      (semanticScores rotation scores).rotate k := by
  rw [semanticScores, semanticScores, rotate_rotate, ← rotate_mod, ← rotate_mod scores (_ + k)]
  generalize hn : scores.length = n at hpos
  have hr := mod_lt rotation hpos
  have hk := mod_lt k hpos
  have hrenamed : renamedRotation n k rotation % n = (rotation % n + (n - k % n)) % n := by
    rw [renamedRotation, mod_mod, mod_add_mod]
  have hsum : (n - rotation % n + k) % n = (n - rotation % n + k % n) % n :=
    (add_mod_mod ..).symm
  rw [hrenamed, hsum]
  congr 1
  rcases lt_or_ge (rotation % n) (k % n) with hlt | hle
  · rw [mod_eq_of_lt (show rotation % n + (n - k % n) < n by omega),
      show n - rotation % n + k % n = n + (k % n - rotation % n) by omega, add_mod_left]
    congr 1
    omega
  · rw [show rotation % n + (n - k % n) = n + (rotation % n - k % n) by omega, add_mod_left,
      mod_eq_of_lt (show rotation % n - k % n < n by omega)]
    congr 1
    omega

/-- The scores of the same presentations for the other name of the menu. -/
def renamedScores (candidateCount k : ℕ) (presentationScores : List (ℕ × List K)) :
    List (ℕ × List K) :=
  presentationScores.map fun presentation =>
    (renamedRotation candidateCount k presentation.1, presentation.2)

theorem addProbabilities_rotate (k : ℕ) {sums : List K} {scores : List (List K)}
    (hlength : ∀ presented ∈ scores, presented.length = sums.length) :
    addProbabilities library (sums.rotate k) (scores.map fun presented => presented.rotate k) =
      (addProbabilities library sums scores).rotate k := by
  induction scores generalizing sums with
  | nil => rfl
  | cons presented scores ih =>
    have hhead := hlength presented (by simp)
    unfold addProbabilities at ih ⊢
    rw [map_cons, foldl_cons, foldl_cons, ← zipWith_rotate_distrib _ _ _ k hhead.symm]
    refine ih fun other hother => ?_
    rw [length_zipWith, hhead, min_self]
    exact hlength other (mem_cons_of_mem _ hother)

/-- **Another name of the menu** rotates the averages. -/
theorem orbitAverages_renamed (k : ℕ) (hpos : 0 < candidateCount)
    (hlength : ∀ presentation ∈ presentationScores, presentation.2.length = candidateCount) :
    orbitAverages library candidateCount (renamedScores candidateCount k presentationScores) =
      (orbitAverages library candidateCount presentationScores).rotate k := by
  have hsemantic : (renamedScores candidateCount k presentationScores).map
      (fun presentation => semanticScores presentation.1 presentation.2) =
        (presentationScores.map fun presentation =>
          semanticScores presentation.1 presentation.2).map fun presented =>
            presented.rotate k := by
    rw [renamedScores, map_map, map_map]
    refine map_congr_left fun presentation hmem => ?_
    have hlength := hlength presentation hmem
    subst hlength
    exact semanticScores_renamed hpos k presentation.1
  have hreplicate : List.replicate candidateCount (0 : K) =
      (List.replicate candidateCount (0 : K)).rotate k := (rotate_replicate ..).symm
  rw [orbitAverages, orbitAverages, averagedProbabilities, averagedProbabilities, hsemantic,
    hreplicate, addProbabilities_rotate, ← hreplicate, map_rotate, length_map]
  intro presented hmem
  obtain ⟨presentation, hpresentation, rfl⟩ := mem_map.1 hmem
  rw [length_semanticScores, hlength presentation hpresentation, length_replicate]

end Averages

/-! ## The summary of an orbit -/

structure SemanticActionOrbitSummary (K : Type) where
  averagedLogProbs : List K
  presentationLogProbs : List (ℕ × List K)
  jsDivergence : K
  top1ConsensusFraction : K
  completeCyclicOrbit : Bool

section Summary

variable [LinearOrder K] (library : FloatLibrary K)

def logProbEntropy (logProbs : List K) : K :=
  (logProbs.map fun logProbability => -library.exp logProbability * logProbability).sum

open scoped Rust.Instances in
/-- The logarithms of the averages, which sum to the normalizer. -/
def normalizedLogProbs (averages : List K) : List K :=
  averages.map fun average => library.ln (max (average / averages.sum) (1 / 10 ^ 30))

/-- The presentations that agree with the average on the best candidate, as a fraction. -/
def consensusFraction (averaged : List K) (presentations : List (ℕ × List K)) : K :=
  match bestCandidateIndex averaged with
  | none => 0
  | some top =>
    (presentations.countP fun presentation =>
      bestCandidateIndex presentation.2 = some top) / presentations.length

/-- `semantic_action_orbit_summary`. -/
def semanticActionOrbitSummary (presentationScores : List (ℕ × List K)) (candidateCount : ℕ) :
    Except String (SemanticActionOrbitSummary K) :=
  if presentationScores.isEmpty || candidateCount < 2 then
    .error "semantic proof-action scoring requires a non-empty candidate orbit"
  else do
    let presentations ← presentationScores.mapM (semanticPresentation candidateCount)
    let averages := averagedProbabilities library candidateCount (presentations.map Prod.snd)
    if averages.sum ≤ 0 then
      .error "semantic proof-action probability orbit is non-finite"
    else
      let averaged := normalizedLogProbs library averages
      let meanEntropy := (presentations.map fun presentation =>
        logProbEntropy library presentation.2).sum / presentations.length
      let rotations := presentationScores.foldl
        (fun rotations presentation => insertSorted (presentation.1 % candidateCount) rotations) []
      .ok
        { averagedLogProbs := averaged
          presentationLogProbs := presentations
          jsDivergence := max (logProbEntropy library averaged - meanEntropy) 0
          top1ConsensusFraction := consensusFraction averaged presentations
          completeCyclicOrbit := presentationScores.length = candidateCount &&
            rotations.length = candidateCount }

/-- Scores that have a summary. -/
structure OrbitScores (candidateCount : ℕ) (presentationScores : List (ℕ × List K)) : Prop where
  ne_nil : presentationScores ≠ []
  two_le : 2 ≤ candidateCount
  length_eq : ∀ presentation ∈ presentationScores, presentation.2.length = candidateCount
  sum_pos : 0 < (orbitAverages library candidateCount presentationScores).sum

variable {library}

theorem semanticActionOrbitSummary_spec {summary : SemanticActionOrbitSummary K}
    (h : semanticActionOrbitSummary library presentationScores candidateCount = .ok summary) :
    OrbitScores library candidateCount presentationScores ∧
      summary.averagedLogProbs =
        normalizedLogProbs library (orbitAverages library candidateCount presentationScores) := by
  rw [semanticActionOrbitSummary, ite_error_eq_ok] at h
  obtain ⟨hcounts, h⟩ := h
  simp only [Bool.or_eq_true, List.isEmpty_iff, decide_eq_true_eq, not_or, not_lt] at hcounts
  obtain ⟨presentations, hpresentations, h⟩ := bind_eq_ok.1 h
  obtain ⟨hlength, rfl⟩ := mapM_semanticPresentation_eq_ok_iff.1 hpresentations
  have haverages : averagedProbabilities library candidateCount
      ((semanticPresentations candidateCount presentationScores).map Prod.snd) =
        orbitAverages library candidateCount presentationScores := by
    rw [semanticPresentations, map_map]
    rfl
  obtain ⟨hsum, h⟩ := ite_error_eq_ok.1 h
  cases h
  rw [haverages] at hsum
  exact ⟨⟨hcounts.1, hcounts.2, hlength, lt_of_not_ge hsum⟩, by rw [haverages]⟩

section

variable (h : OrbitScores library candidateCount presentationScores)
include h

theorem OrbitScores.exists_summary :
    ∃ summary, semanticActionOrbitSummary library presentationScores candidateCount =
      .ok summary := by
  have hcounts : ¬ (presentationScores.isEmpty || decide (candidateCount < 2)) = true := by
    simpa using ⟨h.ne_nil, h.two_le⟩
  have hpresentations := mapM_semanticPresentation_eq_ok_iff.2 ⟨h.length_eq, rfl⟩
  have hsum := h.sum_pos
  rw [orbitAverages, show presentationScores.map (fun presentation =>
      semanticScores presentation.1 presentation.2) =
    (semanticPresentations candidateCount presentationScores).map Prod.snd by
      rw [semanticPresentations, map_map]; rfl] at hsum
  rw [semanticActionOrbitSummary, if_neg hcounts, hpresentations]
  exact ⟨_, if_neg (not_le_of_gt hsum)⟩

theorem OrbitScores.perm (hperm : presentationScores.Perm presentationScores') :
    OrbitScores library candidateCount presentationScores' where
  ne_nil hnil := h.ne_nil (perm_nil.1 (hnil ▸ hperm))
  two_le := h.two_le
  length_eq presentation hmem := h.length_eq presentation (hperm.mem_iff.2 hmem)
  sum_pos := orbitAverages_perm hperm ▸ h.sum_pos

theorem OrbitScores.renamed (k : ℕ) :
    OrbitScores library candidateCount (renamedScores candidateCount k presentationScores) where
  ne_nil hnil := h.ne_nil (map_eq_nil_iff.1 hnil)
  two_le := h.two_le
  length_eq presentation hmem := by
    obtain ⟨original, horiginal, rfl⟩ := mem_map.1 hmem
    exact h.length_eq original horiginal
  sum_pos := by
    rw [orbitAverages_renamed k (zero_lt_of_lt h.two_le) h.length_eq, (rotate_perm _ k).sum_eq]
    exact h.sum_pos

end

theorem normalizedLogProbs_rotate (averages : List K) (k : ℕ) :
    normalizedLogProbs library (averages.rotate k) =
      (normalizedLogProbs library averages).rotate k := by
  rw [normalizedLogProbs, normalizedLogProbs, (rotate_perm averages k).sum_eq, map_rotate]

end Summary

end BurnDragon.Training
