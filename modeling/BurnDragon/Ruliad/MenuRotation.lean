import BurnDragon.Ruliad.Answers
import BurnDragon.Ruliad.MenuInvariants

/-!
# Rotated menus

A menu is presented from some candidate on. Rotation moves the candidates, the selected index and the
equivalent indices separately; `presented` is where an index goes, and `originalIndexAfterRotation`
takes it back. Rotations compose as the integers modulo the size of the menu, and the answer for a
candidate resolves to this candidate in every presentation (`rotation_sound`).
-/

namespace BurnDragon.Ruliad

open Rust List Nat

namespace RuliadProofActionSet

/-- `original_index_after_rotation`. -/
def originalIndexAfterRotation (actions : RuliadProofActionSet) (presentedIndex rotation : ℕ) :
    Except String ℕ :=
  let candidateCount := actions.candidates.length
  if candidateCount = 0 ∨ presentedIndex ≥ candidateCount then
    .error ("presented proof action index " ++ decimal presentedIndex ++ " exceeds " ++
      decimal candidateCount ++ " candidates")
  else
    .ok ((presentedIndex + rotation % candidateCount) % candidateCount)

/-- `rotate_selected_to`. -/
def rotateSelectedTo (actions : RuliadProofActionSet) (desiredIndex : ℕ) :
    Except String RuliadProofActionSet :=
  let candidateCount := actions.candidates.length
  if candidateCount = 0 ∨ actions.selectedIndex ≥ candidateCount then
    .error "cannot rotate an empty or invalid proof action set"
  else if desiredIndex ≥ candidateCount then
    .error ("desired proof action index " ++ decimal desiredIndex ++ " exceeds " ++
      decimal candidateCount ++ " candidates")
  else
    let rotation := (actions.selectedIndex + candidateCount - desiredIndex) % candidateCount
    actions.rotateLeft rotation

end RuliadProofActionSet

/-! ## Indices -/

/-- Where the entry with an index is after a rotation of `n` entries. -/
def presented (n rotation i : ℕ) : ℕ := (i + n - rotation % n) % n

section Indices

variable {n a b i j r : ℕ}

theorem add_mod_eq (hj : j < n) (hr : r < n) : (j + r) % n = if j + r < n then j + r else j + r - n := by
  split_ifs with h
  · exact mod_eq_of_lt h
  · rw [mod_eq_sub_mod (by omega), mod_eq_of_lt (by omega)]

theorem presented_eq (hi : i < n) :
    presented n a i = if a % n ≤ i then i - a % n else i + n - a % n := by
  have hr : a % n < n := mod_lt _ (by omega)
  rw [presented]
  split_ifs with h
  · rw [show i + n - a % n = i - a % n + n by omega, add_mod_right, mod_eq_of_lt (by omega)]
  · exact mod_eq_of_lt (by omega)

theorem presented_lt (hn : 0 < n) : presented n a i < n := mod_lt _ hn

theorem presented_presented (hi : i < n) :
    presented n b (presented n a i) = presented n ((a + b) % n) i := by
  have ha : a % n < n := mod_lt _ (by omega)
  have hb : b % n < n := mod_lt _ (by omega)
  rw [presented_eq (presented_lt (by omega)), presented_eq hi, presented_eq hi, mod_mod,
    add_mod, add_mod_eq ha hb]
  split_ifs <;> omega

theorem presented_zero (hi : i < n) : presented n 0 i = i := by
  rw [presented_eq hi, zero_mod]
  simp

/-- The way back. -/
theorem presented_add_mod (hi : i < n) : (presented n a i + a % n) % n = i := by
  have ha : a % n < n := mod_lt _ (by omega)
  rw [add_mod_eq (presented_lt (by omega)) ha, presented_eq hi]
  split_ifs <;> omega

theorem presented_of_add_mod (hj : j < n) : presented n a ((j + a % n) % n) = j := by
  have ha : a % n < n := mod_lt _ (by omega)
  rw [presented_eq (mod_lt _ (by omega)), add_mod_eq hj ha]
  split_ifs <;> omega

end Indices

/-! ## Rotations -/

namespace RuliadProofActionSet

/-- A menu with a selected candidate and equivalents among the candidates. -/
structure Rotatable (actions : RuliadProofActionSet) : Prop where
  selected : actions.selectedIndex < actions.candidates.length
  equivalent : ∀ i ∈ actions.equivalentIndices, i < actions.candidates.length

/-- A menu as it is presented. -/
def rotated (actions : RuliadProofActionSet) (rotation : ℕ) : RuliadProofActionSet :=
  { actions with
    candidates := actions.candidates.rotate rotation
    selectedIndex := presented actions.candidates.length rotation actions.selectedIndex
    equivalentIndices := sortByKey id
      (actions.equivalentIndices.map (presented actions.candidates.length rotation)) }

variable {actions : RuliadProofActionSet} {a b : ℕ}

/-- The rotation of slices is that of lists. -/
theorem rotateLeft_eq_rotate {α : Type*} (xs : List α) (n : ℕ) : xs.rotateLeft n = xs.rotate n := by
  rw [rotate_eq_drop_append_take_mod]
  simp only [List.rotateLeft]
  split_ifs with hlen
  · obtain hnil | hone : xs.length = 0 ∨ xs.length = 1 := by omega
    · rw [length_eq_zero_iff.1 hnil]
      simp
    · simp [hone, mod_one]
  · rfl

theorem rotateLeft_of_rotatable (h : actions.Rotatable) (rotation : ℕ) :
    actions.rotateLeft rotation = .ok (actions.rotated rotation) := by
  have hpos : 0 < actions.candidates.length := zero_lt_of_lt h.selected
  have hequivalent : ¬ (actions.equivalentIndices.any fun index =>
      decide (index ≥ actions.candidates.length)) = true := by
    simpa using h.equivalent
  rw [rotateLeft, if_neg (by have := h.selected; omega), if_neg hequivalent]
  simp only [rotateLeft_eq_rotate, rotate_mod]
  rfl

theorem Rotatable.rotated (h : actions.Rotatable) (a : ℕ) : (actions.rotated a).Rotatable := by
  have hpos : 0 < actions.candidates.length := zero_lt_of_lt h.selected
  constructor
  · simpa [RuliadProofActionSet.rotated] using presented_lt hpos
  · intro i hi
    obtain ⟨j, -, rfl⟩ := mem_map.1 ((sortByKey_perm _ _).mem_iff.1 hi)
    simpa [RuliadProofActionSet.rotated] using presented_lt hpos

/-- Sorting does not see an order before. -/
theorem sortByKey_congr {xs ys : List ℕ} (h : xs.Perm ys) : sortByKey id xs = sortByKey id ys :=
  (((sortByKey_perm id xs).trans h).trans (sortByKey_perm id ys).symm).eq_of_sortedLE
    sortedLE_insertionSort sortedLE_insertionSort

theorem Rotatable.rotated_rotated (h : actions.Rotatable) (a b : ℕ) :
    (actions.rotated a).rotated b = actions.rotated ((a + b) % actions.candidates.length) := by
  have hequivalent : (sortByKey id (actions.equivalentIndices.map
      (presented actions.candidates.length a))).map (presented actions.candidates.length b) |>.Perm
      (actions.equivalentIndices.map
        (presented actions.candidates.length ((a + b) % actions.candidates.length))) := by
    refine ((sortByKey_perm _ _).map _).trans (.of_eq ?_)
    rw [map_map]
    exact map_congr_left fun i hi => presented_presented (h.equivalent i hi)
  simp only [RuliadProofActionSet.rotated, length_rotate, rotate_rotate, rotate_mod,
    presented_presented h.selected, sortByKey_congr hequivalent]

/-- **Rotations compose** as the integers modulo the size of the menu. -/
theorem rotateLeft_rotateLeft (actions : RuliadProofActionSet) (a b : ℕ) :
    (actions.rotateLeft a >>= fun rotated => rotated.rotateLeft b) =
      actions.rotateLeft ((a + b) % actions.candidates.length) := by
  by_cases h : actions.Rotatable
  · rw [rotateLeft_of_rotatable h, rotateLeft_of_rotatable h]
    exact (rotateLeft_of_rotatable (h.rotated a) b).trans
      (congrArg Except.ok (h.rotated_rotated a b))
  · rw [rotateLeft, rotateLeft]
    split_ifs with hempty hinvalid
    · rfl
    · rfl
    · exact absurd ⟨by omega, by simpa using hinvalid⟩ h

/-- A rotation by nothing. -/
theorem Rotatable.rotated_zero (h : actions.Rotatable)
    (hsorted : actions.equivalentIndices.Pairwise (· ≤ ·)) : actions.rotated 0 = actions := by
  have hequivalent : actions.equivalentIndices.map (presented actions.candidates.length 0) =
      actions.equivalentIndices := by
    conv_rhs => rw [← map_id actions.equivalentIndices]
    exact map_congr_left fun i hi => presented_zero (h.equivalent i hi)
  have hsort : sortByKey id actions.equivalentIndices = actions.equivalentIndices :=
    hsorted.insertionSort_eq
  simp only [RuliadProofActionSet.rotated, rotate_zero, presented_zero h.selected, hequivalent,
    hsort]

theorem originalIndexAfterRotation_eq {i : ℕ} (hi : i < actions.candidates.length) (rotation : ℕ) :
    actions.originalIndexAfterRotation i rotation =
      .ok ((i + rotation % actions.candidates.length) % actions.candidates.length) :=
  if_neg (by omega)

/-- Where the index `i` of the presentation was before, everything is as it is at `i` now. -/
structure ComesFrom (actions rotated : RuliadProofActionSet) (i original : ℕ) : Prop where
  candidate : rotated.candidates[i]? = actions.candidates[original]?
  selected : rotated.selectedIndex = i ↔ actions.selectedIndex = original
  equivalent : i ∈ rotated.equivalentIndices ↔ original ∈ actions.equivalentIndices

theorem Rotatable.comesFrom (h : actions.Rotatable) (a : ℕ) {i : ℕ}
    (hi : i < actions.candidates.length) :
    ComesFrom actions (actions.rotated a) i
      ((i + a % actions.candidates.length) % actions.candidates.length) := by
  have hinverse : ∀ j < actions.candidates.length, (presented actions.candidates.length a j = i ↔
      j = (i + a % actions.candidates.length) % actions.candidates.length) := by
    intro j hj
    constructor
    · rintro rfl
      exact (presented_add_mod hj).symm
    · rintro rfl
      exact presented_of_add_mod hi
  refine ⟨?_, hinverse _ h.selected, ?_⟩
  · simp only [RuliadProofActionSet.rotated]
    rw [getElem?_rotate hi, add_mod_mod]
  · simp only [RuliadProofActionSet.rotated]
    rw [(sortByKey_perm _ _).mem_iff, mem_map]
    constructor
    · rintro ⟨j, hj, heq⟩
      rwa [← (hinverse j (h.equivalent j hj)).1 heq]
    · intro hmem
      exact ⟨_, hmem, (hinverse _ (h.equivalent _ hmem)).2 rfl⟩

/-- **The selected candidate is presented where it should be.** -/
theorem Rotatable.rotateSelectedTo (h : actions.Rotatable) {i : ℕ}
    (hi : i < actions.candidates.length) :
    ∃ rotated, actions.rotateSelectedTo i = .ok rotated ∧ rotated.selectedIndex = i ∧
      rotated.candidates[i]? = actions.candidates[actions.selectedIndex]? := by
  have hselected := h.selected
  set n := actions.candidates.length with hn
  set rotation := (actions.selectedIndex + n - i) % n with hrotation
  have hback : (i + rotation % n) % n = actions.selectedIndex := by
    rw [hrotation, mod_mod, add_mod_mod, show i + (actions.selectedIndex + n - i) =
      actions.selectedIndex + n by omega, add_mod_right, mod_eq_of_lt hselected]
  have hfrom := h.comesFrom rotation hi
  rw [← hn, hback] at hfrom
  refine ⟨actions.rotated rotation, ?_, hfrom.selected.2 rfl, hfrom.candidate⟩
  rw [RuliadProofActionSet.rotateSelectedTo, if_neg (by omega), if_neg (by omega)]
  exact rotateLeft_of_rotatable h rotation

end RuliadProofActionSet

/-! ## Answers -/

section Answers

variable {goal : ℕ} {step : RuliadProofStep}

theorem TextStep.separated (h : TextStep goal step) : SeparatedStep goal step where
  goal_le := h.goal_le
  axiom_id id hid := by
    have hchars := fun c => @identifierChar_of_validIdentifier c id (h.axiom_id id hid)
    exact ⟨fun hmem => absurd (hchars _ hmem) (by unfold IdentifierChar; decide),
      fun hmem => absurd (hchars _ hmem) (by unfold IdentifierChar; decide)⟩
  lemma_le := h.lemma_le
  path_le := h.path_le

/-- The text of a step has no white space. -/
theorem TextStep.not_isWhitespace (h : TextStep goal step) {c : Char}
    (hc : c ∈ (encodeModelProofStep goal step).toList) : isWhitespace c = false := by
  rcases mem_intercalate rfl hc with rfl | ⟨field, hfield, hc⟩
  · decide
  rcases mem_stepFields field hfield c hc with (hc | rfl) | ⟨id, hid, hc⟩
  · exact isWhitespace_of_identifierChar hc
  · decide
  · exact isWhitespace_of_identifierChar
      (identifierChar_of_validIdentifier (h.axiom_id id hid) hc)

theorem TextStep.trim_eq (h : TextStep goal step) :
    trim (encodeModelProofStep goal step).toList = (encodeModelProofStep goal step).toList :=
  trim_eq_self fun _ => h.not_isWhitespace

/-- **One step**: decoding inverts encoding. -/
theorem decodeModelProofStep_encode (h : TextStep goal step) :
    decodeModelProofStep (encodeModelProofStep goal step) = some (goal, step) := by
  have hdecode := decodeModelCertificateStep_encode h.separated
  have hne : (encodeModelProofStep goal step).toList ≠ [] := by
    intro hnil
    rw [hnil] at hdecode
    simp [decodeModelCertificateStep] at hdecode
  simp only [decodeModelProofStep, h.trim_eq]
  rw [if_pos ⟨hne, h.separated.semicolon_not_mem⟩, hdecode]

theorem parseProofActionIndex_decimal {i : ℕ} (hi : i ≤ usizeMax) :
    parseProofActionIndex ("c=" ++ decimal i) = some i := by
  have hchars : ∀ c ∈ ("c=" ++ decimal i).toList, c = 'c' ∨ c = '=' ∨ c.isDigit := by
    intro c hc
    rw [String.toList_append, mem_append] at hc
    rcases hc with hc | hc
    · have : c = 'c' ∨ c = '=' := by simpa using hc
      tauto
    · exact .inr (.inr (isDigit_of_mem_decimal hc))
  have htrim : trim ("c=" ++ decimal i).toList = ("c=" ++ decimal i).toList := by
    refine trim_eq_self fun c hc => ?_
    rcases hchars c hc with rfl | rfl | hc
    · decide
    · decide
    · exact isWhitespace_of_isDigit hc
  have hsplit : ("c=" ++ decimal i).toList.splitOn ';' = [("c=" ++ decimal i).toList] := by
    have hnone : ∀ part ∈ ["c=" ++ decimal i], ';' ∉ part.toList := by
      intro part hpart hmem
      obtain rfl := mem_singleton.1 hpart
      rcases hchars _ hmem with h | h | h <;> exact absurd h (by decide)
    have hintercalate := splitOn_intercalate (show (";" : String).toList = [';'] from rfl)
      (cons_ne_nil _ _) hnone
    simpa using hintercalate
  rw [parseProofActionIndex, htrim, hsplit]
  simp [String.toList_append, parseUsize_decimal hi]

/-- A menu whose distinct steps can be written. -/
structure TextMenu (actions : RuliadProofActionSet) : Prop where
  distinct : (actions.candidates.map (·.step)).Nodup
  steps : ∀ candidate ∈ actions.candidates, TextStep actions.goal candidate.step
  length_le : actions.candidates.length ≤ usizeMax

variable {actions : RuliadProofActionSet}

theorem TextMenu.rotated (h : TextMenu actions) (a : ℕ) : TextMenu (actions.rotated a) := by
  have hperm : (actions.rotated a).candidates.Perm actions.candidates := rotate_perm _ _
  exact ⟨(hperm.map _).nodup_iff.2 h.distinct, fun candidate hc => h.steps _ (hperm.mem_iff.1 hc),
    hperm.length_eq ▸ h.length_le⟩

/-- **An answer resolves to its candidate.** -/
theorem TextMenu.resolve_answer (h : TextMenu actions) {i : ℕ} (hi : i < actions.candidates.length)
    (contract : RuliadProofActionAnswerContract) :
    ∃ answer, proofActionAnswer actions i contract = .ok answer ∧
      resolveProofActionAnswer actions answer contract = some i := by
  have hcandidate : okOr actions.candidates[i]? ("proof action candidate " ++ decimal i ++
      " is out of range") = .ok actions.candidates[i] :=
    okOr_eq_ok.2 (getElem?_eq_getElem hi)
  refine ⟨_, by rw [proofActionAnswer, hcandidate]; rfl, ?_⟩
  cases contract with
  | presentationIndex =>
    have hle : i ≤ usizeMax := hi.le.trans h.length_le
    simp [resolveProofActionAnswer, parseProofActionIndex_decimal hle, hi]
  | semanticStep =>
    have hstep := h.steps _ (getElem_mem hi)
    simp only [resolveProofActionAnswer, decodeModelProofStep_encode hstep, if_true]
    rw [findIdx?_eq_some_iff_getElem]
    refine ⟨hi, by simp, fun j hj hsame => ?_⟩
    have hsame : actions.candidates[j].step = actions.candidates[i].step := by simpa using hsame
    refine nodup_iff_getElem?_ne_getElem?.1 h.distinct j i hj (by simpa using hi) ?_
    rw [getElem?_map, getElem?_map, getElem?_eq_getElem (hj.trans hi),
      getElem?_eq_getElem hi, Option.map_some, Option.map_some, hsame]

/-- An answer that names the step is the same in every presentation. -/
theorem proofActionAnswer_semanticStep {rotated : RuliadProofActionSet} {i original : ℕ}
    (hgoal : rotated.goal = actions.goal)
    (hcandidate : rotated.candidates[i]? = actions.candidates[original]?)
    (horiginal : original < actions.candidates.length) :
    proofActionAnswer rotated i .semanticStep = proofActionAnswer actions original .semanticStep := by
  rw [getElem?_eq_getElem horiginal] at hcandidate
  simp [proofActionAnswer, hcandidate, getElem?_eq_getElem horiginal, okOr, hgoal]

end Answers

/-- **Rotation** acts on menus as the integers modulo their size, the original index undoes it, the
selected candidate can be presented at any place, and answers resolve to their candidates in every
presentation. -/
theorem rotation_sound (actions : RuliadProofActionSet) (a b : ℕ) :
    ((actions.rotateLeft a >>= fun rotated => rotated.rotateLeft b) =
      actions.rotateLeft ((a + b) % actions.candidates.length)) ∧
    (actions.Rotatable →
      (actions.equivalentIndices.Pairwise (· ≤ ·) → actions.rotateLeft 0 = .ok actions) ∧
      (∃ rotated, actions.rotateLeft a = .ok rotated ∧
        rotated.candidates.length = actions.candidates.length ∧
        (∀ i < actions.candidates.length, ∃ original < actions.candidates.length,
          actions.originalIndexAfterRotation i a = .ok original ∧
          actions.ComesFrom rotated i original ∧
          proofActionAnswer rotated i .semanticStep =
            proofActionAnswer actions original .semanticStep) ∧
        (∀ original < actions.candidates.length, ∃ i < actions.candidates.length,
          actions.originalIndexAfterRotation i a = .ok original) ∧
        (TextMenu actions → ∀ i < actions.candidates.length, ∀ contract, ∃ answer,
          proofActionAnswer rotated i contract = .ok answer ∧
          resolveProofActionAnswer rotated answer contract = some i)) ∧
      ∀ i < actions.candidates.length, ∃ rotated, actions.rotateSelectedTo i = .ok rotated ∧
        rotated.selectedIndex = i ∧
        rotated.candidates[i]? = actions.candidates[actions.selectedIndex]?) := by
  refine ⟨actions.rotateLeft_rotateLeft a b, fun h => ⟨fun hsorted => ?_, ?_, fun i hi => ?_⟩⟩
  · rw [RuliadProofActionSet.rotateLeft_of_rotatable h, h.rotated_zero hsorted]
  · have hlength : (actions.rotated a).candidates.length = actions.candidates.length :=
      List.length_rotate _ _
    refine ⟨actions.rotated a, RuliadProofActionSet.rotateLeft_of_rotatable h a, hlength,
      fun i hi => ?_, fun original horiginal => ?_, fun htext i hi contract => ?_⟩
    · have hlt : (i + a % actions.candidates.length) % actions.candidates.length <
          actions.candidates.length := Nat.mod_lt _ (by omega)
      have hfrom := h.comesFrom a hi
      exact ⟨_, hlt, RuliadProofActionSet.originalIndexAfterRotation_eq hi a, hfrom,
        proofActionAnswer_semanticStep rfl hfrom.candidate hlt⟩
    · refine ⟨presented actions.candidates.length a original, presented_lt (by omega), ?_⟩
      rw [RuliadProofActionSet.originalIndexAfterRotation_eq (presented_lt (by omega)),
        presented_add_mod horiginal]
    · exact (htext.rotated a).resolve_answer (hlength ▸ hi) contract
  · exact h.rotateSelectedTo hi

/-- A menu of two steps. -/
def twoStepMenu : RuliadProofActionSet where
  goal := 0
  current := .apply "compose" [.atom "id", .atom "a"]
  target := .atom "a"
  candidates := [
    ⟨⟨.axiom_ "left_identity", [], .forward⟩, some (.atom "a"), some 0⟩,
    ⟨⟨.axiom_ "left_identity", [1], .reverse⟩,
      some (.apply "compose" [.atom "id", .apply "compose" [.atom "id", .atom "a"]]), some 6⟩]
  selectedIndex := 0
  equivalentIndices := [0]

/-- The menu rotated by one, with the answers for its candidates. -/
theorem rotation_sound_twoStepMenu :
    ∃ rotated, twoStepMenu.rotateLeft 1 = .ok rotated ∧
      ∀ i < 2, ∀ contract, ∃ answer, proofActionAnswer rotated i contract = .ok answer ∧
        resolveProofActionAnswer rotated answer contract = some i := by
  have hrotatable : twoStepMenu.Rotatable := ⟨by decide, by decide⟩
  have htext : TextMenu twoStepMenu := by
    have hid : ∀ id, RuliadProofSource.axiom_ "left_identity" = .axiom_ id → validIdentifier id := by
      rintro id ⟨⟩
      decide +kernel
    refine ⟨by decide, fun candidate hcandidate => ?_, by decide⟩
    rcases List.mem_cons.1 hcandidate with rfl | hcandidate
    · exact ⟨Nat.zero_le _, hid, nofun, by simp⟩
    · obtain rfl := List.mem_singleton.1 hcandidate
      exact ⟨Nat.zero_le _, hid, nofun, by decide⟩
  obtain ⟨rotated, hrotated, -, -, -, hanswers⟩ := ((rotation_sound twoStepMenu 1 0).2 hrotatable).2.1
  exact ⟨rotated, hrotated, hanswers htext⟩

end BurnDragon.Ruliad
