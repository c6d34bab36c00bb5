import BurnDragon.Ruliad.CertificateViews
import BurnDragon.Ruliad.ModelCertificate
import BurnDragon.Ruliad.Soundness

/-!
# Reading a certificate back

The parser keeps the longest prefix of lines that decode (`ParsedPrefix`) and groups their steps by
goal, the goals in the order in which they occur first (`Grouped`).

* `decodeModelCertificate_encode`: a certificate without empty blocks is read back as it is, and a
  text that the decoder accepts has the same meaning as the text that its certificate is written in.
* `decodeModelCertificatePrefix_maximal`: decoding keeps exactly the longest prefix, and the first
  lines of a certificate before a malformed tail give the prefix of the certificate.
-/

namespace BurnDragon.Ruliad

open Rust List RuliadGoalCertificate RuliadProofCertificate

/-! ## Grouping -/

/-- The blocks are the steps grouped by goal. -/
structure Grouped (steps : List (ℕ × RuliadProofStep)) (blocks : List RuliadGoalCertificate) :
    Prop where
  goals : blocks.map (·.goal) = (steps.map Prod.fst).eraseDups
  steps : ∀ block ∈ blocks, block.steps =
    (steps.filter fun entry => entry.1 = block.goal).map Prod.snd

/-- The blocks with steps pushed one after the other. -/
def pushSteps (blocks : List RuliadGoalCertificate) (steps : List (ℕ × RuliadProofStep)) :
    List RuliadGoalCertificate :=
  steps.foldl (fun blocks (goal, step) => pushStep goal step blocks) blocks

variable {blocks : List RuliadGoalCertificate} {entries : List (ℕ × RuliadProofStep)}

section Grouping

variable {goal : ℕ} {step : RuliadProofStep} {steps : List RuliadProofStep}

@[simp] theorem pushSteps_nil : pushSteps blocks [] = blocks := rfl

@[simp] theorem pushSteps_cons (entry : ℕ × RuliadProofStep) :
    pushSteps blocks (entry :: entries) = pushSteps (pushStep entry.1 entry.2 blocks) entries :=
  rfl

theorem pushSteps_append {entries' : List (ℕ × RuliadProofStep)} :
    pushSteps blocks (entries ++ entries') = pushSteps (pushSteps blocks entries) entries' :=
  foldl_append ..

theorem map_goal_pushStep : (pushStep goal step blocks).map (·.goal) =
    if goal ∈ blocks.map (·.goal) then blocks.map (·.goal) else blocks.map (·.goal) ++ [goal] := by
  induction blocks with
  | nil => rfl
  | cons block blocks ih =>
    rw [pushStep]
    by_cases hgoal : block.goal = goal
    · simp [hgoal]
    · rw [if_neg hgoal, map_cons, ih, map_cons]
      simp only [mem_cons, Ne.symm hgoal, false_or]
      split_ifs <;> rfl

/-- A block after pushing a step: another goal's block as before, the goal's block with the step, or
a new block. -/
theorem mem_pushStep (hnodup : (blocks.map (·.goal)).Nodup) {block : RuliadGoalCertificate}
    (h : block ∈ pushStep goal step blocks) :
    (block.goal ≠ goal ∧ block ∈ blocks) ∨ (block.goal = goal ∧
      ((∃ before ∈ blocks, before.goal = goal ∧ block.steps = before.steps ++ [step]) ∨
        goal ∉ blocks.map (·.goal) ∧ block.steps = [step])) := by
  induction blocks with
  | nil =>
    obtain rfl := mem_singleton.1 h
    exact .inr ⟨rfl, .inr ⟨by simp, rfl⟩⟩
  | cons first blocks ih =>
    obtain ⟨hfirst, hnodup⟩ := nodup_cons.1 hnodup
    rw [pushStep] at h
    by_cases hgoal : first.goal = goal
    · rw [if_pos hgoal] at h
      rcases mem_cons.1 h with rfl | h
      · exact .inr ⟨hgoal, .inl ⟨first, by simp, hgoal, rfl⟩⟩
      · refine .inl ⟨fun heq => hfirst ?_, by simp [h]⟩
        exact mem_map.2 ⟨block, h, heq.trans hgoal.symm⟩
    · rw [if_neg hgoal] at h
      rcases mem_cons.1 h with rfl | h
      · exact .inl ⟨hgoal, by simp⟩
      · rcases ih hnodup h with ⟨hne, hmem⟩ | ⟨heq, ⟨before, hmem, hbefore⟩ | ⟨hmem, hsteps⟩⟩
        · exact .inl ⟨hne, by simp [hmem]⟩
        · exact .inr ⟨heq, .inl ⟨before, by simp [hmem], hbefore⟩⟩
        · refine .inr ⟨heq, .inr ⟨?_, hsteps⟩⟩
          rw [map_cons, mem_cons, not_or]
          exact ⟨Ne.symm hgoal, hmem⟩

theorem eraseDups_singleton {α : Type*} [DecidableEq α] (x : α) : [x].eraseDups = [x] := by
  simp [eraseDups_cons]

theorem nodup_eraseDups {α : Type*} [DecidableEq α] (xs : List α) : xs.eraseDups.Nodup := by
  induction xs using List.reverseRecOn with
  | nil => exact nodup_nil
  | append_singleton xs x ih =>
    rw [eraseDups_append]
    by_cases hx : x ∈ xs
    · simpa [List.removeAll, hx] using ih
    · refine nodup_append.2 ⟨ih, by simp [List.removeAll, hx, eraseDups_singleton], ?_⟩
      simpa [List.removeAll, hx, eraseDups_singleton] using fun y hy => ne_of_mem_of_not_mem hy hx

theorem Grouped.nodup (h : Grouped entries blocks) : (blocks.map (·.goal)).Nodup :=
  h.goals ▸ nodup_eraseDups _

theorem Grouped.mem_goals (h : Grouped entries blocks) :
    goal ∈ blocks.map (·.goal) ↔ goal ∈ entries.map Prod.fst := by
  rw [h.goals, mem_eraseDups]

/-- A block has a step. -/
theorem Grouped.steps_ne_nil (h : Grouped entries blocks) {block : RuliadGoalCertificate}
    (hblock : block ∈ blocks) : block.steps ≠ [] := by
  obtain ⟨entry, hentry, hgoal⟩ := mem_map.1 (h.mem_goals.1 (mem_map_of_mem hblock))
  rw [h.steps block hblock]
  refine ne_nil_of_mem (mem_map_of_mem (mem_filter.2 ⟨hentry, ?_⟩))
  simpa using hgoal

/-- Pushing a step keeps the blocks grouped. -/
theorem Grouped.pushStep (h : Grouped entries blocks) (goal : ℕ) (step : RuliadProofStep) :
    Grouped (entries ++ [(goal, step)]) (pushStep goal step blocks) := by
  refine ⟨?_, fun block hblock => ?_⟩
  · rw [map_goal_pushStep, map_append, eraseDups_append, h.goals]
    simp only [mem_eraseDups, map_cons, map_nil]
    by_cases hgoal : goal ∈ entries.map Prod.fst
    · simp [List.removeAll, hgoal]
    · simp [List.removeAll, hgoal, eraseDups_singleton]
  · rw [filter_append, map_append]
    rcases mem_pushStep h.nodup hblock with
      ⟨hne, hmem⟩ | ⟨rfl, ⟨before, hmem, hgoal, hsteps⟩ | ⟨hmem, hsteps⟩⟩
    · rw [h.steps block hmem]
      simp [Ne.symm hne]
    · rw [hsteps, h.steps before hmem, hgoal]
      simp
    · have hnone : entries.filter (fun entry => entry.1 = block.goal) = [] := by
        refine filter_eq_nil_iff.2 fun entry hentry => ?_
        have hgoal : entry.1 ∈ blocks.map (·.goal) := h.mem_goals.2 (mem_map_of_mem hentry)
        simpa using ne_of_mem_of_not_mem hgoal hmem
      rw [hsteps, hnone]
      simp

theorem grouped_pushSteps (entries : List (ℕ × RuliadProofStep)) :
    Grouped entries (pushSteps [] entries) := by
  induction entries using List.reverseRecOn with
  | nil => exact ⟨rfl, by simp⟩
  | append_singleton entries entry ih =>
    rw [pushSteps_append]
    exact ih.pushStep entry.1 entry.2

section

variable (h : goal ∉ blocks.map (·.goal))
include h

theorem pushStep_of_not_mem :
    pushStep goal step blocks = blocks ++ [⟨goal, [step]⟩] := by
  induction blocks with
  | nil => rfl
  | cons block blocks ih =>
    obtain ⟨hne, h⟩ : goal ≠ block.goal ∧ goal ∉ blocks.map (·.goal) := by simpa using h
    rw [pushStep, if_neg (Ne.symm hne), ih h, cons_append]

theorem pushStep_concat :
    pushStep goal step (blocks ++ [⟨goal, steps⟩]) = blocks ++ [⟨goal, steps ++ [step]⟩] := by
  induction blocks with
  | nil => simp [pushStep]
  | cons block blocks ih =>
    obtain ⟨hne, h⟩ : goal ≠ block.goal ∧ goal ∉ blocks.map (·.goal) := by simpa using h
    rw [cons_append, pushStep, if_neg (Ne.symm hne), ih h, cons_append]

/-- The steps of one goal make one block. -/
theorem foldl_pushStep (hne : steps ≠ []) :
    steps.foldl (fun blocks step => pushStep goal step blocks) blocks = blocks ++ [⟨goal, steps⟩] := by
  have hrest : ∀ (rest done : List RuliadProofStep),
      rest.foldl (fun blocks step => pushStep goal step blocks) (blocks ++ [⟨goal, done⟩]) =
        blocks ++ [⟨goal, done ++ rest⟩] := by
    intro rest
    induction rest with
    | nil => simp
    | cons step rest ih =>
      intro done
      rw [foldl_cons, pushStep_concat h, ih, append_assoc, singleton_append]
  cases steps with
  | nil => exact absurd rfl hne
  | cons step rest =>
    rw [foldl_cons, pushStep_of_not_mem h, hrest, singleton_append]

theorem pushSteps_flatSteps (hne : steps ≠ []) :
    pushSteps blocks (RuliadGoalCertificate.flatSteps ⟨goal, steps⟩) = blocks ++ [⟨goal, steps⟩] := by
  rw [pushSteps, RuliadGoalCertificate.flatSteps, foldl_map]
  exact foldl_pushStep h hne

end

/-- Grouping the steps of blocks for distinct goals gives back the blocks that have steps. -/
theorem pushSteps_flatGoals {goals : List RuliadGoalCertificate}
    (hnodup : ((blocks ++ goals).map (·.goal)).Nodup) :
    pushSteps blocks (flatGoals goals) =
      blocks ++ goals.filter (·.steps ≠ []) := by
  induction goals generalizing blocks with
  | nil => simp
  | cons first goals ih =>
    rw [flatGoals_cons, pushSteps_append]
    by_cases hsteps : first.steps = []
    · have hflat : first.flatSteps = [] := by simp [RuliadGoalCertificate.flatSteps, hsteps]
      rw [hflat, pushSteps_nil, ih, filter_cons_of_neg (by simp [hsteps])]
      rw [map_append, map_cons] at hnodup
      rw [map_append]
      exact hnodup.sublist (List.Sublist.append_left (sublist_cons_self _ _) _)
    · have hfresh : first.goal ∉ blocks.map (·.goal) := by
        rw [map_append, map_cons, nodup_append] at hnodup
        exact fun hmem => hnodup.2.2 _ hmem _ (by simp) rfl
      have hnodup' : (((blocks ++ [first]) ++ goals).map (·.goal)).Nodup := by
        rwa [append_assoc, singleton_append]
      rw [pushSteps_flatSteps hfresh hsteps, ih hnodup', filter_cons_of_pos (by simp [hsteps]),
        append_assoc, singleton_append]

end Grouping

/-! ## The longest prefix of lines -/

/-- The steps of the longest prefix of lines that decode. -/
def parsedLines : List (List Char) → List (ℕ × RuliadProofStep)
  | [] => []
  | line :: lines =>
    match decodeModelCertificateStep line with
    | some entry => entry :: parsedLines lines
    | none => []

/-- The entries are what the first lines decode to, and the next line, if any, does not decode. -/
structure ParsedPrefix (lines : List (List Char)) (entries : List (ℕ × RuliadProofStep)) : Prop where
  length_le : entries.length ≤ lines.length
  decoded : (lines.take entries.length).map decodeModelCertificateStep = entries.map some
  maximal : ∀ line, lines[entries.length]? = some line → decodeModelCertificateStep line = none

section Lines

variable {lines : List (List Char)}

theorem parsedPrefix_parsedLines (lines : List (List Char)) :
    ParsedPrefix lines (parsedLines lines) := by
  induction lines with
  | nil => exact ⟨le_rfl, rfl, by simp [parsedLines]⟩
  | cons line lines ih =>
    rw [parsedLines]
    cases hline : decodeModelCertificateStep line with
    | none => exact ⟨by simp, by simp, by simp [hline]⟩
    | some entry =>
      refine ⟨by simpa using ih.length_le, ?_, fun next hnext => ih.maximal next hnext⟩
      simp [hline, ih.decoded]

/-- An empty line is no step, so the parser's own test for it changes nothing. -/
theorem decodeModelCertificateStep_nil : decodeModelCertificateStep [] = none := rfl

/-- The parser groups the steps of the longest prefix and counts them. -/
theorem decodeLines_eq {parsedSteps : ℕ} (hparsed : parsedSteps ≤ usizeMax) :
    decodeLines blocks parsedSteps lines = (pushSteps blocks (parsedLines lines),
      saturatingAdd parsedSteps (parsedLines lines).length,
      decide ((parsedLines lines).length = lines.length)) := by
  induction lines generalizing blocks parsedSteps with
  | nil => simp [decodeLines, parsedLines, saturatingAdd_zero hparsed]
  | cons line lines ih =>
    have hempty : (if line = [] then none else decodeModelCertificateStep line) =
        decodeModelCertificateStep line := by
      split_ifs with h
      · rw [h, decodeModelCertificateStep_nil]
      · rfl
    rw [decodeLines, hempty, parsedLines]
    cases decodeModelCertificateStep line with
    | none => simp [saturatingAdd_zero hparsed]
    | some entry =>
      simp only
      rw [ih (saturatingAdd_le_usizeMax _ _), saturatingAdd_assoc]
      simp [Nat.add_comm 1]

/-- The lines of steps are read back, and the parser goes on behind them. -/
theorem parsedLines_encode (h : ∀ entry ∈ entries, SeparatedStep entry.1 entry.2) :
    parsedLines (entries.map (fun entry => (encodeModelProofStep entry.1 entry.2).toList) ++ lines) =
      entries ++ parsedLines lines := by
  induction entries with
  | nil => rfl
  | cons entry entries ih =>
    rw [map_cons, cons_append, parsedLines, decodeModelCertificateStep_encode (h entry (by simp))]
    simp only [cons_append, List.cons.injEq, true_and]
    exact ih fun entry hentry => h entry (by simp [hentry])

end Lines

/-! ## Certificates -/

/-- The steps of the certificate can be written as lines, and no goal has two blocks. -/
structure Encodable (certificate : RuliadProofCertificate) : Prop where
  separated : ∀ block ∈ certificate.goals, ∀ step ∈ block.steps, SeparatedStep block.goal step
  nodup : (certificate.goals.map (·.goal)).Nodup

/-- The certificate without its empty blocks. -/
def RuliadProofCertificate.withoutEmptyBlocks (certificate : RuliadProofCertificate) :
    RuliadProofCertificate :=
  { certificate with goals := certificate.goals.filter (·.steps ≠ []) }

section Certificates

variable {certificate : RuliadProofCertificate} {version : ℕ} {hash : String}

/-- The text of a certificate. -/
def certificateText (certificate : RuliadProofCertificate) : String :=
  String.intercalate ";" (certificateLines certificate)

theorem certificateLines_eq (certificate : RuliadProofCertificate) :
    certificateLines certificate =
      certificate.flatSteps.map fun entry => encodeModelProofStep entry.1 entry.2 := by
  simp [certificateLines, RuliadProofCertificate.flatSteps, RuliadProofCertificate.flatGoals,
    RuliadGoalCertificate.flatSteps, map_flatMap, Function.comp_def]

theorem Encodable.separated_flatSteps (h : Encodable certificate) :
    ∀ entry ∈ certificate.flatSteps, SeparatedStep entry.1 entry.2 := by
  intro entry hentry
  obtain ⟨block, hblock, hentry⟩ := mem_flatMap.1 hentry
  obtain ⟨step, hstep, rfl⟩ := mem_map.1 hentry
  exact h.separated block hblock step hstep

/-- A text decodes to the steps of its longest prefix of lines. -/
theorem decodeModelCertificatePrefix_eq (payload : List Char) (version : ℕ) (hash : String) :
    decodeModelCertificatePrefix payload version hash =
      .ok ⟨⟨version, hash, pushSteps [] (parsedLines (payload.splitOn ';'))⟩,
        saturatingAdd 0 (parsedLines (payload.splitOn ';')).length,
        decide ((parsedLines (payload.splitOn ';')).length = (payload.splitOn ';').length)⟩ := by
  rw [decodeModelCertificatePrefix, decodeLines_eq (Nat.zero_le _)]

/-- The lines of a certificate's first steps are read back in front of a tail. -/
theorem parsedLines_certificate (h : Encodable certificate) (k : ℕ) (tail : String) :
    parsedLines ((String.intercalate ";" ((certificateLines certificate).take k ++ [tail])).toList.splitOn
      ';') = certificate.flatSteps.take k ++ parsedLines (tail.toList.splitOn ';') := by
  have hseparated : ∀ entry ∈ certificate.flatSteps.take k, SeparatedStep entry.1 entry.2 :=
    fun entry hentry => h.separated_flatSteps entry (mem_of_mem_take hentry)
  rw [splitOn_intercalate_concat rfl, certificateLines_eq, ← map_take, map_map]
  · exact parsedLines_encode hseparated
  · intro line hline
    rw [certificateLines_eq, ← map_take] at hline
    obtain ⟨entry, hentry, rfl⟩ := mem_map.1 hline
    exact (hseparated entry hentry).semicolon_not_mem

/-- The text of a certificate with steps splits into its lines. -/
theorem parsedLines_certificateText (h : Encodable certificate) (hsteps : certificate.stepCount ≠ 0) :
    (certificateText certificate).toList.splitOn ';' = (certificateLines certificate).map
        String.toList ∧
      parsedLines ((certificateText certificate).toList.splitOn ';') = certificate.flatSteps := by
  have hne : certificateLines certificate ≠ [] := by
    rw [certificateLines_eq]
    rw [stepCount_eq] at hsteps
    simpa using hsteps
  have hsplit : (certificateText certificate).toList.splitOn ';' =
      (certificateLines certificate).map String.toList := by
    refine splitOn_intercalate rfl hne fun line hline => ?_
    rw [certificateLines_eq] at hline
    obtain ⟨entry, hentry, rfl⟩ := mem_map.1 hline
    exact (h.separated_flatSteps entry hentry).semicolon_not_mem
  refine ⟨hsplit, ?_⟩
  have hparsed := @parsedLines_encode _ [] h.separated_flatSteps
  rw [hsplit, certificateLines_eq, map_map]
  simpa [parsedLines, Function.comp_def] using hparsed

theorem decodeModelCertificate_eq_ok_iff {payload : List Char} :
    decodeModelCertificate payload version hash = .ok certificate ↔
      (parsedLines (payload.splitOn ';')).length = (payload.splitOn ';').length ∧
        ⟨version, hash, pushSteps [] (parsedLines (payload.splitOn ';'))⟩ = certificate := by
  rw [decodeModelCertificate, decodeModelCertificatePrefix_eq]
  by_cases hlength : (parsedLines (payload.splitOn ';')).length = (payload.splitOn ';').length <;>
    simp [hlength, bind, Except.bind, pure, Except.pure, throw, throwThe, MonadExceptOf.throw]

/-- Grouping the steps of an encodable certificate drops its empty blocks. -/
theorem Encodable.pushSteps_flatSteps (h : Encodable certificate) :
    pushSteps [] certificate.flatSteps = certificate.goals.filter (·.steps ≠ []) := by
  simpa [RuliadProofCertificate.flatSteps] using
    @pushSteps_flatGoals [] certificate.goals (by simpa using h.nodup)

/-- What the decoder accepts can be encoded again, and it has steps and no empty block. -/
theorem encodable_of_decode {payload : List Char}
    (h : decodeModelCertificate payload version hash = .ok certificate) :
    Encodable certificate ∧ certificate.stepCount ≠ 0 ∧
      ∀ block ∈ certificate.goals, block.steps ≠ [] := by
  obtain ⟨hlength, rfl⟩ := decodeModelCertificate_eq_ok_iff.1 h
  have hgrouped := grouped_pushSteps (parsedLines (payload.splitOn ';'))
  have hparsed := parsedPrefix_parsedLines (payload.splitOn ';')
  have hseparated : ∀ entry ∈ parsedLines (payload.splitOn ';'), SeparatedStep entry.1 entry.2 := by
    intro entry hentry
    have hmem : some entry ∈ (parsedLines (payload.splitOn ';')).map some :=
      mem_map_of_mem hentry
    rw [← hparsed.decoded] at hmem
    obtain ⟨line, hline, hdecode⟩ := mem_map.1 hmem
    exact separatedStep_of_decode
      (not_mem_of_mem_splitOn (mem_of_mem_take hline)).1 hdecode
  refine ⟨⟨fun block hblock step hstep => ?_, hgrouped.nodup⟩, ?_, fun block hblock =>
    hgrouped.steps_ne_nil hblock⟩
  · rw [hgrouped.steps block hblock] at hstep
    obtain ⟨entry, hentry, rfl⟩ := mem_map.1 hstep
    obtain ⟨hentry, hgoal⟩ := mem_filter.1 hentry
    have hgoal : entry.1 = block.goal := by simpa using hgoal
    exact hgoal ▸ hseparated entry hentry
  · -- a text has at least one line, so there is a step and a block for its goal
    obtain ⟨entry, hentry⟩ := exists_mem_of_ne_nil (parsedLines (payload.splitOn ';')) fun hnil => by
      rw [hnil, length_nil] at hlength
      exact splitOn_ne_nil _ _ (length_eq_zero_iff.1 hlength.symm)
    obtain ⟨block, hblock, -⟩ := mem_map.1 (hgrouped.mem_goals.2 (mem_map_of_mem hentry))
    intro hzero
    have hsum := List.sum_eq_zero_iff_forall_eq_nat.1 hzero _ (List.mem_map_of_mem hblock)
    exact hgrouped.steps_ne_nil hblock (length_eq_zero_iff.1 hsum)

/-- A certificate with steps and without empty blocks is read back. -/
theorem decodeModelCertificate_certificateText (h : Encodable certificate)
    (hsteps : certificate.stepCount ≠ 0) (hblocks : ∀ block ∈ certificate.goals, block.steps ≠ []) :
    decodeModelCertificate (certificateText certificate).toList certificate.version
      certificate.problemHash = .ok certificate := by
  obtain ⟨hsplit, hparsed⟩ := parsedLines_certificateText h hsteps
  rw [decodeModelCertificate_eq_ok_iff, hparsed, hsplit, h.pushSteps_flatSteps, certificateLines_eq]
  refine ⟨by simp, ?_⟩
  rw [filter_eq_self.2 fun block hblock => by simpa using hblocks block hblock]

/-- **The text round trip**: an encodable certificate with steps and without empty blocks is read
back; and whatever the decoder accepts, encoding the certificate and decoding it again gives the same
certificate. -/
theorem decodeModelCertificate_encode :
    (∀ certificate : RuliadProofCertificate, Encodable certificate → certificate.stepCount ≠ 0 →
      (∀ block ∈ certificate.goals, block.steps ≠ []) →
      ∃ text, encodeModelCertificate certificate = .ok text ∧
        decodeModelCertificate text.toList certificate.version certificate.problemHash =
          .ok certificate) ∧
    ∀ (payload : List Char) (version : ℕ) (hash : String) (certificate : RuliadProofCertificate),
      decodeModelCertificate payload version hash = .ok certificate →
      ∃ text, encodeModelCertificate certificate = .ok text ∧
        decodeModelCertificate text.toList version hash = .ok certificate := by
  refine ⟨fun certificate h hsteps hblocks => ?_, fun payload version hash certificate h => ?_⟩
  · exact ⟨_, rfl, decodeModelCertificate_certificateText h hsteps hblocks⟩
  · obtain ⟨hencodable, hsteps, hblocks⟩ := encodable_of_decode h
    obtain ⟨-, rfl⟩ := decodeModelCertificate_eq_ok_iff.1 h
    exact ⟨_, rfl, decodeModelCertificate_certificateText hencodable hsteps hblocks⟩

theorem encodable_unitCertificate : Encodable unitCertificate :=
  (encodable_of_decode (show decodeModelCertificate "g0|a:left_identity|f|-;g1|l:0|r|0".toList
    ruliadIrVersion unitDigest = .ok unitCertificate by rfl)).1

theorem decodeModelCertificate_encode_unitCertificate :
    ∃ text, encodeModelCertificate unitCertificate = .ok text ∧
      decodeModelCertificate text.toList unitCertificate.version unitCertificate.problemHash =
        .ok unitCertificate :=
  decodeModelCertificate_encode.1 unitCertificate encodable_unitCertificate (by decide) (by decide)

/-! ## Prefixes -/

/-- The text does not begin with the line of a step. -/
def Malformed (tail : String) : Prop :=
  (tail.toList.splitOn ';').head?.bind decodeModelCertificateStep = none

instance : DecidablePred Malformed := fun _ => inferInstanceAs (Decidable (_ = _))

theorem Malformed.parsedLines_eq {tail : String} (h : Malformed tail) :
    parsedLines (tail.toList.splitOn ';') = [] := by
  unfold Malformed at h
  cases hsplit : tail.toList.splitOn ';' with
  | nil => rfl
  | cons line lines =>
    rw [hsplit, head?_cons, Option.bind_some] at h
    rw [parsedLines, h]

/-- The lines of the first steps of a certificate in front of a malformed tail: the parser keeps these
steps and reports that the text is not complete. -/
theorem decodeModelCertificatePrefix_take (h : Encodable certificate) {k : ℕ}
    (hk : k ≤ certificate.stepCount) (hmax : k ≤ usizeMax) {tail : String} (htail : Malformed tail)
    (version : ℕ) (hash : String) :
    decodeModelCertificatePrefix
        (String.intercalate ";" ((certificateLines certificate).take k ++ [tail])).toList version hash =
      .ok ⟨⟨version, hash, pushSteps [] (certificate.flatSteps.take k)⟩, k, false⟩ := by
  have hcount := certificate.stepCount_eq ▸ hk
  have hlines : (certificateLines certificate).length = certificate.flatSteps.length := by
    rw [certificateLines_eq, length_map]
  have hlength : ((String.intercalate ";" ((certificateLines certificate).take k ++
      [tail])).toList.splitOn ';').length ≠ k := by
    have hpos := length_pos_iff.2 (splitOn_ne_nil ';' tail.toList)
    rw [splitOn_intercalate_concat rfl]
    · simp only [length_append, length_map, length_take]
      omega
    · intro line hline
      rw [certificateLines_eq] at hline
      obtain ⟨entry, hentry, rfl⟩ := mem_map.1 (mem_of_mem_take hline)
      exact (h.separated_flatSteps entry hentry).semicolon_not_mem
  rw [decodeModelCertificatePrefix_eq, parsedLines_certificate h, htail.parsedLines_eq,
    append_nil, length_take_of_le hcount, decide_eq_false (Ne.symm hlength),
    saturatingAdd_of_le (by omega), Nat.zero_add]

/-- **Prefix decoding is maximal and stable**: of any text it keeps the steps of the longest prefix of
lines that decode, grouped by goal; and the lines of a certificate's first `k` steps in front of a
malformed tail decode to the certificate's prefix before step `k`, or to the certificate when there is
no such step, without empty blocks. -/
theorem decodeModelCertificatePrefix_maximal :
    (∀ (payload : List Char) (version : ℕ) (hash : String), ∃ entries blocks,
      ParsedPrefix (payload.splitOn ';') entries ∧ Grouped entries blocks ∧
      decodeModelCertificatePrefix payload version hash = .ok ⟨⟨version, hash, blocks⟩,
        saturatingAdd 0 entries.length,
        decide (entries.length = (payload.splitOn ';').length)⟩) ∧
    ∀ certificate : RuliadProofCertificate, Encodable certificate →
      ∀ (k : ℕ) (tail : String), k ≤ usizeMax → Malformed tail →
      (∀ before, certificate.prefixBefore k = some before →
        decodeModelCertificatePrefix
          (String.intercalate ";" ((certificateLines certificate).take k ++ [tail])).toList
          certificate.version certificate.problemHash =
          .ok ⟨before.withoutEmptyBlocks, k, false⟩) ∧
      (k = certificate.stepCount →
        decodeModelCertificatePrefix
          (String.intercalate ";" (certificateLines certificate ++ [tail])).toList
          certificate.version certificate.problemHash =
          .ok ⟨certificate.withoutEmptyBlocks, k, false⟩) := by
  refine ⟨fun payload version hash => ?_, fun certificate h k tail hmax htail =>
    ⟨fun before hbefore => ?_, fun hk => ?_⟩⟩
  · exact ⟨_, _, parsedPrefix_parsedLines _, grouped_pushSteps _,
      decodeModelCertificatePrefix_eq payload version hash⟩
  · obtain ⟨goals, hgoals, rfl⟩ := Option.map_eq_some_iff.1 hbefore
    have hflat := RuliadProofCertificate.prefixBeforeGoals_eq certificate.goals k
    rw [hgoals, Option.map_some] at hflat
    split_ifs at hflat with hk
    have hnodup : (goals.map (·.goal)).Nodup :=
      h.nodup.sublist (RuliadProofCertificate.prefixBeforeGoals_prefix hgoals).sublist
    rw [decodeModelCertificatePrefix_take h (certificate.stepCount_eq ▸ hk.le) hmax htail,
      RuliadProofCertificate.flatSteps, ← Option.some.inj hflat,
      pushSteps_flatGoals (by simpa using hnodup)]
    rfl
  · have htake : (certificateLines certificate).take k = certificateLines certificate := by
      refine List.take_of_length_le ?_
      rw [hk, certificateLines_eq, List.length_map, certificate.stepCount_eq]
    have hflat : certificate.flatSteps.take k = certificate.flatSteps :=
      List.take_of_length_le (by rw [hk, certificate.stepCount_eq])
    have hdecode := decodeModelCertificatePrefix_take h hk.le hmax htail certificate.version
      certificate.problemHash
    rw [htake, hflat, h.pushSteps_flatSteps] at hdecode
    exact hdecode

theorem decodeModelCertificatePrefix_maximal_unitCertificate :
    decodeModelCertificatePrefix
      (String.intercalate ";" ((certificateLines unitCertificate).take 1 ++ ["g1|l:0|"])).toList
      unitCertificate.version unitCertificate.problemHash =
      .ok ⟨⟨ruliadIrVersion, unitDigest, [⟨0, [⟨.axiom_ "left_identity", [], .forward⟩]⟩]⟩, 1,
        false⟩ :=
  (decodeModelCertificatePrefix_maximal.2 unitCertificate encodable_unitCertificate 1 "g1|l:0|"
    (by decide) (by decide)).1 _ rfl

end Certificates

end BurnDragon.Ruliad
