import BurnDragon.Ruliad.Validation

/-!
# The text of a certificate

The compact text of `wire.rs` in which a model writes a proof. A step is one line of four fields, the
lines of all goals are joined by semicolons, and the parser collects the longest prefix of lines that
it can read.

The text has no line for a goal without steps. `decodeModelCertificatePrefix_encode` is the round
trip: the parser gives back the goals that have steps.
-/

namespace BurnDragon.Ruliad

open Rust List RuliadProofSource Option

/-! ## Encoding -/

def RuliadRewriteDirection.text : RuliadRewriteDirection → String
  | forward => "f"
  | reverse => "r"

/-- The text of a step's source. -/
def RuliadProofSource.text : RuliadProofSource → String
  | axiom_ id => "a:" ++ id
  | lemma_ goal => "l:" ++ decimal goal

/-- The text of a path. -/
def pathText (path : List ℕ) : String :=
  if path = [] then "-" else String.intercalate "." (path.map decimal)

/-- `encode_model_proof_step`. -/
def encodeModelProofStep (goal : ℕ) (step : RuliadProofStep) : String :=
  String.intercalate "|"
    ["g" ++ decimal goal, step.source.text, step.direction.text, pathText step.path]

/-- The lines of a certificate. -/
def certificateLines (certificate : RuliadProofCertificate) : List String :=
  certificate.goals.flatMap fun goal => goal.steps.map (encodeModelProofStep goal.goal)

/-- `encode_model_certificate`. -/
def encodeModelCertificate (certificate : RuliadProofCertificate) : Except String String :=
  .ok (String.intercalate ";" (certificateLines certificate))

/-! ## Decoding -/

def decodeSource (source : List Char) : Option RuliadProofSource :=
  match stripPrefix "a:".toList source with
  | some id => some (.axiom_ (String.ofList id))
  | none => do
    let goal ← stripPrefix "l:".toList source
    return .lemma_ (← parseUsize goal)

def decodeDirection (direction : List Char) : Option RuliadRewriteDirection :=
  if direction = ['f'] then some .forward else if direction = ['r'] then some .reverse else none

def decodePath (path : List Char) : Option (List ℕ) :=
  if path = ['-'] then some [] else (path.splitOn '.').mapM parseUsize

/-- `decode_model_certificate_step`. -/
def decodeModelCertificateStep (line : List Char) : Option (ℕ × RuliadProofStep) :=
  match line.splitOn '|' with
  | [goal, source, direction, path] => do
    let goal ← parseUsize (← stripPrefix ['g'] goal)
    let source ← decodeSource source
    let direction ← decodeDirection direction
    let path ← decodePath path
    return (goal, { source, path, direction })
  | _ => none

/-- `decode_model_proof_step`. -/
def decodeModelProofStep (payload : String) : Option (ℕ × RuliadProofStep) :=
  let payload := trim payload.toList
  if payload ≠ [] ∧ ';' ∉ payload then decodeModelCertificateStep payload else none

/-- Add a step to the block of its goal, or in a new block at the end. -/
def pushStep (goal : ℕ) (step : RuliadProofStep) :
    List RuliadGoalCertificate → List RuliadGoalCertificate
  | [] => [⟨goal, [step]⟩]
  | block :: blocks =>
    if block.goal = goal then { block with steps := block.steps ++ [step] } :: blocks
    else block :: pushStep goal step blocks

structure RuliadModelCertificatePrefix where
  certificate : RuliadProofCertificate
  parsedSteps : ℕ
  syntaxComplete : Bool
  deriving DecidableEq

/-- The loop of `decode_model_certificate_prefix`: the blocks, the number of steps and whether all
lines were read. -/
def decodeLines (goals : List RuliadGoalCertificate) (parsedSteps : ℕ) :
    List (List Char) → List RuliadGoalCertificate × ℕ × Bool
  | [] => (goals, parsedSteps, true)
  | line :: lines =>
    match if line = [] then none else decodeModelCertificateStep line with
    | none => (goals, parsedSteps, false)
    | some (goal, step) => decodeLines (pushStep goal step goals) (saturatingAdd parsedSteps 1) lines

/-- `decode_model_certificate_prefix`. -/
def decodeModelCertificatePrefix (payload : List Char) (problemVersion : ℕ)
    (problemHash : String) : Except String RuliadModelCertificatePrefix :=
  let (goals, parsedSteps, syntaxComplete) := decodeLines [] 0 (payload.splitOn ';')
  .ok ⟨⟨problemVersion, problemHash, goals⟩, parsedSteps, syntaxComplete⟩

/-- `decode_model_certificate`. -/
def decodeModelCertificate (payload : List Char) (problemVersion : ℕ) (problemHash : String) :
    Except String RuliadProofCertificate := do
  let parsed ← decodeModelCertificatePrefix payload problemVersion problemHash
  if parsed.syntaxComplete then return parsed.certificate
  else throw "incomplete model-facing ruliad certificate"

/-! ## Steps -/

/-- The numbers of a step are machine integers, and the id of its axiom has no separator. -/
structure SeparatedStep (goal : ℕ) (step : RuliadProofStep) : Prop where
  goal_le : goal ≤ usizeMax
  axiom_id : ∀ id, step.source = .axiom_ id → '|' ∉ id.toList ∧ ';' ∉ id.toList
  lemma_le : ∀ goal, step.source = .lemma_ goal → goal ≤ usizeMax
  path_le : ∀ i ∈ step.path, i ≤ usizeMax

/-- A step with a proper identifier for its axiom. -/
structure TextStep (goal : ℕ) (step : RuliadProofStep) : Prop where
  goal_le : goal ≤ usizeMax
  axiom_id : ∀ id, step.source = .axiom_ id → validIdentifier id
  lemma_le : ∀ goal, step.source = .lemma_ goal → goal ≤ usizeMax
  path_le : ∀ i ∈ step.path, i ≤ usizeMax

/-- The characters that encoding adds to the id of an axiom. -/
def FieldChar (c : Char) : Prop := IdentifierChar c ∨ c = ':'

theorem FieldChar.ne_separator {c : Char} (h : FieldChar c) : c ≠ '|' ∧ c ≠ ';' := by
  constructor <;> rintro rfl <;> revert h <;> unfold FieldChar <;> decide

theorem IdentifierChar.of_isDigit {c : Char} (h : c.isDigit) : IdentifierChar c :=
  .inl (by simp [Char.isAlphanum, h])

section Steps

variable {goal : ℕ} {step : RuliadProofStep} {c : Char}

theorem fieldChar_of_mem_pathText {path : List ℕ} (hc : c ∈ (pathText path).toList) :
    FieldChar c := by
  unfold pathText at hc
  split at hc
  · obtain rfl : c = '-' := by simpa using hc
    exact .inl (by decide)
  · rcases mem_intercalate rfl hc with rfl | ⟨part, hpart, hc⟩
    · exact .inl (by decide)
    · obtain ⟨i, -, rfl⟩ := mem_map.1 hpart
      exact .inl (.of_isDigit (isDigit_of_mem_decimal hc))

theorem mem_sourceText {source : RuliadProofSource} (hc : c ∈ source.text.toList) :
    FieldChar c ∨ ∃ id, source = .axiom_ id ∧ c ∈ id.toList := by
  cases source with
  | axiom_ id =>
    rw [text, String.toList_append, mem_append] at hc
    rcases hc with hc | hc
    · obtain rfl | rfl : c = 'a' ∨ c = ':' := by simpa using hc
      · exact .inl (.inl (by decide))
      · exact .inl (.inr rfl)
    · exact .inr ⟨id, rfl, hc⟩
  | lemma_ i =>
    rw [text, String.toList_append, mem_append] at hc
    rcases hc with hc | hc
    · obtain rfl | rfl : c = 'l' ∨ c = ':' := by simpa using hc
      · exact .inl (.inl (by decide))
      · exact .inl (.inr rfl)
    · exact .inl (.inl (.of_isDigit (isDigit_of_mem_decimal hc)))

/-- The four fields of a step. -/
def stepFields (goal : ℕ) (step : RuliadProofStep) : List String :=
  ["g" ++ decimal goal, step.source.text, step.direction.text, pathText step.path]

/-- The characters of a field. -/
theorem mem_stepFields : ∀ field ∈ stepFields goal step, ∀ c ∈ field.toList,
    FieldChar c ∨ ∃ id, step.source = .axiom_ id ∧ c ∈ id.toList := by
  simp only [stepFields, forall_mem_cons, not_mem_nil, false_implies, implies_true,
    and_true]
  refine ⟨fun c hc => ?_, fun c hc => mem_sourceText hc, fun c hc => ?_,
    fun c hc => .inl (fieldChar_of_mem_pathText hc)⟩
  · rw [String.toList_append, mem_append] at hc
    rcases hc with hc | hc
    · obtain rfl : c = 'g' := by simpa using hc
      exact .inl (.inl (by decide))
    · exact .inl (.inl (.of_isDigit (isDigit_of_mem_decimal hc)))
  · cases hdirection : step.direction <;> rw [hdirection] at hc <;>
      simp [RuliadRewriteDirection.text] at hc <;> subst hc <;> exact .inl (.inl (by decide))

/-- No field has a separator. -/
theorem SeparatedStep.not_mem_field (hstep : SeparatedStep goal step) {field : String}
    (hfield : field ∈ stepFields goal step) : '|' ∉ field.toList ∧ ';' ∉ field.toList := by
  constructor
  · intro hmem
    rcases mem_stepFields field hfield _ hmem with h | ⟨id, hid, h⟩
    · exact h.ne_separator.1 rfl
    · exact (hstep.axiom_id id hid).1 h
  · intro hmem
    rcases mem_stepFields field hfield _ hmem with h | ⟨id, hid, h⟩
    · exact h.ne_separator.2 rfl
    · exact (hstep.axiom_id id hid).2 h

theorem decodePath_pathText {path : List ℕ} (hpath : ∀ i ∈ path, i ≤ usizeMax) :
    decodePath (pathText path).toList = some path := by
  unfold pathText
  split
  · rename_i h
    subst h
    rfl
  · rename_i hne
    have hsplit : (String.intercalate "." (path.map decimal)).toList.splitOn '.' =
        path.map fun i => (decimal i).toList := by
      refine (splitOn_intercalate rfl (by simpa using hne) fun part hpart => ?_).trans (by simp)
      obtain ⟨i, -, rfl⟩ := mem_map.1 hpart
      exact not_mem_decimal (by decide)
    have hdash : (String.intercalate "." (path.map decimal)).toList ≠ ['-'] := by
      intro h
      rcases mem_intercalate (c := '-') rfl (h ▸ mem_singleton_self _) with hdot | hmem
      · exact absurd hdot (by decide)
      · obtain ⟨part, hpart, hmem⟩ := hmem
        obtain ⟨i, -, rfl⟩ := mem_map.1 hpart
        exact not_mem_decimal (by decide) hmem
    rw [decodePath, if_neg hdash, hsplit, mapM_map]
    have hparse : ∀ i ∈ path, parseUsize (decimal i).toList = some i := fun i hi =>
      parseUsize_decimal (hpath i hi)
    clear hne hsplit hdash hpath
    induction path with
    | nil => rfl
    | cons i path ih =>
      rw [mapM_cons]
      simp [hparse i (by simp), ih fun j hj => hparse j (by simp [hj])]

theorem decodeSource_text (hstep : SeparatedStep goal step) :
    decodeSource step.source.text.toList = some step.source := by
  cases hsource : step.source with
  | axiom_ id => simp [text, decodeSource, String.toList_append]
  | lemma_ i =>
    simp [text, decodeSource, String.toList_append,
      parseUsize_decimal (hstep.lemma_le i hsource)]

/-- **One line**: decoding inverts encoding. -/
theorem decodeModelCertificateStep_encode (hstep : SeparatedStep goal step) :
    decodeModelCertificateStep (encodeModelProofStep goal step).toList = some (goal, step) := by
  have hsplit : (encodeModelProofStep goal step).toList.splitOn '|' =
      (stepFields goal step).map String.toList :=
    splitOn_intercalate rfl (by simp) fun field hfield => (hstep.not_mem_field hfield).1
  have hdirection : decodeDirection step.direction.text.toList = some step.direction := by
    cases step.direction <;> decide
  rw [decodeModelCertificateStep, hsplit, stepFields]
  simp [String.toList_append, parseUsize_decimal hstep.goal_le, decodeSource_text hstep, hdirection,
    decodePath_pathText hstep.path_le]

/-- A line has no semicolon. -/
theorem SeparatedStep.semicolon_not_mem (hstep : SeparatedStep goal step) :
    ';' ∉ (encodeModelProofStep goal step).toList := by
  intro hmem
  rcases mem_intercalate rfl hmem with h | ⟨field, hfield, h⟩
  · exact absurd h (by decide)
  · exact (hstep.not_mem_field hfield).2 h

/-! ### What a line decodes to -/

theorem parseUsize_le {digits : List Char} {n : ℕ} (h : parseUsize digits = some n) :
    n ≤ usizeMax := by
  simp only [parseUsize, ite_none_right_eq_some, some.injEq] at h
  obtain ⟨⟨-, -, hle⟩, rfl⟩ := h
  exact hle

theorem decodePath_le {path : List Char} {indices : List ℕ} (h : decodePath path = some indices) :
    ∀ i ∈ indices, i ≤ usizeMax := by
  unfold decodePath at h
  split at h
  · obtain rfl := some.inj h
    simp
  · generalize path.splitOn '.' = parts at h
    induction parts generalizing indices with
    | nil =>
      obtain rfl : [] = indices := by simpa using h
      simp
    | cons part parts ih =>
      simp only [mapM_cons, Option.bind_eq_bind, Option.bind_eq_some_iff, Option.pure_def,
        Option.some.injEq] at h
      obtain ⟨i, hi, rest, hrest, rfl⟩ := h
      exact forall_mem_cons.2 ⟨parseUsize_le hi, ih hrest⟩

/-- The characters of an axiom's id stand in the source field. -/
theorem mem_of_decodeSource {source : List Char} {id : String}
    (h : decodeSource source = some (.axiom_ id)) (hc : c ∈ id.toList) : c ∈ source := by
  unfold decodeSource at h
  cases hnamed : stripPrefix "a:".toList source with
  | some rest =>
    rw [hnamed] at h
    simp only [some.injEq, axiom_.injEq] at h
    subst h
    rw [String.toList_ofList] at hc
    unfold stripPrefix at hnamed
    split at hnamed
    · obtain rfl := some.inj hnamed
      exact mem_of_mem_drop hc
    · simp at hnamed
  | none =>
    rw [hnamed] at h
    simp [bind_eq_some_iff] at h

theorem lemma_le_of_decodeSource {source : List Char}
    (h : decodeSource source = some (.lemma_ goal)) : goal ≤ usizeMax := by
  unfold decodeSource at h
  cases hnamed : stripPrefix "a:".toList source with
  | some rest =>
    rw [hnamed] at h
    simp at h
  | none =>
    rw [hnamed] at h
    simp only [Option.bind_eq_bind, Option.bind_eq_some_iff, Option.pure_def,
      Option.some.injEq, RuliadProofSource.lemma_.injEq] at h
    obtain ⟨digits, -, n, hn, rfl⟩ := h
    exact parseUsize_le hn

/-- A line without semicolons decodes to a step that can be encoded. -/
theorem separatedStep_of_decode {line : List Char} (hline : ';' ∉ line)
    (h : decodeModelCertificateStep line = some (goal, step)) : SeparatedStep goal step := by
  unfold decodeModelCertificateStep at h
  split at h
  · rename_i goalField sourceField directionField pathField hsplit
    simp only [Option.bind_eq_bind, Option.bind_eq_some_iff, Option.pure_def, Option.some.injEq,
      Prod.mk.injEq] at h
    obtain ⟨digits, -, n, hn, source, hsource, direction, -, path, hpath, rfl, rfl⟩ := h
    have hfield : sourceField ∈ line.splitOn '|' := by simp [hsplit]
    refine ⟨parseUsize_le hn, ?_, ?_, decodePath_le hpath⟩
    · rintro id rfl
      have hsub : ∀ c ∈ id.toList, c ∈ sourceField := fun c hc => mem_of_decodeSource hsource hc
      obtain ⟨hbar, hfield⟩ := not_mem_of_mem_splitOn hfield
      exact ⟨fun hmem => hbar (hsub _ hmem), fun hmem => hline (hfield (hsub _ hmem))⟩
    · rintro lemmaGoal rfl
      exact lemma_le_of_decodeSource hsource
  · simp at h

end Steps

end BurnDragon.Ruliad
