import BurnDragon.Bundle.Execution

/-!
# Resumed bundles

`Once` collects the artifacts of one execution that starts with no files. A call keeps the invariant
that every completed stage file holds its artifact of that execution (`Recorded`), if the stages read
the artifacts of earlier stages only, or if every call that finds a completed stage resumes. The
result of a call that covers all stages is then the result of the one execution
(`executeBundle_eq_once`).
-/

namespace BurnDragon.Bundle

open Rust List Option

variable {Payload Stage Artifact : Type*} {bundle : Bundle Stage}
  {format : StateFormat Payload Artifact} {ideal call : Call Stage Artifact} {files : Files Payload}

/-! ## One execution -/

/-- The artifacts collected before the stage at an index. -/
inductive Once (bundle : Bundle Stage) (ideal : Call Stage Artifact) :
    ℕ → BTreeMap String Artifact → Prop
  | start : Once bundle ideal 0 .empty
  | stage {index : ℕ} {artifacts : BTreeMap String Artifact} {stage : Stage} {artifact : Artifact} :
    Once bundle ideal index artifacts → bundle.stages[index]? = some stage →
      ideal.validateStage stage artifacts = .ok () →
      ideal.runStage index stage (bundle.stageDir index stage) artifacts = .ok artifact →
      Once bundle ideal (index + 1) (artifacts.insert (bundle.stageName stage) artifact)

/-- The artifact of the stage at an index. -/
def OnceArtifact (bundle : Bundle Stage) (ideal : Call Stage Artifact) (index : ℕ)
    (artifact : Artifact) : Prop :=
  ∃ artifacts stage, Once bundle ideal index artifacts ∧ bundle.stages[index]? = some stage ∧
    ideal.validateStage stage artifacts = .ok () ∧
    ideal.runStage index stage (bundle.stageDir index stage) artifacts = .ok artifact

variable {m : BTreeMap String Artifact}

theorem Once.unique {index : ℕ} {m' : BTreeMap String Artifact} (h : Once bundle ideal index m)
    (h' : Once bundle ideal index m') : m = m' := by
  induction h generalizing m' with
  | start => cases h'; rfl
  | stage _ hstage _ hrun ih =>
    cases h' with
    | stage hm' hstage' _ hrun' =>
      obtain rfl := ih hm'
      obtain rfl := some.inj (hstage.symm.trans hstage')
      rw [Except.ok.inj (hrun.symm.trans hrun')]

variable {a : Artifact}

theorem OnceArtifact.unique {index : ℕ} {b : Artifact} (h : OnceArtifact bundle ideal index a)
    (h' : OnceArtifact bundle ideal index b) : a = b := by
  obtain ⟨m, stage, hm, hstage, -, hrun⟩ := h
  obtain ⟨m', stage', hm', hstage', -, hrun'⟩ := h'
  obtain rfl := hm.unique hm'
  obtain rfl := some.inj (hstage.symm.trans hstage')
  exact Except.ok.inj (hrun.symm.trans hrun')

/-- What the bundles of a configuration are checked for. -/
structure Distinct (bundle : Bundle Stage) : Prop where
  names : (bundle.stages.map bundle.stageName).Nodup
  dirs : (bundle.stages.mapIdx bundle.stageDir).Nodup

variable {i j : ℕ} {s t : Stage}

theorem Distinct.index_eq_of_name (h : Distinct bundle) (hs : bundle.stages[i]? = some s)
    (ht : bundle.stages[j]? = some t) (heq : bundle.stageName s = bundle.stageName t) : i = j :=
  (List.getElem?_inj (by simpa using (List.getElem?_eq_some_iff.1 hs).1) h.names).1 (by simp [hs, ht, heq])

theorem Distinct.index_eq_of_dir (h : Distinct bundle) (hs : bundle.stages[i]? = some s)
    (ht : bundle.stages[j]? = some t) (heq : bundle.stageDir i s = bundle.stageDir j t) : i = j :=
  (List.getElem?_inj (by simpa using (List.getElem?_eq_some_iff.1 hs).1) h.dirs).1 (by simp [hs, ht, heq])

/-- The map of `Once` holds the artifacts of the earlier stages. -/
theorem Once.get?_eq_some_iff (hdistinct : Distinct bundle) {index : ℕ}
    (h : Once bundle ideal index m) {key : String} :
    m.get? key = some a ↔ ∃ i < index, ∃ stage, bundle.stages[i]? = some stage ∧
      bundle.stageName stage = key ∧ OnceArtifact bundle ideal i a := by
  induction h generalizing a with
  | start => simp
  | @stage index m stage artifact hm hstage hvalidate hrun ih =>
    have hartifact : OnceArtifact bundle ideal index artifact :=
      ⟨m, stage, hm, hstage, hvalidate, hrun⟩
    rw [BTreeMap.get?_insert]
    split_ifs with hkey
    · subst hkey
      constructor
      · rintro ⟨rfl⟩
        exact ⟨index, Nat.lt_succ_self _, stage, hstage, rfl, hartifact⟩
      · rintro ⟨i, -, stage', hstage', hname, ha⟩
        obtain rfl := hdistinct.index_eq_of_name hstage' hstage hname
        rw [ha.unique hartifact]
    · rw [ih]
      constructor
      · rintro ⟨i, hi, rest⟩
        exact ⟨i, hi.trans (Nat.lt_succ_self _), rest⟩
      · rintro ⟨i, hi, stage', hstage', hname, ha⟩
        refine ⟨i, (Nat.lt_succ_iff_lt_or_eq.1 hi).resolve_right ?_, stage', hstage', hname, ha⟩
        rintro rfl
        obtain rfl := some.inj (hstage.symm.trans hstage')
        exact hkey hname.symm

theorem OnceArtifact.once_succ (h : OnceArtifact bundle ideal i a) :
    ∃ m, Once bundle ideal (i + 1) m :=
  let ⟨_, _, hm, hstage, hvalidate, hrun⟩ := h
  ⟨_, hm.stage hstage hvalidate hrun⟩

/-! ## Stage files -/

theorem stageStatePath_ne_bundleStatePath (dir root : Path) :
    stageStatePath dir ≠ bundleStatePath root := by
  intro h
  have := (append_inj' h rfl).2
  simp at this

theorem stageStatePath_inj {dir dir' : Path} : stageStatePath dir = stageStatePath dir' ↔ dir = dir' :=
  append_left_inj _

@[simp] theorem loadStageState_writeBundleState (dir root : Path) (state : BundleState Artifact) :
    loadStageState format (writeBundleState format files root state) dir =
      loadStageState format files dir := by
  rw [loadStageState, writeBundleState, Files.write,
    Function.update_of_ne (stageStatePath_ne_bundleStatePath dir root), loadStageState]

theorem loadStageState_writeStageState (dir dir' : Path) (state : StageState Artifact) :
    loadStageState format (writeStageState format files dir' state) dir =
      if dir = dir' then .ok (some state) else loadStageState format files dir := by
  rw [loadStageState, writeStageState, Files.write, Function.update_apply, loadStageState]
  simp only [stageStatePath_inj]
  split_ifs with h
  · simp only [format.decode_encode]
    rfl
  · rfl

/-- The stage at an index has a completed state with the artifact. -/
def Completed (bundle : Bundle Stage) (format : StateFormat Payload Artifact) (files : Files Payload)
    (index : ℕ) (artifact : Artifact) : Prop :=
  ∃ stage state, bundle.stages[index]? = some stage ∧
    loadStageState format files (bundle.stageDir index stage) = .ok (some state) ∧
    state.status = .completed ∧ state.artifact = artifact

/-- A state of the stage at an index, whose artifact is the one of `Once` if it is completed. -/
structure RecordedState (bundle : Bundle Stage) (ideal : Call Stage Artifact) (index : ℕ) (stage : Stage)
    (state : StageState Artifact) : Prop where
  stageName : state.stageName = bundle.stageName stage
  artifact : state.status = .completed → OnceArtifact bundle ideal index state.artifact

/-- Every stage file can be read and holds such a state. -/
def Recorded (bundle : Bundle Stage) (format : StateFormat Payload Artifact)
    (ideal : Call Stage Artifact) (files : Files Payload) : Prop :=
  ∀ i stage, bundle.stages[i]? = some stage →
    ∃ state?, loadStageState format files (bundle.stageDir i stage) = .ok state? ∧
      ∀ state ∈ state?, RecordedState bundle ideal i stage state

/-- The completed stages are the first `k`. -/
def FirstCompleted (bundle : Bundle Stage) (format : StateFormat Payload Artifact)
    (files : Files Payload) (k : ℕ) : Prop :=
  ∀ i, (∃ a, Completed bundle format files i a) ↔ i < k

variable {index k : ℕ} {stage : Stage} {state : StageState Artifact}

theorem Recorded.completed (h : Recorded bundle format ideal files)
    (ha : Completed bundle format files i a) : OnceArtifact bundle ideal i a := by
  obtain ⟨stage, state, hstage, hload, hstatus, rfl⟩ := ha
  obtain ⟨state?, hload', hstate⟩ := h i stage hstage
  obtain rfl := Except.ok.inj (hload.symm.trans hload')
  exact (hstate state rfl).artifact hstatus

theorem Recorded.writeStageState (h : Recorded bundle format ideal files) (hdistinct : Distinct bundle)
    (hstage : bundle.stages[index]? = some stage) (hstate : RecordedState bundle ideal index stage state) :
    Recorded bundle format ideal (writeStageState format files (bundle.stageDir index stage) state) := by
  intro i stage' hstage'
  rw [loadStageState_writeStageState]
  split_ifs with hdir
  · obtain rfl := hdistinct.index_eq_of_dir hstage' hstage hdir
    obtain rfl := some.inj (hstage.symm.trans hstage')
    exact ⟨_, rfl, by rintro _ ⟨⟩; exact hstate⟩
  · exact h i stage' hstage'

theorem Recorded.writeBundleState (h : Recorded bundle format ideal files) (root : Path)
    (state : BundleState Artifact) :
    Recorded bundle format ideal (writeBundleState format files root state) := by
  intro i stage hstage
  rw [loadStageState_writeBundleState]
  exact h i stage hstage

theorem exists_completed_writeStageState (hdistinct : Distinct bundle)
    (hstage : bundle.stages[index]? = some stage) :
    (∃ a, Completed bundle format
        (writeStageState format files (bundle.stageDir index stage) state) i a) ↔
      if i = index then state.status = .completed else ∃ a, Completed bundle format files i a := by
  simp only [Completed, loadStageState_writeStageState]
  split_ifs with hi
  · subst hi
    constructor
    · rintro ⟨a, stage', state', hstage', hload, hstatus, -⟩
      obtain rfl := some.inj (hstage.symm.trans hstage')
      rw [if_pos rfl] at hload
      obtain rfl := some.inj (Except.ok.inj hload)
      exact hstatus
    · exact fun hstatus => ⟨_, stage, state, hstage, if_pos rfl, hstatus, rfl⟩
  · have hdir : ∀ stage', bundle.stages[i]? = some stage' →
        bundle.stageDir i stage' ≠ bundle.stageDir index stage :=
      fun stage' hstage' heq => hi (hdistinct.index_eq_of_dir hstage' hstage heq)
    constructor
    · rintro ⟨a, stage', state', hstage', hload, rest⟩
      rw [if_neg (hdir _ hstage')] at hload
      exact ⟨a, stage', state', hstage', hload, rest⟩
    · rintro ⟨a, stage', state', hstage', hload, rest⟩
      exact ⟨a, stage', state', hstage', by rwa [if_neg (hdir _ hstage')], rest⟩

@[simp] theorem completed_writeBundleState {root : Path} {state : BundleState Artifact} :
    Completed bundle format (writeBundleState format files root state) i a ↔
      Completed bundle format files i a := by
  simp only [Completed, loadStageState_writeBundleState]

/-- Writing the state of the next stage. -/
theorem FirstCompleted.writeStageState (h : FirstCompleted bundle format files index)
    (hdistinct : Distinct bundle) (hstage : bundle.stages[index]? = some stage) :
    FirstCompleted bundle format (writeStageState format files (bundle.stageDir index stage) state)
      (if state.status = .completed then index + 1 else index) := by
  intro i
  rw [exists_completed_writeStageState hdistinct hstage]
  split_ifs with hi hstatus hstatus
  · simp [hi, hstatus]
  · simp [hi, hstatus]
  · rw [h i]; omega
  · rw [h i]

theorem FirstCompleted.writeBundleState (h : FirstCompleted bundle format files k) (root : Path)
    (state : BundleState Artifact) :
    FirstCompleted bundle format (writeBundleState format files root state) k := by
  intro i
  simp only [completed_writeBundleState]
  exact h i

/-- The artifacts of the first `k` stages are collected. -/
theorem FirstCompleted.once (h : FirstCompleted bundle format files k)
    (hrecorded : Recorded bundle format ideal files) : ∃ m, Once bundle ideal k m := by
  cases k with
  | zero => exact ⟨_, .start⟩
  | succ k =>
    obtain ⟨a, ha⟩ := (h k).2 (Nat.lt_succ_self k)
    exact (hrecorded.completed ha).once_succ

/-! ## The artifacts a call starts with -/

/-- What the preloading of some stages adds to the artifacts. -/
theorem foldlM_insertCompleted (h : Recorded bundle format ideal files) (l : List (Stage × ℕ))
    (hl : ∀ p ∈ l, bundle.stages[p.2]? = some p.1) (acc : BTreeMap String Artifact) :
    ∃ deps, l.foldlM (insertCompleted bundle format files) acc = .ok deps ∧
      (∀ key a, deps.get? key = some a → acc.get? key = some a ∨
        ∃ p ∈ l, bundle.stageName p.1 = key ∧ Completed bundle format files p.2 a) ∧
      (∀ key, (acc.get? key).isSome → (deps.get? key).isSome) ∧
      ∀ p ∈ l, (∃ a, Completed bundle format files p.2 a) →
        (deps.get? (bundle.stageName p.1)).isSome := by
  induction l generalizing acc with
  | nil => exact ⟨acc, rfl, fun _ _ => .inl, fun _ => id, by simp⟩
  | cons p l ih =>
    have hp := hl p mem_cons_self
    obtain ⟨state?, hload, -⟩ := h p.2 p.1 hp
    -- The pass over the first stage: it inserts the artifact of a completed state.
    obtain ⟨acc', hpass, hsound, hkeeps, hadds⟩ : ∃ acc',
        insertCompleted bundle format files acc p = .ok acc' ∧
        (∀ key a, acc'.get? key = some a → acc.get? key = some a ∨
          bundle.stageName p.1 = key ∧ Completed bundle format files p.2 a) ∧
        (∀ key, (acc.get? key).isSome → (acc'.get? key).isSome) ∧
        ((∃ a, Completed bundle format files p.2 a) →
          (acc'.get? (bundle.stageName p.1)).isSome) := by
      by_cases hcompleted : ∃ state, state? = some state ∧ state.status = .completed
      · obtain ⟨state, rfl, hstatus⟩ := hcompleted
        refine ⟨acc.insert (bundle.stageName p.1) state.artifact, ?_, fun key a ha => ?_,
          fun key hkey => ?_, fun _ => by simp⟩
        · simp only [insertCompleted, hload, if_pos hstatus]
        · rw [BTreeMap.get?_insert] at ha
          split_ifs at ha with hkey
          · exact .inr ⟨hkey.symm, p.1, state, hp, hload, hstatus, some.inj ha⟩
          · exact .inl ha
        · rw [BTreeMap.get?_insert]
          split_ifs
          · rfl
          · exact hkey
      · refine ⟨acc, ?_, fun _ _ => .inl, fun _ => id, ?_⟩
        · cases state? with
          | none => simp only [insertCompleted, hload]
          | some state =>
            simp only [insertCompleted, hload]
            exact if_neg fun hstatus => hcompleted ⟨state, rfl, hstatus⟩
        · rintro ⟨a, stage, state, hstage, hload', hstatus, -⟩
          obtain rfl := some.inj (hp.symm.trans hstage)
          exact absurd ⟨state, Except.ok.inj (hload.symm.trans hload'), hstatus⟩ hcompleted
    obtain ⟨deps, hrest, hsound', hkeeps', hadds'⟩ :=
      ih (fun q hq => hl q (mem_cons_of_mem p hq)) acc'
    refine ⟨deps, ?_, fun key a ha => ?_, fun key hkey => hkeeps' key (hkeeps key hkey),
      fun q hq hcompleted => ?_⟩
    · rw [foldlM_cons, hpass]
      exact hrest
    · rcases hsound' key a ha with hacc | ⟨q, hq, hkey, hcompleted⟩
      · exact (hsound key a hacc).imp_right fun hmem => ⟨p, mem_cons_self, hmem⟩
      · exact .inr ⟨q, mem_cons_of_mem p hq, hkey, hcompleted⟩
    · rcases mem_cons.1 hq with rfl | hq
      · exact hkeeps' _ (hadds hcompleted)
      · exact hadds' q hq hcompleted

theorem mem_zipIdx_stages (p : Stage × ℕ) :
    p ∈ bundle.stages.zipIdx ↔ bundle.stages[p.2]? = some p.1 := mem_zipIdx_iff_getElem?

/-- The preloading succeeds. If the first `k` stages are completed it loads their artifacts. -/
theorem resolveCompletedStageArtifacts_eq (h : Recorded bundle format ideal files)
    (hdistinct : Distinct bundle) :
    ∃ deps, resolveCompletedStageArtifacts bundle format files = .ok deps ∧
      ∀ k, FirstCompleted bundle format files k → Once bundle ideal k deps := by
  obtain ⟨deps, hdeps, hsound, -, hadds⟩ := foldlM_insertCompleted h bundle.stages.zipIdx
    (fun p hp => (mem_zipIdx_stages p).1 hp) .empty
  refine ⟨deps, hdeps, fun k hk => ?_⟩
  obtain ⟨m, hm⟩ := hk.once h
  suffices deps = m from this ▸ hm
  refine BTreeMap.ext_get? fun key => ext fun a => ?_
  rw [hm.get?_eq_some_iff hdistinct]
  constructor
  · intro ha
    obtain hempty | ⟨⟨stage, i⟩, hmem, hkey, hcompleted⟩ := hsound key a ha
    · cases hempty
    · exact ⟨i, (hk i).1 ⟨a, hcompleted⟩, stage, (mem_zipIdx_stages _).1 hmem, hkey,
        h.completed hcompleted⟩
  · rintro ⟨i, hi, stage, hstage, rfl, ha⟩
    obtain ⟨b, hb⟩ := isSome_iff_exists.1
      (hadds (stage, i) ((mem_zipIdx_stages _).2 hstage) ((hk i).2 hi))
    obtain hempty | ⟨⟨stage', i'⟩, hmem, hkey, hcompleted⟩ := hsound _ b hb
    · cases hempty
    · obtain rfl := hdistinct.index_eq_of_name ((mem_zipIdx_stages _).1 hmem) hstage hkey
      rw [hb, ha.unique (h.completed hcompleted)]

/-! ## The stage loop -/

/-- Stages whose validation and run read the artifacts of earlier stages only. -/
def ReadsEarlier (bundle : Bundle Stage) (ideal : Call Stage Artifact) : Prop :=
  ∀ index stage, bundle.stages[index]? = some stage → ∀ m m' : BTreeMap String Artifact,
    (∀ i < index, ∀ earlier, bundle.stages[i]? = some earlier →
      m.get? (bundle.stageName earlier) = m'.get? (bundle.stageName earlier)) →
    ideal.validateStage stage m = ideal.validateStage stage m' ∧
      ideal.runStage index stage (bundle.stageDir index stage) m =
        ideal.runStage index stage (bundle.stageDir index stage) m'

/-- A call whose stages may fail, and otherwise do what the stages of `ideal` do. -/
structure Follows (call ideal : Call Stage Artifact) : Prop where
  validate : ∀ stage m, call.validateStage stage m = .ok () → ideal.validateStage stage m = .ok ()
  run : ∀ index stage dir m artifact, call.runStage index stage dir m = .ok artifact →
    ideal.runStage index stage dir m = .ok artifact

/-- The variables of the loop before the stage at `index`. If `exact` holds then the call started with
the first `k` stages completed, and the artifacts are exactly those of `Once`. -/
structure Progress (bundle : Bundle Stage) (format : StateFormat Payload Artifact)
    (ideal : Call Stage Artifact) (exact : Prop) (k index : ℕ) (s : Execution Payload Artifact) :
    Prop where
  recorded : Recorded bundle format ideal s.files
  earlier : ∃ m, Once bundle ideal index m ∧
    ∀ i < index, ∀ earlier, bundle.stages[i]? = some earlier →
      s.dependencyArtifacts.get? (bundle.stageName earlier) = m.get? (bundle.stageName earlier)
  exactly : exact → Once bundle ideal (max index k) s.dependencyArtifacts ∧
    FirstCompleted bundle format s.files (max index k)
  length : s.stageStates.length = index
  results : ∀ i stage state, bundle.stages[i]? = some stage → s.stageStates[i]? = some state →
    state.status = .completed ∧ RecordedState bundle ideal i stage state

variable {exact : Prop} {s : Execution Payload Artifact}

/-- A completed stage is added. -/
theorem Progress.succ (h : Progress bundle format ideal exact k index s)
    (hstage : bundle.stages[index]? = some stage) (hstatus : state.status = .completed)
    (hstate : RecordedState bundle ideal index stage state) {files' : Files Payload}
    (hfiles : Recorded bundle format ideal files')
    (hexact : exact → Once bundle ideal (max (index + 1) k)
        (s.dependencyArtifacts.insert (bundle.stageName stage) state.artifact) ∧
      FirstCompleted bundle format files' (max (index + 1) k)) :
    Progress bundle format ideal exact k (index + 1)
      ⟨files', s.dependencyArtifacts.insert (bundle.stageName stage) state.artifact,
        s.stageStates ++ [state]⟩ := by
  refine ⟨hfiles, ?_, hexact, by simp [h.length], fun i stage' state' hstage' hstate' => ?_⟩
  · obtain ⟨m, hm, hearlier⟩ := h.earlier
    obtain ⟨m', stage', hm', hstage', hvalidate, hrun⟩ := hstate.artifact hstatus
    obtain rfl := hm.unique hm'
    obtain rfl := some.inj (hstage.symm.trans hstage')
    refine ⟨_, hm.stage hstage hvalidate hrun, fun i hi earlier hearlier' => ?_⟩
    simp only [BTreeMap.get?_insert]
    split_ifs with hname
    · rfl
    · refine hearlier i ((Nat.lt_succ_iff_lt_or_eq.1 hi).resolve_right ?_) earlier hearlier'
      rintro rfl
      obtain rfl := some.inj (hstage.symm.trans hearlier')
      exact hname rfl
  · rw [getElem?_append, h.length] at hstate'
    split_ifs at hstate' with hi
    · exact h.results i stage' state' hstage' hstate'
    · rw [getElem?_singleton] at hstate'
      split_ifs at hstate' with hzero
      obtain rfl : i = index := by omega
      obtain rfl := some.inj hstate'
      obtain rfl := some.inj (hstage.symm.trans hstage')
      exact ⟨hstatus, hstate⟩

/-- What a pass leaves. -/
def PassKeeps (bundle : Bundle Stage) (format : StateFormat Payload Artifact)
    (ideal : Call Stage Artifact) (exact : Prop) (k index : ℕ) : StagePass Payload Artifact → Prop
  | .next s | .stop s => Progress bundle format ideal exact k (index + 1) s
  | .fail files _ => Recorded bundle format ideal files ∧
      (exact → ∃ k, FirstCompleted bundle format files k)

theorem passKeeps_after {options : BundleExecutionOptions} {name : String} :
    PassKeeps bundle format ideal exact k index (.after options name s) ↔
      Progress bundle format ideal exact k (index + 1) s := by
  rw [StagePass.after]
  split_ifs <;> rfl

/-- A stage that runs sees what it sees in `Once`. -/
theorem Progress.sees (h : Progress bundle format ideal exact k index s)
    (hstage : bundle.stages[index]? = some stage) (hreads : ReadsEarlier bundle ideal ∨ exact)
    (hk : exact → k ≤ index) :
    ∃ m, Once bundle ideal index m ∧
      ideal.validateStage stage s.dependencyArtifacts = ideal.validateStage stage m ∧
      ideal.runStage index stage (bundle.stageDir index stage) s.dependencyArtifacts =
        ideal.runStage index stage (bundle.stageDir index stage) m := by
  rcases hreads with hreads | hexact
  · obtain ⟨m, hm, hearlier⟩ := h.earlier
    exact ⟨m, hm, hreads index stage hstage _ _ hearlier⟩
  · have honce := (h.exactly hexact).1
    rw [max_eq_left (hk hexact)] at honce
    exact ⟨_, honce, rfl, rfl⟩

variable [Inhabited Artifact]

section

variable (h : Progress bundle format ideal exact k index s) (hdistinct : Distinct bundle)
  (hstage : bundle.stages[index]? = some stage) (hfollows : Follows call ideal)
  (hreads : ReadsEarlier bundle ideal ∨ exact)
include h hdistinct hstage hfollows hreads

theorem Progress.runPass (hk : exact → k ≤ index)
    (hvalidate : call.validateStage stage s.dependencyArtifacts = .ok ()) :
    PassKeeps bundle format ideal exact k index (runPass bundle format call index stage s) := by
  have hrunning : Recorded bundle format ideal (writeStageState format s.files
      (bundle.stageDir index stage) ⟨bundle.stageName stage, .running, some (call.startedAt index),
        none, none, default⟩) :=
    h.recorded.writeStageState hdistinct hstage ⟨rfl, nofun⟩
  have hfirst : exact → FirstCompleted bundle format (writeStageState format s.files
      (bundle.stageDir index stage) ⟨bundle.stageName stage, .running, some (call.startedAt index),
        none, none, default⟩) index := fun hexact => by
    have hfirst := (h.exactly hexact).2
    rw [max_eq_left (hk hexact)] at hfirst
    exact hfirst.writeStageState hdistinct hstage
  unfold Bundle.runPass
  cases hrun : call.runStage index stage (bundle.stageDir index stage) s.dependencyArtifacts with
  | error e =>
    simp only [hrun]
    exact ⟨(hrunning.writeStageState hdistinct hstage ⟨rfl, by nofun⟩).writeBundleState _ _,
      fun hexact => ⟨index, ((hfirst hexact).writeStageState hdistinct hstage).writeBundleState _ _⟩⟩
  | ok artifact =>
    simp only [hrun, passKeeps_after]
    obtain ⟨m, hm, hvalidate', hrun'⟩ := h.sees hstage hreads hk
    have hartifact : OnceArtifact bundle ideal index artifact :=
      ⟨m, stage, hm, hstage, hvalidate' ▸ hfollows.validate _ _ hvalidate,
        hrun' ▸ hfollows.run _ _ _ _ _ hrun⟩
    have hstate : RecordedState bundle ideal index stage ⟨bundle.stageName stage, .completed,
        some (call.startedAt index), some (call.completedAt index), none, artifact⟩ :=
      ⟨rfl, fun _ => hartifact⟩
    refine h.succ hstage rfl hstate
      ((hrunning.writeStageState hdistinct hstage hstate).writeBundleState _ _) fun hexact => ?_
    rw [max_eq_left ((hk hexact).trans (Nat.le_succ index))]
    have honce := (h.exactly hexact).1
    rw [max_eq_left (hk hexact)] at honce
    exact ⟨honce.stage hstage (hfollows.validate _ _ hvalidate) (hfollows.run _ _ _ _ _ hrun),
      ((hfirst hexact).writeStageState hdistinct hstage).writeBundleState _ _⟩

/-- **The pass of a stage.** -/
theorem Progress.stagePass
    (hresume : exact → call.options.resumeFromLastCompletedStage = true ∨ k = 0) :
    PassKeeps bundle format ideal exact k index (stagePass bundle format call index stage s) := by
  obtain ⟨state?, hload, hstate⟩ := h.recorded index stage hstage
  have hcompleted : ∀ state, state? = some state → state.status = .completed →
      Completed bundle format s.files index state.artifact :=
    fun state hsome hstatus => ⟨stage, state, hstage, hsome ▸ hload, hstatus, rfl⟩
  simp only [Bundle.stagePass, hload]
  cases hfilter : state?.filter fun state =>
      call.options.resumeFromLastCompletedStage && state.status = .completed with
  | some state =>
    -- A completed stage is skipped.
    obtain ⟨hsome, hskip⟩ := filter_eq_some_iff.1 hfilter
    have hstatus : state.status = .completed := by simpa using (Bool.and_eq_true_iff.1 hskip).2
    simp only [passKeeps_after]
    refine h.succ hstage hstatus (hstate state hsome) h.recorded fun hexact => ?_
    obtain ⟨honce, hfirst⟩ := h.exactly hexact
    have hlt : index < max index k := (hfirst index).1 ⟨_, hcompleted state hsome hstatus⟩
    have hmax : max (index + 1) k = max index k := by omega
    have hget : s.dependencyArtifacts.get? (bundle.stageName stage) = some state.artifact :=
      (honce.get?_eq_some_iff hdistinct).2
        ⟨index, hlt, stage, hstage, rfl, (hstate state hsome).artifact hstatus⟩
    rw [hmax, BTreeMap.insert_of_get? hget]
    exact ⟨honce, hfirst⟩
  | none =>
    have hk : exact → k ≤ index := fun hexact => by
      rcases hresume hexact with hresume | rfl
      · by_contra hlt
        obtain ⟨a, stage', state, hstage', hload', hstatus, -⟩ :=
          ((h.exactly hexact).2 index).2 (by omega)
        obtain rfl := some.inj (hstage.symm.trans hstage')
        obtain rfl := Except.ok.inj (hload.symm.trans hload')
        simp [filter, hresume, hstatus] at hfilter
      · exact Nat.zero_le _
    cases hvalidate : call.validateStage stage s.dependencyArtifacts with
    | error e => exact ⟨h.recorded, fun hexact => ⟨_, (h.exactly hexact).2⟩⟩
    | ok _ => exact h.runPass hdistinct hstage hfollows hreads hk hvalidate

end

/-! ## Calls -/

/-- The files of a bundle root between two calls. -/
def Resumable (bundle : Bundle Stage) (format : StateFormat Payload Artifact)
    (ideal : Call Stage Artifact) (exact : Prop) (files : Files Payload) : Prop :=
  Recorded bundle format ideal files ∧ (exact → ∃ k, FirstCompleted bundle format files k)

theorem Progress.resumable (h : Progress bundle format ideal exact k index s) :
    Resumable bundle format ideal exact s.files :=
  ⟨h.recorded, fun hexact => ⟨_, (h.exactly hexact).2⟩⟩

/-- What the stage loop leaves. -/
def LoopKeeps (bundle : Bundle Stage) (format : StateFormat Payload Artifact)
    (ideal : Call Stage Artifact) (exact : Prop) (k : ℕ) :
    Files Payload × Except String (List (StageState Artifact)) → Prop
  | (files, .error _) => Resumable bundle format ideal exact files
  | (files, .ok stageStates) =>
    ∃ index deps, Progress bundle format ideal exact k index ⟨files, deps, stageStates⟩

theorem Progress.stageLoop {rest : List Stage} (hrest : bundle.stages.drop index = rest)
    (h : Progress bundle format ideal exact k index s) (hdistinct : Distinct bundle)
    (hfollows : Follows call ideal) (hreads : ReadsEarlier bundle ideal ∨ exact)
    (hresume : exact → call.options.resumeFromLastCompletedStage = true ∨ k = 0) :
    LoopKeeps bundle format ideal exact k (stageLoop bundle format call index rest s) := by
  induction rest generalizing index s with
  | nil => exact ⟨index, s.dependencyArtifacts, h⟩
  | cons stage rest ih =>
    have hstage : bundle.stages[index]? = some stage := by
      rw [← head?_drop, hrest, head?_cons]
    have hpass := h.stagePass hdistinct hstage hfollows hreads hresume
    rw [Bundle.stageLoop]
    cases hresult : Bundle.stagePass bundle format call index stage s with
    | next t =>
      rw [hresult] at hpass
      exact ih (by rw [← tail_drop, hrest, tail_cons]) hpass
    | stop t =>
      rw [hresult] at hpass
      exact ⟨index + 1, t.dependencyArtifacts, hpass⟩
    | fail files e =>
      rw [hresult] at hpass
      exact hpass

/-- The loop starts with the preloaded artifacts. -/
theorem Resumable.progress (h : Resumable bundle format ideal exact files)
    {deps : BTreeMap String Artifact}
    (hdeps : ∀ k, FirstCompleted bundle format files k → Once bundle ideal k deps) :
    ∃ k, (exact → FirstCompleted bundle format files k) ∧
      Progress bundle format ideal exact k 0 ⟨files, deps, []⟩ := by
  by_cases hexact : exact
  · obtain ⟨k, hk⟩ := h.2 hexact
    refine ⟨k, fun _ => hk, h.1, ⟨_, .start, by simp⟩, fun _ => ?_, rfl, by simp⟩
    rw [Nat.zero_max]
    exact ⟨hdeps k hk, hk⟩
  · exact ⟨0, fun h => absurd h hexact, h.1, ⟨_, .start, by simp⟩, fun h => absurd h hexact, rfl,
      by simp⟩

/-- **The calls of a bundle.** A call keeps the files resumable, and its result are the first stages of
the one execution. -/
theorem Resumable.executeBundle (h : Resumable bundle format ideal exact files)
    (hdistinct : Distinct bundle) (hfollows : Follows call ideal)
    (hreads : ReadsEarlier bundle ideal ∨ exact)
    (hresume : exact → call.options.resumeFromLastCompletedStage = true ∨
      ∀ i a, ¬ Completed bundle format files i a) :
    Resumable bundle format ideal exact (executeBundle bundle format call files).1 ∧
      ∀ state, (executeBundle bundle format call files).2 = .ok state →
        ∃ k s, Progress bundle format ideal exact k state.stages.length s ∧
          s.stageStates = state.stages := by
  obtain ⟨deps, hresolve, hdeps⟩ := resolveCompletedStageArtifacts_eq h.1 hdistinct
  obtain ⟨k, hfirst, hprogress⟩ := h.progress hdeps
  have hk : exact → call.options.resumeFromLastCompletedStage = true ∨ k = 0 := fun hexact =>
    (hresume hexact).imp_right fun hnone => by
      by_contra hpos
      obtain ⟨a, ha⟩ := (hfirst hexact 0).2 (Nat.pos_of_ne_zero hpos)
      exact hnone 0 a ha
  have hloop := hprogress.stageLoop rfl hdistinct hfollows hreads hk
  rw [drop_zero] at hloop
  rw [Bundle.executeBundle]
  simp only [hresolve]
  rcases hresult : Bundle.stageLoop bundle format call 0 bundle.stages ⟨files, deps, []⟩ with
    ⟨files', e | stageStates⟩
  · rw [hresult] at hloop
    exact ⟨hloop, nofun⟩
  · rw [hresult] at hloop
    obtain ⟨index, deps', hdone⟩ := hloop
    refine ⟨⟨hdone.resumable.1.writeBundleState _ _, fun hexact =>
      (hdone.resumable.2 hexact).imp fun k hk => hk.writeBundleState _ _⟩, ?_⟩
    rintro _ ⟨rfl⟩
    have hlength : stageStates.length = index := hdone.length
    refine ⟨k, ⟨files', deps', stageStates⟩, ?_, rfl⟩
    rw [← hlength] at hdone
    exact hdone

/-! ## Histories -/

/-- One call that neither resumes nor stops early. -/
def Call.uninterrupted (ideal : Call Stage Artifact) : Call Stage Artifact :=
  { ideal with options := ⟨false, none⟩ }

theorem follows_uninterrupted (ideal : Call Stage Artifact) : Follows ideal.uninterrupted ideal :=
  ⟨fun _ _ => id, fun _ _ _ _ _ => id⟩

/-- A call of a history: its stages do what the stages of `ideal` do or fail, and either the stages
read the artifacts of earlier stages only or the call resumes if a stage is completed. -/
structure Admitted (bundle : Bundle Stage) (format : StateFormat Payload Artifact)
    (ideal : Call Stage Artifact) (files : Files Payload) (call : Call Stage Artifact) : Prop where
  follows : Follows call ideal
  sees : ReadsEarlier bundle ideal ∨ call.options.resumeFromLastCompletedStage = true ∨
    ∀ i a, ¬ Completed bundle format files i a

/-- The files that calls on one bundle root leave. -/
inductive History (bundle : Bundle Stage) (format : StateFormat Payload Artifact)
    (ideal : Call Stage Artifact) : Files Payload → Prop
  | start : History bundle format ideal fun _ => none
  | call {files : Files Payload} {call : Call Stage Artifact} : History bundle format ideal files →
    Admitted bundle format ideal files call →
      History bundle format ideal (executeBundle bundle format call files).1

theorem resumable_start (exact : Prop) :
    Resumable bundle format ideal exact fun _ : Path => (none : Option Payload) :=
  ⟨fun _ _ _ => ⟨none, rfl, by simp⟩, fun _ => ⟨0, fun i => by
    simp [Completed, loadStageState]⟩⟩

/-- Every history keeps the files resumable. -/
theorem History.resumable (h : History bundle format ideal files) (hdistinct : Distinct bundle) :
    Resumable bundle format ideal (¬ ReadsEarlier bundle ideal) files := by
  induction h with
  | start => exact resumable_start _
  | call _ hcall ih =>
    exact (ih.executeBundle hdistinct hcall.follows (Classical.em _) hcall.sees.resolve_left).1

theorem Once.onceArtifact {n : ℕ} (h : Once bundle ideal n m) :
    ∀ i < n, ∃ a, OnceArtifact bundle ideal i a := by
  induction h with
  | start => exact fun i hi => absurd hi (Nat.not_lt_zero i)
  | @stage index m stage artifact hm hstage hvalidate hrun ih =>
    intro i hi
    rcases Nat.lt_succ_iff_lt_or_eq.1 hi with hlt | rfl
    · exact ih i hlt
    · exact ⟨artifact, m, stage, hm, hstage, hvalidate, hrun⟩

/-- The stage loop of the one execution runs every stage. -/
theorem Progress.stageLoop_uninterrupted {rest : List Stage}
    (hall : Once bundle ideal bundle.stages.length m) (hrest : bundle.stages.drop index = rest)
    (h : Progress bundle format ideal True 0 index s) (hdistinct : Distinct bundle) :
    ∃ files stageStates, Bundle.stageLoop bundle format ideal.uninterrupted index rest s =
      (files, .ok stageStates) ∧ stageStates.length = index + rest.length := by
  induction rest generalizing index s with
  | nil => exact ⟨s.files, s.stageStates, rfl, h.length⟩
  | cons stage rest ih =>
    have hstage : bundle.stages[index]? = some stage := by
      rw [← head?_drop, hrest, head?_cons]
    have hpass := h.stagePass hdistinct hstage (follows_uninterrupted ideal) (.inr trivial)
      fun _ => .inr rfl
    obtain ⟨m', hm', hvalidate, hrun⟩ := h.sees hstage (.inr trivial) fun _ => Nat.zero_le _
    obtain ⟨a, m'', stage', hm'', hstage', hvalidate', hrun'⟩ :=
      hall.onceArtifact index (List.getElem?_eq_some_iff.1 hstage).1
    obtain rfl := hm'.unique hm''
    obtain rfl := some.inj (hstage.symm.trans hstage')
    obtain ⟨state?, hload, -⟩ := h.recorded index stage hstage
    obtain ⟨t, ht⟩ : ∃ t, Bundle.stagePass bundle format ideal.uninterrupted index stage s = .next t := by
      have hfilter : (state?.filter fun state =>
          ideal.uninterrupted.options.resumeFromLastCompletedStage && state.status = .completed) =
          none := by
        simp [Call.uninterrupted]
      have hvalidates : ideal.uninterrupted.validateStage stage s.dependencyArtifacts = .ok () :=
        hvalidate.trans hvalidate'
      have hruns : ideal.uninterrupted.runStage index stage (bundle.stageDir index stage)
          s.dependencyArtifacts = .ok a := hrun.trans hrun'
      simp only [Bundle.stagePass, hload, hfilter, hvalidates, Bundle.runPass, hruns]
      exact ⟨_, rfl⟩
    rw [ht] at hpass
    obtain ⟨files, stageStates, hloop, hlength⟩ :=
      ih (by rw [← tail_drop, hrest, tail_cons]) hpass
    refine ⟨files, stageStates, ?_, by rw [hlength, length_cons]; omega⟩
    rw [Bundle.stageLoop, ht]
    exact hloop

/-- If all artifacts of `Once` exist, then the one execution returns that many stages. -/
theorem executeBundle_uninterrupted (hdistinct : Distinct bundle)
    (hall : Once bundle ideal bundle.stages.length m) (format : StateFormat Payload Artifact) :
    ∃ once, (executeBundle bundle format ideal.uninterrupted fun _ => none).2 = .ok once ∧
      once.stages.length = bundle.stages.length := by
  have hstart : Resumable bundle format ideal True fun _ => none := resumable_start True
  obtain ⟨deps, hresolve, hdeps⟩ := resolveCompletedStageArtifacts_eq hstart.1 hdistinct
  have hzero : FirstCompleted bundle format (fun _ => none) 0 := by
    simp [FirstCompleted, Completed, loadStageState]
  have hprogress : Progress bundle format ideal True 0 0 ⟨fun _ => none, deps, []⟩ :=
    ⟨hstart.1, ⟨_, .start, by simp⟩, fun _ => ⟨hdeps 0 hzero, hzero⟩, rfl, by simp⟩
  obtain ⟨files, stageStates, hloop, hlength⟩ :=
    hprogress.stageLoop_uninterrupted hall rfl hdistinct
  rw [drop_zero] at hloop hlength
  refine ⟨buildBundleState bundle.bundleName bundle.bundleRoot stageStates, ?_,
    hlength.trans (Nat.zero_add _)⟩
  rw [Bundle.executeBundle]
  simp only [hresolve, hloop]

/-- Two completed states of one stage with one artifact. -/
structure SameCompleted (state once : StageState Artifact) : Prop where
  stageName : state.stageName = once.stageName
  status : state.status = .completed
  onceStatus : once.status = .completed
  artifact : state.artifact = once.artifact

/-- **Histories of a bundle.** When a call returns all stages, every stage is completed and has the
artifact of the one uninterrupted execution in an empty directory. -/
theorem executeBundle_eq_once (hdistinct : Distinct bundle) (hhistory : History bundle format ideal files)
    (hcall : Admitted bundle format ideal files call) {state : BundleState Artifact}
    (hok : (executeBundle bundle format call files).2 = .ok state)
    (hall : state.stages.length = bundle.stages.length) :
    ∃ once, (executeBundle bundle format ideal.uninterrupted fun _ => none).2 = .ok once ∧
      List.Forall₂ SameCompleted state.stages once.stages := by
  obtain ⟨k, s, hs, hstates⟩ := ((hhistory.resumable hdistinct).executeBundle hdistinct hcall.follows
    (Classical.em _) hcall.sees.resolve_left).2 state hok
  obtain ⟨m, hm, -⟩ := hs.earlier
  rw [hall] at hm
  obtain ⟨once, honce, hlength⟩ := executeBundle_uninterrupted hdistinct hm format
  obtain ⟨k', t, ht, htstates⟩ := ((resumable_start True).executeBundle hdistinct
    (follows_uninterrupted ideal) (.inr trivial) fun _ => .inr (by simp [Completed, loadStageState])).2
    once honce
  refine ⟨once, honce, List.forall₂_iff_get.2 ⟨hall.trans hlength.symm, fun i hi hi' => ?_⟩⟩
  have hstage : bundle.stages[i]? = some bundle.stages[i] := List.getElem?_eq_getElem (hall ▸ hi)
  obtain ⟨hstatus, hrecorded⟩ := hs.results i _ _ hstage
    ((congrArg (·[i]?) hstates).trans (List.getElem?_eq_getElem hi))
  obtain ⟨hstatus', hrecorded'⟩ := ht.results i _ _ hstage
    ((congrArg (·[i]?) htstates).trans (List.getElem?_eq_getElem hi'))
  exact ⟨hrecorded.stageName.trans hrecorded'.stageName.symm, hstatus, hstatus',
    (hrecorded.artifact hstatus).unique (hrecorded'.artifact hstatus')⟩

/-- Payloads that are the states themselves. -/
def plainFormat : StateFormat (StageState ℕ ⊕ BundleState ℕ) ℕ where
  encodeStage := .inl
  encodeBundle := .inr
  decodeStage
    | .inl state => .ok state
    | .inr _ => .error "missing field"
  decode_encode _ := rfl

/-- Stages that are their names. -/
def namedBundle (stages : List String) : Bundle String :=
  ⟨"demo", ["bundle"], stages, id, fun root _ name => root ++ ["stages", name]⟩

/-- A stage whose artifact is the number of artifacts that it sees. -/
def countingCall (options : BundleExecutionOptions) : Call String ℕ :=
  ⟨options, fun _ _ => .ok (), fun _ _ _ artifacts => .ok artifacts.entries.length, id, id⟩

theorem executeBundle_eq_once_resumed :
    ∃ state, (executeBundle (namedBundle ["one", "two"]) plainFormat (countingCall ⟨true, none⟩)
        (executeBundle (namedBundle ["one", "two"]) plainFormat (countingCall ⟨false, some "one"⟩)
          fun _ => none).1).2 = .ok state ∧
      ∃ once, (executeBundle (namedBundle ["one", "two"]) plainFormat
          (countingCall ⟨true, none⟩).uninterrupted fun _ => none).2 = .ok once ∧
        List.Forall₂ SameCompleted state.stages once.stages := by
  have hfollows : ∀ options, Follows (countingCall options) (countingCall ⟨true, none⟩) :=
    fun _ => ⟨fun _ _ => id, fun _ _ _ _ _ => id⟩
  have hhistory : History (namedBundle ["one", "two"]) plainFormat (countingCall ⟨true, none⟩)
      (executeBundle (namedBundle ["one", "two"]) plainFormat (countingCall ⟨false, some "one"⟩)
        fun _ => none).1 :=
    .call .start ⟨hfollows ⟨false, some "one"⟩, .inr (.inr (by simp [Completed, loadStageState]))⟩
  exact ⟨_, rfl, executeBundle_eq_once ⟨by decide, by decide⟩ hhistory
    ⟨hfollows ⟨true, none⟩, .inr (.inl rfl)⟩ rfl rfl⟩

/-- A stage that is run again sees its own earlier artifact. -/
theorem executeBundle_rerun_ne_once :
    ∃ state once, (executeBundle (namedBundle ["one"]) plainFormat (countingCall ⟨false, none⟩)
        (executeBundle (namedBundle ["one"]) plainFormat (countingCall ⟨false, none⟩)
          fun _ => none).1).2 = .ok state ∧
      state.stages.length = 1 ∧
      (executeBundle (namedBundle ["one"]) plainFormat (countingCall ⟨false, none⟩) fun _ => none).2 =
        .ok once ∧
      ¬ List.Forall₂ SameCompleted state.stages once.stages := by
  refine ⟨_, _, rfl, rfl, rfl, fun h => ?_⟩
  obtain ⟨hsame, -⟩ := List.forall₂_cons.1 h
  exact absurd hsame.artifact (by decide)

end BurnDragon.Bundle
