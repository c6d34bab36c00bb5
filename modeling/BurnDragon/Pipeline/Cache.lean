import BurnDragon.Transition.Trace

/-!
# The cross-stage cache

`CrossStageCacheManager` of `planner/cache.rs` keeps the keys of payloads that a stage has
received. A key belongs to a microbatch of a step; when the payload of a new microbatch comes in
and as many are resident as are allowed, the entries of the oldest go. At a step boundary all
entries go.

A stored key was missed before and has not been removed since (`mem_entries_access`); entries,
resident microbatches and counters agree after every access (`CacheManager.Consistent`).
-/

namespace BurnDragon.Pipeline

open Transition List

/-! ## The manager -/

inductive PipelineCachePolicy
  | disabled
  | residentBlockSummaries
  deriving DecidableEq, Repr

inductive PipelineCacheEvictionKind
  | stepBoundary
  deriving DecidableEq, Repr

structure ParallelPipelineCacheConfig where
  enabled : Bool
  policy : PipelineCachePolicy
  reuseAcrossBackward : Bool
  maxInflightMicrobatches : ℕ
  eviction : PipelineCacheEvictionKind

structure CrossStageCacheKey where
  sourceStageId : ℕ
  destinationStageId : ℕ
  logicalBlockId : ℕ
  microbatchId : ℕ
  freshnessMarker : ℕ
  deriving DecidableEq, Repr

/-- The resident microbatch to which a key belongs. -/
def CrossStageCacheKey.resident (key : CrossStageCacheKey) : ℕ × ℕ :=
  (key.freshnessMarker, key.microbatchId)

structure CrossStageCacheStats where
  rawPayloadBytesRequested : ℕ
  payloadBytesTransmitted : ℕ
  cacheHits : ℕ
  cacheMisses : ℕ
  resendCountAvoided : ℕ
  backwardReuseHits : ℕ
  invalidatedEntries : ℕ
  deriving DecidableEq, Repr

inductive CrossStageCacheAccessKind
  | hit
  | miss
  | bypass
  deriving DecidableEq, Repr

structure CrossStageCacheAccess where
  kind : CrossStageCacheAccessKind
  transmittedBytes : ℕ
  deriving DecidableEq, Repr

structure CacheManager where
  enabled : Bool
  policy : PipelineCachePolicy
  reuseAcrossBackward : Bool
  maxInflightMicrobatches : ℕ
  eviction : PipelineCacheEvictionKind
  currentFreshness : Option ℕ
  entries : Finset CrossStageCacheKey
  residentMicrobatches : List (ℕ × ℕ)
  stats : CrossStageCacheStats
  maxInflightMicrobatches_pos : 0 < maxInflightMicrobatches

/-- The three ways to access the cache. -/
inductive CacheAccessPath
  | forward
  | backward
  | bypass
  deriving DecidableEq, Repr

structure CacheRequest where
  path : CacheAccessPath
  key : CrossStageCacheKey
  payloadBytes : ℕ

namespace CacheManager

def new (config : ParallelPipelineCacheConfig) : CacheManager where
  enabled := config.enabled && config.policy ≠ .disabled
  policy := config.policy
  reuseAcrossBackward := config.reuseAcrossBackward
  maxInflightMicrobatches := max config.maxInflightMicrobatches 1
  eviction := config.eviction
  currentFreshness := none
  entries := ∅
  residentMicrobatches := []
  stats := ⟨0, 0, 0, 0, 0, 0, 0⟩
  maxInflightMicrobatches_pos := Nat.le_max_right _ _

def clearEntries (m : CacheManager) : CacheManager :=
  { m with
    entries := ∅
    residentMicrobatches := []
    stats := { m.stats with
      invalidatedEntries := m.stats.invalidatedEntries + m.entries.card } }

def beginFreshness (m : CacheManager) (freshnessMarker : ℕ) : CacheManager :=
  if m.currentFreshness = some freshnessMarker then m
  else
    let m := { m with currentFreshness := some freshnessMarker }
    if m.eviction = .stepBoundary then m.clearEntries else m

/-- Remove the entries of a microbatch that is no longer resident. -/
def removeEntries (m : CacheManager) (resident : ℕ × ℕ) : CacheManager :=
  let kept := m.entries.filter fun entry => entry.resident ≠ resident
  { m with
    entries := kept
    stats := { m.stats with
      invalidatedEntries := m.stats.invalidatedEntries + (m.entries.card - kept.card) } }

/-- The loop of `insert_entry` that pops the queue of resident microbatches from its front. -/
def makeRoom : List (ℕ × ℕ) → CacheManager → CacheManager
  | [], m => { m with residentMicrobatches := [] }
  | resident :: queue, m =>
    if m.maxInflightMicrobatches ≤ queue.length + 1 then makeRoom queue (m.removeEntries resident)
    else { m with residentMicrobatches := resident :: queue }

def insertEntry (m : CacheManager) (key : CrossStageCacheKey) : CacheManager :=
  let m :=
    if key.resident ∈ m.residentMicrobatches then m
    else
      let m := makeRoom m.residentMicrobatches m
      { m with residentMicrobatches := m.residentMicrobatches ++ [key.resident] }
  { m with entries := insert key m.entries }

/-- The bytes are transmitted, and the access counts as a miss. -/
def transmit (m : CacheManager) (payloadBytes : ℕ) : CacheManager :=
  { m with stats := { m.stats with
      payloadBytesTransmitted := m.stats.payloadBytesTransmitted + payloadBytes
      cacheMisses := m.stats.cacheMisses + 1 } }

def request (m : CacheManager) (payloadBytes : ℕ) : CacheManager :=
  { m with stats := { m.stats with
      rawPayloadBytesRequested := m.stats.rawPayloadBytesRequested + payloadBytes } }

def hit (m : CacheManager) (isBackwardReuse : Bool) : CacheManager :=
  { m with stats := { m.stats with
      cacheHits := m.stats.cacheHits + 1
      resendCountAvoided := m.stats.resendCountAvoided + 1
      backwardReuseHits := m.stats.backwardReuseHits + isBackwardReuse.toNat } }

def accessBypass (m : CacheManager) (key : CrossStageCacheKey) (payloadBytes : ℕ) :
    CrossStageCacheAccess × CacheManager :=
  let m := (m.beginFreshness key.freshnessMarker).request payloadBytes
  (⟨.bypass, payloadBytes⟩, m.transmit payloadBytes)

def access (m : CacheManager) (key : CrossStageCacheKey) (payloadBytes : ℕ)
    (isBackwardReuse : Bool) : CrossStageCacheAccess × CacheManager :=
  let m := (m.beginFreshness key.freshnessMarker).request payloadBytes
  if !m.enabled ∨ m.policy = .disabled then (⟨.bypass, payloadBytes⟩, m.transmit payloadBytes)
  else if key ∈ m.entries then (⟨.hit, 0⟩, m.hit isBackwardReuse)
  else (⟨.miss, payloadBytes⟩, (m.transmit payloadBytes).insertEntry key)

def accessForward (m : CacheManager) (key : CrossStageCacheKey) (payloadBytes : ℕ) :
    CrossStageCacheAccess × CacheManager :=
  m.access key payloadBytes false

def accessBackward (m : CacheManager) (key : CrossStageCacheKey) (payloadBytes : ℕ) :
    CrossStageCacheAccess × CacheManager :=
  if m.enabled ∧ m.reuseAcrossBackward then m.access key payloadBytes true
  else m.accessBypass key payloadBytes

/-- An access on one of the paths. -/
def perform (m : CacheManager) (r : CacheRequest) : CrossStageCacheAccess × CacheManager :=
  match r.path with
  | .forward => m.accessForward r.key r.payloadBytes
  | .backward => m.accessBackward r.key r.payloadBytes
  | .bypass => m.accessBypass r.key r.payloadBytes

/-- The cache after some accesses. -/
def performAll (m : CacheManager) (requests : List CacheRequest) : CacheManager :=
  requests.foldl (fun m r => (m.perform r).2) m

/-- The access looks its key up, in a cache that is on. -/
def Lookup (m : CacheManager) (r : CacheRequest) : Prop :=
  m.enabled ∧ m.policy ≠ .disabled ∧
    (r.path = .forward ∨ r.path = .backward ∧ m.reuseAcrossBackward)

variable {m : CacheManager} {r : CacheRequest} {queue : List (ℕ × ℕ)} {key : CrossStageCacheKey}

/-- What no access changes. -/
structure Settings where
  enabled : Bool
  policy : PipelineCachePolicy
  reuseAcrossBackward : Bool
  maxInflightMicrobatches : ℕ

def settings (m : CacheManager) : Settings :=
  ⟨m.enabled, m.policy, m.reuseAcrossBackward, m.maxInflightMicrobatches⟩

/-! ## One access -/

section BeginFreshness

variable {freshnessMarker : ℕ}

/-- A new step begins, with all entries gone. -/
theorem beginFreshness_cases (m : CacheManager) (freshnessMarker : ℕ) :
    m.currentFreshness = some freshnessMarker ∧ m.beginFreshness freshnessMarker = m ∨
    m.currentFreshness ≠ some freshnessMarker ∧ m.beginFreshness freshnessMarker =
      { m.clearEntries with currentFreshness := some freshnessMarker } := by
  unfold beginFreshness
  split
  · next h => exact .inl ⟨h, rfl⟩
  · next h =>
    cases heviction : m.eviction
    exact .inr ⟨h, by simp [heviction, clearEntries]⟩

theorem settings_beginFreshness (m : CacheManager) (freshnessMarker : ℕ) :
    (m.beginFreshness freshnessMarker).settings = m.settings := by
  rcases beginFreshness_cases m freshnessMarker with ⟨-, h⟩ | ⟨-, h⟩
  · rw [h]
  · rw [h]
    rfl

@[simp] theorem enabled_beginFreshness : (m.beginFreshness freshnessMarker).enabled = m.enabled :=
  congrArg Settings.enabled (settings_beginFreshness m freshnessMarker)

@[simp] theorem policy_beginFreshness : (m.beginFreshness freshnessMarker).policy = m.policy :=
  congrArg Settings.policy (settings_beginFreshness m freshnessMarker)

@[simp] theorem maxInflightMicrobatches_beginFreshness :
    (m.beginFreshness freshnessMarker).maxInflightMicrobatches = m.maxInflightMicrobatches :=
  congrArg Settings.maxInflightMicrobatches (settings_beginFreshness m freshnessMarker)

theorem mem_entries_beginFreshness {entry : CrossStageCacheKey} :
    entry ∈ (m.beginFreshness freshnessMarker).entries ↔
      entry ∈ m.entries ∧ m.currentFreshness = some freshnessMarker := by
  rcases beginFreshness_cases m freshnessMarker with ⟨hmarker, h⟩ | ⟨hmarker, h⟩
  · rw [h]
    exact (and_iff_left hmarker).symm
  · rw [h]
    exact iff_of_false (Finset.notMem_empty entry) fun hentry => hmarker hentry.2

end BeginFreshness

/-- An access on a path that looks its key up. -/
theorem access_of_enabled (henabled : m.enabled) (hpolicy : m.policy ≠ .disabled)
    (key : CrossStageCacheKey) (payloadBytes : ℕ) (isBackwardReuse : Bool) :
    m.access key payloadBytes isBackwardReuse =
      let m := (m.beginFreshness key.freshnessMarker).request payloadBytes
      if key ∈ m.entries then (⟨.hit, 0⟩, m.hit isBackwardReuse)
      else (⟨.miss, payloadBytes⟩, (m.transmit payloadBytes).insertEntry key) := by
  have hon : ¬((!(m.beginFreshness key.freshnessMarker).enabled) = true ∨
      (m.beginFreshness key.freshnessMarker).policy = .disabled) := by
    simp [henabled, hpolicy]
  rw [access]
  exact if_neg hon

theorem access_of_disabled (h : m.enabled = false ∨ m.policy = .disabled) (payloadBytes : ℕ)
    (isBackwardReuse : Bool) :
    m.access key payloadBytes isBackwardReuse = m.accessBypass key payloadBytes := by
  have hoff : (!(m.beginFreshness key.freshnessMarker).enabled) = true ∨
      (m.beginFreshness key.freshnessMarker).policy = .disabled := by
    simpa using h
  rw [access]
  exact if_pos hoff

theorem perform_of_not_lookup (h : ¬m.Lookup r) :
    m.perform r = m.accessBypass r.key r.payloadBytes := by
  by_cases hon : m.enabled ∧ m.policy ≠ .disabled
  · have hpath : ¬(r.path = .forward ∨ r.path = .backward ∧ m.reuseAcrossBackward) :=
      fun hpath => h ⟨hon.1, hon.2, hpath⟩
    unfold perform
    split
    · next hforward => exact absurd (.inl hforward) hpath
    · next hbackward =>
      rw [accessBackward, if_neg fun hreuse => hpath (.inr ⟨hbackward, hreuse.2⟩)]
    · rfl
  · have hoff : m.enabled = false ∨ m.policy = .disabled := by
      cases henabled : m.enabled with
      | false => exact .inl rfl
      | true => exact .inr (not_not.mp fun hpolicy => hon ⟨henabled, hpolicy⟩)
    unfold perform accessForward accessBackward
    split
    · exact access_of_disabled hoff _ _
    · split
      · exact access_of_disabled hoff _ _
      · rfl
    · rfl

theorem perform_of_lookup (h : m.Lookup r) :
    m.perform r = m.access r.key r.payloadBytes (r.path = .backward) := by
  obtain ⟨henabled, -, hforward | ⟨hbackward, hreuse⟩⟩ := h
  · simp [perform, hforward, accessForward]
  · simp [perform, hbackward, accessBackward, henabled, hreuse]

/-- What an access does: it takes the bytes past the cache, or it finds its key, or it inserts it.
-/
theorem perform_cases (m : CacheManager) (r : CacheRequest) :
    let m' := (m.beginFreshness r.key.freshnessMarker).request r.payloadBytes
    ¬m.Lookup r ∧ m.perform r = (⟨.bypass, r.payloadBytes⟩, m'.transmit r.payloadBytes) ∨
    m.Lookup r ∧ r.key ∈ m'.entries ∧ m.perform r = (⟨.hit, 0⟩, m'.hit (r.path = .backward)) ∨
    m.Lookup r ∧ r.key ∉ m'.entries ∧
      m.perform r = (⟨.miss, r.payloadBytes⟩, (m'.transmit r.payloadBytes).insertEntry r.key) := by
  by_cases hlookup : m.Lookup r
  · have haccess := access_of_enabled hlookup.1 hlookup.2.1 r.key r.payloadBytes
      (r.path = .backward)
    rw [perform_of_lookup hlookup, haccess]
    dsimp only
    split
    · next hkey => exact .inr (.inl ⟨hlookup, hkey, rfl⟩)
    · next hkey => exact .inr (.inr ⟨hlookup, hkey, rfl⟩)
  · exact .inl ⟨hlookup, by rw [perform_of_not_lookup hlookup]; rfl⟩

/-! ### Room for a microbatch -/

/-- The number of microbatches that the loop pops off a queue. -/
def surplus (m : CacheManager) (queue : List (ℕ × ℕ)) : ℕ :=
  queue.length + 1 - m.maxInflightMicrobatches

theorem surplus_cons {resident : ℕ × ℕ} (h : m.maxInflightMicrobatches ≤ queue.length + 1) :
    m.surplus (resident :: queue) = (m.removeEntries resident).surplus queue + 1 := by
  simp only [surplus, removeEntries, length_cons]
  omega

theorem surplus_cons_of_room {resident : ℕ × ℕ}
    (h : ¬m.maxInflightMicrobatches ≤ queue.length + 1) : m.surplus (resident :: queue) = 0 := by
  simp only [surplus, length_cons]
  omega

theorem residentMicrobatches_makeRoom :
    (makeRoom queue m).residentMicrobatches = queue.drop (m.surplus queue) := by
  induction queue generalizing m with
  | nil => simp [makeRoom]
  | cons resident queue ih =>
    rw [makeRoom]
    split
    · next hfull =>
      rw [ih, surplus_cons hfull, drop_succ_cons]
    · next hfull =>
      rw [surplus_cons_of_room hfull, drop_zero]

theorem entries_makeRoom :
    (makeRoom queue m).entries =
      m.entries.filter fun entry => entry.resident ∉ queue.take (m.surplus queue) := by
  induction queue generalizing m with
  | nil => simp [makeRoom]
  | cons resident queue ih =>
    rw [makeRoom]
    split
    · next hfull =>
      rw [ih, surplus_cons hfull, removeEntries, Finset.filter_filter]
      exact Finset.filter_congr fun entry _ => by simp [take_succ_cons, surplus, eq_comm]
    · next hfull =>
      simp [surplus_cons_of_room hfull]

/-! ## The stored entries -/

/-- The access begins another step than the one of the entries. -/
def Invalidates (m : CacheManager) (r : CacheRequest) : Prop :=
  m.currentFreshness ≠ some r.key.freshnessMarker

/-- The access brings in a microbatch for which that of a key must leave the queue. -/
def Evicts (m : CacheManager) (r : CacheRequest) (key : CrossStageCacheKey) : Prop :=
  let queue := (m.beginFreshness r.key.freshnessMarker).residentMicrobatches
  (m.perform r).1.kind = .miss ∧ r.key.resident ∉ queue ∧
    key.resident ∈ queue.take (m.surplus queue)

/-- The access removes a key from the cache. -/
def Removes (m : CacheManager) (r : CacheRequest) (key : CrossStageCacheKey) : Prop :=
  m.Invalidates r ∨ m.Evicts r key

theorem mem_entries_insertEntry {entry : CrossStageCacheKey} :
    entry ∈ (m.insertEntry key).entries ↔ entry = key ∨ entry ∈ m.entries ∧
      ¬(key.resident ∉ m.residentMicrobatches ∧
        entry.resident ∈ m.residentMicrobatches.take (m.surplus m.residentMicrobatches)) := by
  by_cases hresident : key.resident ∈ m.residentMicrobatches
  · simp [insertEntry, hresident]
  · simp [insertEntry, hresident, entries_makeRoom]

/-- A key is stored after an access that missed it, or if it was stored and not removed. -/
theorem mem_entries_perform (m : CacheManager) (r : CacheRequest) (entry : CrossStageCacheKey) :
    entry ∈ (m.perform r).2.entries ↔
      (m.perform r).1.kind = .miss ∧ r.key = entry ∨ entry ∈ m.entries ∧ ¬m.Removes r entry := by
  have hsurplus : ∀ queue,
      (((m.beginFreshness r.key.freshnessMarker).request r.payloadBytes).transmit
        r.payloadBytes).surplus queue = m.surplus queue := by
    simp [surplus, transmit, request]
  rcases perform_cases m r with ⟨-, h⟩ | ⟨-, -, h⟩ | ⟨-, -, h⟩
  · simp [h, Removes, Evicts, Invalidates, transmit, request, mem_entries_beginFreshness]
  · simp [h, Removes, Evicts, Invalidates, hit, request, mem_entries_beginFreshness]
  · rw [h, mem_entries_insertEntry, hsurplus]
    simp [h, Removes, Evicts, Invalidates, transmit, request, mem_entries_beginFreshness,
      eq_comm, and_assoc]

/-- A lookup finds its key exactly if the key is stored and the access does not remove it. -/
theorem hit_iff :
    (m.perform r).1.kind = .hit ↔ m.Lookup r ∧ r.key ∈ m.entries ∧ ¬m.Removes r r.key := by
  rcases perform_cases m r with ⟨hlookup, h⟩ | ⟨hlookup, hkey, h⟩ | ⟨hlookup, hkey, h⟩
  · simp [h, hlookup]
  · obtain ⟨hstored, hcurrent⟩ := mem_entries_beginFreshness.mp hkey
    simp [h, hlookup, hstored, hcurrent, Removes, Invalidates, Evicts]
  · have hgone : ¬(r.key ∈ m.entries ∧ m.currentFreshness = some r.key.freshnessMarker) :=
      fun hstored => hkey (mem_entries_beginFreshness.mpr hstored)
    simp only [h, reduceCtorEq, false_iff]
    rintro ⟨-, hstored, hkept⟩
    exact hgone ⟨hstored, not_not.mp fun hcurrent => hkept (.inl hcurrent)⟩

/-! ## The resident microbatches -/

/-- The queue holds the microbatches of the entries, each once and no more than allowed. -/
structure Consistent (m : CacheManager) : Prop where
  nodup : m.residentMicrobatches.Nodup
  length_le : m.residentMicrobatches.length ≤ m.maxInflightMicrobatches
  mem_resident : ∀ resident,
    resident ∈ m.residentMicrobatches ↔ ∃ entry ∈ m.entries, entry.resident = resident

theorem Consistent.beginFreshness (hm : m.Consistent) (freshnessMarker : ℕ) :
    (m.beginFreshness freshnessMarker).Consistent := by
  rcases beginFreshness_cases m freshnessMarker with ⟨-, h⟩ | ⟨-, h⟩
  · rwa [h]
  · rw [h]
    exact ⟨.nil, Nat.zero_le _, fun resident => by simp [clearEntries]⟩

theorem settings_makeRoom (queue : List (ℕ × ℕ)) (m : CacheManager) :
    (makeRoom queue m).settings = m.settings := by
  induction queue generalizing m with
  | nil => rfl
  | cons resident queue ih =>
    rw [makeRoom]
    split
    · exact ih _
    · rfl

@[simp] theorem maxInflightMicrobatches_makeRoom :
    (makeRoom queue m).maxInflightMicrobatches = m.maxInflightMicrobatches :=
  congrArg Settings.maxInflightMicrobatches (settings_makeRoom queue m)

theorem settings_insertEntry : (m.insertEntry key).settings = m.settings := by
  by_cases hresident : key.resident ∈ m.residentMicrobatches
  · simp only [insertEntry, hresident, if_true]
    rfl
  · simp only [insertEntry, hresident, if_false]
    exact settings_makeRoom _ _

theorem settings_perform (m : CacheManager) (r : CacheRequest) :
    (m.perform r).2.settings = m.settings := by
  rcases perform_cases m r with ⟨-, h⟩ | ⟨-, -, h⟩ | ⟨-, -, h⟩
  · rw [h]
    exact settings_beginFreshness m _
  · rw [h]
    exact settings_beginFreshness m _
  · rw [h]
    exact settings_insertEntry.trans (settings_beginFreshness m _)

theorem settings_performAll (m : CacheManager) (requests : List CacheRequest) :
    (m.performAll requests).settings = m.settings := by
  induction requests generalizing m with
  | nil => rfl
  | cons r requests ih => exact (ih _).trans (settings_perform m r)

/-- After the loop there is room, and the microbatches that are left are those of the entries. -/
theorem Consistent.makeRoom (hm : m.Consistent) :
    (CacheManager.makeRoom m.residentMicrobatches m).Consistent ∧
      (CacheManager.makeRoom m.residentMicrobatches m).residentMicrobatches.length <
        m.maxInflightMicrobatches := by
  have hpos := m.maxInflightMicrobatches_pos
  have hsplit := take_append_drop (m.surplus m.residentMicrobatches) m.residentMicrobatches
  have hdisjoint : ∀ resident ∈ m.residentMicrobatches.drop (m.surplus m.residentMicrobatches),
      resident ∉ m.residentMicrobatches.take (m.surplus m.residentMicrobatches) := by
    intro resident hdrop htake
    exact (nodup_append.mp (hsplit.symm ▸ hm.nodup)).2.2 _ htake _ hdrop rfl
  have hlength : (CacheManager.makeRoom m.residentMicrobatches m).residentMicrobatches.length <
      m.maxInflightMicrobatches := by
    rw [residentMicrobatches_makeRoom, length_drop, surplus]
    omega
  refine ⟨⟨?_, ?_, fun resident => ?_⟩, hlength⟩
  · rw [residentMicrobatches_makeRoom]
    exact hm.nodup.sublist (drop_sublist _ _)
  · rw [maxInflightMicrobatches_makeRoom]
    exact hlength.le
  · rw [residentMicrobatches_makeRoom, entries_makeRoom]
    constructor
    · intro hdrop
      obtain ⟨entry, hentry, rfl⟩ := (hm.mem_resident resident).mp (mem_of_mem_drop hdrop)
      exact ⟨entry, Finset.mem_filter.mpr ⟨hentry, hdisjoint _ hdrop⟩, rfl⟩
    · rintro ⟨entry, hentry, rfl⟩
      obtain ⟨hentry, htake⟩ := Finset.mem_filter.mp hentry
      have hmem := (hm.mem_resident entry.resident).mpr ⟨entry, hentry, rfl⟩
      rw [← hsplit, mem_append] at hmem
      exact hmem.resolve_left htake

theorem Consistent.insertEntry (hm : m.Consistent) (key : CrossStageCacheKey) :
    (m.insertEntry key).Consistent := by
  by_cases hresident : key.resident ∈ m.residentMicrobatches
  · simp only [CacheManager.insertEntry, hresident, if_true]
    refine ⟨hm.nodup, hm.length_le, fun resident => ?_⟩
    have hkey := (hm.mem_resident key.resident).mp hresident
    simp only [hm.mem_resident resident, Finset.exists_mem_insert]
    exact ⟨.inr, fun h => h.elim (fun h => h ▸ hkey) id⟩
  · obtain ⟨hroom, hlength⟩ := hm.makeRoom
    have hnew : key.resident ∉
        (CacheManager.makeRoom m.residentMicrobatches m).residentMicrobatches := by
      rw [residentMicrobatches_makeRoom]
      exact fun h => hresident (mem_of_mem_drop h)
    simp only [CacheManager.insertEntry, hresident, if_false]
    refine ⟨?_, ?_, fun resident => ?_⟩
    · exact nodup_append.mpr ⟨hroom.nodup, nodup_singleton _, fun a ha b hb heq =>
        hnew (mem_singleton.mp hb ▸ heq ▸ ha)⟩
    · simp only [length_append, length_singleton, maxInflightMicrobatches_makeRoom]
      omega
    · simp only [mem_append, mem_singleton, Finset.exists_mem_insert, hroom.mem_resident resident]
      exact ⟨fun h => h.elim .inr fun h => .inl h.symm, fun h => h.elim (fun h => .inr h.symm) .inl⟩

theorem Consistent.perform (hm : m.Consistent) (r : CacheRequest) : (m.perform r).2.Consistent := by
  have hbegun := hm.beginFreshness r.key.freshnessMarker
  have hsame : ∀ m' : CacheManager, m'.residentMicrobatches =
      (m.beginFreshness r.key.freshnessMarker).residentMicrobatches →
      m'.entries = (m.beginFreshness r.key.freshnessMarker).entries →
      m'.maxInflightMicrobatches =
        (m.beginFreshness r.key.freshnessMarker).maxInflightMicrobatches → m'.Consistent :=
    fun m' hqueue hentries hmax =>
      ⟨hqueue ▸ hbegun.nodup, hqueue ▸ hmax ▸ hbegun.length_le,
        hqueue ▸ hentries ▸ hbegun.mem_resident⟩
  rcases perform_cases m r with ⟨-, h⟩ | ⟨-, -, h⟩ | ⟨-, -, h⟩
  · rw [h]
    exact hsame _ rfl rfl rfl
  · rw [h]
    exact hsame _ rfl rfl rfl
  · rw [h]
    refine Consistent.insertEntry ?_ r.key
    exact hsame _ rfl rfl rfl

/-! ## The counters -/

/-- The counters with some more entries removed. -/
def CrossStageCacheStats.addInvalidated (stats : CrossStageCacheStats) (count : ℕ) :
    CrossStageCacheStats :=
  { stats with invalidatedEntries := stats.invalidatedEntries + count }

theorem stats_beginFreshness (m : CacheManager) (freshnessMarker : ℕ) :
    ∃ removed, (m.beginFreshness freshnessMarker).stats =
        CrossStageCacheStats.addInvalidated m.stats removed ∧
      (m.beginFreshness freshnessMarker).entries.card + removed = m.entries.card := by
  rcases beginFreshness_cases m freshnessMarker with ⟨-, h⟩ | ⟨-, h⟩
  · exact ⟨0, by rw [h]; rfl, by rw [h]; rfl⟩
  · exact ⟨m.entries.card, by rw [h]; rfl, by rw [h]; simp [clearEntries]⟩

theorem stats_makeRoom (queue : List (ℕ × ℕ)) (m : CacheManager) :
    ∃ removed, (makeRoom queue m).stats = CrossStageCacheStats.addInvalidated m.stats removed ∧
      (makeRoom queue m).entries.card + removed = m.entries.card := by
  induction queue generalizing m with
  | nil => exact ⟨0, rfl, rfl⟩
  | cons resident queue ih =>
    rw [makeRoom]
    split
    · obtain ⟨removed, hstats, hcard⟩ := ih (m.removeEntries resident)
      have hle : (m.removeEntries resident).entries.card ≤ m.entries.card :=
        Finset.card_filter_le _ _
      refine ⟨m.entries.card - (m.removeEntries resident).entries.card + removed, ?_, by omega⟩
      rw [hstats]
      simp only [CrossStageCacheStats.addInvalidated, removeEntries, Nat.add_assoc]
    · exact ⟨0, rfl, rfl⟩

theorem stats_insertEntry (hkey : key ∉ m.entries) :
    ∃ removed, (m.insertEntry key).stats = CrossStageCacheStats.addInvalidated m.stats removed ∧
      (m.insertEntry key).entries.card + removed = m.entries.card + 1 := by
  by_cases hresident : key.resident ∈ m.residentMicrobatches
  · refine ⟨0, ?_, ?_⟩
    · simp only [insertEntry, hresident, if_true]
      rfl
    · simp only [insertEntry, hresident, if_true]
      exact Finset.card_insert_of_notMem hkey
  · obtain ⟨removed, hstats, hcard⟩ := stats_makeRoom m.residentMicrobatches m
    have hgone : key ∉ (makeRoom m.residentMicrobatches m).entries := by
      rw [entries_makeRoom]
      exact fun h => hkey (Finset.mem_filter.mp h).1
    refine ⟨removed, ?_, ?_⟩
    · simp only [insertEntry, hresident, if_false]
      exact hstats
    · simp only [insertEntry, hresident, if_false, Finset.card_insert_of_notMem hgone]
      omega

/-- What an access adds to the counters. -/
structure Counted (m : CacheManager) (payloadBytes : ℕ) (reply : CrossStageCacheAccess)
    (m' : CacheManager) : Prop where
  hits : m'.stats.cacheHits = m.stats.cacheHits + if reply.kind = .hit then 1 else 0
  misses : m'.stats.cacheMisses = m.stats.cacheMisses + if reply.kind = .hit then 0 else 1
  requested : m'.stats.rawPayloadBytesRequested = m.stats.rawPayloadBytesRequested + payloadBytes
  transmitted : m'.stats.payloadBytesTransmitted =
    m.stats.payloadBytesTransmitted + if reply.kind = .hit then 0 else payloadBytes
  inserted : m'.entries.card + m'.stats.invalidatedEntries =
    m.entries.card + m.stats.invalidatedEntries + if reply.kind = .miss then 1 else 0

theorem counted_perform (m : CacheManager) (r : CacheRequest) :
    Counted m r.payloadBytes (m.perform r).1 (m.perform r).2 := by
  obtain ⟨removed, hstats, hcard⟩ := stats_beginFreshness m r.key.freshnessMarker
  rcases perform_cases m r with ⟨-, h⟩ | ⟨-, -, h⟩ | ⟨-, hkey, h⟩
  · rw [h]
    refine ⟨?_, ?_, ?_, ?_, ?_⟩ <;>
      simp [transmit, request, hstats, CrossStageCacheStats.addInvalidated]
    omega
  · rw [h]
    refine ⟨?_, ?_, ?_, ?_, ?_⟩ <;>
      simp [hit, request, hstats, CrossStageCacheStats.addInvalidated]
    omega
  · obtain ⟨missed, hmissed⟩ : ∃ missed : CacheManager, missed =
        ((m.beginFreshness r.key.freshnessMarker).request r.payloadBytes).transmit r.payloadBytes :=
      ⟨_, rfl⟩
    have hentries : missed.entries = (m.beginFreshness r.key.freshnessMarker).entries := by
      rw [hmissed]
      rfl
    obtain ⟨removed', hstats', hcard'⟩ := stats_insertEntry (hentries.symm ▸ hkey)
    rw [hentries] at hcard'
    rw [h, ← hmissed]
    have hbefore : missed.stats = { m.stats with
        rawPayloadBytesRequested := m.stats.rawPayloadBytesRequested + r.payloadBytes
        payloadBytesTransmitted := m.stats.payloadBytesTransmitted + r.payloadBytes
        cacheMisses := m.stats.cacheMisses + 1
        invalidatedEntries := m.stats.invalidatedEntries + removed } := by
      simp [hmissed, transmit, request, hstats, CrossStageCacheStats.addInvalidated]
    refine ⟨?_, ?_, ?_, ?_, ?_⟩ <;>
      simp [hstats', hbefore, CrossStageCacheStats.addInvalidated]
    omega

/-! ## Runs -/

/-- The replies of the accesses, with the caches before and after them. -/
def run (m : CacheManager) (requests : List CacheRequest) :
    List (Answered CacheManager CacheRequest CrossStageCacheAccess) :=
  trace perform m requests

variable {requests : List CacheRequest} {config : ParallelPipelineCacheConfig}

/-- The bytes of the hits. -/
def hitBytes (run : List (Answered CacheManager CacheRequest CrossStageCacheAccess)) : ℕ :=
  (run.map fun e => if e.reply.kind = .hit then e.request.payloadBytes else 0).sum

/-- What accesses add to the counters. -/
theorem counted_run (m : CacheManager) (requests : List CacheRequest) :
    (m.performAll requests).stats.cacheHits + (m.performAll requests).stats.cacheMisses =
        m.stats.cacheHits + m.stats.cacheMisses + requests.length ∧
      (m.performAll requests).stats.cacheHits =
        m.stats.cacheHits + (m.run requests).countP (·.reply.kind = .hit) ∧
      (m.performAll requests).stats.rawPayloadBytesRequested + m.stats.payloadBytesTransmitted =
        (m.performAll requests).stats.payloadBytesTransmitted + hitBytes (m.run requests) +
          m.stats.rawPayloadBytesRequested ∧
      (m.performAll requests).entries.card + (m.performAll requests).stats.invalidatedEntries =
        m.entries.card + m.stats.invalidatedEntries +
          (m.run requests).countP (·.reply.kind = .miss) := by
  induction requests generalizing m with
  | nil => simp [performAll, run, trace, hitBytes, Nat.add_comm]
  | cons r requests ih =>
    obtain ⟨hsum, hhits, hbytes, hinserted⟩ := ih (m.perform r).2
    have hstep := counted_perform m r
    have hrun : m.run (r :: requests) =
        ⟨m, r, (m.perform r).1, (m.perform r).2⟩ :: (m.perform r).2.run requests := rfl
    have hall : m.performAll (r :: requests) = (m.perform r).2.performAll requests := rfl
    obtain ⟨hhit, hmiss, hrequested, htransmitted, hcard⟩ := hstep
    simp only [hall, hrun, hitBytes, map_cons, sum_cons, countP_cons,
      length_cons, decide_eq_true_eq] at hbytes ⊢
    refine ⟨?_, ?_, ?_, ?_⟩
    · split at hhit
      · next hkind =>
        rw [if_pos hkind] at hmiss
        omega
      · next hkind =>
        rw [if_neg hkind] at hmiss
        omega
    · omega
    · split at htransmitted
      · next hkind =>
        rw [if_pos hkind]
        omega
      · next hkind =>
        rw [if_neg hkind]
        omega
    · omega

theorem consistent_new (config : ParallelPipelineCacheConfig) : (new config).Consistent :=
  ⟨.nil, Nat.zero_le _, fun resident => by simp [new]⟩

theorem Consistent.performAll (hm : m.Consistent) (requests : List CacheRequest) :
    (m.performAll requests).Consistent := by
  induction requests generalizing m with
  | nil => exact hm
  | cons r requests ih => exact ih (hm.perform r)

theorem settings_before {k : ℕ} {e : Answered CacheManager CacheRequest CrossStageCacheAccess}
    (h : (m.run requests)[k]? = some e) : e.before.settings = m.settings := by
  refine trace_invariant (I := fun _ m' => m'.settings = m.settings) rfl
    (fun k e he hbefore => ?_) h
  have hstep := trace_step he
  rw [show e.after = (e.before.perform e.request).2 by rw [hstep], settings_perform, hbefore]

theorem lookup_congr {m' : CacheManager} (h : m.settings = m'.settings) (r : CacheRequest) :
    m.Lookup r ↔ m'.Lookup r := by
  have henabled : m.enabled = m'.enabled := congrArg Settings.enabled h
  have hpolicy : m.policy = m'.policy := congrArg Settings.policy h
  have hreuse : m.reuseAcrossBackward = m'.reuseAcrossBackward :=
    congrArg Settings.reuseAcrossBackward h
  rw [Lookup, Lookup, henabled, hpolicy, hreuse]

/-- Before an access a key is stored exactly if it was missed and has not been removed since. -/
theorem mem_entries_iff_since {k : ℕ}
    {e : Answered CacheManager CacheRequest CrossStageCacheAccess}
    (h : ((new config).run requests)[k]? = some e) (key : CrossStageCacheKey) :
    key ∈ e.before.entries ↔ Since ((new config).run requests) k
      (fun e' => e'.reply.kind = .miss ∧ e'.request.key = key)
      (fun e' => ¬e'.before.Removes e'.request key) := by
  refine trace_since (I := fun m => key ∈ m.entries) (Finset.notMem_empty key) (fun k e he => ?_) h
  have hstep := trace_step he
  have hmem := mem_entries_perform e.before e.request key
  rwa [hstep] at hmem

end CacheManager

open CacheManager

end BurnDragon.Pipeline
