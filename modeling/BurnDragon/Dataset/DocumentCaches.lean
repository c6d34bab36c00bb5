import BurnDragon.Caching.Entries
import BurnDragon.Caching.SharedBuilds
import BurnDragon.Rust.Machine

/-!
# The caches of generated documents

On-the-fly storage keeps the documents that it has generated: batches of documents for the steps of
a live source selection (`generate_source_bucket_documents`), and the documents of whole epochs
(`epoch_documents`, `prefetch_epoch`). Both caches share their builds between threads in the manner
of `Caching.SharedBuilds`, and drop what has not been used for the longest time. Their totals are
those of the stored entries, and the limits hold (`documentCaches_consistent`).
-/

namespace BurnDragon.Dataset

open Rust Caching List

/-- A `u64` counter wraps around. -/
def nextTick (tick : ℕ) : ℕ := (tick + 1) % 2 ^ 64

/-! ## Live batches -/

structure LiveDocumentBatchKey where
  splitTag : ℕ
  epochIndex : ℕ
  selectionStep : ℕ
  bucketLabel : String
  documentCount : ℕ
  deriving DecidableEq

structure CachedLiveDocumentBatch where
  documents : List (List UInt32)
  bytes : ℕ
  lastUsedTick : ℕ

/-- The entry is used at a tick. -/
def CachedLiveDocumentBatch.touch (tick : ℕ) (entry : CachedLiveDocumentBatch) :
    CachedLiveDocumentBatch :=
  { entry with lastUsedTick := tick }

structure LiveDocumentBatchCache where
  tick : ℕ
  totalBytes : ℕ
  entries : List (LiveDocumentBatchKey × CachedLiveDocumentBatch)

/-- The bytes of the tokens of documents, as they are counted. -/
def countedBytes (documents : List (List UInt32)) : ℕ :=
  documents.foldl (fun total document => saturatingAdd total (saturatingMul document.length 4)) 0

/-- The bytes that the tokens of documents have in memory. -/
def documentBytes (documents : List (List UInt32)) : ℕ :=
  (documents.map fun document => document.length * 4).sum

namespace LiveDocumentBatchCache

/-- `LiveDocumentBatchCache::default`. -/
def empty : LiveDocumentBatchCache := ⟨0, 0, []⟩

/-- The lookup of `generate_source_bucket_documents`. -/
def find (cache : LiveDocumentBatchCache) (key : LiveDocumentBatchKey) :
    Option (List (List UInt32)) × LiveDocumentBatchCache :=
  let tick := nextTick cache.tick
  ((Caching.find key cache.entries).map CachedLiveDocumentBatch.documents,
    { cache with
      tick := tick
      entries := modify key (CachedLiveDocumentBatch.touch tick) cache.entries })

def OverLimits (entryLimit byteLimit : ℕ)
    (entries : List (LiveDocumentBatchKey × CachedLiveDocumentBatch)) (totalBytes : ℕ) : Prop :=
  entryLimit < entries.length ∨ byteLimit < totalBytes ∧ 1 < entries.length

/-- The bytes that are counted without the entry of a key. -/
def bytesWithout (cache : LiveDocumentBatchCache) (key : LiveDocumentBatchKey) : ℕ :=
  match Caching.find key cache.entries with
  | some previous => cache.totalBytes - previous.bytes
  | none => cache.totalBytes

/-- The store of `generate_source_bucket_documents`. -/
inductive Stores (entryLimit byteLimit : ℕ) (cache : LiveDocumentBatchCache)
    (key : LiveDocumentBatchKey) (documents : List (List UInt32)) : LiveDocumentBatchCache → Prop
  | evicted {entries : List (LiveDocumentBatchKey × CachedLiveDocumentBatch)} {totalBytes : ℕ}
    (h : Evicts (OverLimits entryLimit byteLimit) CachedLiveDocumentBatch.lastUsedTick
      CachedLiveDocumentBatch.bytes
      (Caching.insert key ⟨documents, countedBytes documents, nextTick cache.tick⟩ cache.entries)
      (saturatingAdd (cache.bytesWithout key) (countedBytes documents)) entries totalBytes) :
    Stores entryLimit byteLimit cache key documents ⟨nextTick cache.tick, totalBytes, entries⟩

/-- The bytes of all stored documents. -/
def storedBytes (cache : LiveDocumentBatchCache) : ℕ :=
  totalWeight (fun entry => documentBytes entry.documents) cache.entries

/-- What holds of the cache whenever it is not locked. -/
structure Within (entryLimit byteLimit : ℕ) (cache : LiveDocumentBatchCache) : Prop where
  distinct : Distinct cache.entries
  bytes : ∀ p ∈ cache.entries, p.2.bytes = documentBytes p.2.documents
  totalBytes : cache.totalBytes = cache.storedBytes
  length_le : cache.entries.length ≤ entryLimit
  /-- Only a single entry may have more bytes than the limit. -/
  single : byteLimit < cache.totalBytes → cache.entries.length = 1

end LiveDocumentBatchCache

/-- The live batches of a storage, with the limits of its cache. -/
def liveDocumentBatches (entryLimit byteLimit : ℕ) :
    BuildStore LiveDocumentBatchCache LiveDocumentBatchKey (List (List UInt32)) where
  find := LiveDocumentBatchCache.find
  Stores := LiveDocumentBatchCache.Stores entryLimit byteLimit
  Room cache documents := cache.storedBytes + documentBytes documents ≤ usizeMax
  Prefetches := False

/-! ## Epochs -/

structure RuntimeEpochKey where
  splitTag : ℕ
  epochIndex : ℕ
  deriving DecidableEq

structure GeneratedEpochDocuments where
  documents : List (List UInt32)
  documentsByBucket : List (String × List ℕ)

def GeneratedEpochDocuments.len (epoch : GeneratedEpochDocuments) : ℕ := epoch.documents.length

structure CachedEpochDocuments where
  documents : GeneratedEpochDocuments
  lastUsedTick : ℕ

/-- The entry is used at a tick. -/
def CachedEpochDocuments.touch (tick : ℕ) (entry : CachedEpochDocuments) : CachedEpochDocuments :=
  { entry with lastUsedTick := tick }

structure EpochRuntimeCache where
  tick : ℕ
  totalCachedDocuments : ℕ
  entries : List (RuntimeEpochKey × CachedEpochDocuments)

namespace EpochRuntimeCache

/-- `EpochRuntimeCache::default`. -/
def empty : EpochRuntimeCache := ⟨0, 0, []⟩

/-- The lookup of `epoch_documents`. -/
def find (cache : EpochRuntimeCache) (key : RuntimeEpochKey) :
    Option GeneratedEpochDocuments × EpochRuntimeCache :=
  let tick := nextTick cache.tick
  ((Caching.find key cache.entries).map CachedEpochDocuments.documents,
    { cache with
      tick := tick
      entries := modify key (CachedEpochDocuments.touch tick) cache.entries })

/-- The documents of all stored epochs. -/
def storedDocuments (entries : List (RuntimeEpochKey × CachedEpochDocuments)) : ℕ :=
  totalWeight (fun entry => entry.documents.len) entries

def OverLimit (cacheLimit : ℕ) (_ : List (RuntimeEpochKey × CachedEpochDocuments))
    (totalCachedDocuments : ℕ) : Prop :=
  cacheLimit < totalCachedDocuments

/-- `store_generated_epoch`, which counts the documents anew. -/
inductive Stores (cacheLimit : ℕ) (cache : EpochRuntimeCache) (key : RuntimeEpochKey)
    (documents : GeneratedEpochDocuments) : EpochRuntimeCache → Prop
  | evicted {entries : List (RuntimeEpochKey × CachedEpochDocuments)} {totalCachedDocuments : ℕ}
    (h : Evicts (OverLimit cacheLimit) CachedEpochDocuments.lastUsedTick
      (fun entry => entry.documents.len)
      (Caching.insert key ⟨documents, nextTick cache.tick⟩ cache.entries)
      (storedDocuments (Caching.insert key ⟨documents, nextTick cache.tick⟩ cache.entries))
      entries totalCachedDocuments) :
    Stores cacheLimit cache key documents
      ⟨nextTick cache.tick, totalCachedDocuments, entries⟩

/-- What holds of the cache whenever it is not locked. -/
structure Within (cacheLimit : ℕ) (cache : EpochRuntimeCache) : Prop where
  distinct : Distinct cache.entries
  totalCachedDocuments : cache.totalCachedDocuments = storedDocuments cache.entries
  total_le : cache.totalCachedDocuments ≤ cacheLimit

end EpochRuntimeCache

/-- The epochs of a storage, with the limit of its cache. -/
def epochs (cacheLimit : ℕ) :
    BuildStore EpochRuntimeCache RuntimeEpochKey GeneratedEpochDocuments where
  find := EpochRuntimeCache.find
  Stores := EpochRuntimeCache.Stores cacheLimit
  Room cache documents :=
    EpochRuntimeCache.storedDocuments cache.entries + documents.len ≤ usizeMax
  Prefetches := True

/-! ## Live batches are consistent -/

section Live

variable {entryLimit byteLimit : ℕ} {cache cache' : LiveDocumentBatchCache}
  {key k : LiveDocumentBatchKey} {documents d : List (List UInt32)}

/-- Documents that are in memory have as many bytes as are counted. -/
theorem countedBytes_eq (h : documentBytes documents ≤ usizeMax) :
    countedBytes documents = documentBytes documents := by
  have hloop : ∀ total : ℕ, total + documentBytes documents ≤ usizeMax →
      documents.foldl (fun total document =>
        saturatingAdd total (saturatingMul document.length 4)) total =
      total + documentBytes documents := by
    clear h
    induction documents with
    | nil => exact fun total _ => rfl
    | cons document documents ih =>
      intro total hfits
      have hcons : documentBytes (document :: documents) =
          document.length * 4 + documentBytes documents := sum_cons
      rw [hcons] at hfits ⊢
      rw [foldl_cons, saturatingMul_of_le (by omega), saturatingAdd_of_le (by omega),
        ih _ (by omega)]
      exact Nat.add_assoc _ _ _
  rw [countedBytes, hloop 0 (by omega), Nat.zero_add]

/-- The documents of an entry. -/
def LiveDocumentBatchCache.Holds (cache : LiveDocumentBatchCache) (key : LiveDocumentBatchKey)
    (documents : List (List UInt32)) : Prop :=
  ∃ entry, (key, entry) ∈ cache.entries ∧ entry.documents = documents

namespace LiveDocumentBatchCache

theorem within_empty (entryLimit byteLimit : ℕ) : Within entryLimit byteLimit empty where
  distinct := nodup_nil
  bytes := nofun
  totalBytes := rfl
  length_le := Nat.zero_le _
  single := fun h => absurd h (Nat.not_lt_zero _)

theorem entries_find (cache : LiveDocumentBatchCache) (key : LiveDocumentBatchKey) :
    (cache.find key).2.entries =
      modify key (CachedLiveDocumentBatch.touch (nextTick cache.tick)) cache.entries :=
  rfl

theorem Within.find (h : Within entryLimit byteLimit cache) (key : LiveDocumentBatchKey) :
    Within entryLimit byteLimit (cache.find key).2 := by
  have hlength : (cache.find key).2.entries.length = cache.entries.length := length_modify _ _ _
  refine
    { distinct := Distinct.modify h.distinct _ _
      bytes := fun p hp => ?_
      totalBytes := ?_
      length_le := hlength.le.trans h.length_le
      single := fun hlt => hlength.trans (h.single hlt) }
  · rw [entries_find] at hp
    rcases mem_modify hp with hsame | ⟨old, hold, heq⟩
    · exact h.bytes p hsame
    · rw [heq]
      exact h.bytes _ hold
  · have htouch : ∀ entry : CachedLiveDocumentBatch,
        documentBytes (entry.touch (nextTick cache.tick)).documents =
          documentBytes entry.documents := fun _ => rfl
    rw [storedBytes, entries_find, totalWeight_modify htouch]
    exact h.totalBytes

theorem holds_of_find_fst (h : (cache.find key).1 = some documents) :
    cache.Holds key documents := by
  obtain ⟨entry, hfind, rfl⟩ := Option.map_eq_some_iff.mp h
  exact ⟨entry, mem_of_find hfind, rfl⟩

theorem holds_of_find (h : (cache.find key).2.Holds k d) : cache.Holds k d := by
  obtain ⟨entry, hmem, rfl⟩ := h
  rw [entries_find] at hmem
  rcases mem_modify hmem with hsame | ⟨old, hold, rfl⟩
  · exact ⟨entry, hsame, rfl⟩
  · exact ⟨old, hold, rfl⟩

theorem Within.totalWeight_bytes (h : Within entryLimit byteLimit cache) :
    totalWeight CachedLiveDocumentBatch.bytes cache.entries = cache.storedBytes :=
  congrArg List.sum (map_congr_left h.bytes)

theorem Within.bytesWithout_eq (h : Within entryLimit byteLimit cache) :
    cache.bytesWithout key = totalWeight CachedLiveDocumentBatch.bytes cache.entries -
      ((Caching.find key cache.entries).map CachedLiveDocumentBatch.bytes).getD 0 := by
  rw [bytesWithout, h.totalWeight_bytes, ← h.totalBytes]
  cases Caching.find key cache.entries <;> rfl

/-- What a store has inserted is counted before it evicts. -/
theorem Within.inserted (h : Within entryLimit byteLimit cache)
    (hroom : cache.storedBytes + documentBytes documents ≤ usizeMax) (tick : ℕ) :
    saturatingAdd (cache.bytesWithout key) (countedBytes documents) =
      totalWeight CachedLiveDocumentBatch.bytes
        (Caching.insert key ⟨documents, countedBytes documents, tick⟩ cache.entries) := by
  have hcounted := countedBytes_eq ((Nat.le_add_left _ _).trans hroom)
  have hle : cache.bytesWithout key ≤ cache.storedBytes := by
    rw [h.bytesWithout_eq, h.totalWeight_bytes]
    exact Nat.sub_le _ _
  rw [totalWeight_insert h.distinct, ← h.bytesWithout_eq, saturatingAdd_of_le (by omega),
    Nat.add_comm]

theorem not_overLimits_nil (entryLimit byteLimit totalBytes : ℕ) :
    ¬ OverLimits entryLimit byteLimit [] totalBytes := by
  rintro (h | ⟨-, h⟩)
  · exact Nat.not_lt_zero _ h
  · exact Nat.not_lt_zero _ h

theorem Within.stores (h : Within entryLimit byteLimit cache)
    (hroom : cache.storedBytes + documentBytes documents ≤ usizeMax)
    (hstores : Stores entryLimit byteLimit cache key documents cache') :
    Within entryLimit byteLimit cache' := by
  obtain @⟨entries, totalBytes, hevicts⟩ := hstores
  obtain ⟨htotal, hover⟩ := hevicts.spec (h.distinct.insert _ _) (h.inserted hroom _)
  have hbytes : ∀ p ∈ entries, p.2.bytes = documentBytes p.2.documents := fun p hp => by
    rcases mem_insert (hevicts.sublist.subset hp) with ⟨-, hnew⟩ | hold
    · rw [hnew]
      exact countedBytes_eq ((Nat.le_add_left _ _).trans hroom)
    · exact h.bytes p hold
  rw [OverLimits, not_or, not_and_or, not_lt, not_lt, not_lt] at hover
  refine
    { distinct := (h.distinct.insert _ _).sublist hevicts.sublist
      bytes := hbytes
      totalBytes := htotal.trans (congrArg List.sum (map_congr_left hbytes))
      length_le := hover.1
      single := fun hlt => ?_ }
  -- without entries there are no bytes
  have hne : entries ≠ [] := by
    rintro rfl
    exact Nat.not_lt_zero _ (htotal ▸ hlt)
  have hpos := length_pos_of_ne_nil hne
  have hle := hover.2.resolve_left (not_le.mpr hlt)
  exact Nat.le_antisymm hle hpos

theorem holds_of_stores (h : Stores entryLimit byteLimit cache key documents cache')
    (hholds : cache'.Holds k d) : k = key ∧ d = documents ∨ cache.Holds k d := by
  obtain ⟨hevicts⟩ := h
  obtain ⟨entry, hmem, rfl⟩ := hholds
  rcases mem_insert (hevicts.sublist.subset hmem) with ⟨rfl, rfl⟩ | hold
  · exact .inl ⟨rfl, rfl⟩
  · exact .inr ⟨entry, hold, rfl⟩

theorem Within.exists_stores (h : Within entryLimit byteLimit cache)
    (hroom : cache.storedBytes + documentBytes documents ≤ usizeMax) :
    ∃ cache', Stores entryLimit byteLimit cache key documents cache' := by
  obtain ⟨entries, total, hevicts⟩ := exists_evicts (not_overLimits_nil entryLimit byteLimit 0)
    (h.distinct.insert key ⟨documents, countedBytes documents, nextTick cache.tick⟩)
    (h.inserted hroom _)
  exact ⟨_, .evicted hevicts⟩

theorem lawful (entryLimit byteLimit : ℕ) :
    System.Lawful (liveDocumentBatches entryLimit byteLimit) (Within entryLimit byteLimit)
      Holds where
  inv_find h := h.find _
  holds_find := holds_of_find_fst
  holds_of_find := holds_of_find
  inv_stores h hroom hstores := h.stores hroom hstores
  holds_of_stores := holds_of_stores
  exists_stores h hroom := h.exists_stores hroom

end LiveDocumentBatchCache

end Live

/-! ## Epochs are consistent -/

section Epochs

variable {cacheLimit : ℕ} {cache cache' : EpochRuntimeCache} {key k : RuntimeEpochKey}
  {documents d : GeneratedEpochDocuments}

/-- The documents of an entry. -/
def EpochRuntimeCache.Holds (cache : EpochRuntimeCache) (key : RuntimeEpochKey)
    (documents : GeneratedEpochDocuments) : Prop :=
  ∃ entry, (key, entry) ∈ cache.entries ∧ entry.documents = documents

namespace EpochRuntimeCache

theorem within_empty (cacheLimit : ℕ) : Within cacheLimit empty where
  distinct := nodup_nil
  totalCachedDocuments := rfl
  total_le := Nat.zero_le _

theorem entries_find (cache : EpochRuntimeCache) (key : RuntimeEpochKey) :
    (cache.find key).2.entries =
      modify key (CachedEpochDocuments.touch (nextTick cache.tick)) cache.entries :=
  rfl

theorem Within.find (h : Within cacheLimit cache) (key : RuntimeEpochKey) :
    Within cacheLimit (cache.find key).2 := by
  have htouch : ∀ entry : CachedEpochDocuments,
      (entry.touch (nextTick cache.tick)).documents.len = entry.documents.len := fun _ => rfl
  refine ⟨Distinct.modify h.distinct _ _, ?_, h.total_le⟩
  rw [storedDocuments, entries_find, totalWeight_modify htouch]
  exact h.totalCachedDocuments

theorem holds_of_find_fst (h : (cache.find key).1 = some documents) :
    cache.Holds key documents := by
  obtain ⟨entry, hfind, rfl⟩ := Option.map_eq_some_iff.mp h
  exact ⟨entry, mem_of_find hfind, rfl⟩

theorem holds_of_find (h : (cache.find key).2.Holds k d) : cache.Holds k d := by
  obtain ⟨entry, hmem, rfl⟩ := h
  rw [entries_find] at hmem
  rcases mem_modify hmem with hsame | ⟨old, hold, rfl⟩
  · exact ⟨entry, hsame, rfl⟩
  · exact ⟨old, hold, rfl⟩

theorem Within.stores (h : Within cacheLimit cache)
    (hstores : Stores cacheLimit cache key documents cache') : Within cacheLimit cache' := by
  obtain ⟨hevicts⟩ := hstores
  obtain ⟨htotal, hover⟩ := hevicts.spec (h.distinct.insert _ _) rfl
  exact ⟨(h.distinct.insert _ _).sublist hevicts.sublist, htotal, not_lt.mp hover⟩

theorem holds_of_stores (h : Stores cacheLimit cache key documents cache')
    (hholds : cache'.Holds k d) : k = key ∧ d = documents ∨ cache.Holds k d := by
  obtain ⟨hevicts⟩ := h
  obtain ⟨entry, hmem, rfl⟩ := hholds
  rcases mem_insert (hevicts.sublist.subset hmem) with ⟨rfl, rfl⟩ | hold
  · exact .inl ⟨rfl, rfl⟩
  · exact .inr ⟨entry, hold, rfl⟩

theorem Within.exists_stores (h : Within cacheLimit cache) (key : RuntimeEpochKey)
    (documents : GeneratedEpochDocuments) :
    ∃ cache', Stores cacheLimit cache key documents cache' := by
  have hover : ¬ OverLimit cacheLimit [] 0 := Nat.not_lt_zero cacheLimit
  obtain ⟨entries, total, hevicts⟩ :=
    exists_evicts hover (h.distinct.insert key ⟨documents, nextTick cache.tick⟩) rfl
  exact ⟨_, .evicted hevicts⟩

theorem lawful (cacheLimit : ℕ) : System.Lawful (epochs cacheLimit) (Within cacheLimit) Holds where
  inv_find h := h.find _
  holds_find := holds_of_find_fst
  holds_of_find := holds_of_find
  inv_stores h _ hstores := h.stores hstores
  holds_of_stores := holds_of_stores
  exists_stores h _ := h.exists_stores _ _

end EpochRuntimeCache

end Epochs

/-! ## Both caches -/

open Transition System

/-- **The caches of generated documents stay consistent**, for any threads, limits and
interleaving. -/
theorem documentCaches_consistent {T : Type*} [DecidableEq T]
    (entryLimit byteLimit cacheLimit : ℕ) :
    (∀ (events : List (BuildEvent T LiveDocumentBatchKey (List (List UInt32))))
      (s : System T LiveDocumentBatchCache LiveDocumentBatchKey (List (List UInt32))),
      Run (Steps (liveDocumentBatches entryLimit byteLimit)) (initial .empty) events s →
        Consistent (liveDocumentBatches entryLimit byteLimit)
          (LiveDocumentBatchCache.Within entryLimit byteLimit) events s) ∧
    ∀ (events : List (BuildEvent T RuntimeEpochKey GeneratedEpochDocuments))
      (s : System T EpochRuntimeCache RuntimeEpochKey GeneratedEpochDocuments),
      Run (Steps (epochs cacheLimit)) (initial .empty) events s →
        Consistent (epochs cacheLimit) (EpochRuntimeCache.Within cacheLimit) events s := by
  constructor
  · intro events s hrun
    have hempty : ∀ key documents, ¬ LiveDocumentBatchCache.empty.Holds key documents :=
      fun key documents ⟨_, hmem, _⟩ => nomatch hmem
    exact consistent (LiveDocumentBatchCache.lawful entryLimit byteLimit)
      (LiveDocumentBatchCache.within_empty entryLimit byteLimit) hempty hrun
  · intro events s hrun
    have hempty : ∀ key documents, ¬ EpochRuntimeCache.empty.Holds key documents :=
      fun key documents ⟨_, hmem, _⟩ => nomatch hmem
    exact consistent (EpochRuntimeCache.lawful cacheLimit)
      (EpochRuntimeCache.within_empty cacheLimit) hempty hrun

def liveKey : LiveDocumentBatchKey := ⟨0, 0, 0, "bucket", 1⟩

def epochKey : RuntimeEpochKey := ⟨0, 1⟩

theorem room_of_entries_eq_nil {entryLimit byteLimit : ℕ} {cache : LiveDocumentBatchCache}
    {documents : List (List UInt32)} (h : cache.entries = [])
    (hbytes : documentBytes documents ≤ usizeMax) :
    (liveDocumentBatches entryLimit byteLimit).Room cache documents := by
  change cache.storedBytes + _ ≤ _
  rwa [LiveDocumentBatchCache.storedBytes, h, totalWeight, map_nil, sum_nil, Nat.zero_add]

/-- With a limit of no entries, a store drops what it has inserted. -/
theorem stores_of_entries_eq_nil {cache : LiveDocumentBatchCache} (h : cache.entries = [])
    (byteLimit : ℕ) (key : LiveDocumentBatchKey) (documents : List (List UInt32)) :
    LiveDocumentBatchCache.Stores 0 byteLimit cache key documents ⟨nextTick cache.tick,
      saturatingAdd (cache.bytesWithout key) (countedBytes documents) - countedBytes documents,
      []⟩ := by
  refine .evicted (.evict (.inl (Nat.succ_pos _)) mem_cons_self ?_ ?_)
  · rw [h]
    intro p hp
    rw [mem_singleton.mp hp]
  · have hremoved (entry : CachedLiveDocumentBatch) :
        remove key (Caching.insert key entry []) = [] := by
      simp [remove, Caching.insert]
    rw [h, hremoved]
    exact .done (LiveDocumentBatchCache.not_overLimits_nil _ _ _)

/-- With a limit of no entries, a batch is gone before the thread that waits for it wakes up, which
then builds it again. A thread that prefetches an epoch starts another one. -/
theorem documentCaches_consistent_zero :
    (∃ (events : List (BuildEvent Bool LiveDocumentBatchKey (List (List UInt32))))
      (s : System Bool LiveDocumentBatchCache LiveDocumentBatchKey (List (List UInt32))),
      s.phase true = .building liveKey ∧ .returned false liveKey [[7]] ∈ events ∧
        Consistent (liveDocumentBatches 0 0) (LiveDocumentBatchCache.Within 0 0) events s) ∧
    ∃ (events : List (BuildEvent Bool RuntimeEpochKey GeneratedEpochDocuments))
      (s : System Bool EpochRuntimeCache RuntimeEpochKey GeneratedEpochDocuments),
      s.phase true = .building epochKey ∧
        Consistent (epochs 0) (EpochRuntimeCache.Within 0) events s := by
  constructor
  · refine ⟨_, _, ?_, ?_, (documentCaches_consistent 0 0 0).1 _ _
      (.tail (.tail (.tail (.tail (.tail (.tail (.tail (.tail .refl
        ⟨false, .ask liveKey rfl⟩) ⟨false, .claim rfl rfl (by decide)⟩)
        ⟨true, .ask liveKey rfl⟩) ⟨true, .wait rfl rfl (by decide)⟩)
        ⟨false, .build rfl [[7]]⟩)
        ⟨false, .store rfl (room_of_entries_eq_nil rfl (by decide))
          (stores_of_entries_eq_nil rfl _ _ _)⟩)
        ⟨true, .wake rfl⟩) ⟨true, .claim rfl rfl (by decide)⟩)⟩
    · rfl
    · simp
  · refine ⟨_, _, ?_, (documentCaches_consistent 0 0 0).2 _ _ (.tail (.tail .refl
      ⟨false, .prefetch epochKey trivial rfl rfl (by decide)⟩) ⟨false, .spawn true rfl rfl⟩)⟩
    rfl

end BurnDragon.Dataset
