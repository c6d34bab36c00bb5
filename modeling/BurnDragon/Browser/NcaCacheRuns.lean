import BurnDragon.Browser.NcaCache

/-!
# Answers from the cache

A cache that is bound to a corpus answers as the corpus does (`Serves.records_eq`). As `bind` stores the
key of a source before the corpus is constructed, a cache whose last construction failed is bound to
nothing, or to the corpus before; it answers like a new cache as long as no key is asked for again after
such a failure (`cache_transparent`). The bytes are counted right in any case.
-/

namespace BurnDragon.Browser

open Rust Nca Option

variable {ρ : Type} {overflowChecks : Bool} {fuel : ℕ} {ext : Nca.Externals ρ} {browser : Externals}
  {cache cache' : BrowserGeneratedNcaCache} {request : Request} {requests : List Request}
  {split : DragonBrowserDatasetSplit}

namespace BrowserGeneratedNcaCache

/-! ## Bytes -/

/-- The cached bytes are those of the cached documents, and below the limit. -/
structure Counted (cache : BrowserGeneratedNcaCache) : Prop where
  sum : cache.stats.bytes = (cache.documents.entries.map fun entry => entry.2.length * 4).sum
  le_max : cache.stats.bytes ≤ browserGeneratedNcaCacheMaxBytes

theorem counted_empty : empty.Counted := ⟨rfl, Nat.zero_le _⟩

theorem Counted.store (h : cache.Counted) {key : ℕ ×ₗ ℕ} (hkey : cache.documents.get? key = none)
    (tokens : List ℕ) : (cache.store key tokens).Counted := by
  unfold BrowserGeneratedNcaCache.store
  dsimp only
  split_ifs with hfits
  · have hmax : browserGeneratedNcaCacheMaxBytes < usizeMax := by decide
    have hadd := (saturatingAdd_le_iff hmax).1 hfits
    have hmul : saturatingMul tokens.length 4 = tokens.length * 4 :=
      saturatingMul_of_le (by unfold saturatingMul at hadd; omega)
    have hbytes : saturatingAdd cache.stats.bytes (tokens.length * 4) =
        cache.stats.bytes + tokens.length * 4 := saturatingAdd_of_le (by omega)
    refine ⟨?_, hfits⟩
    change saturatingAdd cache.stats.bytes (saturatingMul tokens.length 4) = _
    rw [((BTreeMap.entries_insert_perm tokens hkey).map _).sum_nat, List.map_cons, List.sum_cons,
      ← h.sum, hmul, hbytes, Nat.add_comm]
  · exact ⟨h.sum, h.le_max⟩

variable {sampleIndex : ℕ}

theorem Counted.documentTokens (h : cache.Counted)
    {result : Fallible String (List ℕ)}
    (hrun : cache.documentTokens overflowChecks fuel ext split sampleIndex = some (result, cache')) :
    cache'.Counted := by
  unfold BrowserGeneratedNcaCache.documentTokens at hrun
  split at hrun
  · cases hrun
    exact ⟨h.sum, h.le_max⟩
  · rename_i hkey
    split at hrun
    · cases hrun
      exact h
    · obtain ⟨document, -, hrun⟩ := map_eq_some_iff.1 hrun
      cases document with
      | error e =>
        cases hrun
        exact h
      | ok tokens =>
        cases hrun
        exact h.store hkey tokens

variable {result : Fallible String (List TokenWindowRecord)}

theorem Counted.records (h : cache.Counted)
    (hrun : cache.records overflowChecks fuel ext browser request = some (result, cache')) :
    cache'.Counted := by
  unfold BrowserGeneratedNcaCache.records at hrun
  split at hrun
  · cases hrun
    exact h
  · exact recordsLoop_preserves (fun _ _ _ _ h hrun => h.documentTokens hrun) h hrun

theorem Counted.bind (h : cache.Counted) :
    (cache.bind overflowChecks browser request).2.Counted := by
  unfold BrowserGeneratedNcaCache.bind
  split
  · exact h
  · split_ifs
    · exact h
    · dsimp only
      split
      · exact ⟨h.sum, h.le_max⟩
      · exact ⟨rfl, Nat.zero_le _⟩

theorem Counted.generatedNcaRecordsCached (h : cache.Counted)
    (hrun : cache.generatedNcaRecordsCached overflowChecks fuel ext browser request = some (result,
      cache')) : cache'.Counted := by
  have hbind : (cache.bind overflowChecks browser request).2.Counted := h.bind
  unfold BrowserGeneratedNcaCache.generatedNcaRecordsCached at hrun
  split at hrun
  · rename_i heq
    cases hrun
    rwa [heq] at hbind
  · rename_i heq
    rw [heq] at hbind
    exact hbind.records hrun

/-! ## Documents -/

/-- The cache is bound to a corpus, and its documents are documents of that corpus. -/
structure Serves (overflowChecks : Bool) (fuel : ℕ) (ext : Nca.Externals ρ) (sourceKey : String)
    (corpus : OnlineNcaCorpus) (cache : BrowserGeneratedNcaCache) : Prop where
  key : cache.sourceKey = some sourceKey
  runtime : cache.runtime = some corpus
  documents : ∀ split sampleIndex tokens,
    cache.documents.get? (toLex (datasetSplitKey split, sampleIndex)) = some tokens →
      (corpus.generateDocumentTokens overflowChecks fuel ext (datasetSplit split) sampleIndex).run =
        some (.ok tokens)

variable {sourceKey : String} {corpus : OnlineNcaCorpus}

theorem datasetSplitKey_injective : Function.Injective datasetSplitKey := by
  intro split split' h
  cases split <;> cases split' <;> trivial

section

variable (h : cache.Serves overflowChecks fuel ext sourceKey corpus)
include h

theorem Serves.store {tokens : List ℕ}
    (htokens : (corpus.generateDocumentTokens overflowChecks fuel ext (datasetSplit split)
      sampleIndex).run = some (.ok tokens)) :
    (cache.store (toLex (datasetSplitKey split, sampleIndex)) tokens).Serves overflowChecks fuel ext
      sourceKey corpus := by
  unfold BrowserGeneratedNcaCache.store
  dsimp only
  split_ifs
  · refine ⟨h.key, h.runtime, fun split' sampleIndex' tokens' hget => ?_⟩
    simp only [BTreeMap.get?_insert] at hget
    split_ifs at hget with hkey
    · obtain ⟨hsplit, rfl⟩ := Prod.mk.inj (toLex_inj.1 hkey)
      cases datasetSplitKey_injective hsplit
      cases hget
      exact htokens
    · exact h.documents split' sampleIndex' tokens' hget
  · exact ⟨h.key, h.runtime, h.documents⟩

/-- A bound cache finds or makes the documents of its corpus. -/
theorem Serves.documentTokens_eq (split : DragonBrowserDatasetSplit) (sampleIndex : ℕ) :
    (cache.documentTokens overflowChecks fuel ext split sampleIndex).map Prod.fst =
      (corpus.generateDocumentTokens overflowChecks fuel ext (datasetSplit split) sampleIndex).run := by
  unfold BrowserGeneratedNcaCache.documentTokens
  split
  · rename_i tokens hget
    exact (h.documents split sampleIndex tokens hget).symm
  · rw [h.runtime]
    dsimp only
    rcases (corpus.generateDocumentTokens overflowChecks fuel ext (datasetSplit split)
      sampleIndex).run with _ | _ | tokens <;> rfl

theorem Serves.documentTokens {result : Fallible String (List ℕ)}
    (hrun : cache.documentTokens overflowChecks fuel ext split sampleIndex = some (result, cache')) :
    cache'.Serves overflowChecks fuel ext sourceKey corpus := by
  unfold BrowserGeneratedNcaCache.documentTokens at hrun
  split at hrun
  · cases hrun
    exact ⟨h.key, h.runtime, h.documents⟩
  · rw [h.runtime] at hrun
    obtain ⟨document, hdocument, hrun⟩ := map_eq_some_iff.1 hrun
    cases document with
    | error e =>
      cases hrun
      exact h
    | ok tokens =>
      cases hrun
      exact h.store hdocument

/-- Caches that are bound to one corpus answer alike. -/
theorem Serves.records_eq (h' : cache'.Serves overflowChecks fuel ext sourceKey corpus)
    (request : Request) :
    (cache.records overflowChecks fuel ext browser request).map Prod.fst =
      (cache'.records overflowChecks fuel ext browser request).map Prod.fst := by
  rw [BrowserGeneratedNcaCache.records, BrowserGeneratedNcaCache.records, h.runtime, h'.runtime]
  exact recordsLoop_eq
    (R := fun cache cache' => cache.Serves overflowChecks fuel ext sourceKey corpus ∧
      cache'.Serves overflowChecks fuel ext sourceKey corpus)
    (fun i _ _ hserves =>
      (hserves.1.documentTokens_eq request.split i).trans
        (hserves.2.documentTokens_eq request.split i).symm)
    (fun _ _ _ _ _ _ _ hserves hrun hrun' =>
      ⟨hserves.1.documentTokens hrun, hserves.2.documentTokens hrun'⟩) _ _ ⟨h, h'⟩

theorem Serves.records
    (hrun : cache.records overflowChecks fuel ext browser request = some (result, cache')) :
    cache'.Serves overflowChecks fuel ext sourceKey corpus := by
  rw [BrowserGeneratedNcaCache.records, h.runtime] at hrun
  exact recordsLoop_preserves (fun _ _ _ _ h hrun => h.documentTokens hrun) h hrun

end

/-! ## Binding -/

/-- What a cache is bound to after requests of which `last` is the last one with a key. -/
structure Bound (overflowChecks : Bool) (fuel : ℕ) (ext : Nca.Externals ρ) (browser : Externals)
    (last : Option Request) (cache : BrowserGeneratedNcaCache) : Prop where
  key : cache.sourceKey = last.bind fun request => (request.sourceKey browser).toOption
  keyed : ∀ request ∈ last, ∃ sourceKey, request.sourceKey browser = .ok sourceKey
  serves : ∀ request ∈ last, ∀ corpus, request.runtime overflowChecks browser = .ok corpus →
    ∀ sourceKey, request.sourceKey browser = .ok sourceKey →
      cache.Serves overflowChecks fuel ext sourceKey corpus

end BrowserGeneratedNcaCache

/-- The last request with a key. -/
def lastKeyed (browser : Externals) (last : Option Request) (request : Request) : Option Request :=
  match request.sourceKey browser with
  | .ok _ => some request
  | .error _ => last

/-- A request with the key of the last request: the corpus was constructed, and is constructed again. -/
def Rebindable (overflowChecks : Bool) (browser : Externals) (last : Option Request)
    (request : Request) : Prop :=
  ∀ previous ∈ last, previous.sourceKey browser = request.sourceKey browser →
    ∃ corpus, previous.runtime overflowChecks browser = .ok corpus ∧
      request.runtime overflowChecks browser = .ok corpus

/-- Every request is rebindable when it is made. -/
def Consistent (overflowChecks : Bool) (browser : Externals) : Option Request → List Request → Prop
  | _, [] => True
  | last, request :: requests => Rebindable overflowChecks browser last request ∧
    Consistent overflowChecks browser (lastKeyed browser last request) requests

namespace BrowserGeneratedNcaCache

variable {last : Option Request}

theorem bound_empty : empty.Bound overflowChecks fuel ext browser none :=
  ⟨rfl, by simp, by simp⟩

variable {sourceKey : String}

section

variable (hkey : request.sourceKey browser = .ok sourceKey)
include hkey

/-- A request with another key than the stored one constructs its corpus, after its key is stored. -/
theorem bind_of_error {e : Fault String} (hne : cache.sourceKey ≠ some sourceKey)
    (hruntime : request.runtime overflowChecks browser = .error e) :
    cache.bind overflowChecks browser request =
      (.error e, { cache with sourceKey := some sourceKey }) := by
  rw [BrowserGeneratedNcaCache.bind, hkey]
  dsimp only
  rw [if_neg hne, hruntime]

theorem bind_of_ok {corpus : OnlineNcaCorpus} (hne : cache.sourceKey ≠ some sourceKey)
    (hruntime : request.runtime overflowChecks browser = .ok corpus) :
    cache.bind overflowChecks browser request =
      (.ok (), ⟨some sourceKey, some corpus, .empty, ⟨0, 0, 0⟩⟩) := by
  rw [BrowserGeneratedNcaCache.bind, hkey]
  dsimp only
  rw [if_neg hne, hruntime]

theorem bind_of_eq (heq : cache.sourceKey = some sourceKey) :
    cache.bind overflowChecks browser request = (.ok (), cache) := by
  rw [BrowserGeneratedNcaCache.bind, hkey]
  exact if_pos heq

end

theorem generated_of_bind_error {e : Fault String}
    (h : cache.bind overflowChecks browser request = (.error e, cache')) :
    cache.generatedNcaRecordsCached overflowChecks fuel ext browser request =
      some (.error e, cache') := by
  rw [generatedNcaRecordsCached, h]

theorem generated_of_bind_ok (h : cache.bind overflowChecks browser request = (.ok (), cache')) :
    cache.generatedNcaRecordsCached overflowChecks fuel ext browser request =
      cache'.records overflowChecks fuel ext browser request := by
  rw [generatedNcaRecordsCached, h]

/-- A cache that is newly bound. -/
theorem serves_new (sourceKey : String) (corpus : OnlineNcaCorpus) :
    Serves overflowChecks fuel ext sourceKey corpus
      ⟨some sourceKey, some corpus, .empty, ⟨0, 0, 0⟩⟩ :=
  ⟨rfl, rfl, fun _ _ _ hget => by simp at hget⟩

theorem lastKeyed_of_ok (hkey : request.sourceKey browser = .ok sourceKey) :
    lastKeyed browser last request = some request := by
  rw [lastKeyed, hkey]

theorem Serves.bound {corpus : OnlineNcaCorpus}
    (h : cache.Serves overflowChecks fuel ext sourceKey corpus)
    (hkey : request.sourceKey browser = .ok sourceKey)
    (hruntime : request.runtime overflowChecks browser = .ok corpus) :
    cache.Bound overflowChecks fuel ext browser (lastKeyed browser last request) := by
  rw [lastKeyed_of_ok hkey]
  refine ⟨by rw [h.key, bind_some, hkey]; rfl, ?_, ?_⟩
  · rintro _ ⟨⟩
    exact ⟨sourceKey, hkey⟩
  · rintro _ ⟨⟩ corpus' hruntime' sourceKey' hkey'
    cases hruntime.symm.trans hruntime'
    cases hkey.symm.trans hkey'
    exact h

/-- One request, to a cache and to a new one. -/
theorem Bound.respond (h : cache.Bound overflowChecks fuel ext browser last)
    (hrebind : Rebindable overflowChecks browser last request) :
    (cache.generatedNcaRecordsCached overflowChecks fuel ext browser request).map Prod.fst =
      (empty.generatedNcaRecordsCached overflowChecks fuel ext browser request).map Prod.fst ∧
    ∀ result cache', cache.generatedNcaRecordsCached overflowChecks fuel ext browser request =
      some (result, cache') →
      cache'.Bound overflowChecks fuel ext browser (lastKeyed browser last request) := by
  cases hkey : request.sourceKey browser with
  | error e =>
    have hbind : ∀ cache : BrowserGeneratedNcaCache,
        cache.bind overflowChecks browser request = (.error e, cache) := fun cache => by
      rw [BrowserGeneratedNcaCache.bind, hkey]
    rw [generated_of_bind_error (hbind cache), generated_of_bind_error (hbind empty)]
    refine ⟨rfl, fun result cache' heq => ?_⟩
    cases heq
    rwa [lastKeyed, hkey]
  | ok sourceKey =>
    have hempty : empty.sourceKey ≠ some sourceKey := nofun
    by_cases hsame : cache.sourceKey = some sourceKey
    · -- The key of the last request: its corpus is the one of this request.
      rw [h.key] at hsame
      obtain ⟨previous, rfl, hsame⟩ := bind_eq_some_iff.1 hsame
      obtain ⟨previousKey, hprevious⟩ := h.keyed previous rfl
      obtain rfl : previousKey = sourceKey := by simpa [hprevious, Except.toOption] using hsame
      obtain ⟨corpus, hcorpus, hruntime⟩ := hrebind previous rfl (hprevious.trans hkey.symm)
      have hserves := h.serves previous rfl corpus hcorpus previousKey hprevious
      rw [generated_of_bind_ok (bind_of_eq hkey hserves.key),
        generated_of_bind_ok (bind_of_ok hkey hempty hruntime)]
      exact ⟨hserves.records_eq (serves_new previousKey corpus) request, fun result cache' hrun =>
        (hserves.records hrun).bound hkey hruntime⟩
    · cases hruntime : request.runtime overflowChecks browser with
      | error e =>
        rw [generated_of_bind_error (bind_of_error hkey hsame hruntime),
          generated_of_bind_error (bind_of_error hkey hempty hruntime)]
        refine ⟨rfl, fun result cache' heq => ?_⟩
        cases heq
        rw [lastKeyed_of_ok hkey]
        refine ⟨by rw [bind_some, hkey]; rfl, ?_, ?_⟩
        · rintro _ ⟨⟩
          exact ⟨sourceKey, hkey⟩
        · rintro _ ⟨⟩ corpus hok
          cases hruntime.symm.trans hok
      | ok corpus =>
        rw [generated_of_bind_ok (bind_of_ok hkey hsame hruntime),
          generated_of_bind_ok (bind_of_ok hkey hempty hruntime)]
        exact ⟨rfl, fun result cache' hrun =>
          ((serves_new sourceKey corpus).records hrun).bound hkey hruntime⟩

/-! ## Sequences of requests -/

theorem Bound.serveAll (h : cache.Bound overflowChecks fuel ext browser last)
    (hrequests : Consistent overflowChecks browser last requests) :
    (cache.serveAll overflowChecks fuel ext browser requests).map Prod.fst =
      requests.mapM fun request =>
        (empty.generatedNcaRecordsCached overflowChecks fuel ext browser request).map Prod.fst := by
  induction requests generalizing cache last with
  | nil => rfl
  | cons request requests ih =>
    obtain ⟨hrebind, hrest⟩ := hrequests
    obtain ⟨heq, hbound⟩ := h.respond hrebind
    rw [BrowserGeneratedNcaCache.serveAll, List.mapM_cons, ← heq]
    rcases hrun : cache.generatedNcaRecordsCached overflowChecks fuel ext browser request with
      _ | ⟨response, next⟩
    · rfl
    · have hnext := ih (hbound _ _ hrun) hrest
      simp only [map_some, bind_eq_bind, bind_some]
      rw [← hnext]
      rcases next.serveAll overflowChecks fuel ext browser requests with _ | ⟨responses, last⟩ <;> rfl

/-- The bytes are counted right after all requests, also after failures. -/
theorem Counted.serveAll (h : cache.Counted)
    {responses : List (Fallible String (List TokenWindowRecord))}
    (hrun : cache.serveAll overflowChecks fuel ext browser requests = some (responses, cache')) :
    cache'.Counted := by
  induction requests generalizing cache responses with
  | nil =>
    cases hrun
    exact h
  | cons request requests ih =>
    obtain ⟨⟨response, next⟩, hnext, hrun⟩ := bind_eq_some_iff.1 hrun
    obtain ⟨⟨rest, last⟩, hrest, hrun⟩ := bind_eq_some_iff.1 hrun
    cases hrun
    exact ih (h.generatedNcaRecordsCached hnext) hrest

/-- **The cache is transparent** for requests that are consistent: every request is answered as by a new
cache, and the bytes are those of the cached documents and below the limit. -/
theorem cache_transparent (h : Consistent overflowChecks browser none requests) :
    (empty.serveAll overflowChecks fuel ext browser requests).map Prod.fst =
      (requests.mapM fun request =>
        (empty.generatedNcaRecordsCached overflowChecks fuel ext browser request).map Prod.fst) ∧
    ∀ responses cache, empty.serveAll overflowChecks fuel ext browser requests =
      some (responses, cache) →
        cache.stats.bytes = (cache.documents.entries.map fun entry => entry.2.length * 4).sum ∧
          cache.stats.bytes ≤ browserGeneratedNcaCacheMaxBytes :=
  ⟨bound_empty.serveAll h, fun _ _ hrun =>
    ⟨(counted_empty.serveAll hrun).sum, (counted_empty.serveAll hrun).le_max⟩⟩

/-- A configuration with fixed grids and steps. -/
def fixedConfig (tokenization : NcaTokenizationConfig) : NcaCorpusConfig :=
  { outputDir := "out"
    seed := 1
    name := "fixed"
    trainSamples := 1
    validationSamples := 0
    chunkTokenCapacity := 16
    serialization := ⟨1, true, 1⟩
    tokenization
    families := [{
      kind := .cyclic
      weight := 1
      complexity := .simple
      gridSize := some ⟨1, 1⟩
      steps := some ⟨4, 4⟩
      stateCount := some ⟨3, 3⟩
      stepStride := none
      startStep := none
      identityBias := none
      temperature := none
      ruleFilter := none }] }

/-- A request for the records of no documents. -/
def fixedRequest (tokenization : NcaTokenizationConfig) : Request :=
  { corpus := fixedConfig tokenization
    split := .train
    blockSize := 1
    selection := ⟨some 0, none, none, none⟩ }

/-- The text of `fixedConfig`, for the two tokenizations that it is used with. -/
def fixedJson (config : NcaCorpusConfig) : Fallible String String :=
  match config.tokenization with
  | .patchTokenIds .. => .ok ("\x7b\"output_dir\":\"out\",\"seed\":1,\"name\":\"fixed\"," ++
      "\"train_samples\":1,\"validation_samples\":0,\"chunk_token_capacity\":16," ++
      "\"serialization\":\x7b\"patch_size\":1,\"include_observable_header\":true," ++
      "\"preview_samples\":1\x7d,\"tokenization\":\x7b\"type\":\"patch_token_ids\"," ++
      "\"vocab_size\":3,\"eos_id\":null,\"frame_special_tokens\":false\x7d," ++
      "\"families\":[\x7b\"kind\":\"cyclic\",\"weight\":1,\"complexity\":\"simple\"," ++
      "\"grid_size\":\x7b\"min\":1,\"max\":1\x7d,\"steps\":\x7b\"min\":4,\"max\":4\x7d," ++
      "\"state_count\":\x7b\"min\":3,\"max\":3\x7d,\"step_stride\":null,\"start_step\":null," ++
      "\"identity_bias\":null,\"temperature\":null,\"rule_filter\":null\x7d]\x7d")
  | _ => .ok ("\x7b\"output_dir\":\"out\",\"seed\":1,\"name\":\"fixed\"," ++
      "\"train_samples\":1,\"validation_samples\":0,\"chunk_token_capacity\":16," ++
      "\"serialization\":\x7b\"patch_size\":1,\"include_observable_header\":true," ++
      "\"preview_samples\":1\x7d,\"tokenization\":\x7b\"type\":\"gpt2_byte_compatible\"," ++
      "\"vocab_size\":300,\"eos_id\":null\x7d," ++
      "\"families\":[\x7b\"kind\":\"cyclic\",\"weight\":1,\"complexity\":\"simple\"," ++
      "\"grid_size\":\x7b\"min\":1,\"max\":1\x7d,\"steps\":\x7b\"min\":4,\"max\":4\x7d," ++
      "\"state_count\":\x7b\"min\":3,\"max\":3\x7d,\"step_stride\":null,\"start_step\":null," ++
      "\"identity_bias\":null,\"temperature\":null,\"rule_filter\":null\x7d]\x7d")

def fixedExternals : Externals := ⟨fixedJson, id, fun _ => .error (.error "failed to read")⟩

/-- A generator that draws the lower bound. -/
def lowerBounds : Nca.Externals Unit where
  seedFromU64 _ := ()
  nextU64 _ := (0, ())
  genUsize lower _ _ := (lower, ())
  genInt lower _ _ := (lower, ())
  genFloat lower _ _ := (lower, ())
  genFloatInclusive lower _ _ := (lower, ())
  genBool _ _ := (false, ())
  gzip bytes := bytes
  genUsize_mem _ _ _ h := ⟨le_rfl, h⟩

theorem cache_transparent_twice :
    ((empty.serveAll false 4 lowerBounds fixedExternals
        [fixedRequest (.patchTokenIds 3 none false), fixedRequest (.patchTokenIds 3 none false)]).map
          Prod.fst =
      [fixedRequest (.patchTokenIds 3 none false), fixedRequest (.patchTokenIds 3 none false)].mapM
        fun request => (empty.generatedNcaRecordsCached false 4 lowerBounds fixedExternals request).map
          Prod.fst) ∧
    ∀ responses cache, empty.serveAll false 4 lowerBounds fixedExternals
        [fixedRequest (.patchTokenIds 3 none false), fixedRequest (.patchTokenIds 3 none false)] =
      some (responses, cache) →
        cache.stats.bytes = (cache.documents.entries.map fun entry => entry.2.length * 4).sum ∧
          cache.stats.bytes ≤ browserGeneratedNcaCacheMaxBytes :=
  cache_transparent ⟨by simp [Rebindable], by rintro _ ⟨⟩ -; exact ⟨_, rfl, rfl⟩, trivial⟩

/-- A request whose corpus cannot be constructed, made twice after another one. -/
theorem serveAll_failure_twice :
    (empty.serveAll false 4 lowerBounds fixedExternals
      [fixedRequest (.patchTokenIds 3 none false), fixedRequest (.gpt2ByteCompatible 300 none),
        fixedRequest (.gpt2ByteCompatible 300 none)]).map Prod.fst =
      some [.ok [], .error (.error
        "on-the-fly NCA training currently requires tokenization.type = `patch_token_ids`"), .ok []] ∧
    (empty.generatedNcaRecordsCached false 4 lowerBounds fixedExternals
      (fixedRequest (.gpt2ByteCompatible 300 none))).map Prod.fst =
      some (.error (.error
        "on-the-fly NCA training currently requires tokenization.type = `patch_token_ids`")) := by
  obtain ⟨corpus, hcorpus⟩ : ∃ corpus,
      (fixedRequest (.patchTokenIds 3 none false)).runtime false fixedExternals = .ok corpus := ⟨_, rfl⟩
  have hfailure : (fixedRequest (.gpt2ByteCompatible 300 none)).runtime false fixedExternals =
      .error (.error
        "on-the-fly NCA training currently requires tokenization.type = `patch_token_ids`") := rfl
  obtain ⟨key, hkey, failingKey, hfailingKey, hne⟩ : ∃ key,
      (fixedRequest (.patchTokenIds 3 none false)).sourceKey fixedExternals = .ok key ∧ ∃ failingKey,
      (fixedRequest (.gpt2ByteCompatible 300 none)).sourceKey fixedExternals = .ok failingKey ∧
      key ≠ failingKey := ⟨_, rfl, _, rfl, by simp [fixedRequest]⟩
  have hrecords : ∀ cache : BrowserGeneratedNcaCache, cache.runtime = some corpus → ∀ tokenization,
      cache.records false 4 lowerBounds fixedExternals (fixedRequest tokenization) =
        some (.ok [], cache) := by
    intro cache hcache tokenization
    rw [records, hcache]
    simp [generatedRecordsWithWindowizer, deterministicSampleIndices, fixedRequest,
      sampleSelectionMaterial, recordsLoop]
  have hempty : ∀ {key}, empty.sourceKey ≠ some key := (Option.some_ne_none _).symm
  refine ⟨?_, by rw [generated_of_bind_error (bind_of_error hfailingKey hempty hfailure)]; rfl⟩
  rw [serveAll, generated_of_bind_ok (bind_of_ok hkey hempty hcorpus), hrecords _ rfl]
  simp only [Option.bind_eq_bind, Option.bind_some]
  rw [serveAll, generated_of_bind_error (bind_of_error hfailingKey (by simpa using hne) hfailure)]
  simp only [Option.bind_eq_bind, Option.bind_some]
  rw [serveAll, generated_of_bind_ok (bind_of_eq hfailingKey rfl), hrecords _ rfl]
  rfl

end BrowserGeneratedNcaCache

end BurnDragon.Browser
