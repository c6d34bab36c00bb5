import BurnDragon.Browser.Records
import BurnDragon.Rust.BTreeMap

/-!
# The cache of generated documents

`BrowserGeneratedNcaCache` keeps the corpus of the last request and the documents that were made of it,
up to a limit of bytes. A request binds the cache to its corpus first: when the key of the source
differs from the stored one, the key is stored, then the corpus is constructed, and only when this
succeeds the documents of the corpus before are dropped (`bind`).
-/

namespace BurnDragon.Browser

open Rust Nca Corpus

def browserGeneratedNcaCacheMaxBytes : ℕ := 16 * 1024 * 1024

structure BrowserGeneratedNcaCacheStats where
  hits : ℕ
  misses : ℕ
  bytes : ℕ
  deriving DecidableEq

structure BrowserGeneratedNcaCache where
  sourceKey : Option String
  runtime : Option OnlineNcaCorpus
  documents : BTreeMap (ℕ ×ₗ ℕ) (List ℕ)
  stats : BrowserGeneratedNcaCacheStats

inductive DragonBrowserDatasetSplit
  | train
  | validation
  deriving DecidableEq, Repr

def datasetSplit : DragonBrowserDatasetSplit → SampleSplit
  | .train => .train
  | .validation => .validation

def datasetSplitKey : DragonBrowserDatasetSplit → ℕ
  | .train => 0
  | .validation => 1

structure Request where
  corpus : NcaCorpusConfig
  split : DragonBrowserDatasetSplit
  blockSize : ℕ
  selection : GeneratedRecordSelection

/-- The key of the source of a request. -/
def Request.sourceKey (browser : Externals) (request : Request) : Fallible String String := do
  let json ← browser.corpusJson request.corpus
  return decimal request.blockSize ++ "\x00" ++ json

/-- The corpus of a request. -/
def Request.runtime (overflowChecks : Bool) (browser : Externals) (request : Request) :
    Fallible String OnlineNcaCorpus :=
  OnlineNcaCorpus.newWithMinLogicalDocumentTokens overflowChecks browser.loadRustBpe request.corpus
    (some (saturatingAdd request.blockSize 1))

namespace BrowserGeneratedNcaCache

def empty : BrowserGeneratedNcaCache := ⟨none, none, .empty, ⟨0, 0, 0⟩⟩

variable {ρ : Type} (overflowChecks : Bool) (fuel : ℕ) (ext : Nca.Externals ρ) (browser : Externals)
  (cache : BrowserGeneratedNcaCache)

def bind (request : Request) : Fallible String Unit × BrowserGeneratedNcaCache :=
  match request.sourceKey browser with
  | .error e => (.error e, cache)
  | .ok sourceKey =>
    if cache.sourceKey = some sourceKey then (.ok (), cache)
    else
      let cache := { cache with sourceKey := some sourceKey }
      match request.runtime overflowChecks browser with
      | .error e => (.error e, cache)
      | .ok runtime =>
        (.ok (), { cache with runtime := some runtime, documents := .empty, stats := ⟨0, 0, 0⟩ })

/-- A generated document is kept if it fits. -/
def store (key : ℕ ×ₗ ℕ) (tokens : List ℕ) : BrowserGeneratedNcaCache :=
  let cache := { cache with stats.misses := saturatingAdd cache.stats.misses 1 }
  let tokenBytes := saturatingMul tokens.length 4
  if saturatingAdd cache.stats.bytes tokenBytes ≤ browserGeneratedNcaCacheMaxBytes then
    { cache with
      stats.bytes := saturatingAdd cache.stats.bytes tokenBytes
      documents := cache.documents.insert key tokens }
  else cache

def documentTokens (split : DragonBrowserDatasetSplit) (sampleIndex : ℕ) :
    Option (Fallible String (List ℕ) × BrowserGeneratedNcaCache) :=
  match cache.documents.get? (toLex (datasetSplitKey split, sampleIndex)) with
  | some tokens =>
    some (.ok tokens, { cache with stats.hits := saturatingAdd cache.stats.hits 1 })
  | none =>
    match cache.runtime with
    | none => some (.error (.panic .missingKey), cache)
    | some runtime =>
      (runtime.generateDocumentTokens overflowChecks fuel ext (datasetSplit split) sampleIndex).run.map
        fun
        | .error e => (.error e, cache)
        | .ok tokens =>
          (.ok tokens, cache.store (toLex (datasetSplitKey split, sampleIndex)) tokens)

/-- The records of a bound cache. -/
def records (request : Request) :
    Option (Fallible String (List TokenWindowRecord) × BrowserGeneratedNcaCache) :=
  match cache.runtime with
  | none => some (.error (.panic .missingKey), cache)
  | some runtime =>
    generatedRecordsWithWindowizer browser (runtime.sampleCount (datasetSplit request.split))
      request.selection
      (fun sampleIndex cache =>
        documentTokens overflowChecks fuel ext cache request.split sampleIndex)
      (fun tokens => tokenWindowsFromTokens fuel tokens request.blockSize) cache

/-- `generated_nca_records_cached`. -/
def generatedNcaRecordsCached (request : Request) :
    Option (Fallible String (List TokenWindowRecord) × BrowserGeneratedNcaCache) :=
  match cache.bind overflowChecks browser request with
  | (.error e, cache) => some (.error e, cache)
  | (.ok (), cache) => cache.records overflowChecks fuel ext browser request

/-- A sequence of requests to one cache. -/
def serveAll (cache : BrowserGeneratedNcaCache) : List Request →
    Option (List (Fallible String (List TokenWindowRecord)) × BrowserGeneratedNcaCache)
  | [] => some ([], cache)
  | request :: requests => do
    let (response, cache) ← cache.generatedNcaRecordsCached overflowChecks fuel ext browser request
    let (responses, cache) ← serveAll cache requests
    return (response :: responses, cache)

end BrowserGeneratedNcaCache

end BurnDragon.Browser
