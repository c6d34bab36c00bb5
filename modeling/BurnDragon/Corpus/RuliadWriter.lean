import BurnDragon.Corpus.Chunks

/-!
# The writer of Ruliad corpora

`generate_ruliad_corpus` keeps documents whole: the tokens of a chunk are gathered and written when the
next document belongs to another split or would not fit. The offsets run through both splits.

What the writer has written are the tokens of its files and those gathered since (`RuliadWrote`).
-/

namespace BurnDragon.Corpus

open Rust Layout List

/-- The variables of the loop over the documents. -/
structure RuliadWriter where
  dir : ChunkDir
  chunks : List UniversalityChunkManifest
  records : List UniversalitySampleRecord
  chunkTokens : List UInt32
  chunkSplit : SampleSplit
  chunkStart : ℕ
  chunkSampleCount : ℕ
  tokenOffset : ℕ
  chunkIndex : ℕ

def ruliadChunkName (chunkIndex : ℕ) : String := "chunk-" ++ decimal05 chunkIndex ++ ".bin"

namespace RuliadWriter

def new (dir : ChunkDir) : RuliadWriter where
  dir := dir
  chunks := []
  records := []
  chunkTokens := []
  chunkSplit := .train
  chunkStart := 0
  chunkSampleCount := 0
  tokenOffset := 0
  chunkIndex := 0

/-- `flush_chunk`. -/
def flushChunk (writer : RuliadWriter) : RuliadWriter :=
  { writer with
    dir := writer.dir.insert (ruliadChunkName writer.chunkIndex) (tokenBytes writer.chunkTokens)
    chunks := writer.chunks ++ [⟨ruliadChunkName writer.chunkIndex, writer.chunkSplit,
      writer.chunkStart, writer.chunkTokens.length, writer.chunkSampleCount⟩]
    chunkTokens := []
    chunkIndex := writer.chunkIndex + 1 }

/-- The chunk is flushed when it is of another split or the document does not fit. -/
def makeRoom (writer : RuliadWriter) (chunkTokenCapacity : ℕ) (split : SampleSplit)
    (tokens : List UInt32) : RuliadWriter :=
  if writer.chunkTokens ≠ [] ∧ (writer.chunkSplit ≠ split ∨
      writer.chunkTokens.length + tokens.length > chunkTokenCapacity) then
    { writer.flushChunk with chunkStart := writer.tokenOffset, chunkSampleCount := 0 }
  else
    writer

/-- A chunk without tokens begins with the document. -/
def beginChunk (writer : RuliadWriter) (split : SampleSplit) : RuliadWriter :=
  if writer.chunkTokens = [] then
    { writer with chunkSplit := split, chunkStart := writer.tokenOffset }
  else
    writer

/-- The record and the tokens of a document. -/
def append (writer : RuliadWriter) (split : SampleSplit) (sampleIndex : ℕ) (tokens : List UInt32) :
    RuliadWriter :=
  { writer with
    records := writer.records ++ [⟨sampleIndex, split, writer.tokenOffset, tokens.length⟩]
    tokenOffset := writer.tokenOffset + tokens.length
    chunkSampleCount := writer.chunkSampleCount + 1
    chunkTokens := writer.chunkTokens ++ tokens }

def pushDocument (writer : RuliadWriter) (chunkTokenCapacity : ℕ) (split : SampleSplit)
    (sampleIndex : ℕ) (tokens : List UInt32) : RuliadWriter :=
  ((writer.makeRoom chunkTokenCapacity split tokens).beginChunk split).append split sampleIndex tokens

/-- The documents of a split, from a document number on. -/
def pushSamples (writer : RuliadWriter) (chunkTokenCapacity : ℕ) (split : SampleSplit) :
    ℕ → List (List UInt32) → RuliadWriter
  | _, [] => writer
  | sampleIndex, tokens :: documents =>
    (writer.pushDocument chunkTokenCapacity split sampleIndex tokens).pushSamples chunkTokenCapacity
      split (sampleIndex + 1) documents

/-- The last chunk. -/
def finish (writer : RuliadWriter) : RuliadWriter :=
  if writer.chunkTokens ≠ [] then writer.flushChunk else writer

end RuliadWriter

/-- `generate_ruliad_corpus`, for the documents that it generates; the chunk directory may have files
already. -/
def generateRuliadCorpus (dir : ChunkDir) (chunkTokenCapacity : ℕ)
    (trainDocuments validationDocuments : List (List UInt32)) : RuliadWriter :=
  (((RuliadWriter.new dir).pushSamples chunkTokenCapacity .train 0 trainDocuments).pushSamples
    chunkTokenCapacity .validation 0 validationDocuments).finish

/-! ## What has been written -/

theorem ruliadChunkName_injective : Function.Injective ruliadChunkName := by
  intro i j h
  have hlist := congrArg String.toList h
  simp only [ruliadChunkName, String.toList_append, append_assoc,
    append_cancel_left_eq] at hlist
  exact decimal05_injective (String.toList_inj.1 (append_cancel_right hlist))

/-- The range is in the split, when the first tokens are those of the training documents. -/
def InSplit (trainTokenCount : ℕ) (split : SampleSplit) (first last : ℕ) : Prop :=
  (split = .train → last ≤ trainTokenCount) ∧ (split = .validation → trainTokenCount ≤ first)

theorem InSplit.mono {trainTokenCount first first' last last' : ℕ} {split : SampleSplit}
    (h : InSplit trainTokenCount split first last) (hfirst : first ≤ first') (hlast : last' ≤ last) :
    InSplit trainTokenCount split first' last' :=
  ⟨fun htrain => hlast.trans (h.1 htrain), fun hvalidation => (h.2 hvalidation).trans hfirst⟩

/-- The files hold the parts, the gathered tokens come after them, and no chunk mixes splits. -/
structure RuliadWrote (trainTokenCount : ℕ) (documents parts : List (List UInt32))
    (writer : RuliadWriter) : Prop where
  stored : Stored writer.dir (writer.chunks.map (·.fileName)) parts
  named : writer.chunks.map (·.fileName) = (List.range writer.chunks.length).map ruliadChunkName
  chunkIndex : writer.chunkIndex = writer.chunks.length
  describes : Describes (·.tokenOffset) (·.tokenCount) writer.chunks parts
  records : Describes (·.tokenOffset) (·.tokenCount) writer.records documents
  flatten : parts.flatten ++ writer.chunkTokens = documents.flatten
  tokenOffset : writer.tokenOffset = documents.flatten.length
  chunkStart : writer.chunkTokens ≠ [] → writer.chunkStart = parts.flatten.length
  splits : ∀ chunk ∈ writer.chunks,
    InSplit trainTokenCount chunk.split chunk.tokenOffset (chunk.tokenOffset + chunk.tokenCount)
  current : writer.chunkTokens ≠ [] →
    InSplit trainTokenCount writer.chunkSplit writer.chunkStart writer.tokenOffset

namespace RuliadWrote

variable {trainTokenCount : ℕ} {documents parts : List (List UInt32)} {writer : RuliadWriter}

theorem new (dir : ChunkDir) (trainTokenCount : ℕ) :
    RuliadWrote trainTokenCount [] [] (.new dir) where
  stored := .nil
  named := rfl
  chunkIndex := rfl
  describes := .nil
  records := .nil
  flatten := rfl
  tokenOffset := rfl
  chunkStart h := absurd rfl h
  splits := by simp [RuliadWriter.new]
  current h := absurd rfl h

section

variable (h : RuliadWrote trainTokenCount documents parts writer)
include h

/-- A chunk with tokens is written to a new file. -/
theorem flushChunk (hne : writer.chunkTokens ≠ []) :
    RuliadWrote trainTokenCount documents (parts ++ [writer.chunkTokens]) writer.flushChunk := by
  have hname : ruliadChunkName writer.chunkIndex ∉ writer.chunks.map (·.fileName) := by
    rw [h.named, h.chunkIndex, mem_map]
    rintro ⟨i, hi, heq⟩
    rw [ruliadChunkName_injective heq, mem_range] at hi
    exact Nat.lt_irrefl _ hi
  have hlength : parts.flatten.length + writer.chunkTokens.length = writer.tokenOffset := by
    rw [h.tokenOffset, ← h.flatten, length_append]
  refine ⟨?_, ?_, ?_, ?_, h.records, ?_, h.tokenOffset, fun h => absurd rfl h, ?_,
    fun h => absurd rfl h⟩
  · have hstored := @Stored.concat _ _ _ _ writer.chunkTokens h.stored hname
    simpa [RuliadWriter.flushChunk] using hstored
  · simp [RuliadWriter.flushChunk, h.named, h.chunkIndex, range_succ]
  · simp [RuliadWriter.flushChunk, h.chunkIndex]
  · exact h.describes.concat (h.chunkStart hne) rfl
  · simpa [RuliadWriter.flushChunk] using h.flatten
  · intro chunk hchunk
    rcases mem_append.1 (show chunk ∈ writer.chunks ++ [_] from hchunk) with hchunk | hchunk
    · exact h.splits chunk hchunk
    · obtain rfl := mem_singleton.1 hchunk
      have hcurrent := h.current hne
      rw [← hlength, ← h.chunkStart hne] at hcurrent
      exact hcurrent

/-- After room is made the chunk is empty or of the document's split. -/
theorem makeRoom (chunkTokenCapacity : ℕ) (split : SampleSplit) (tokens : List UInt32) :
    ∃ parts', RuliadWrote trainTokenCount documents parts'
        (writer.makeRoom chunkTokenCapacity split tokens) ∧
      ((writer.makeRoom chunkTokenCapacity split tokens).chunkTokens ≠ [] →
        (writer.makeRoom chunkTokenCapacity split tokens).chunkSplit = split) := by
  rw [RuliadWriter.makeRoom]
  split_ifs with hflush
  · have hflushed := h.flushChunk hflush.1
    exact ⟨_, ⟨hflushed.stored, hflushed.named, hflushed.chunkIndex, hflushed.describes,
      hflushed.records, hflushed.flatten, hflushed.tokenOffset, fun h => absurd rfl h,
      hflushed.splits, fun h => absurd rfl h⟩, fun h => absurd rfl h⟩
  · refine ⟨parts, h, fun hne => ?_⟩
    by_contra hother
    exact hflush ⟨hne, .inl hother⟩

/-- The chunk is of the document's split. -/
theorem beginChunk {split : SampleSplit}
    (hsame : writer.chunkTokens ≠ [] → writer.chunkSplit = split) :
    RuliadWrote trainTokenCount documents parts (writer.beginChunk split) ∧
      (writer.beginChunk split).chunkSplit = split ∧
      (writer.beginChunk split).chunkStart = parts.flatten.length ∧
      (writer.beginChunk split).tokenOffset = writer.tokenOffset ∧
      ((writer.beginChunk split).chunkTokens = [] →
        (writer.beginChunk split).chunkStart = (writer.beginChunk split).tokenOffset) := by
  rw [RuliadWriter.beginChunk]
  split_ifs with hempty
  · have hstart : writer.tokenOffset = parts.flatten.length := by
      rw [h.tokenOffset, ← h.flatten, hempty, append_nil]
    exact ⟨⟨h.stored, h.named, h.chunkIndex, h.describes, h.records, h.flatten, h.tokenOffset,
      fun hne => absurd hempty hne, h.splits, fun hne => absurd hempty hne⟩, rfl, hstart, rfl,
      fun _ => rfl⟩
  · exact ⟨h, hsame hempty, h.chunkStart hempty, rfl, fun h => absurd h hempty⟩

/-- A document is written. -/
theorem pushDocument (chunkTokenCapacity : ℕ) {split : SampleSplit} (sampleIndex : ℕ)
    {tokens : List UInt32}
    (hsplit : InSplit trainTokenCount split documents.flatten.length (documents.flatten.length +
      tokens.length)) :
    ∃ parts', RuliadWrote trainTokenCount (documents ++ [tokens]) parts'
      (writer.pushDocument chunkTokenCapacity split sampleIndex tokens) := by
  obtain ⟨parts', hroom, hsame⟩ := h.makeRoom chunkTokenCapacity split tokens
  obtain ⟨hbegun, hchunkSplit, hstart, -, hempty⟩ := hroom.beginChunk hsame
  rw [RuliadWriter.pushDocument]
  generalize (writer.makeRoom chunkTokenCapacity split tokens).beginChunk split = begun
    at hbegun hchunkSplit hstart hempty
  refine ⟨parts', hbegun.stored, hbegun.named, hbegun.chunkIndex, hbegun.describes,
    hbegun.records.concat hbegun.tokenOffset rfl, ?_, ?_, fun _ => hstart, hbegun.splits, fun _ => ?_⟩
  · simp [RuliadWriter.append, ← hbegun.flatten]
  · simp [RuliadWriter.append, hbegun.tokenOffset]
  · simp only [RuliadWriter.append, hchunkSplit, hbegun.tokenOffset]
    refine ⟨hsplit.1, fun hvalidation => ?_⟩
    by_cases hne : begun.chunkTokens = []
    · rw [hempty hne, hbegun.tokenOffset]
      exact hsplit.2 hvalidation
    · exact (hbegun.current hne).2 (hchunkSplit.trans hvalidation)

/-- The documents of a split are written. -/
theorem pushSamples (chunkTokenCapacity : ℕ) {split : SampleSplit} (sampleIndex : ℕ)
    {more : List (List UInt32)}
    (hsplit : InSplit trainTokenCount split documents.flatten.length (documents ++
      more).flatten.length) :
    ∃ parts', RuliadWrote trainTokenCount (documents ++ more) parts'
      (writer.pushSamples chunkTokenCapacity split sampleIndex more) := by
  induction more generalizing documents parts writer sampleIndex with
  | nil => exact ⟨parts, by rw [append_nil]; exact h⟩
  | cons tokens more ih =>
    have hlength : (documents ++ tokens :: more).flatten.length =
        documents.flatten.length + tokens.length + more.flatten.length := by
      simp [Nat.add_assoc]
    have hconcat : (documents ++ [tokens]).flatten.length =
        documents.flatten.length + tokens.length := by
      simp
    have hfirst : InSplit trainTokenCount split documents.flatten.length
        (documents.flatten.length + tokens.length) :=
      hsplit.mono le_rfl (by rw [hlength]; exact Nat.le_add_right _ _)
    obtain ⟨parts', hdocument⟩ := h.pushDocument chunkTokenCapacity sampleIndex hfirst
    have hrest : InSplit trainTokenCount split (documents ++ [tokens]).flatten.length
        (documents ++ [tokens] ++ more).flatten.length :=
      hsplit.mono (by rw [hconcat]; exact Nat.le_add_right _ _) (by simp)
    obtain ⟨parts'', hmore⟩ := ih hdocument (sampleIndex + 1) hrest
    rw [append_assoc, singleton_append] at hmore
    exact ⟨parts'', hmore⟩

/-- At the end all tokens are in files. -/
theorem finish :
    ∃ parts', RuliadWrote trainTokenCount documents parts' writer.finish ∧
      parts'.flatten = documents.flatten := by
  rw [RuliadWriter.finish]
  split_ifs with hne
  · refine ⟨_, h.flushChunk hne, ?_⟩
    rw [flatten_append, flatten_singleton, h.flatten]
  · refine ⟨parts, h, ?_⟩
    rw [← h.flatten, not_not.1 hne, append_nil]

end

end RuliadWrote

namespace RuliadWriter

theorem records_pushDocument (writer : RuliadWriter) (chunkTokenCapacity : ℕ) (split : SampleSplit)
    (sampleIndex : ℕ) (tokens : List UInt32) :
    ∃ record : UniversalitySampleRecord, record.split = split ∧
      (writer.pushDocument chunkTokenCapacity split sampleIndex tokens).records =
        writer.records ++ [record] := by
  have hroom : (writer.makeRoom chunkTokenCapacity split tokens).records = writer.records := by
    rw [makeRoom]
    split_ifs <;> rfl
  rw [pushDocument]
  generalize writer.makeRoom chunkTokenCapacity split tokens = room at hroom ⊢
  have hbegun : (room.beginChunk split).records = room.records := by
    rw [beginChunk]
    split_ifs <;> rfl
  exact ⟨⟨sampleIndex, split, _, tokens.length⟩, rfl, by rw [← hroom, ← hbegun]; rfl⟩

/-- The documents of a split have records of this split. -/
theorem split_records_pushSamples (writer : RuliadWriter) (chunkTokenCapacity : ℕ)
    (split : SampleSplit) (sampleIndex : ℕ) (documents : List (List UInt32)) :
    (writer.pushSamples chunkTokenCapacity split sampleIndex documents).records.map (·.split) =
      writer.records.map (·.split) ++ documents.map fun _ => split := by
  induction documents generalizing writer sampleIndex with
  | nil => simp [pushSamples]
  | cons tokens documents ih =>
    obtain ⟨record, hsplit, hrecords⟩ :=
      writer.records_pushDocument chunkTokenCapacity split sampleIndex tokens
    rw [pushSamples, ih, hrecords]
    simp [hsplit]

theorem records_finish (writer : RuliadWriter) : writer.finish.records = writer.records := by
  rw [finish]
  split_ifs <;> rfl

end RuliadWriter

end BurnDragon.Corpus
