import BurnDragon.Corpus.Chunks

/-!
# The writer of NCA corpora

`ChunkWriter` fills one chunk file after another, so that a document may go on in the next file. There is
one writer for each split; the manifest lists the chunks of both, with running offsets, and the offsets
of the validation documents are moved behind the training tokens.

What a writer has written are the tokens of its closed chunks and those of the open one (`Wrote`); the
files of the chunks that were there before, with other names, are left.
-/

namespace BurnDragon.Corpus

open Rust Layout List

structure ChunkPart where
  fileName : String
  split : SampleSplit
  tokenCount : ℕ
  sampleCount : ℕ

structure ChunkWriter where
  dir : ChunkDir
  split : SampleSplit
  chunkTokenCapacity : ℕ
  currentWriter : Option (List UInt8)
  currentFileName : Option String
  currentTokenCount : ℕ
  currentSampleCount : ℕ
  partIndex : ℕ
  totalTokenCount : ℕ
  chunks : List ChunkPart

def SampleSplit.chunkName (split : SampleSplit) (part : ℕ) : String :=
  let splitLabel := match split with
    | .train => "train"
    | .validation => "validation"
  splitLabel ++ "-chunk-" ++ decimal05 part ++ ".u32le"

namespace ChunkWriter

def new (dir : ChunkDir) (split : SampleSplit) (chunkTokenCapacity : ℕ) : ChunkWriter where
  dir := dir
  split := split
  chunkTokenCapacity := max chunkTokenCapacity 1
  currentWriter := none
  currentFileName := none
  currentTokenCount := 0
  currentSampleCount := 0
  partIndex := 0
  totalTokenCount := 0
  chunks := []

/-- A new file is empty. -/
def ensureWriter (writer : ChunkWriter) : ChunkWriter :=
  if writer.currentWriter.isSome then writer
  else { writer with
    dir := writer.dir.insert (writer.split.chunkName writer.partIndex) []
    partIndex := writer.partIndex + 1
    currentWriter := some []
    currentFileName := some (writer.split.chunkName writer.partIndex) }

/-- The bytes of a writer are in its file when it is flushed. -/
def finishCurrentChunk (writer : ChunkWriter) : ChunkWriter :=
  match writer.currentWriter with
  | none => writer
  | some bytes =>
    let writer := { writer with currentWriter := none }
    let writer := match writer.currentFileName with
      | none => writer
      | some fileName => { writer with
          dir := writer.dir.insert fileName bytes
          currentFileName := none
          chunks := writer.chunks.concat
            ⟨fileName, writer.split, writer.currentTokenCount, writer.currentSampleCount⟩ }
    { writer with currentTokenCount := 0, currentSampleCount := 0 }

/-- The tokens that go to the current chunk. -/
def write (writer : ChunkWriter) (tokens : List UInt32) : ChunkWriter :=
  { writer with
    currentWriter := writer.currentWriter.map (· ++ tokenBytes tokens)
    currentTokenCount := writer.currentTokenCount + tokens.length
    totalTokenCount := writer.totalTokenCount + tokens.length }

/-- Whether the document counts for the current chunk. -/
def countSample (writer : ChunkWriter) (counted : Bool) : ChunkWriter :=
  if counted then writer else { writer with currentSampleCount := writer.currentSampleCount + 1 }

/-- The loop of `push_document`, with the tokens behind the cursor. -/
def pushLoop (writer : ChunkWriter) (counted : Bool) (rest : List UInt32) : ChunkWriter :=
  if rest = [] then writer
  else
    let opened := writer.ensureWriter.countSample counted
    let remaining := max (opened.chunkTokenCapacity - opened.currentTokenCount) 1
    let copyLen := min remaining rest.length
    let written := opened.write (rest.take copyLen)
    if written.chunkTokenCapacity ≤ written.currentTokenCount then
      written.finishCurrentChunk.pushLoop false (rest.drop copyLen)
    else written.pushLoop true (rest.drop copyLen)
termination_by rest.length
decreasing_by
  all_goals
    have hpos : 0 < rest.length := List.length_pos_iff.2 ‹_›
    simp only [List.length_drop]
    omega

def pushDocument (writer : ChunkWriter) (tokens : List UInt32) : ChunkWriter :=
  writer.pushLoop false tokens

/-- The documents of a split, with a record for each. -/
def pushSamples (writer : ChunkWriter) :
    ℕ → List (List UInt32) → ChunkWriter × List UniversalitySampleRecord
  | _, [] => (writer, [])
  | sampleIndex, tokens :: documents =>
    let record : UniversalitySampleRecord :=
      ⟨sampleIndex, writer.split, writer.totalTokenCount, tokens.length⟩
    let (writer, records) := (writer.pushDocument tokens).pushSamples (sampleIndex + 1) documents
    (writer, record :: records)

end ChunkWriter

/-- The chunks of the manifest, with running offsets. -/
def manifestChunks : ℕ → List ChunkPart → List UniversalityChunkManifest
  | _, [] => []
  | runningOffset, part :: parts =>
    ⟨part.fileName, part.split, runningOffset, part.tokenCount, part.sampleCount⟩ ::
      manifestChunks (runningOffset + part.tokenCount) parts

structure GeneratedCorpus where
  dir : ChunkDir
  chunks : List UniversalityChunkManifest
  records : List UniversalitySampleRecord
  trainTokenCount : ℕ
  valTokenCount : ℕ
  tokenCount : ℕ

/-- The offset of a validation record is moved behind the training tokens. -/
def shiftRecord (trainTokenCount : ℕ) (record : UniversalitySampleRecord) :
    UniversalitySampleRecord :=
  match record.split with
  | .train => record
  | .validation => { record with tokenOffset := record.tokenOffset + trainTokenCount }

/-- `generate_nca_corpus`, for the documents that it generates. -/
def generateNcaCorpus (chunkTokenCapacity : ℕ) (trainDocuments validationDocuments : List (List UInt32)) :
    GeneratedCorpus :=
  let trainWriter := ChunkWriter.new Map.empty .train chunkTokenCapacity
  let (trainWriter, trainRecords) := trainWriter.pushSamples 0 trainDocuments
  let trainTokenCount := trainWriter.totalTokenCount
  let trainWriter := trainWriter.finishCurrentChunk
  let valWriter := ChunkWriter.new trainWriter.dir .validation chunkTokenCapacity
  let (valWriter, valRecords) := valWriter.pushSamples 0 validationDocuments
  let valTokenCount := valWriter.totalTokenCount
  let valWriter := valWriter.finishCurrentChunk
  { dir := valWriter.dir
    chunks := manifestChunks 0 (trainWriter.chunks ++ valWriter.chunks)
    records := (trainRecords ++ valRecords).map (shiftRecord trainTokenCount)
    trainTokenCount
    valTokenCount
    tokenCount := trainTokenCount + valTokenCount }

/-! ## What has been written -/

theorem SampleSplit.chunkName_injective (split : SampleSplit) :
    Function.Injective split.chunkName := by
  intro i j h
  have hlist := congrArg String.toList h
  simp only [chunkName, String.toList_append, append_assoc, append_cancel_left_eq] at hlist
  exact decimal05_injective (String.toList_inj.1 (append_cancel_right hlist))

/-- The closed chunks hold the contents, and the open chunk, if there is one, the current tokens. The
files with the given names are left. -/
structure Wrote (split : SampleSplit) (names : List String) (parts contents : List (List UInt32))
    (current : List UInt32) (writer : ChunkWriter) : Prop where
  ofSplit : writer.split = split
  stored : Stored writer.dir (names ++ writer.chunks.map (·.fileName)) (parts ++ contents)
  counts : writer.chunks.map (·.tokenCount) = contents.map List.length
  splits : ∀ chunk ∈ writer.chunks, chunk.split = split
  named : writer.chunks.map (·.fileName) = (List.range writer.chunks.length).map split.chunkName
  currentTokenCount : writer.currentTokenCount = current.length
  totalTokenCount : writer.totalTokenCount = contents.flatten.length + current.length
  open_or_closed :
    (writer.currentWriter = none ∧ writer.currentFileName = none ∧ current = [] ∧
      writer.partIndex = writer.chunks.length) ∨
    (writer.currentWriter = some (tokenBytes current) ∧
      writer.currentFileName = some (split.chunkName writer.chunks.length) ∧
      writer.partIndex = writer.chunks.length + 1)

variable {split : SampleSplit} {names : List String} {parts contents : List (List UInt32)}
  {current : List UInt32} {writer : ChunkWriter}

namespace Wrote

variable {tokens : List UInt32}

/-- The next chunk has a new name. -/
theorem chunkName_notMem (h : Wrote split names parts contents current writer)
    (hnames : ∀ k, split.chunkName k ∉ names) :
    split.chunkName writer.chunks.length ∉ names ++ writer.chunks.map (·.fileName) := by
  rw [mem_append, not_or]
  refine ⟨hnames _, ?_⟩
  rw [h.named, mem_map]
  rintro ⟨i, hi, heq⟩
  rw [split.chunkName_injective heq, mem_range] at hi
  exact Nat.lt_irrefl _ hi

theorem new {dir : ChunkDir} (h : Stored dir names parts) (split : SampleSplit) (capacity : ℕ) :
    Wrote split names parts [] [] (.new dir split capacity) where
  ofSplit := rfl
  stored := by simpa [ChunkWriter.new] using h
  counts := rfl
  splits := by simp [ChunkWriter.new]
  named := rfl
  currentTokenCount := rfl
  totalTokenCount := rfl
  open_or_closed := .inl ⟨rfl, rfl, rfl, rfl⟩

section

variable (h : Wrote split names parts contents current writer)
include h

/-- After `ensure_writer` a chunk is open. -/
theorem ensureWriter (hnames : ∀ k, split.chunkName k ∉ names) :
    Wrote split names parts contents current writer.ensureWriter ∧
      writer.ensureWriter.currentWriter = some (tokenBytes current) := by
  rcases h.open_or_closed with ⟨hwriter, hfile, rfl, hpart⟩ | ⟨hwriter, hfile, hpart⟩
  · have hname : writer.split.chunkName writer.partIndex = split.chunkName writer.chunks.length := by
      rw [h.ofSplit, hpart]
    have hstored := h.stored.insert (h.chunkName_notMem hnames) []
    rw [ChunkWriter.ensureWriter, hwriter]
    simp only [Option.isSome_none, Bool.false_eq_true, if_false, hname]
    refine ⟨⟨h.ofSplit, hstored, h.counts, h.splits, h.named, h.currentTokenCount, h.totalTokenCount,
      .inr ⟨rfl, rfl, ?_⟩⟩, rfl⟩
    rw [hpart]
  · rw [ChunkWriter.ensureWriter, hwriter]
    simp only [Option.isSome_some, if_true]
    exact ⟨h, hwriter⟩

theorem countSample (counted : Bool) :
    Wrote split names parts contents current (writer.countSample counted) := by
  rw [ChunkWriter.countSample]
  split_ifs
  · exact h
  · exact ⟨h.ofSplit, h.stored, h.counts, h.splits, h.named, h.currentTokenCount, h.totalTokenCount,
      h.open_or_closed⟩

/-- Tokens go to the open chunk. -/
theorem write (hopen : writer.currentWriter = some (tokenBytes current)) (tokens : List UInt32) :
    Wrote split names parts contents (current ++ tokens) (writer.write tokens) := by
  obtain ⟨hfile, hpart⟩ : writer.currentFileName = some (split.chunkName writer.chunks.length) ∧
      writer.partIndex = writer.chunks.length + 1 := by
    rcases h.open_or_closed with ⟨hwriter, -⟩ | ⟨-, hfile, hpart⟩
    · simp [hopen] at hwriter
    · exact ⟨hfile, hpart⟩
  refine ⟨h.ofSplit, h.stored, h.counts, h.splits, h.named, ?_, ?_, .inr ⟨?_, hfile, hpart⟩⟩
  · simp [ChunkWriter.write, h.currentTokenCount]
  · simp [ChunkWriter.write, h.totalTokenCount, Nat.add_assoc]
  · simp [ChunkWriter.write, hopen, tokenBytes_append]

section

variable (hnames : ∀ k, split.chunkName k ∉ names)
include hnames

/-- Closing the open chunk. -/
theorem finishCurrentChunk :
    ∃ contents', Wrote split names parts contents' [] writer.finishCurrentChunk ∧
      contents'.flatten = contents.flatten ++ current := by
  rcases h.open_or_closed with ⟨hwriter, hfile, rfl, hpart⟩ | ⟨hwriter, hfile, hpart⟩
  · refine ⟨contents, ?_, (append_nil _).symm⟩
    rw [ChunkWriter.finishCurrentChunk, hwriter]
    exact h
  · refine ⟨contents ++ [current], ?_, by simp⟩
    have hstored := @Stored.concat _ _ _ _ current h.stored (h.chunkName_notMem hnames)
    simp only [ChunkWriter.finishCurrentChunk, hwriter, hfile, concat_eq_append]
    refine ⟨h.ofSplit, ?_, ?_, ?_, ?_, rfl, ?_, .inl ⟨rfl, rfl, rfl, ?_⟩⟩
    · simpa using hstored
    · simp [h.counts, h.currentTokenCount]
    · intro chunk hchunk
      rcases mem_append.1 (show chunk ∈ writer.chunks ++ [_] from hchunk) with hchunk | hchunk
      · exact h.splits chunk hchunk
      · obtain rfl := mem_singleton.1 hchunk
        exact h.ofSplit
    · simp [h.named, range_succ]
    · simp [h.totalTokenCount]
    · simp [hpart]

/-- One pass of the loop before the chunk is closed. -/
theorem pass (counted : Bool) (tokens : List UInt32) :
    Wrote split names parts contents (current ++ tokens)
      ((writer.ensureWriter.countSample counted).write tokens) := by
  obtain ⟨hopened, hopen⟩ := h.ensureWriter hnames
  refine (hopened.countSample counted).write ?_ tokens
  rw [ChunkWriter.countSample]
  split_ifs <;> exact hopen

/-- A document goes to the open chunk and, where this is full, to the chunks after it. -/
theorem pushLoop (counted : Bool) (rest : List UInt32) :
    ∃ contents' current', Wrote split names parts contents' current' (writer.pushLoop counted rest) ∧
      contents'.flatten ++ current' = contents.flatten ++ current ++ rest := by
  induction writer, counted, rest using ChunkWriter.pushLoop.induct generalizing contents current with
  | case1 writer counted =>
    rw [ChunkWriter.pushLoop, if_pos rfl]
    exact ⟨contents, current, h, (append_nil _).symm⟩
  | case2 writer counted rest hrest opened remaining copyLen written =>
    rename_i hfull ih
    obtain ⟨contents', hclosed, hcontents⟩ :=
      (h.pass hnames counted (rest.take copyLen)).finishCurrentChunk hnames
    obtain ⟨contents'', current'', hlast, hflatten⟩ := ih hclosed
    refine ⟨contents'', current'', ?_, ?_⟩
    · rw [ChunkWriter.pushLoop, if_neg hrest]
      simp only
      rw [if_pos hfull]
      exact hlast
    · rw [hflatten, hcontents, append_nil, append_assoc, append_assoc,
        take_append_drop, ← append_assoc]
  | case3 writer counted rest hrest opened remaining copyLen written =>
    rename_i hfull ih
    obtain ⟨contents'', current'', hlast, hflatten⟩ := ih (h.pass hnames counted (rest.take copyLen))
    refine ⟨contents'', current'', ?_, ?_⟩
    · rw [ChunkWriter.pushLoop, if_neg hrest]
      simp only
      rw [if_neg hfull]
      exact hlast
    · rw [hflatten, append_assoc, append_assoc, take_append_drop, ← append_assoc]

/-- The documents of a split, and their records from a document number on. -/
theorem pushSamples (sampleIndex : ℕ) (documents : List (List UInt32)) :
    ∃ contents' current',
      Wrote split names parts contents' current' (writer.pushSamples sampleIndex documents).1 ∧
        contents'.flatten ++ current' = contents.flatten ++ current ++ documents.flatten := by
  induction documents generalizing contents current writer sampleIndex with
  | nil => exact ⟨contents, current, h, (append_nil _).symm⟩
  | cons document documents ih =>
    obtain ⟨contents', current', hdocument, hflatten⟩ := h.pushLoop hnames false document
    obtain ⟨contents'', current'', hlast, hflatten'⟩ := ih hdocument (sampleIndex + 1)
    refine ⟨contents'', current'', hlast, ?_⟩
    rw [hflatten', hflatten, flatten_cons, append_assoc _ document]

end

end

end Wrote

/-! ## The records and the manifest -/

namespace Wrote

section

variable (h : Wrote split names parts contents current writer)
  (hnames : ∀ k, split.chunkName k ∉ names)
include h hnames

/-- The records, moved behind the documents of an earlier split, describe the documents after
these. -/
theorem describes_records {move : UniversalitySampleRecord → UniversalitySampleRecord} {base : ℕ}
    (hmove : ∀ record, record.split = split → (move record).tokenOffset = record.tokenOffset + base
      ∧ (move record).tokenCount = record.tokenCount) {entries : List UniversalitySampleRecord}
    {before : List (List UInt32)}
    (hbefore : Describes (·.tokenOffset) (·.tokenCount) entries before)
    (hbase : contents.flatten.length + current.length + base = before.flatten.length)
    (sampleIndex : ℕ) (documents : List (List UInt32)) :
    Describes (·.tokenOffset) (·.tokenCount)
      (entries ++ (writer.pushSamples sampleIndex documents).2.map move) (before ++ documents) := by
  induction documents generalizing contents current writer sampleIndex entries before with
  | nil => simpa [ChunkWriter.pushSamples] using hbefore
  | cons document documents ih =>
    obtain ⟨contents', current', hdocument, hflatten⟩ := h.pushLoop hnames false document
    set record : UniversalitySampleRecord :=
      ⟨sampleIndex, writer.split, writer.totalTokenCount, document.length⟩ with hrecord
    obtain ⟨hoffset, hcount⟩ := hmove record h.ofSplit
    have hlength := congrArg List.length hflatten
    simp only [length_append] at hlength
    have hconcat := hbefore.concat (e := move record) (s := document)
      (by rw [hoffset, hrecord, h.totalTokenCount, hbase]) (by rw [hcount])
    have hrest := ih hdocument hconcat (by
      rw [flatten_append, length_append, flatten_singleton]
      omega) (sampleIndex + 1)
    rw [append_assoc, append_assoc] at hrest
    exact hrest

theorem split_records (sampleIndex : ℕ) (documents : List (List UInt32)) :
    (writer.pushSamples sampleIndex documents).2.map (·.split) = documents.map fun _ => split := by
  induction documents generalizing contents current writer sampleIndex with
  | nil => rfl
  | cons document documents ih =>
    obtain ⟨contents', current', hdocument, -⟩ := h.pushLoop hnames false document
    rw [ChunkWriter.pushSamples, map_cons, map_cons, h.ofSplit]
    exact congrArg (split :: ·) (ih hdocument (sampleIndex + 1))

end

end Wrote

/-- The chunks of the manifest describe the contents of the files. -/
theorem manifestChunks_spec (running : ℕ) {parts : List ChunkPart}
    (h : parts.map (·.tokenCount) = contents.map List.length) :
    (manifestChunks running parts).length = contents.length ∧
    ∀ i chunk content, (manifestChunks running parts)[i]? = some chunk → contents[i]? = some content →
      chunk.tokenOffset = running + segmentStart contents i ∧ chunk.tokenCount = content.length := by
  induction parts generalizing running contents with
  | nil =>
    obtain rfl : contents = [] := by simpa using h.symm
    exact ⟨rfl, by simp [manifestChunks]⟩
  | cons part parts ih =>
    cases contents with
    | nil => simp at h
    | cons content contents =>
      simp only [map_cons, List.cons.injEq] at h
      obtain ⟨hlength, hentry⟩ := ih (running + part.tokenCount) h.2
      refine ⟨by simp [manifestChunks, hlength], fun i chunk content' hchunk hcontent => ?_⟩
      cases i with
      | zero =>
        obtain rfl : _ = chunk := by simpa [manifestChunks] using hchunk
        obtain rfl : content = content' := by simpa using hcontent
        exact ⟨by simp, h.1⟩
      | succ i =>
        obtain ⟨hoffset, hcount⟩ := hentry i chunk content' (by simpa [manifestChunks] using hchunk)
          (by simpa using hcontent)
        refine ⟨?_, hcount⟩
        rw [hoffset, h.1]
        simp [segmentStart, Nat.add_assoc]

theorem describes_manifestChunks {parts : List ChunkPart}
    (h : parts.map (·.tokenCount) = contents.map List.length) :
    Describes (·.tokenOffset) (·.tokenCount) (manifestChunks 0 parts) contents := by
  obtain ⟨hlength, hentry⟩ := manifestChunks_spec 0 h
  refine ⟨hlength, fun i chunk content hchunk hcontent => ?_⟩
  obtain ⟨hoffset, hcount⟩ := hentry i chunk content hchunk hcontent
  exact ⟨by rw [hoffset, Nat.zero_add], hcount⟩

theorem map_manifestChunks (running : ℕ) (parts : List ChunkPart) :
    (manifestChunks running parts).map (fun chunk => (chunk.fileName, chunk.split)) =
      parts.map fun part => (part.fileName, part.split) := by
  induction parts generalizing running with
  | nil => rfl
  | cons part parts ih => simp [manifestChunks, ih]

end BurnDragon.Corpus
