import BurnDragon.Corpus.NcaWriter
import BurnDragon.Corpus.RuliadWriter

/-!
# Reading a corpus back

The files of a corpus, with the offsets of its chunks and of its records, against the documents that
were generated (`ReadsBack`), for both writers and any sizes.
-/

namespace BurnDragon.Corpus

open Rust Layout List RuliadWriter SampleSplit ChunkWriter

/-- The tokens of the training documents and then of the validation documents. -/
def corpusTokens (train validation : List (List UInt32)) : List UInt32 :=
  (train ++ validation).flatten

/-- The corpus can be read back. -/
structure ReadsBack (train validation : List (List UInt32)) (dir : ChunkDir)
    (chunks : List UniversalityChunkManifest) (records : List UniversalitySampleRecord) : Prop where
  /-- The files of the chunks are the corpus, and a chunk's offset is the number of tokens before. -/
  contents : ∃ parts, Holds dir (chunks.map (·.toFile)) parts ∧
    parts.flatten = corpusTokens train validation
  /-- A chunk has tokens of its split only. -/
  splits : ∀ chunk ∈ chunks, InSplit train.flatten.length chunk.split chunk.tokenOffset
    (chunk.tokenOffset + chunk.tokenCount)
  /-- There is a record for each document. -/
  recordSplits : records.map (·.split) =
    train.map (fun _ => .train) ++ validation.map fun _ => .validation
  /-- A record's range are the tokens of its document. -/
  selects : ∀ (i : ℕ) record document, records[i]? = some record →
    (train ++ validation)[i]? = some document →
    slice record.tokenOffset record.tokenCount (corpusTokens train validation) = document
  /-- A range inside of the corpus is copied, and the loop ends. -/
  copies : ∀ start (dst : List UInt32), start + dst.length ≤ (corpusTokens train validation).length →
    ∀ fuel, dst.length < fuel → copyInto dir (chunks.map (·.toFile)) fuel start dst =
      some (.ok (slice start dst.length (corpusTokens train validation)))

section

variable {train validation : List (List UInt32)} {dir : ChunkDir}
  {chunks : List UniversalityChunkManifest} {records : List UniversalitySampleRecord}

/-- The files, the splits and the records make a corpus that reads back. -/
theorem ReadsBack.of_holds {parts : List (List UInt32)}
    (hholds : Holds dir (chunks.map (·.toFile)) parts)
    (hparts : parts.flatten = corpusTokens train validation)
    (hsplits : ∀ chunk ∈ chunks, InSplit train.flatten.length chunk.split chunk.tokenOffset
      (chunk.tokenOffset + chunk.tokenCount))
    (hrecordSplits : records.map (·.split) =
      train.map (fun _ => .train) ++ validation.map fun _ => .validation)
    (hrecords : Describes (·.tokenOffset) (·.tokenCount) records (train ++ validation)) :
    ReadsBack train validation dir chunks records where
  contents := ⟨parts, hholds, hparts⟩
  splits := hsplits
  recordSplits := hrecordSplits
  selects i record document hrecord hdocument := by
    obtain ⟨hoffset, hcount⟩ := hrecords.entry i record document hrecord hdocument
    obtain ⟨hi, rfl⟩ := List.getElem?_eq_some_iff.1 hdocument
    have hrange : 0 + (train ++ validation)[i].length ≤ (train ++ validation)[i].length := by omega
    rw [hoffset, hcount, corpusTokens, ← Nat.add_zero (segmentStart _ i), slice_segment hi hrange]
    simp [slice]
  copies start dst hrange fuel hfuel := by
    rw [← hparts] at hrange ⊢
    exact hholds.copyInto_eq hrange hfuel

/-- The chunks of a manifest as files to read. -/
theorem Holds.of_manifest {parts : List (List UInt32)}
    (hstored : Stored dir (chunks.map (·.fileName)) parts)
    (hdescribes : Describes (·.tokenOffset) (·.tokenCount) chunks parts) :
    Holds dir (chunks.map (·.toFile)) parts where
  stored := by simpa [UniversalityChunkManifest.toFile, map_map, Function.comp_def] using hstored
  describes := by
    refine ⟨by rw [length_map, hdescribes.length_eq], fun i file tokens hfile htokens => ?_⟩
    rw [getElem?_map, Option.map_eq_some_iff] at hfile
    obtain ⟨chunk, hchunk, rfl⟩ := hfile
    exact hdescribes.entry i chunk tokens hchunk htokens

end

/-! ## The Ruliad corpus -/

theorem generateRuliadCorpus_readsBack (dir : ChunkDir) (chunkTokenCapacity : ℕ)
    (train validation : List (List UInt32)) :
    let corpus := generateRuliadCorpus dir chunkTokenCapacity train validation
    ReadsBack train validation corpus.dir corpus.chunks corpus.records := by
  intro corpus
  have hfirst : InSplit train.flatten.length .train ([] : List (List UInt32)).flatten.length
      ([] ++ train).flatten.length := ⟨fun _ => le_rfl, nofun⟩
  obtain ⟨parts, htrain⟩ :=
    (RuliadWrote.new dir train.flatten.length).pushSamples chunkTokenCapacity 0 hfirst
  rw [nil_append] at htrain
  have hsecond : InSplit train.flatten.length .validation train.flatten.length
      (train ++ validation).flatten.length := ⟨nofun, fun _ => le_rfl⟩
  obtain ⟨parts', hboth⟩ := htrain.pushSamples chunkTokenCapacity 0 hsecond
  obtain ⟨parts'', hfinished, hflatten⟩ := hboth.finish
  have hrecordSplits : corpus.records.map (·.split) =
      train.map (fun _ => .train) ++ validation.map fun _ => .validation := by
    rw [show corpus.records = (finish _).records from rfl, records_finish,
      split_records_pushSamples, split_records_pushSamples]
    rfl
  exact .of_holds (.of_manifest hfinished.stored hfinished.describes) hflatten hfinished.splits
    hrecordSplits hfinished.records

/-! ## The NCA corpus -/

theorem train_chunkName_ne_validation (i k : ℕ) :
    train.chunkName i ≠ validation.chunkName k := by
  intro h
  have hlist := congrArg (List.head? ∘ String.toList) h
  simp [chunkName] at hlist

/-- The chunks of the training writer come before those of the validation writer. -/
theorem inSplit_manifestChunks {trainParts valParts : List ChunkPart}
    {trainContents valContents : List (List UInt32)}
    (htrain : trainParts.map (·.tokenCount) = trainContents.map List.length)
    (hval : valParts.map (·.tokenCount) = valContents.map List.length)
    (htrainSplit : ∀ part ∈ trainParts, part.split = .train)
    (hvalSplit : ∀ part ∈ valParts, part.split = .validation) :
    ∀ chunk ∈ manifestChunks 0 (trainParts ++ valParts),
      InSplit trainContents.flatten.length chunk.split chunk.tokenOffset
        (chunk.tokenOffset + chunk.tokenCount) := by
  intro chunk hchunk
  obtain ⟨i, hi⟩ := mem_iff_getElem?.1 hchunk
  have hdescribes : Describes (·.tokenOffset) (·.tokenCount)
      (manifestChunks 0 (trainParts ++ valParts)) (trainContents ++ valContents) :=
    describes_manifestChunks (by rw [map_append, map_append, htrain, hval])
  have hlength : trainParts.length = trainContents.length := by
    simpa using congrArg List.length htrain
  have hi' : i < (trainContents ++ valContents).length :=
    hdescribes.length_eq ▸ (List.getElem?_eq_some_iff.1 hi).1
  obtain ⟨hoffset, hcount⟩ := hdescribes.entry i chunk _ hi (getElem?_eq_getElem hi')
  have hboundary : segmentStart (trainContents ++ valContents) trainContents.length =
      trainContents.flatten.length := by
    rw [segmentStart_append_left le_rfl, segmentStart_length]
  have hpart : (trainParts ++ valParts)[i]?.map (fun part => (part.fileName, part.split)) =
      some (chunk.fileName, chunk.split) := by
    rw [← getElem?_map, ← map_manifestChunks 0, getElem?_map, hi, Option.map_some]
  obtain ⟨part, hpart, heq⟩ := Option.map_eq_some_iff.1 hpart
  have hsplit : part.split = chunk.split := congrArg Prod.snd heq
  rcases Nat.lt_or_ge i trainParts.length with hlt | hge
  · rw [getElem?_append_left hlt] at hpart
    have htrainChunk : chunk.split = .train :=
      hsplit ▸ htrainSplit part (mem_of_getElem? hpart)
    refine ⟨fun _ => ?_, fun hvalidation => by simp [htrainChunk] at hvalidation⟩
    rw [hoffset, hcount, ← segmentStart_succ hi', ← hboundary]
    exact segmentStart_mono (by omega)
  · rw [getElem?_append_right hge] at hpart
    have hvalChunk : chunk.split = .validation :=
      hsplit ▸ hvalSplit part (mem_of_getElem? hpart)
    refine ⟨fun htrainChunk => by simp [hvalChunk] at htrainChunk, fun _ => ?_⟩
    rw [hoffset, ← hboundary]
    exact segmentStart_mono (by omega)

theorem shiftRecord_of_train {trainTokenCount : ℕ} {record : UniversalitySampleRecord}
    (h : record.split = .train) : shiftRecord trainTokenCount record = record := by
  rw [shiftRecord, h]

theorem shiftRecord_of_validation {trainTokenCount : ℕ} {record : UniversalitySampleRecord}
    (h : record.split = .validation) : shiftRecord trainTokenCount record =
      { record with tokenOffset := record.tokenOffset + trainTokenCount } := by
  rw [shiftRecord, h]

theorem split_comp_shiftRecord (trainTokenCount : ℕ) :
    ((·.split) ∘ shiftRecord trainTokenCount : UniversalitySampleRecord → SampleSplit) = (·.split) := by
  funext record
  obtain ⟨sampleIndex, split, tokenOffset, tokenCount⟩ := record
  cases split <;> rfl

/-- The documents of a split, from an empty writer to the last chunk. -/
theorem Wrote.documents {dir : ChunkDir} {names : List String} {parts : List (List UInt32)}
    {split : SampleSplit} (h : Stored dir names parts) (hnames : ∀ k, split.chunkName k ∉ names)
    (chunkTokenCapacity : ℕ) (documents : List (List UInt32)) :
    ∃ contents, Wrote split names parts contents []
        ((ChunkWriter.new dir split chunkTokenCapacity).pushSamples 0 documents).1.finishCurrentChunk ∧
      contents.flatten = documents.flatten ∧
      ((ChunkWriter.new dir split chunkTokenCapacity).pushSamples 0 documents).1.totalTokenCount =
        documents.flatten.length := by
  have hnew : Wrote split names parts [] [] (.new dir split chunkTokenCapacity) := .new h _ _
  obtain ⟨contents, current, hpushed, hflatten⟩ := hnew.pushSamples hnames 0 documents
  obtain ⟨contents', hdone, hflatten'⟩ := hpushed.finishCurrentChunk hnames
  rw [flatten_nil, nil_append, nil_append] at hflatten
  refine ⟨contents', hdone, by rw [hflatten', hflatten], ?_⟩
  rw [hpushed.totalTokenCount, ← length_append, hflatten]

theorem generateNcaCorpus_readsBack (chunkTokenCapacity : ℕ)
    (train validation : List (List UInt32)) :
    let corpus := generateNcaCorpus chunkTokenCapacity train validation
    ReadsBack train validation corpus.dir corpus.chunks corpus.records := by
  intro corpus
  -- The training writer begins in an empty directory.
  have hempty : Stored Map.empty [] [] := .nil
  have hnames : ∀ k, SampleSplit.train.chunkName k ∉ ([] : List String) := fun _ => not_mem_nil
  obtain ⟨trainContents, htrain, htrainFlatten, htrainTotal⟩ :=
    Wrote.documents hempty hnames chunkTokenCapacity train
  set trainPushed := (ChunkWriter.new Map.empty .train chunkTokenCapacity).pushSamples 0 train
    with htrainPushed
  set trainWriter := trainPushed.1.finishCurrentChunk with htrainWriter
  -- The validation writer goes on with other names.
  have hnames' : ∀ k, SampleSplit.validation.chunkName k ∉ trainWriter.chunks.map (·.fileName) := by
    intro k
    rw [htrain.named, mem_map]
    rintro ⟨i, -, heq⟩
    exact train_chunkName_ne_validation i k heq
  obtain ⟨valContents, hval, hvalFlatten, -⟩ :=
    Wrote.documents htrain.stored hnames' chunkTokenCapacity validation
  set valPushed := (new trainWriter.dir .validation chunkTokenCapacity).pushSamples 0
    validation with hvalPushed
  set valWriter := valPushed.1.finishCurrentChunk with hvalWriter
  have hchunks : corpus.chunks = manifestChunks 0 (trainWriter.chunks ++ valWriter.chunks) := rfl
  have hrecords : corpus.records =
      (trainPushed.2 ++ valPushed.2).map (shiftRecord train.flatten.length) := by
    rw [← htrainTotal]
    rfl
  have hcounts : (trainWriter.chunks ++ valWriter.chunks).map (·.tokenCount) =
      (trainContents ++ valContents).map List.length := by
    rw [map_append, map_append, htrain.counts, hval.counts]
  have hfileNames : corpus.chunks.map (·.fileName) =
      trainWriter.chunks.map (·.fileName) ++ valWriter.chunks.map (·.fileName) := by
    have hnamed := congrArg (List.map Prod.fst)
      (map_manifestChunks 0 (trainWriter.chunks ++ valWriter.chunks))
    rw [map_map, map_map, ← hchunks, map_append] at hnamed
    exact hnamed
  have hstored : Stored corpus.dir (corpus.chunks.map (·.fileName)) (trainContents ++ valContents) :=
    hfileNames ▸ hval.stored
  have hsplits := inSplit_manifestChunks htrain.counts hval.counts htrain.splits hval.splits
  rw [htrainFlatten, ← hchunks] at hsplits
  have hdescribes := describes_manifestChunks hcounts
  rw [← hchunks] at hdescribes
  -- The records of the validation documents are moved behind the training tokens.
  have hnew : Wrote .train [] [] [] [] (.new Map.empty .train chunkTokenCapacity) := .new hempty _ _
  have hnew' : Wrote .validation (trainWriter.chunks.map (·.fileName)) trainContents [] []
      (.new trainWriter.dir .validation chunkTokenCapacity) := .new htrain.stored _ _
  have hbase : ([] : List (List UInt32)).flatten.length + ([] : List UInt32).length + 0 =
      ([] : List (List UInt32)).flatten.length := rfl
  have htrainRecords : Describes (·.tokenOffset) (·.tokenCount)
      ([] ++ trainPushed.2.map (shiftRecord train.flatten.length)) ([] ++ train) :=
    hnew.describes_records hnames
      (fun record hsplit => ⟨congrArg (·.tokenOffset) (shiftRecord_of_train hsplit),
        congrArg (·.tokenCount) (shiftRecord_of_train hsplit)⟩) .nil hbase 0 train
  have hbase' : ([] : List (List UInt32)).flatten.length + ([] : List UInt32).length +
      train.flatten.length = ([] ++ train).flatten.length := by
    simp
  have hvalRecords : Describes (·.tokenOffset) (·.tokenCount)
      ([] ++ trainPushed.2.map (shiftRecord train.flatten.length) ++
        valPushed.2.map (shiftRecord train.flatten.length)) ([] ++ train ++ validation) :=
    hnew'.describes_records hnames'
      (fun record hsplit => ⟨congrArg (·.tokenOffset) (shiftRecord_of_validation hsplit),
        congrArg (·.tokenCount) (shiftRecord_of_validation hsplit)⟩) htrainRecords hbase' 0 validation
  have hrecordSplits : corpus.records.map (·.split) =
      train.map (fun _ => .train) ++ validation.map fun _ => .validation := by
    rw [hrecords, map_map, split_comp_shiftRecord, map_append,
      hnew.split_records hnames, hnew'.split_records hnames']
  rw [nil_append, nil_append, ← map_append, ← hrecords] at hvalRecords
  refine .of_holds (.of_manifest hstored hdescribes) ?_ hsplits hrecordSplits hvalRecords
  rw [flatten_append, htrainFlatten, hvalFlatten, corpusTokens, flatten_append]

/-- **What was generated is read back.** The corpora of both writers, for any documents and any chunk
capacity. -/
theorem generatedCorpora_readBack (dir : ChunkDir) (chunkTokenCapacity : ℕ)
    (train validation : List (List UInt32)) :
    let nca := generateNcaCorpus chunkTokenCapacity train validation
    let ruliad := generateRuliadCorpus dir chunkTokenCapacity train validation
    ReadsBack train validation nca.dir nca.chunks nca.records ∧
      ReadsBack train validation ruliad.dir ruliad.chunks ruliad.records :=
  ⟨generateNcaCorpus_readsBack _ _ _, generateRuliadCorpus_readsBack _ _ _ _⟩

end BurnDragon.Corpus
