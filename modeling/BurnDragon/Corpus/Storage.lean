import BurnDragon.Corpus.Chunks

/-!
# Token storage

Where the tokens of a dataset are: in memory, in chunk files, or in documents that are generated when they
are asked for. A range of the tokens is copied exactly when it lies inside of them
(`TokenStorage.copies_iff`): a longer one panics, or its copy loop does not come to an end.
-/

namespace BurnDragon.Corpus

open Rust Layout Nat

/-! ## Chunk files -/

section Chunks

variable {dir : ChunkDir} {chunks : List ChunkedTokenFile} {parts : List (List UInt32)}

/-- What a pass of the loop copies lies inside of the tokens. -/
theorem Holds.pass_le (h : Holds dir chunks parts) {cursor : ℕ} {chunk : ChunkedTokenFile}
    {tokens : List UInt32} (hchunk : chunkAt dir chunks cursor = .ok (chunk, tokens)) :
    chunk.tokenOffset + chunk.tokenCount ≤ parts.flatten.length := by
  rw [chunkAt, bind_eq_ok] at hchunk
  obtain ⟨found, hfound, hrest⟩ := hchunk
  obtain ⟨data, -, hpair⟩ := bind_eq_ok.1 hrest
  cases hpair
  generalize min _ (chunks.length - 1) = i at hfound
  have hentry := index_eq_ok.1 hfound
  have hlt : i < parts.length := by
    rw [← h.describes.length_eq]
    exact (List.getElem?_eq_some_iff.1 hentry).1
  obtain ⟨hstart, hcount⟩ := h.describes.entry _ _ _ hentry (List.getElem?_eq_getElem hlt)
  rw [hstart, hcount, ← segmentStart_succ hlt, ← segmentStart_length]
  exact segmentStart_mono hlt

/-- A range that leaves the tokens is not copied, however many passes the loop makes. -/
theorem Holds.copyLoop_ne_ok (h : Holds dir chunks parts) {fuel cursor written remaining : ℕ}
    {dst copied : List UInt32} (hpos : 0 < remaining)
    (hrange : parts.flatten.length < cursor + remaining) :
    copyLoop dir chunks fuel cursor written remaining dst ≠ some (.ok copied) := by
  induction fuel generalizing cursor written remaining dst with
  | zero => simp [copyLoop]
  | succ fuel ih =>
    rw [copyLoop, if_neg (ne_of_gt hpos)]
    cases hchunk : chunkAt dir chunks cursor with
    | error panic => simp [bind, Except.bind]
    | ok found =>
      obtain ⟨chunk, tokens⟩ := found
      have hle := h.pass_le hchunk
      simp only [bind, Except.bind, sliceRange]
      split_ifs with hslice
      · simp only [pure, Except.pure]
        refine ih ?_ ?_ <;> omega
      · simp

end Chunks

/-! ## Generated documents -/

/-- `OnTheFlyStorage`, and the documents that its corpus generates. All have the same length. -/
structure OnTheFlyStorage where
  documentTokenCount : ℕ
  trainSamples : ℕ
  validationSamples : ℕ
  document : SampleSplit → ℕ → ℕ → List UInt32
  length_document : ∀ split sampleIndex epochIndex,
    (document split sampleIndex epochIndex).length = documentTokenCount

namespace OnTheFlyStorage

variable (storage : OnTheFlyStorage)

/-- The tokens of all documents. -/
def tokenCount : ℕ :=
  (storage.trainSamples + storage.validationSamples) * storage.documentTokenCount

/-- The split of a cursor, its place in the split and the number of documents there. -/
def locate (trainLen cursor : ℕ) : SampleSplit × ℕ × ℕ :=
  if cursor < trainLen then (.train, cursor, storage.trainSamples)
  else (.validation, cursor - trainLen, storage.validationSamples)

/-- The epoch that a document is generated for. Only the training documents change. -/
def effectiveEpoch (requestTrain : Bool) (epochIndex : ℕ) (split : SampleSplit) : ℕ :=
  if split = .train ∧ requestTrain then epochIndex else 0

/-- The loop of `copy_into_with_epoch`. `written` is what the destination holds so far. -/
def copyLoop (requestTrain : Bool) (epochIndex trainLen : ℕ) :
    ℕ → ℕ → ℕ → List UInt32 → Option (Run (List UInt32))
  | 0, _, _, _ => none
  | fuel + 1, cursor, remaining, written =>
    if remaining = 0 then some (.ok written)
    else
      let place := storage.locate trainLen cursor
      let sampleIndex := place.2.1 / storage.documentTokenCount
      if place.2.2 ≤ sampleIndex then some (.error .indexOutOfBounds)
      else
        let tokenIndex := place.2.1 % storage.documentTokenCount
        let copyLen := min (storage.documentTokenCount - tokenIndex) remaining
        let tokens := storage.document place.1 sampleIndex
          (effectiveEpoch requestTrain epochIndex place.1)
        copyLoop requestTrain epochIndex trainLen fuel (cursor + copyLen) (remaining - copyLen)
          (written ++ slice tokenIndex copyLen tokens)

variable {storage} {requestTrain : Bool} {epochIndex trainLen : ℕ}

section

variable (hcount : 0 < storage.documentTokenCount)
  (htrain : trainLen = storage.trainSamples * storage.documentTokenCount)
include hcount htrain

/-- What is left of the document of a cursor lies inside of the tokens, and there is no document when
the cursor is at their end. -/
theorem locate_spec (cursor : ℕ) :
    (storage.locate trainLen cursor).2.1 / storage.documentTokenCount <
        (storage.locate trainLen cursor).2.2 ↔ cursor < storage.tokenCount := by
  rw [tokenCount, add_mul, ← htrain, locate]
  split
  · rename_i hlt
    simp only [div_lt_iff_lt_mul hcount, ← htrain]
    omega
  · rename_i hge
    simp only [div_lt_iff_lt_mul hcount]
    omega

theorem locate_le {cursor : ℕ} (hlt : cursor < storage.tokenCount) :
    cursor + (storage.documentTokenCount -
      (storage.locate trainLen cursor).2.1 % storage.documentTokenCount) ≤ storage.tokenCount := by
  -- Both splits and every document in them are a multiple of the document length.
  have hstep : ∀ place samples, place < samples * storage.documentTokenCount →
      place + (storage.documentTokenCount - place % storage.documentTokenCount) ≤
        samples * storage.documentTokenCount := by
    intro place samples hplace
    have hmod := mod_lt place hcount
    have hdiv := div_add_mod' place storage.documentTokenCount
    have hnext : (place / storage.documentTokenCount + 1) * storage.documentTokenCount ≤
        samples * storage.documentTokenCount :=
      mul_le_mul_right _ ((div_lt_iff_lt_mul hcount).2 hplace)
    rw [add_mul, one_mul] at hnext
    omega
  rw [tokenCount, add_mul, ← htrain] at hlt ⊢
  rw [locate]
  split
  · rename_i htrainLt
    have := hstep cursor storage.trainSamples (htrain ▸ htrainLt)
    rw [← htrain] at this
    exact this.trans (le_add_right _ _)
  · rename_i hge
    have := hstep (cursor - trainLen) storage.validationSamples (by omega)
    simp only
    omega

theorem copyLoop_eq_ok {fuel cursor remaining : ℕ} {written : List UInt32}
    (hrange : cursor + remaining ≤ storage.tokenCount) (hfuel : remaining < fuel) :
    ∃ tokens, storage.copyLoop requestTrain epochIndex trainLen fuel cursor remaining written =
      some (.ok tokens) := by
  induction fuel generalizing cursor remaining written with
  | zero => omega
  | succ fuel ih =>
    rw [copyLoop]
    dsimp only
    split_ifs with hdone hout
    · exact ⟨written, rfl⟩
    · exact absurd hout (Nat.not_le_of_lt ((locate_spec hcount htrain cursor).2 (by omega)))
    · have hmod := mod_lt (storage.locate trainLen cursor).2.1 hcount
      refine ih ?_ ?_ <;> omega

theorem copyLoop_ne_ok {fuel cursor remaining : ℕ} {written tokens : List UInt32}
    (hpos : 0 < remaining) (hrange : storage.tokenCount < cursor + remaining) :
    storage.copyLoop requestTrain epochIndex trainLen fuel cursor remaining written ≠
      some (.ok tokens) := by
  induction fuel generalizing cursor remaining written with
  | zero => simp [copyLoop]
  | succ fuel ih =>
    rw [copyLoop, if_neg (ne_of_gt hpos)]
    dsimp only
    split_ifs with hout
    · simp
    · have hlt := (locate_spec hcount htrain cursor).1 (Nat.lt_of_not_le hout)
      have hle := locate_le hcount htrain hlt
      refine ih ?_ ?_ <;> omega

end

end OnTheFlyStorage

/-! ## Storage -/

/-- Where the tokens of a dataset are. -/
inductive TokenStorage
  | owned (tokens : List UInt32)
  | chunked (dir : ChunkDir) (chunks : List ChunkedTokenFile)
  | onTheFly (storage : OnTheFlyStorage)

namespace TokenStorage

/-- `copy_token_range_with_epoch`, which may never end. -/
def copyTokenRange (storage : TokenStorage) (requestTrain : Bool) (epochIndex trainLen fuel start : ℕ)
    (dst : List UInt32) : Option (Run (List UInt32)) :=
  match storage with
  | owned tokens => some (sliceRange start dst.length tokens)
  | chunked dir chunks => copyInto dir chunks fuel start dst
  | onTheFly storage => storage.copyLoop requestTrain epochIndex trainLen fuel start dst.length []

/-- The range is copied. -/
def Copies (storage : TokenStorage) (requestTrain : Bool) (epochIndex trainLen start len : ℕ) : Prop :=
  ∃ fuel tokens, storage.copyTokenRange requestTrain epochIndex trainLen fuel start
    (List.replicate len 0) = some (.ok tokens)

/-- The storage holds `tokenCount` tokens. -/
inductive Holds : TokenStorage → (trainLen tokenCount : ℕ) → Prop
  | owned {tokens : List UInt32} {trainLen : ℕ} : Holds (.owned tokens) trainLen tokens.length
  | chunked {dir : ChunkDir} {chunks : List ChunkedTokenFile} {parts : List (List UInt32)}
      {trainLen : ℕ} : Corpus.Holds dir chunks parts →
    Holds (.chunked dir chunks) trainLen parts.flatten.length
  | onTheFly {storage : OnTheFlyStorage} : 0 < storage.documentTokenCount →
    Holds (.onTheFly storage) (storage.trainSamples * storage.documentTokenCount) storage.tokenCount

/-- **Copying.** A range is copied exactly when it lies inside of the tokens. -/
theorem copies_iff {storage : TokenStorage} {requestTrain : Bool}
    {epochIndex trainLen tokenCount start len : ℕ} (h : Holds storage trainLen tokenCount)
    (hlen : 0 < len) :
    storage.Copies requestTrain epochIndex trainLen start len ↔ start + len ≤ tokenCount := by
  have hreplicate : (List.replicate len (0 : UInt32)).length = len := List.length_replicate
  cases h with
  | owned =>
    simp only [Copies, copyTokenRange, sliceRange, hreplicate, Option.some.injEq]
    split
    · rename_i hle
      exact iff_of_true ⟨0, _, rfl⟩ hle
    · rename_i hnle
      exact iff_of_false (by simp) hnle
  | chunked h =>
    constructor
    · rintro ⟨fuel, tokens, hcopy⟩
      rw [copyTokenRange, copyInto, hreplicate] at hcopy
      by_contra hout
      exact h.copyLoop_ne_ok hlen (Nat.lt_of_not_le hout) hcopy
    · intro hle
      exact ⟨len + 1, _, h.copyInto_eq (by rw [hreplicate]; exact hle) (by omega)⟩
  | onTheFly hcount =>
    constructor
    · rintro ⟨fuel, tokens, hcopy⟩
      rw [copyTokenRange, hreplicate] at hcopy
      by_contra hout
      exact OnTheFlyStorage.copyLoop_ne_ok hcount rfl hlen (Nat.lt_of_not_le hout) hcopy
    · intro hle
      obtain ⟨tokens, htokens⟩ := OnTheFlyStorage.copyLoop_eq_ok hcount rfl hle (lt_succ_self len)
      exact ⟨len + 1, tokens, by rw [copyTokenRange, hreplicate]; exact htokens⟩

end TokenStorage

end BurnDragon.Corpus
