import BurnDragon.Ruliad.Tokenize

/-!
# Tokens and the end of sequence

Every token of a payload is below the vocabulary size. The end of sequence is kept out of the
structured payloads by the checks of `fromConfig`. The other modes make no such check: a byte that
they write may be the configured end of sequence, and the bucket that replaces it may be it again when
the number of buckets is 267 (`payload_tokens_iff`).
-/

namespace BurnDragon.Ruliad

open Rust List Nat

/-! ## Buckets -/

theorem bucketToken_le (bucket : ℕ) : bucketToken bucket ≤ structuredClassTokenStart + bucket :=
  (Nat.mod_le _ _).trans (Nat.add_le_add_left (Nat.mod_le _ _) _)

/-- No marker begins with a raw byte. -/
theorem symbolicStructuralMarker_of_raw {b : UInt8} {rest : List UInt8} (hb : isRawByte b) :
    symbolicStructuralMarker (b :: rest) = none :=
  symbolicStructuralMarker_eq_none (uint8_forall (P := fun b => isRawByte b → b ∉ bytes "[NSG?!>")
    (by decide +kernel) b hb)

/-- A character with a raw byte has only such. -/
theorem raw_of_mem_charWithByte {b : UInt8} (hb : isUtf8Byte b) (hraw : isRawByte b) :
    ∀ c ∈ String.utf8EncodeChar (charWithByte b), isRawByte c :=
  all_eq_true.1 (uint8_forall (P := fun b => isUtf8Byte b → isRawByte b →
    (String.utf8EncodeChar (charWithByte b)).all isRawByte) (by decide +kernel) b hb hraw)

namespace SymbolicVocabulary

variable (vocabulary : SymbolicVocabulary)

theorem bucketCount_eq :
    structuredClassTokenStart + vocabulary.bucketCount = vocabulary.vocabSize ∧
      246 ≤ vocabulary.bucketCount := by
  have := vocabulary.vocabSize_ge
  simp only [bucketCount, structuredClassTokenStart, rawByteTokenCount, symbolicStructuralTokenCount]
  omega

theorem bucketToken_mod_lt (n : ℕ) :
    bucketToken (n % vocabulary.bucketCount) < vocabulary.vocabSize := by
  obtain ⟨hcount, hle⟩ := vocabulary.bucketCount_eq
  have hmod := mod_lt n (show 0 < vocabulary.bucketCount by omega)
  have := bucketToken_le (n % vocabulary.bucketCount)
  omega

theorem structuredClassTokenStart_lt : structuredClassTokenStart < vocabulary.vocabSize := by
  obtain ⟨hcount, hle⟩ := vocabulary.bucketCount_eq
  omega

theorem symbolicBucketToken_lt (cls : SymbolicClass) (hash : UInt64) :
    vocabulary.symbolicBucketToken cls hash < vocabulary.vocabSize := by
  unfold symbolicBucketToken
  dsimp only
  split
  · split
    · exact vocabulary.structuredClassTokenStart_lt
    · exact vocabulary.bucketToken_mod_lt _
  · exact vocabulary.bucketToken_mod_lt _

/-- A bucket that moves on by one from the end of sequence comes back to it only when there are 267
buckets. -/
theorem bucketToken_succ_ne {bucket : ℕ} (hbucket : bucket < vocabulary.bucketCount)
    (hcount : vocabulary.bucketCount ≠ 267) :
    bucketToken ((bucketToken bucket + 1) % vocabulary.bucketCount) ≠ bucketToken bucket := by
  have hge := vocabulary.bucketCount_eq.2
  have hstart : structuredClassTokenStart = 266 := rfl
  generalize vocabulary.bucketCount = count at *
  intro heq
  rcases lt_or_ge (bucketToken bucket + 1) count with hlt | hle
  · rw [mod_eq_of_lt hlt] at heq
    simp only [bucketToken, hstart] at heq
    omega
  · -- The tokens do not wrap around: the first one is the bucket's own.
    have hself : bucketToken bucket = 266 + bucket := by
      simp only [bucketToken, hstart] at hle ⊢
      omega
    rw [hself] at heq hle
    have hy := mod_lt (266 + bucket + 1) (show 0 < count by omega)
    have hsame : (bucket + 267) % count = bucket := by
      have hmod : (bucket + 267) % count = (266 + bucket + 1) % count := by
        congr 1
        omega
      simp only [bucketToken, hstart] at heq hself
      omega
    have hdvd : count ∣ 267 := by
      refine (modEq_zero_iff_dvd).1 (Nat.ModEq.add_left_cancel' bucket ?_)
      rw [Nat.ModEq, hsame, add_zero, mod_eq_of_lt hbucket]
    obtain ⟨k, hk⟩ := hdvd
    have hkone : k = 1 := by
      have hlow : k ≠ 0 := by
        rintro rfl
        omega
      have hhigh : k < 2 := by
        by_contra hkge
        have := Nat.mul_le_mul hge (Nat.le_of_not_lt hkge)
        omega
      omega
    subst hkone
    omega

/-- The token of a bucket is the end of sequence for one vocabulary only. -/
theorem symbolicBucketToken_ne_eosId
    (h : ¬ (vocabulary.vocabSize = 533 ∧ vocabulary.eosId = some structuredClassTokenStart))
    (cls : SymbolicClass) (hash : UInt64) :
    vocabulary.eosId ≠ some (vocabulary.symbolicBucketToken cls hash) := by
  obtain ⟨hcount, hge⟩ := vocabulary.bucketCount_eq
  have hmod := mod_lt (hash ^^^ cls.index * 0xD1B54A32D192ED03).toNat
    (show 0 < vocabulary.bucketCount by omega)
  unfold symbolicBucketToken
  dsimp only
  generalize (hash ^^^ cls.index * 0xD1B54A32D192ED03).toNat % vocabulary.bucketCount = bucket at *
  split
  · rename_i hfirst
    split
    · rename_i hsecond
      have hsame : vocabulary.bucketCount = 267 := by
        by_contra hne
        exact vocabulary.bucketToken_succ_ne hmod hne
          (Option.some.inj (hsecond.symm.trans hfirst))
      intro heos
      exact h ⟨by rw [← hcount, hsame]; rfl, heos⟩
    · assumption
  · assumption

/-- A structural token that is the end of sequence is replaced by a bucket. -/
theorem symbolicStructuralToken_spec (kind : SymbolicStructuralToken) :
    vocabulary.symbolicStructuralToken kind < vocabulary.vocabSize ∧
      vocabulary.eosId ≠ some (vocabulary.symbolicStructuralToken kind) := by
  have hstart := vocabulary.structuredClassTokenStart_lt
  have hindex : rawByteTokenCount + kind.index < structuredClassTokenStart :=
    Nat.add_lt_add_left kind.index_lt _
  unfold symbolicStructuralToken
  dsimp only
  split
  · rename_i heos
    refine ⟨vocabulary.symbolicBucketToken_lt _ _, vocabulary.symbolicBucketToken_ne_eosId ?_ _ _⟩
    rintro ⟨-, hsame⟩
    have := Option.some.inj (heos.symm.trans hsame)
    omega
  · rename_i heos
    exact ⟨by omega, heos⟩

/-- A text of raw bytes has one token for each of them. -/
theorem scanPayload_eq_of_raw {previous : Option UInt8} {text : List UInt8}
    (h : ∀ b ∈ text, isRawByte b) :
    scanPayload vocabulary.scan previous text = text.map UInt8.toNat := by
  induction text generalizing previous with
  | nil => rw [scanPayload_nil, map_nil]
  | cons b rest ih =>
    have hb := h b (by simp)
    rw [scanPayload_raw (symbolicStructuralMarker_of_raw hb) hb,
      ih fun c hc => h c (by simp [hc]), map_cons]

/-- The lexeme `c` falls into the first of 267 buckets. -/
theorem symbolicPayloadTokens_c (hsize : vocabulary.vocabSize = 533)
    (heos : vocabulary.eosId = some structuredClassTokenStart) :
    symbolicPayloadTokens ['c'] vocabulary = [structuredClassTokenStart] := by
  obtain ⟨vocabSize, eosId, hge⟩ := vocabulary
  dsimp only at hsize heos
  subst hsize heos
  have htoken : symbolicLexemeToken ⟨533, some 266, by decide⟩ [byte 'c'] = 266 := by
    decide +kernel
  have hscan := @scanPayload_lexeme (scan ⟨533, some 266, hge⟩) none [] [byte 'c'] (by simp)
    (all_eq_true.1 rfl) (by simp) (by decide : symbolicStructuralMarker [byte 'c'] = none)
  rw [symbolicPayloadTokens, utf8Bytes_of_ascii (by simp)]
  refine hscan.trans ?_
  rw [if_neg (by decide), scanPayload_nil, append_nil]
  exact congrArg (fun token => [token]) htoken

end SymbolicVocabulary

/-- In the structured mode no structural token is replaced. -/
theorem StructuredVocabulary.symbolicStructuralToken_eq (vocabulary : StructuredVocabulary)
    (kind : SymbolicStructuralToken) :
    vocabulary.symbolicStructuralToken kind = rawByteTokenCount + kind.index := by
  refine dif_neg fun heos => ?_
  have hge := vocabulary.eosId_ge _ heos
  exact absurd (Nat.lt_trans (Nat.add_lt_add_left kind.index_lt _) (by decide))
    (Nat.not_lt_of_le hge)

/-! ## Payloads -/

def RuliadTokenizationConfig.vocabSize : RuliadTokenizationConfig → ℕ
  | gpt2ByteCompatible vocabSize _ => vocabSize
  | symbolic vocabSize _ => vocabSize
  | structuredSymbolic vocabSize _ => vocabSize

/-- The end of sequence is no byte that a payload writes and, in the symbolic mode, not the first of
267 buckets. -/
def RuliadTokenizationConfig.ReservesEos : RuliadTokenizationConfig → Prop
  | gpt2ByteCompatible _ eosId => ∀ b : UInt8, isUtf8Byte b → eosId ≠ some b.toNat
  | symbolic vocabSize eosId =>
    (∀ b : UInt8, isUtf8Byte b → isRawByte b → eosId ≠ some b.toNat) ∧
      ¬ (vocabSize = 533 ∧ eosId = some structuredClassTokenStart)
  | structuredSymbolic _ _ => True

namespace RuliadByteTokenizer

variable (tokenizer : RuliadByteTokenizer)

/-- A token that may stand in a payload. -/
def PayloadToken (token : ℕ) : Prop :=
  token < tokenizer.mode.vocabSize ∧ tokenizer.eosId ≠ some token

theorem byteCompatible_tokens_iff (vocabulary : ByteVocabulary) :
    (∀ text, ∀ token ∈ encodePayload ⟨.byteCompatible vocabulary⟩ text,
        PayloadToken ⟨.byteCompatible vocabulary⟩ token) ↔
      ∀ b, isUtf8Byte b → vocabulary.eosId ≠ some b.toNat := by
  constructor
  · intro h b hb
    obtain ⟨text, hmem⟩ := (mem_utf8Bytes_iff b).2 hb
    exact (h text b.toNat (mem_map_of_mem hmem)).2
  · intro h text token htoken
    obtain ⟨b, hmem, rfl⟩ := mem_map.1 htoken
    exact ⟨lt_of_lt_of_le b.toNat_lt (le_of_succ_le vocabulary.vocabSize_ge),
      h b ((mem_utf8Bytes_iff b).1 ⟨text, hmem⟩)⟩

theorem symbolic_tokens_iff (vocabulary : SymbolicVocabulary) :
    (∀ text, ∀ token ∈ encodePayload ⟨.symbolic vocabulary⟩ text,
        PayloadToken ⟨.symbolic vocabulary⟩ token) ↔
      (∀ b, isUtf8Byte b → isRawByte b → vocabulary.eosId ≠ some b.toNat) ∧
        ¬ (vocabulary.vocabSize = 533 ∧ vocabulary.eosId = some structuredClassTokenStart) := by
  constructor
  · intro h
    constructor
    · intro b hb hraw
      have htokens := @SymbolicVocabulary.scanPayload_eq_of_raw vocabulary none _
        (raw_of_mem_charWithByte hb hraw)
      refine (h [charWithByte b] b.toNat ?_).2
      simp only [encodePayload, symbolicPayloadTokens, utf8Bytes, flatMap_singleton, htokens]
      exact mem_map_of_mem (mem_utf8EncodeChar_charWithByte hb)
    · rintro ⟨hsize, heos⟩
      refine (h ['c'] structuredClassTokenStart ?_).2 heos
      simp only [encodePayload, vocabulary.symbolicPayloadTokens_c hsize heos]
      exact mem_singleton_self _
  · rintro ⟨hraw, hbuckets⟩ text
    refine scanPayload_forall vocabulary.symbolicStructuralToken_spec
      (fun b token htoken => by cases htoken) ?_ _ ?_
    · intro lexeme token htoken
      obtain rfl := mem_singleton.1 htoken
      exact ⟨vocabulary.symbolicBucketToken_lt _ _,
        vocabulary.symbolicBucketToken_ne_eosId hbuckets _ _⟩
    · intro b hmem hb
      exact ⟨lt_of_lt_of_le b.toNat_lt (le_trans (by decide) vocabulary.vocabSize_ge),
        hraw b ((mem_utf8Bytes_iff b).1 ⟨text, hmem⟩) hb⟩

theorem structuredSymbolic_tokens (vocabulary : StructuredVocabulary) (text : List Char) :
    ∀ token ∈ encodePayload ⟨.structuredSymbolic vocabulary⟩ text,
      PayloadToken ⟨.structuredSymbolic vocabulary⟩ token := by
  have hreserved : ∀ token < structuredReservedTokenCount,
      PayloadToken ⟨.structuredSymbolic vocabulary⟩ token := fun token htoken =>
    ⟨lt_of_lt_of_le htoken (le_of_succ_le vocabulary.vocabSize_ge),
      fun heos => absurd (vocabulary.eosId_ge token heos) (Nat.not_le_of_lt htoken)⟩
  have hbyte : ∀ b : UInt8, b.toNat < structuredReservedTokenCount :=
    fun b => lt_trans b.toNat_lt (by decide)
  refine scanPayload_forall (fun kind => ?_) (fun b token htoken => ?_)
    (fun lexeme token htoken => ?_) _ fun b _ _ => hreserved _ (hbyte b)
  · refine hreserved _ ?_
    change vocabulary.symbolicStructuralToken kind < _
    rw [vocabulary.symbolicStructuralToken_eq]
    exact Nat.lt_trans (Nat.add_lt_add_left kind.index_lt _) (by decide)
  · simp only [StructuredVocabulary.scan, structuredSeparatorTokens] at htoken
    split at htoken
    · cases htoken
    · obtain rfl := mem_singleton.1 htoken
      exact hreserved _ (hbyte b)
  · obtain ⟨b, -, rfl⟩ := mem_map.1 htoken
    exact hreserved _ (hbyte b)

/-- **The tokens of payloads**: all of them are below the vocabulary size and none is the end of
sequence, exactly when the configuration reserves the end of sequence. -/
theorem payload_tokens_iff (config : RuliadTokenizationConfig)
    (htokenizer : fromConfig config = .ok tokenizer) :
    (∀ text, ∀ token ∈ tokenizer.encodePayload text,
        token < config.vocabSize ∧ tokenizer.eosId ≠ some token) ↔
      config.ReservesEos := by
  cases config with
  | gpt2ByteCompatible vocabSize eosId =>
    simp only [fromConfig] at htokenizer
    split at htokenizer
    · cases htokenizer
    · cases htokenizer
      exact byteCompatible_tokens_iff _
  | symbolic vocabSize eosId =>
    simp only [fromConfig] at htokenizer
    split at htokenizer
    · cases htokenizer
    · cases htokenizer
      exact symbolic_tokens_iff _
  | structuredSymbolic vocabSize eosId =>
    simp only [fromConfig] at htokenizer
    split at htokenizer
    · cases htokenizer
    · split at htokenizer
      · cases htokenizer
      · cases htokenizer
        exact iff_of_true (structuredSymbolic_tokens _) trivial

/-- The end of sequence of the training configurations is reserved. -/
theorem payload_tokens_iff_structured :
    (∀ text, ∀ token ∈
        encodePayload ⟨.structuredSymbolic ⟨272, some 271, by decide, by decide⟩⟩ text,
      token < 272 ∧ some 271 ≠ some token) ↔
      (RuliadTokenizationConfig.structuredSymbolic 272 (some 271)).ReservesEos :=
  payload_tokens_iff ⟨.structuredSymbolic ⟨272, some 271, by decide, by decide⟩⟩
    (.structuredSymbolic 272 (some 271)) rfl

/-- With 267 buckets the first of them, the end of sequence, is moved on to itself. -/
theorem payload_has_eos : ∃ tokenizer : RuliadByteTokenizer,
    fromConfig (.symbolic 533 (some 266)) = .ok tokenizer ∧
      tokenizer.eosId = some 266 ∧ 266 ∈ tokenizer.encodePayload "c".toList := by
  refine ⟨⟨.symbolic ⟨533, some 266, by decide⟩⟩, rfl, rfl, ?_⟩
  simp only [encodePayload]
  exact (SymbolicVocabulary.symbolicPayloadTokens_c ⟨533, some 266, by decide⟩ rfl rfl).symm ▸
    List.mem_singleton_self _

end RuliadByteTokenizer

end BurnDragon.Ruliad
