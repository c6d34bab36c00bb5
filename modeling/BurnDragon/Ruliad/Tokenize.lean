import BurnDragon.Rust.Utf8

/-!
# The tokenizers

`tokenize.rs`. A byte tokenizer, a tokenizer that hashes the lexemes of a text into buckets and one
that keeps their bytes. The last two read a text with one scan (`scanPayload`): structural markers
become tokens of their own, whitespace is left out, and separators, lexemes and the other bytes are
written as the mode asks.

A mode carries what `fromConfig` has checked.
-/

namespace BurnDragon.Ruliad

open Rust List

/-! ## Configurations -/

def rawByteTokenCount : ℕ := 256

def symbolicStructuralTokenCount : ℕ := 10

def structuredClassTokenStart : ℕ := rawByteTokenCount + symbolicStructuralTokenCount

def structuredClassTokenCount : ℕ := 5

def structuredReservedTokenCount : ℕ := structuredClassTokenStart + structuredClassTokenCount

def structuredMaxLexemeBytes : ℕ := 32

inductive RuliadTokenizationConfig
  | gpt2ByteCompatible (vocabSize : ℕ) (eosId : Option ℕ)
  | symbolic (vocabSize : ℕ) (eosId : Option ℕ)
  | structuredSymbolic (vocabSize : ℕ) (eosId : Option ℕ)
  deriving DecidableEq

structure ByteVocabulary where
  vocabSize : ℕ
  eosId : Option ℕ
  vocabSize_ge : 257 ≤ vocabSize

structure SymbolicVocabulary where
  vocabSize : ℕ
  eosId : Option ℕ
  vocabSize_ge : 512 ≤ vocabSize

structure StructuredVocabulary where
  vocabSize : ℕ
  eosId : Option ℕ
  vocabSize_ge : structuredReservedTokenCount + 1 ≤ vocabSize
  eosId_ge : ∀ id ∈ eosId, structuredReservedTokenCount ≤ id

inductive RuliadTokenizerMode
  | byteCompatible (vocabulary : ByteVocabulary)
  | symbolic (vocabulary : SymbolicVocabulary)
  | structuredSymbolic (vocabulary : StructuredVocabulary)

def RuliadTokenizerMode.vocabSize : RuliadTokenizerMode → ℕ
  | byteCompatible vocabulary => vocabulary.vocabSize
  | symbolic vocabulary => vocabulary.vocabSize
  | structuredSymbolic vocabulary => vocabulary.vocabSize

structure RuliadByteTokenizer where
  mode : RuliadTokenizerMode

namespace RuliadByteTokenizer

def fromConfig : RuliadTokenizationConfig → Except String RuliadByteTokenizer
  | .gpt2ByteCompatible vocabSize eosId =>
    if h : vocabSize < 257 then
      .error "ruliad byte tokenizer vocab_size must be >= 257"
    else
      .ok ⟨.byteCompatible ⟨vocabSize, eosId, Nat.le_of_not_lt h⟩⟩
  | .symbolic vocabSize eosId =>
    if h : vocabSize < 512 then
      .error "ruliad symbolic tokenizer vocab_size must be >= 512"
    else
      .ok ⟨.symbolic ⟨vocabSize, eosId, Nat.le_of_not_lt h⟩⟩
  | .structuredSymbolic vocabSize eosId =>
    if hsize : vocabSize < structuredReservedTokenCount + 1 then
      .error "ruliad structured symbolic tokenizer vocab_size must be >= 272"
    else if heos : ∃ id ∈ eosId, id < structuredReservedTokenCount then
      .error ("ruliad structured symbolic eos_id must not collide with byte, structural, " ++
        "or class tokens")
    else
      .ok ⟨.structuredSymbolic ⟨vocabSize, eosId, Nat.le_of_not_lt hsize,
        fun id hid => Nat.le_of_not_lt fun hlt => heos ⟨id, hid, hlt⟩⟩⟩

def eosId (tokenizer : RuliadByteTokenizer) : Option ℕ :=
  match tokenizer.mode with
  | .byteCompatible vocabulary => vocabulary.eosId
  | .symbolic vocabulary => vocabulary.eosId
  | .structuredSymbolic vocabulary => vocabulary.eosId

end RuliadByteTokenizer

/-! ## Structural tokens -/

inductive SymbolicStructuralToken
  | traceStart
  | traceNode
  | traceEnd
  | documentStart
  | metadata
  | data
  | query
  | proofStep
  | answer
  | documentEnd
  deriving DecidableEq

namespace SymbolicStructuralToken

def index : SymbolicStructuralToken → ℕ
  | traceStart => 0
  | traceNode => 1
  | traceEnd => 2
  | documentStart => 3
  | metadata => 4
  | data => 5
  | query => 6
  | proofStep => 7
  | answer => 8
  | documentEnd => 9

theorem index_lt (kind : SymbolicStructuralToken) : kind.index < symbolicStructuralTokenCount := by
  cases kind <;> decide

def label : SymbolicStructuralToken → String
  | traceStart => "trace_start"
  | traceNode => "trace_node"
  | traceEnd => "trace_end"
  | documentStart => "doc_start"
  | metadata => "metadata"
  | data => "data"
  | query => "query"
  | proofStep => "proof_step"
  | answer => "answer"
  | documentEnd => "doc_end"

end SymbolicStructuralToken

/-- The bytes of a byte string literal. -/
def bytes (literal : String) : List UInt8 := literal.toList.map byte

/-- A trace node begins with `N`, digits and `<`; its marker is the `N`. -/
def traceNodeMarkerLen : List UInt8 → Option ℕ
  | [] => none
  | first :: rest =>
    if first ≠ byte 'N' then none
    else if rest.takeWhile isAsciiDigit ≠ [] ∧
        (rest.dropWhile isAsciiDigit).head? = some (byte '<') then
      some 1
    else none

/-- The structural marker at the start of the bytes, and its length. -/
def symbolicStructuralMarker (rest : List UInt8) : Option (SymbolicStructuralToken × ℕ) :=
  if (bytes "[T").isPrefixOf rest then some (.traceStart, 2)
  else if (bytes "[/T]").isPrefixOf rest then some (.traceEnd, 4)
  else if let some consumed := traceNodeMarkerLen rest then some (.traceNode, consumed)
  else if (bytes "[R2").isPrefixOf rest || (bytes "[R3").isPrefixOf rest then
    some (.documentStart, 3)
  else if (bytes "[/R2]").isPrefixOf rest || (bytes "[/R3]").isPrefixOf rest then
    some (.documentEnd, 5)
  else if (bytes "S:").isPrefixOf rest then some (.metadata, 2)
  else if (bytes "G:").isPrefixOf rest then some (.data, 2)
  else if (bytes "?:").isPrefixOf rest then some (.query, 2)
  else if (bytes "!:").isPrefixOf rest then some (.answer, 2)
  else if rest.head? = some (byte '>') then some (.proofStep, 1)
  else none

/-- The bytes that a marker begins with. -/
theorem symbolicStructuralMarker_eq_none {b : UInt8} {rest : List UInt8}
    (hb : b ∉ bytes "[NSG?!>") : symbolicStructuralMarker (b :: rest) = none := by
  simp only [bytes, String.reduceToList, map_cons, map_nil, mem_cons,
    not_mem_nil, or_false, not_or] at hb
  obtain ⟨hbracket, hN, hS, hG, hquery, hanswer, hstep⟩ := hb
  simp [symbolicStructuralMarker, traceNodeMarkerLen, bytes, hN, hstep, Ne.symm hbracket,
    Ne.symm hS, Ne.symm hG, Ne.symm hquery, Ne.symm hanswer]

/-- Inside a line only the closing markers count. `previous` is the byte before the position. -/
def structuredSymbolicStructuralMarker (previous : Option UInt8) (rest : List UInt8) :
    Option (SymbolicStructuralToken × ℕ) :=
  if previous = none ∨ previous = some (byte '\n') then
    symbolicStructuralMarker rest
  else if (bytes "[/R2]").isPrefixOf rest || (bytes "[/R3]").isPrefixOf rest then
    some (.documentEnd, 5)
  else if (bytes "[/T]").isPrefixOf rest then some (.traceEnd, 4)
  else none

/-! ## Lexemes -/

def isSymbolicLexemeByte (b : UInt8) : Bool :=
  isAsciiAlphanumeric b || b == byte '_' || b == byte '-'

def isSymbolicSeparatorByte (b : UInt8) : Bool := b ∈ bytes ",;:=|().*+@/<>[]?!"

def isHashBoilerplateLexeme (lexeme : List UInt8) : Bool :=
  lexeme.length ≥ 8 && lexeme.all isAsciiHexdigit

/-- One of the letters before a number. -/
def isIndexLexeme (lexeme : List UInt8) : Bool :=
  match lexeme with
  | [] => false
  | first :: rest =>
    (first == byte 'N' || first == byte 'n' || first == byte 'v') && rest ≠ [] &&
      rest.all isAsciiDigit

def isSymbolicBoilerplateLexeme (lexeme : List UInt8) : Bool :=
  lexeme.all (· == byte '-') ||
    (lexeme.length == 1 && lexeme.all isAsciiUppercase) ||
    lexeme = bytes "R2" || lexeme = bytes "R3" ||
    isHashBoilerplateLexeme lexeme ||
    isIndexLexeme lexeme

def normalizedStructuredLexemeByte (b : UInt8) : Option UInt8 :=
  if isAsciiAlphanumeric b then some (toAsciiLowercase b)
  else if b = byte '_' ∨ b = byte '-' then some b
  else none

inductive SymbolicClass
  | alpha
  | number
  | hex
  | mixed
  | filler
  deriving DecidableEq

def SymbolicClass.index : SymbolicClass → UInt64
  | alpha => 0
  | number => 1
  | hex => 2
  | mixed => 3
  | filler => 4

def symbolicLexemeClass (lexeme : List UInt8) : SymbolicClass :=
  if lexeme.all isAsciiDigit then .number
  else if lexeme.length ≥ 6 && lexeme.all isAsciiHexdigit then .hex
  else if lexeme.all fun b => isAsciiAlphabetic b || b == byte '_' then .alpha
  else .mixed

/-- `stable_text_hash`. -/
def stableTextHash (text : List UInt8) : UInt64 :=
  text.foldl (fun hash b => (hash ^^^ b.toUInt64) * 0x00000100000001B3) 0xcbf29ce484222325

/-! ## Tokens -/

/-- Addition to the first token of the buckets, in `u32`. -/
def bucketToken (bucket : ℕ) : ℕ := (structuredClassTokenStart + bucket % 2 ^ 32) % 2 ^ 32

namespace SymbolicVocabulary

variable (vocabulary : SymbolicVocabulary)

def bucketCount : ℕ := max (vocabulary.vocabSize - structuredClassTokenStart) 1

/-- `symbolic_bucket_token`: a bucket that is the end of sequence moves on by one. -/
def symbolicBucketToken (cls : SymbolicClass) (hash : UInt64) : ℕ :=
  let mixed := hash ^^^ cls.index * 0xD1B54A32D192ED03
  let token := bucketToken (mixed.toNat % vocabulary.bucketCount)
  if vocabulary.eosId = some token then
    let token := bucketToken ((token + 1) % vocabulary.bucketCount)
    if vocabulary.eosId = some token then structuredClassTokenStart else token
  else
    token

def symbolicLexemeToken (lexeme : List UInt8) : ℕ :=
  vocabulary.symbolicBucketToken (symbolicLexemeClass lexeme) (stableTextHash lexeme)

/-- `symbolic_structural_token`. -/
def symbolicStructuralToken (kind : SymbolicStructuralToken) : ℕ :=
  let token := rawByteTokenCount + kind.index
  if vocabulary.eosId = some token then
    vocabulary.symbolicBucketToken .mixed (stableTextHash (utf8Bytes kind.label.toList))
  else
    token

end SymbolicVocabulary

/-- `symbolic_structural_token` in the structured mode, which has no buckets to fall back to: the
branch that would need one is not reached. -/
def StructuredVocabulary.symbolicStructuralToken (vocabulary : StructuredVocabulary)
    (kind : SymbolicStructuralToken) : ℕ :=
  let token := rawByteTokenCount + kind.index
  if h : vocabulary.eosId = some token then
    absurd (vocabulary.eosId_ge token h) (by
      have := kind.index_lt
      simp only [token, structuredReservedTokenCount, structuredClassTokenStart]
      omega)
  else
    token

def structuredSeparatorTokens (b : UInt8) : List ℕ :=
  if b = byte '[' ∨ b = byte ']' then [] else [b.toNat]

def structuredLexemeTokens (lexeme : List UInt8) : List ℕ :=
  ((lexeme.filterMap normalizedStructuredLexemeByte).take structuredMaxLexemeBytes).map UInt8.toNat

/-! ## The scan -/

/-- What the two symbolic modes write for the parts of a text. -/
structure PayloadScan where
  structuralMarker : Option UInt8 → List UInt8 → Option (SymbolicStructuralToken × ℕ)
  structuralToken : SymbolicStructuralToken → ℕ
  separatorTokens : UInt8 → List ℕ
  lexemeTokens : List UInt8 → List ℕ

/-- The loop over the bytes of a text; `previous` is the byte before the rest. -/
def scanPayload (scan : PayloadScan) (previous : Option UInt8) : List UInt8 → List ℕ
  | [] => []
  | b :: rest =>
    match scan.structuralMarker previous (b :: rest) with
    | some (kind, consumed) =>
      scan.structuralToken kind ::
        scanPayload scan (b :: rest)[consumed - 1]? (rest.drop (consumed - 1))
    | none =>
      if isAsciiWhitespace b then
        scanPayload scan (some b) rest
      else if isSymbolicSeparatorByte b then
        scan.separatorTokens b ++ scanPayload scan (some b) rest
      else if isSymbolicLexemeByte b then
        let lexeme := b :: rest.takeWhile isSymbolicLexemeByte
        let after := scanPayload scan lexeme.getLast? (rest.dropWhile isSymbolicLexemeByte)
        if isSymbolicBoilerplateLexeme lexeme then after else scan.lexemeTokens lexeme ++ after
      else
        b.toNat :: scanPayload scan (some b) rest
termination_by text => text.length
decreasing_by
  · simp only [List.length_drop, List.length_cons]
    omega
  · exact Nat.lt_succ_self _
  · exact Nat.lt_succ_self _
  · exact Nat.lt_succ_of_le (List.dropWhile_suffix _).length_le
  · exact Nat.lt_succ_self _

/-! ### One part of a text -/

/-- The bytes that are neither whitespace nor separators nor parts of a lexeme. -/
def isRawByte (b : UInt8) : Bool :=
  !isAsciiWhitespace b && !isSymbolicSeparatorByte b && !isSymbolicLexemeByte b

theorem separatorByte_not_whitespace {b : UInt8} (hb : isSymbolicSeparatorByte b) :
    isAsciiWhitespace b = false :=
  uint8_forall (P := fun b => isSymbolicSeparatorByte b → isAsciiWhitespace b = false)
    (by decide +kernel) b hb

theorem lexemeByte_not_whitespace {b : UInt8} (hb : isSymbolicLexemeByte b) :
    isAsciiWhitespace b = false ∧ isSymbolicSeparatorByte b = false :=
  uint8_forall (P := fun b => isSymbolicLexemeByte b →
    isAsciiWhitespace b = false ∧ isSymbolicSeparatorByte b = false) (by decide +kernel) b hb

section Steps

variable {scan : PayloadScan} {previous : Option UInt8} {b : UInt8} {rest : List UInt8}

@[simp] theorem scanPayload_nil : scanPayload scan previous [] = [] := by rw [scanPayload]

section

variable (hmarker : scan.structuralMarker previous (b :: rest) = none)
include hmarker

theorem scanPayload_raw (hb : isRawByte b) :
    scanPayload scan previous (b :: rest) = b.toNat :: scanPayload scan (some b) rest := by
  simp only [isRawByte, Bool.and_eq_true, Bool.not_eq_true'] at hb
  obtain ⟨⟨hwhitespace, hseparator⟩, hlexeme⟩ := hb
  rw [scanPayload, hmarker]
  simp [hwhitespace, hseparator, hlexeme]

theorem scanPayload_separator (hb : isSymbolicSeparatorByte b) :
    scanPayload scan previous (b :: rest) =
      scan.separatorTokens b ++ scanPayload scan (some b) rest := by
  rw [scanPayload, hmarker]
  simp [separatorByte_not_whitespace hb, hb]

theorem scanPayload_lexeme_cons (hb : isSymbolicLexemeByte b) :
    scanPayload scan previous (b :: rest) =
      (if isSymbolicBoilerplateLexeme (b :: rest.takeWhile isSymbolicLexemeByte) then []
        else scan.lexemeTokens (b :: rest.takeWhile isSymbolicLexemeByte)) ++
        scanPayload scan (b :: rest.takeWhile isSymbolicLexemeByte).getLast?
          (rest.dropWhile isSymbolicLexemeByte) := by
  obtain ⟨hwhitespace, hseparator⟩ := lexemeByte_not_whitespace hb
  rw [scanPayload, hmarker]
  simp only [hwhitespace, hseparator, hb, Bool.false_eq_true, if_false, if_true]
  split <;> simp

end

/-- A lexeme is read as a whole when no byte of a lexeme follows it. -/
theorem scanPayload_lexeme {lexeme : List UInt8} (hne : lexeme ≠ [])
    (hlexeme : ∀ b ∈ lexeme, isSymbolicLexemeByte b)
    (hrest : ∀ b ∈ rest.head?, isSymbolicLexemeByte b = false)
    (hmarker : scan.structuralMarker previous (lexeme ++ rest) = none) :
    scanPayload scan previous (lexeme ++ rest) =
      (if isSymbolicBoilerplateLexeme lexeme then [] else scan.lexemeTokens lexeme) ++
        scanPayload scan lexeme.getLast? rest := by
  obtain ⟨b, tail, rfl⟩ := exists_cons_of_ne_nil hne
  have htail : ∀ c ∈ tail, isSymbolicLexemeByte c := fun c hc => hlexeme c (by simp [hc])
  have htake : rest.takeWhile isSymbolicLexemeByte = [] := by
    cases rest with
    | nil => rfl
    | cons c rest => simp [hrest c (by simp)]
  have hdrop : rest.dropWhile isSymbolicLexemeByte = rest := by
    cases rest with
    | nil => rfl
    | cons c rest => simp [hrest c (by simp)]
  rw [cons_append] at hmarker ⊢
  rw [scanPayload_lexeme_cons hmarker (hlexeme b (by simp)), takeWhile_append_of_pos htail,
    dropWhile_append_of_pos htail, htake, hdrop, append_nil]

/-- **The tokens of a scan** all come from a marker, a separator, a lexeme or a raw byte of the
text. -/
theorem scanPayload_forall {P : ℕ → Prop} (hstructural : ∀ kind, P (scan.structuralToken kind))
    (hseparator : ∀ b, ∀ token ∈ scan.separatorTokens b, P token)
    (hlexeme : ∀ lexeme, ∀ token ∈ scan.lexemeTokens lexeme, P token) (text : List UInt8)
    (hraw : ∀ b ∈ text, isRawByte b → P b.toNat) :
    ∀ token ∈ scanPayload scan previous text, P token := by
  have hafter : ∀ {b : UInt8} {rest : List UInt8},
      (∀ c ∈ b :: rest, isRawByte c → P c.toNat) →
        ∀ c ∈ rest.dropWhile isSymbolicLexemeByte, isRawByte c → P c.toNat :=
    fun h c hc => h c (mem_cons_of_mem _ ((dropWhile_suffix _).subset hc))
  induction previous, text using scanPayload.induct scan with
  | case1 previous => simp
  | case2 previous b rest kind consumed hmarker ih =>
    rw [scanPayload, hmarker]
    intro token htoken
    rcases mem_cons.1 htoken with rfl | htoken
    · exact hstructural kind
    · exact ih (fun c hc => hraw c (mem_cons_of_mem _ (mem_of_mem_drop hc))) token htoken
  | case3 previous b rest hmarker hb ih =>
    rw [scanPayload, hmarker]
    simpa [hb] using ih fun c hc => hraw c (by simp [hc])
  | case4 previous b rest hmarker hwhitespace hb ih =>
    rw [scanPayload_separator hmarker hb]
    intro token htoken
    rcases mem_append.1 htoken with htoken | htoken
    · exact hseparator b token htoken
    · exact ih (fun c hc => hraw c (by simp [hc])) token htoken
  | case5 previous b rest hmarker _ _ hb lexeme hboilerplate ih =>
    have hboilerplate' : isSymbolicBoilerplateLexeme (b :: rest.takeWhile isSymbolicLexemeByte) :=
      hboilerplate
    rw [scanPayload_lexeme_cons hmarker hb, if_pos hboilerplate', nil_append]
    exact ih (hafter hraw)
  | case6 previous b rest hmarker _ _ hb lexeme hboilerplate ih =>
    have hboilerplate' : ¬ isSymbolicBoilerplateLexeme
        (b :: rest.takeWhile isSymbolicLexemeByte) := hboilerplate
    rw [scanPayload_lexeme_cons hmarker hb, if_neg hboilerplate']
    intro token htoken
    rcases mem_append.1 htoken with htoken | htoken
    · exact hlexeme _ token htoken
    · exact ih (hafter hraw) token htoken
  | case7 previous b rest hmarker hwhitespace hnseparator hb ih =>
    have hbyte : isRawByte b := by simp [isRawByte, hwhitespace, hnseparator, hb]
    rw [scanPayload_raw hmarker hbyte]
    intro token htoken
    rcases mem_cons.1 htoken with rfl | htoken
    · exact hraw b (by simp) hbyte
    · exact ih (fun c hc => hraw c (by simp [hc])) token htoken

end Steps

def SymbolicVocabulary.scan (vocabulary : SymbolicVocabulary) : PayloadScan where
  structuralMarker := fun _ rest => symbolicStructuralMarker rest
  structuralToken := vocabulary.symbolicStructuralToken
  separatorTokens := fun _ => []
  lexemeTokens := fun lexeme => [vocabulary.symbolicLexemeToken lexeme]

def symbolicPayloadTokens (text : List Char) (vocabulary : SymbolicVocabulary) : List ℕ :=
  scanPayload vocabulary.scan none (utf8Bytes text)

def StructuredVocabulary.scan (vocabulary : StructuredVocabulary) : PayloadScan where
  structuralMarker := structuredSymbolicStructuralMarker
  structuralToken := vocabulary.symbolicStructuralToken
  separatorTokens := structuredSeparatorTokens
  lexemeTokens := structuredLexemeTokens

def structuredSymbolicPayloadTokens (text : List Char) (vocabulary : StructuredVocabulary) :
    List ℕ :=
  scanPayload vocabulary.scan none (utf8Bytes text)

/-! ## Decoding -/

/-- `char::from_u32`. -/
def charFromU32 (n : ℕ) : Option Char := if n.isValidChar then some (Char.ofNat n) else none

/-- A marker begins a line. -/
def pushMarker (text marker : List Char) : List Char :=
  (if text ≠ [] ∧ text.getLast? ≠ some '\n' then text ++ ['\n'] else text) ++ marker

def SymbolicStructuralToken.marker : SymbolicStructuralToken → String
  | traceStart => "[T"
  | traceNode => "N<"
  | traceEnd => "[/T]"
  | documentStart => "[R2"
  | metadata => "S:"
  | data => "G:"
  | query => "?:"
  | proofStep => ">"
  | answer => "!:"
  | documentEnd => "[/R2]"

/-- The structural tokens in the order of their indices. -/
def SymbolicStructuralToken.all : List SymbolicStructuralToken :=
  [traceStart, traceNode, traceEnd, documentStart, metadata, data, query, proofStep, answer,
    documentEnd]

def decodeSymbolicToken (text : List Char) (token : ℕ) (structured : Bool) : List Char :=
  if token ≤ 255 then
    if structured then text ++ (charFromU32 token).toList else text
  else
    match SymbolicStructuralToken.all.find? fun kind => token = rawByteTokenCount + kind.index with
    | some kind => pushMarker text kind.marker.toList
    | none => text

namespace RuliadByteTokenizer

def encodePayload (tokenizer : RuliadByteTokenizer) (text : List Char) : List ℕ :=
  match tokenizer.mode with
  | .byteCompatible _ => (utf8Bytes text).map UInt8.toNat
  | .symbolic vocabulary => symbolicPayloadTokens text vocabulary
  | .structuredSymbolic vocabulary => structuredSymbolicPayloadTokens text vocabulary

def decodeToken (tokenizer : RuliadByteTokenizer) (text : List Char) (token : ℕ) : List Char :=
  match tokenizer.mode with
  | .byteCompatible _ => text ++ (charFromU32 token).toList
  | .symbolic _ => decodeSymbolicToken text token false
  | .structuredSymbolic _ => decodeSymbolicToken text token true

/-- The loop of `decode_payload`, from the text written so far. -/
def decodeFrom (tokenizer : RuliadByteTokenizer) (stopAtEos : Bool) (text : List Char) :
    List ℕ → List Char
  | [] => text
  | token :: tokens =>
    if some token = tokenizer.eosId then
      if stopAtEos then text else decodeFrom tokenizer stopAtEos text tokens
    else
      decodeFrom tokenizer stopAtEos (tokenizer.decodeToken text token) tokens

def decodePayload (tokenizer : RuliadByteTokenizer) (tokens : List ℕ) (stopAtEos : Bool) :
    List Char :=
  tokenizer.decodeFrom stopAtEos [] tokens

end RuliadByteTokenizer

end BurnDragon.Ruliad
