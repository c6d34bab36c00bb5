import BurnDragon.Ruliad.Formal
import BurnDragon.Ruliad.ModelCertificate
import BurnDragon.Ruliad.Tokenize

/-!
# The text of a step as tokens

The text of a step is a row of lexemes with a separator before each but the first. The structured
tokenizer keeps the separators and every lexeme that is no boilerplate, so that the text comes back
from its tokens exactly when none is (`decodePayload_encodePayload_iff`). Of the lexemes of a step
these may be boilerplate: the dash of an empty path and a number of eight digits or more.
-/

namespace BurnDragon.Ruliad

open Rust List RuliadByteTokenizer

/-! ## Lexemes and separators -/

/-- The characters of lexemes that the tokenizer writes unchanged. -/
def isPlainChar (c : Char) : Bool :=
  c.toNat < 128 && isSymbolicLexemeByte (byte c) && !isAsciiUppercase (byte c)

/-- The characters between the lexemes of a step. -/
def isStepSeparator (c : Char) : Bool := c == '|' || c == ':' || c == '.'

def isBoilerplate (lexeme : List Char) : Bool := isSymbolicBoilerplateLexeme (lexeme.map byte)

/-- A lexeme that the structured tokenizer writes unchanged or leaves out. -/
structure PlainLexeme (lexeme : List Char) : Prop where
  ne_nil : lexeme ≠ []
  plain : ∀ c ∈ lexeme, isPlainChar c
  fits : lexeme.length ≤ structuredMaxLexemeBytes ∨ isBoilerplate lexeme

/-- What is left of a lexeme. -/
def keptLexeme (lexeme : List Char) : List Char := if isBoilerplate lexeme then [] else lexeme

variable {lexeme : List Char}

theorem keptLexeme_eq_self_iff (hne : lexeme ≠ []) :
    keptLexeme lexeme = lexeme ↔ isBoilerplate lexeme = false := by
  unfold keptLexeme
  split
  · rename_i h
    simp [h, hne.symm]
  · rename_i h
    simp [h]

theorem length_keptLexeme_le (lexeme : List Char) : (keptLexeme lexeme).length ≤ lexeme.length := by
  unfold keptLexeme
  split <;> simp

/-- Lexemes with the separator before each of them. -/
def segmentText (segments : List (Char × List Char)) : List Char :=
  segments.flatMap fun segment => segment.1 :: segment.2

def keptSegments (segments : List (Char × List Char)) : List (Char × List Char) :=
  segments.map fun segment => (segment.1, keptLexeme segment.2)

/-- A part of the text of a step. -/
def PlainSegment (segment : Char × List Char) : Prop :=
  isStepSeparator segment.1 ∧ PlainLexeme segment.2

/-- The token of an ASCII character. -/
def charToken (c : Char) : ℕ := (byte c).toNat

section Characters

variable {c : Char}

theorem plainChar_ascii (hc : isPlainChar c) : c.toNat < 128 := by
  simp only [isPlainChar, Bool.and_eq_true, decide_eq_true_eq] at hc
  exact hc.1.1

theorem plainChar_spec (hc : isPlainChar c) :
    isSymbolicLexemeByte (byte c) ∧ normalizedStructuredLexemeByte (byte c) = some (byte c) ∧
      byte c ≠ byte '\n' ∧ byte c ∉ bytes "[NSG?!>" :=
  ascii_forall (P := fun c => isPlainChar c → isSymbolicLexemeByte (byte c) ∧
    normalizedStructuredLexemeByte (byte c) = some (byte c) ∧ byte c ≠ byte '\n' ∧
      byte c ∉ bytes "[NSG?!>") (by decide +kernel) (plainChar_ascii hc) hc

theorem stepSeparator_spec (hc : isStepSeparator c) :
    c.toNat < 128 ∧ isSymbolicSeparatorByte (byte c) ∧ isSymbolicLexemeByte (byte c) = false ∧
      byte c ≠ byte '\n' ∧ structuredSeparatorTokens (byte c) = [charToken c] ∧
      byte '[' ≠ byte c := by
  simp only [isStepSeparator, Bool.or_eq_true, beq_iff_eq] at hc
  rcases hc with (rfl | rfl) | rfl <;> decide

end Characters

/-! ## The tokens of a row of lexemes -/

variable {rest : List UInt8}

/-- No marker begins inside a line but with a bracket. -/
theorem structuredMarker_of_inside {p b : UInt8} (hp : p ≠ byte '\n')
    (hb : byte '[' ≠ b) : structuredSymbolicStructuralMarker (some p) (b :: rest) = none := by
  simp [structuredSymbolicStructuralMarker, bytes, hp, hb]

variable {c : Char}

/-- No marker begins with a plain character. -/
theorem structuredMarker_of_plain {previous : Option UInt8} (hc : isPlainChar c) :
    structuredSymbolicStructuralMarker previous (byte c :: rest) = none := by
  have hfirst := (plainChar_spec hc).2.2.2
  have hbracket : byte '[' ≠ byte c := fun heq => hfirst (heq ▸ by decide)
  unfold structuredSymbolicStructuralMarker
  split
  · exact symbolicStructuralMarker_eq_none hfirst
  · simp [bytes, hbracket]

theorem structuredLexemeTokens_of_plain (h : PlainLexeme lexeme) :
    (if isSymbolicBoilerplateLexeme (lexeme.map byte) then []
      else structuredLexemeTokens (lexeme.map byte)) = (keptLexeme lexeme).map charToken := by
  unfold keptLexeme
  split
  · rename_i hboilerplate
    rw [if_pos (show isBoilerplate lexeme from hboilerplate), map_nil]
  · rename_i hboilerplate
    have hfits := h.fits.resolve_right hboilerplate
    have hnormalized : (lexeme.map byte).filterMap normalizedStructuredLexemeByte =
        lexeme.map byte := by
      rw [filterMap_map, ← filterMap_eq_map]
      exact filterMap_congr fun c hc => (plainChar_spec (h.plain c hc)).2.1
    rw [if_neg (show ¬ isBoilerplate lexeme from hboilerplate), structuredLexemeTokens, hnormalized,
      take_of_length_le (by simpa using hfits), map_map]
    rfl

section Rows

variable (vocabulary : StructuredVocabulary) {segments : List (Char × List Char)}

/-- A lexeme before separators is read as a whole, and no line begins after it. -/
theorem scanPayload_plainLexeme (hlexeme : PlainLexeme lexeme)
    (h : ∀ segment ∈ segments, PlainSegment segment) (previous : Option UInt8) :
    ∃ last ≠ byte '\n',
      scanPayload vocabulary.scan previous (lexeme.map byte ++ (segmentText segments).map byte) =
        (keptLexeme lexeme).map charToken ++
          scanPayload vocabulary.scan (some last) ((segmentText segments).map byte) := by
  have hplain : ∀ b ∈ lexeme.map byte, isSymbolicLexemeByte b ∧ b ≠ byte '\n' := by
    intro b hb
    obtain ⟨c, hc, rfl⟩ := mem_map.1 hb
    have hspec := plainChar_spec (hlexeme.plain c hc)
    exact ⟨hspec.1, hspec.2.2.1⟩
  have hafter : ∀ b ∈ ((segmentText segments).map byte).head?, isSymbolicLexemeByte b = false := by
    cases segments with
    | nil => simp [segmentText]
    | cons next segments =>
      intro b hb
      obtain rfl : byte next.1 = b := by simpa [segmentText] using hb
      exact (stepSeparator_spec (h next (by simp)).1).2.2.1
  have hmarker : structuredSymbolicStructuralMarker previous
      (lexeme.map byte ++ (segmentText segments).map byte) = none := by
    obtain ⟨c, tail, hcons⟩ := exists_cons_of_ne_nil hlexeme.ne_nil
    rw [hcons, map_cons, cons_append]
    exact structuredMarker_of_plain (hlexeme.plain c (by simp [hcons]))
  have hne : lexeme.map byte ≠ [] := by simpa using hlexeme.ne_nil
  have hscan := @scanPayload_lexeme vocabulary.scan previous ((segmentText segments).map byte)
    (lexeme.map byte) hne (fun b hb => (hplain b hb).1) hafter hmarker
  refine ⟨(lexeme.map byte).getLast hne, (hplain _ (getLast_mem hne)).2, ?_⟩
  rw [hscan, getLast?_eq_some_getLast hne]
  exact congrArg (· ++ _) (structuredLexemeTokens_of_plain hlexeme)

theorem scanPayload_segments (h : ∀ segment ∈ segments, PlainSegment segment) {p : UInt8}
    (hp : p ≠ byte '\n') :
    scanPayload vocabulary.scan (some p) ((segmentText segments).map byte) =
      (segmentText (keptSegments segments)).map charToken := by
  induction segments generalizing p with
  | nil => exact scanPayload_nil
  | cons segment segments ih =>
    obtain ⟨hseparator, hlexeme⟩ := h segment (by simp)
    have hrest := fun other hother => h other (mem_cons_of_mem _ hother)
    obtain ⟨-, hisSeparator, -, -, htoken, hbracket⟩ := stepSeparator_spec hseparator
    obtain ⟨last, hlast, hscan⟩ :=
      scanPayload_plainLexeme vocabulary hlexeme hrest (some (byte segment.1))
    calc scanPayload vocabulary.scan (some p) ((segmentText (segment :: segments)).map byte)
        = scanPayload vocabulary.scan (some p)
            (byte segment.1 :: (segment.2.map byte ++ (segmentText segments).map byte)) := by
          simp [segmentText]
      _ = [charToken segment.1] ++ ((keptLexeme segment.2).map charToken ++
            (segmentText (keptSegments segments)).map charToken) := by
          rw [scanPayload_separator (structuredMarker_of_inside hp hbracket) hisSeparator, hscan,
            ih hrest hlast]
          exact congrArg (· ++ _) htoken
      _ = (segmentText (keptSegments (segment :: segments))).map charToken := by
          simp [segmentText, keptSegments]

variable {first : List Char}

/-- The characters of a row are ASCII. -/
theorem ascii_of_mem_row (hfirst : PlainLexeme first)
    (h : ∀ segment ∈ segments, PlainSegment segment) :
    ∀ c ∈ first ++ segmentText segments, c.toNat < 128 := by
  intro c hc
  rcases mem_append.1 hc with hc | hc
  · exact plainChar_ascii (hfirst.plain c hc)
  · obtain ⟨segment, hmem, hc⟩ := mem_flatMap.1 hc
    obtain ⟨hseparator, hlexeme⟩ := h segment hmem
    rcases mem_cons.1 hc with rfl | hc
    · exact (stepSeparator_spec hseparator).1
    · exact plainChar_ascii (hlexeme.plain c hc)

/-- The tokens of a row of lexemes are those of the lexemes that are kept. -/
theorem structuredSymbolicPayloadTokens_row (hfirst : PlainLexeme first)
    (h : ∀ segment ∈ segments, PlainSegment segment) :
    structuredSymbolicPayloadTokens (first ++ segmentText segments) vocabulary =
      (keptLexeme first ++ segmentText (keptSegments segments)).map charToken := by
  obtain ⟨last, hlast, hscan⟩ := scanPayload_plainLexeme vocabulary hfirst h none
  rw [structuredSymbolicPayloadTokens, utf8Bytes_of_ascii (ascii_of_mem_row hfirst h),
    map_append, hscan, scanPayload_segments vocabulary h hlast, map_append]

/-! ## Decoding -/

/-- The tokens of ASCII characters are decoded to these characters. -/
theorem decodeFrom_charTokens (stopAtEos : Bool) (written : List Char) {text : List Char}
    (htext : ∀ c ∈ text, c.toNat < 128) :
    decodeFrom ⟨.structuredSymbolic vocabulary⟩ stopAtEos written
      (text.map charToken) = written ++ text := by
  induction text generalizing written with
  | nil => simp [decodeFrom]
  | cons c text ih =>
    have hc := htext c (by simp)
    have hbyte : charToken c ≤ 255 := Nat.le_of_lt_succ (byte c).toNat_lt
    have heos : some (charToken c) ≠
        eosId ⟨.structuredSymbolic vocabulary⟩ := by
      intro heos
      have hge : 271 ≤ charToken c := vocabulary.eosId_ge _ heos.symm
      omega
    have hchar : charFromU32 (charToken c) = some c := by
      have hvalid : (charToken c).isValidChar := .inl (by omega)
      rw [charFromU32, if_pos hvalid, charToken, ofNat_byte hc]
    have hdecode : decodeToken ⟨.structuredSymbolic vocabulary⟩ written
        (charToken c) = written ++ [c] := by
      simp [decodeToken, decodeSymbolicToken, hbyte, hchar]
    rw [map_cons, decodeFrom, if_neg heos, hdecode,
      ih _ fun d hd => htext d (by simp [hd]), append_assoc, singleton_append]

theorem mem_keptLexeme (hc : c ∈ keptLexeme lexeme) :
    c ∈ lexeme := by
  unfold keptLexeme at hc
  split at hc
  · cases hc
  · exact hc

theorem mem_kept_row (hc : c ∈ keptLexeme first ++ segmentText (keptSegments segments)) :
    c ∈ first ++ segmentText segments := by
  rcases mem_append.1 hc with hc | hc
  · exact mem_append_left _ (mem_keptLexeme hc)
  · obtain ⟨kept, hkept, hc⟩ := mem_flatMap.1 hc
    obtain ⟨segment, hmem, rfl⟩ := mem_map.1 hkept
    refine mem_append_right _ (mem_flatMap.2 ⟨segment, hmem, ?_⟩)
    rcases mem_cons.1 hc with rfl | hc
    · exact mem_cons_self
    · exact mem_cons_of_mem _ (mem_keptLexeme hc)

/-- The text that comes back is the row of the lexemes that are kept. -/
theorem decodePayload_row (stopAtEos : Bool) (hfirst : PlainLexeme first)
    (h : ∀ segment ∈ segments, PlainSegment segment) :
    decodePayload ⟨.structuredSymbolic vocabulary⟩
      (encodePayload ⟨.structuredSymbolic vocabulary⟩
        (first ++ segmentText segments)) stopAtEos =
      keptLexeme first ++ segmentText (keptSegments segments) := by
  simp only [decodePayload, encodePayload,
    structuredSymbolicPayloadTokens_row vocabulary hfirst h]
  exact decodeFrom_charTokens vocabulary stopAtEos []
    fun c hc => ascii_of_mem_row hfirst h c (mem_kept_row hc)

end Rows

theorem length_segmentText_kept_le (segments : List (Char × List Char)) :
    (segmentText (keptSegments segments)).length ≤ (segmentText segments).length := by
  induction segments with
  | nil => exact Nat.le_refl _
  | cons segment segments ih =>
    have := length_keptLexeme_le segment.2
    simp only [keptSegments, segmentText, map_cons, flatMap_cons, length_append,
      length_cons] at ih ⊢
    omega

/-- A row of lexemes is kept when each of its lexemes is. -/
theorem kept_row_iff {first : List Char} {segments : List (Char × List Char)} :
    keptLexeme first ++ segmentText (keptSegments segments) = first ++ segmentText segments ↔
      keptLexeme first = first ∧ ∀ segment ∈ segments, keptLexeme segment.2 = segment.2 := by
  induction segments generalizing first with
  | nil => simp [segmentText, keptSegments]
  | cons segment segments ih =>
    have hlength := length_keptLexeme_le first
    have htail := length_keptLexeme_le segment.2
    have hrest := length_segmentText_kept_le segments
    constructor
    · intro heq
      have hfirst : (keptLexeme first).length = first.length := by
        have := congrArg List.length heq
        simp only [keptSegments, segmentText, map_cons, flatMap_cons, length_append,
          length_cons] at this hrest
        omega
      obtain ⟨hfirst, hsegments⟩ := append_inj heq hfirst
      have hcons : keptLexeme segment.2 ++ segmentText (keptSegments segments) =
          segment.2 ++ segmentText segments := by
        simpa [segmentText, keptSegments] using hsegments
      obtain ⟨hsegment, hsegments⟩ := ih.1 hcons
      exact ⟨hfirst, by simpa [hsegment] using hsegments⟩
    · rintro ⟨hfirst, hsegments⟩
      have hcons := ih.2 ⟨hsegments segment (by simp),
        fun other hother => hsegments other (mem_cons_of_mem _ hother)⟩
      rw [hfirst]
      simpa [segmentText, keptSegments] using hcons

/-! ## Numbers and identifiers -/

theorem isDigit_byte (hc : c.isDigit) :
    isPlainChar c ∧ isAsciiDigit (byte c) ∧ isAsciiHexdigit (byte c) ∧
      byte c ∉ bytes "-RNnv" ∧ isAsciiUppercase (byte c) = false := by
  have hascii : c.toNat < 128 := by
    simp only [Char.isDigit, Bool.and_eq_true, decide_eq_true_eq, ge_iff_le,
      UInt32.le_iff_toNat_le] at hc
    have hle : c.toNat ≤ 57 := hc.2
    omega
  exact ascii_forall (P := fun c => c.isDigit → isPlainChar c ∧ isAsciiDigit (byte c) ∧
    isAsciiHexdigit (byte c) ∧ byte c ∉ bytes "-RNnv" ∧ isAsciiUppercase (byte c) = false)
    (by decide +kernel) hascii hc

/-- Without a special first byte only hashes are boilerplate. -/
theorem isSymbolicBoilerplateLexeme_cons {b : UInt8} (hb : b ∉ bytes "-RNnv")
    (hupper : isAsciiUppercase b = false) :
    isSymbolicBoilerplateLexeme (b :: rest) = isHashBoilerplateLexeme (b :: rest) := by
  simp only [bytes, String.reduceToList, map_cons, map_nil, mem_cons,
    not_mem_nil, or_false, not_or] at hb
  obtain ⟨hdash, hR, hN, hn, hv⟩ := hb
  simp [isSymbolicBoilerplateLexeme, isIndexLexeme, bytes, hR, hupper, beq_eq_false_iff_ne.2 hdash,
    beq_eq_false_iff_ne.2 hN, beq_eq_false_iff_ne.2 hn, beq_eq_false_iff_ne.2 hv]

/-- A number is boilerplate from eight digits on, as a hash would be. -/
theorem isBoilerplate_decimal_iff (n : ℕ) :
    isBoilerplate (decimal n).toList = false ↔ n < 10 ^ 7 := by
  have hdigit : ∀ c ∈ (decimal n).toList, _ := fun c hc => isDigit_byte (isDigit_of_mem_decimal hc)
  have hlength : (decimal n).toList.length ≤ 7 ↔ n < 10 ^ 7 := by
    rw [toList_decimal]
    exact Nat.length_toDigits_le_iff (by omega) (by omega)
  obtain ⟨c, rest, hcons⟩ := exists_cons_of_ne_nil (decimal_ne_nil n)
  rw [← hlength, isBoilerplate]
  rw [hcons] at hdigit ⊢
  obtain ⟨-, -, -, hspecial, hupper⟩ := hdigit c (by simp)
  have hhex : ((c :: rest).map byte).all isAsciiHexdigit := by
    simpa using fun d hd => (hdigit d hd).2.2.1
  rw [map_cons, isSymbolicBoilerplateLexeme_cons hspecial hupper, ← map_cons,
    isHashBoilerplateLexeme, hhex, length_map, Bool.and_true, decide_eq_false_iff_not]
  omega

/-- A word is no boilerplate when it begins with a letter that is not special and is no hash. -/
theorem isBoilerplate_cons {rest : List Char} (hspecial : byte c ∉ bytes "-RNnv")
    (hupper : isAsciiUppercase (byte c) = false)
    (hhex : ∃ d ∈ c :: rest, isAsciiHexdigit (byte d) = false) :
    isBoilerplate (c :: rest) = false := by
  rw [isBoilerplate, map_cons, isSymbolicBoilerplateLexeme_cons hspecial hupper,
    isHashBoilerplateLexeme, Bool.and_eq_false_iff]
  refine .inr ?_
  obtain ⟨d, hd, hnot⟩ := hhex
  rw [← map_cons, all_eq_false]
  exact ⟨byte d, mem_map_of_mem hd, by simp [hnot]⟩

theorem plainLexeme_decimal (n : ℕ) : PlainLexeme (decimal n).toList := by
  refine ⟨decimal_ne_nil n, fun c hc => (isDigit_byte (isDigit_of_mem_decimal hc)).1, ?_⟩
  by_cases hn : n < 10 ^ 7
  · have := length_decimal_le (by omega) hn
    exact .inl (by rw [structuredMaxLexemeBytes]; omega)
  · refine .inr ?_
    by_contra hboilerplate
    exact hn ((isBoilerplate_decimal_iff n).1 (by simpa using hboilerplate))

/-- A lexeme that comes back from its tokens. -/
structure KeptLexeme (lexeme : List Char) : Prop extends PlainLexeme lexeme where
  kept : isBoilerplate lexeme = false

/-- The ids of the axioms that the generator writes: those of the laws and of the distractors, and
their names after the renaming. -/
inductive GeneratorAxiomId : String → Prop
  | law (domain : RuliadFormalDomain) (law : DomainLaw)
      (hlaw : law ∈ (domainTheory domain).laws.laws) : GeneratorAxiomId law.rule.id
  | distractor (theory : DomainTheory) (index : ℕ) (hindex : index ≤ usizeMax)
      (selectedLaws : DomainLaws) :
      GeneratorAxiomId (theory.derivedDistractor index selectedLaws).id
  | renamed (index : ℕ) (hindex : index ≤ usizeMax) : GeneratorAxiomId ("r" ++ decimal index)

theorem length_decimal_le_twenty {n : ℕ} (hn : n ≤ usizeMax) : (decimal n).toList.length ≤ 20 :=
  length_decimal_le (by omega) (by
    have : usizeMax < 10 ^ 20 := by decide
    omega)

/-- A word before a number. -/
theorem keptLexeme_word {word : List Char} (hspecial : byte c ∉ bytes "-RNnv")
    (hplain : (c :: word).all isPlainChar)
    (hhex : (c :: word).any fun d => !isAsciiHexdigit (byte d)) (hlength : word.length < 12) {n : ℕ}
    (hn : n ≤ usizeMax) : KeptLexeme (c :: word ++ (decimal n).toList) := by
  have hdigits := length_decimal_le_twenty hn
  have hplain : ∀ d ∈ c :: word, isPlainChar d := all_eq_true.1 hplain
  refine ⟨⟨by simp, fun d hd => ?_, .inl ?_⟩, ?_⟩
  · rcases mem_append.1 hd with hd | hd
    · exact hplain d hd
    · exact (isDigit_byte (isDigit_of_mem_decimal hd)).1
  · simp only [length_append, length_cons, structuredMaxLexemeBytes]
    omega
  · have hupper : isAsciiUppercase (byte c) = false := by
      have := hplain c (by simp)
      simp only [isPlainChar, Bool.and_eq_true, Bool.not_eq_true'] at this
      exact this.2
    obtain ⟨d, hd, hnot⟩ := any_eq_true.1 hhex
    exact isBoilerplate_cons hspecial hupper
      ⟨d, mem_append_left _ hd, by simpa using hnot⟩

theorem KeptLexeme.of_short
    (h : lexeme ≠ [] ∧ lexeme.all isPlainChar ∧ lexeme.length ≤ structuredMaxLexemeBytes ∧
      isBoilerplate lexeme = false) : KeptLexeme lexeme :=
  ⟨⟨h.1, all_eq_true.1 h.2.1, .inl h.2.2.1⟩, h.2.2.2⟩

theorem GeneratorAxiomId.kept {id : String} (h : GeneratorAxiomId id) : KeptLexeme id.toList := by
  cases h with
  | law domain law hlaw =>
    refine .of_short ?_
    have hlaws : ∀ law ∈ (domainTheory domain).laws.laws, law.rule.id.toList ≠ [] ∧
        law.rule.id.toList.all isPlainChar ∧
        law.rule.id.toList.length ≤ structuredMaxLexemeBytes ∧
        isBoilerplate law.rule.id.toList = false := by
      cases domain <;> decide +kernel
    exact hlaws law hlaw
  | distractor theory index hindex selectedLaws =>
    unfold DomainTheory.derivedDistractor
    split
    · exact (.of_short (by decide) : KeptLexeme "aux_assoc".toList)
    · rw [String.toList_append]
      exact keptLexeme_word (by decide) (by decide) (by decide) (by decide) hindex
  | renamed index hindex =>
    rw [String.toList_append]
    exact keptLexeme_word (by decide) (by decide) (by decide) (by decide) hindex

/-! ## Steps -/

def sourceSegments : RuliadProofSource → List (Char × List Char)
  | .axiom_ id => [('|', ['a']), (':', id.toList)]
  | .lemma_ goal => [('|', ['l']), (':', (decimal goal).toList)]

def pathSegments : List ℕ → List (Char × List Char)
  | [] => [('|', ['-'])]
  | i :: path => ('|', (decimal i).toList) :: path.map fun j => ('.', (decimal j).toList)

/-- The lexemes of a step after that of its goal. -/
def stepSegments (step : RuliadProofStep) : List (Char × List Char) :=
  sourceSegments step.source ++ ('|', step.direction.text.toList) :: pathSegments step.path

theorem segmentText_append (s t : List (Char × List Char)) :
    segmentText (s ++ t) = segmentText s ++ segmentText t := flatMap_append

theorem segmentText_pathSegments (path : List ℕ) :
    segmentText (pathSegments path) = '|' :: (pathText path).toList := by
  cases path with
  | nil => rfl
  | cons i path =>
    rw [pathText, if_neg (by simp), String.toList_intercalate]
    induction path generalizing i with
    | nil => simp [pathSegments, segmentText]
    | cons j path ih =>
      have := ih j
      simp [pathSegments, segmentText, intercalate_cons_cons] at this ⊢
      exact this

theorem toList_encodeModelProofStep (goal : ℕ) (step : RuliadProofStep) :
    (encodeModelProofStep goal step).toList =
      ('g' :: (decimal goal).toList) ++ segmentText (stepSegments step) := by
  have hsource : segmentText (sourceSegments step.source) = '|' :: step.source.text.toList := by
    cases step.source <;>
      simp [sourceSegments, segmentText, RuliadProofSource.text, String.toList_append]
  have hdirection : segmentText (('|', step.direction.text.toList) :: pathSegments step.path) =
      '|' :: (step.direction.text.toList ++ segmentText (pathSegments step.path)) := by
    simp [segmentText]
  rw [stepSegments, segmentText_append, hsource, hdirection, segmentText_pathSegments,
    encodeModelProofStep, String.toList_intercalate]
  simp [intercalate_cons_cons, String.toList_append]

/-- The source of a step is a lemma or an axiom that the generator could have named. -/
def GeneratorStep (step : RuliadProofStep) : Prop :=
  ∀ id, step.source = .axiom_ id → GeneratorAxiomId id

/-- The step has a path, and no number of it has eight digits. -/
def ShortStep (step : RuliadProofStep) : Prop :=
  step.path ≠ [] ∧ (∀ i ∈ step.path, i < 10 ^ 7) ∧ ∀ goal, step.source = .lemma_ goal → goal < 10 ^ 7

theorem keptLexeme_goal {goal : ℕ} (hgoal : goal ≤ usizeMax) :
    KeptLexeme ('g' :: (decimal goal).toList) :=
  @keptLexeme_word 'g' [] (by decide) (by decide) (by decide) (by decide) goal hgoal

theorem keptLexeme_letter (hc : c ∈ ['a', 'l', 'f', 'r']) : KeptLexeme [c] := by
  simp only [mem_cons, not_mem_nil, or_false] at hc
  rcases hc with rfl | rfl | rfl | rfl <;> exact .of_short (by decide)

theorem keptLexeme_direction (direction : RuliadRewriteDirection) :
    KeptLexeme direction.text.toList := by
  cases direction <;> exact keptLexeme_letter (by decide)

theorem plainSegment_of_mem_pathSegments (path : List ℕ) :
    ∀ segment ∈ pathSegments path, PlainSegment segment := by
  cases path with
  | nil =>
    intro segment hmem
    obtain rfl := mem_singleton.1 hmem
    exact ⟨rfl, by simp, all_eq_true.1 rfl, .inl (by decide)⟩
  | cons i path =>
    intro segment hmem
    rcases mem_cons.1 hmem with rfl | hmem
    · exact ⟨rfl, plainLexeme_decimal i⟩
    · obtain ⟨j, -, rfl⟩ := mem_map.1 hmem
      exact ⟨rfl, plainLexeme_decimal j⟩

theorem plainSegment_of_mem_stepSegments {step : RuliadProofStep} (hstep : GeneratorStep step) :
    ∀ segment ∈ stepSegments step, PlainSegment segment := by
  intro segment hmem
  rcases mem_append.1 hmem with hmem | hmem
  · cases hsource : step.source with
    | axiom_ id =>
      rw [hsource, sourceSegments, mem_pair] at hmem
      rcases hmem with rfl | rfl
      · exact ⟨rfl, (keptLexeme_letter (by decide)).toPlainLexeme⟩
      · exact ⟨rfl, (hstep id hsource).kept.toPlainLexeme⟩
    | lemma_ goal =>
      rw [hsource, sourceSegments, mem_pair] at hmem
      rcases hmem with rfl | rfl
      · exact ⟨rfl, (keptLexeme_letter (by decide)).toPlainLexeme⟩
      · exact ⟨rfl, plainLexeme_decimal goal⟩
  · rcases mem_cons.1 hmem with rfl | hmem
    · exact ⟨rfl, (keptLexeme_direction step.direction).toPlainLexeme⟩
    · exact plainSegment_of_mem_pathSegments step.path segment hmem

theorem kept_pathSegments_iff (path : List ℕ) :
    (∀ segment ∈ pathSegments path, isBoilerplate segment.2 = false) ↔
      path ≠ [] ∧ ∀ i ∈ path, i < 10 ^ 7 := by
  cases path with
  | nil =>
    have hdash : isBoilerplate ['-'] = true := by decide
    simp [pathSegments, hdash]
  | cons i path =>
    simp only [pathSegments, forall_mem_cons, forall_mem_map, isBoilerplate_decimal_iff,
      ne_eq, cons_ne_nil, not_false_eq_true, true_and]

/-- The lexemes of a step are kept when its path and its numbers are. -/
theorem kept_stepSegments_iff {step : RuliadProofStep} (hstep : GeneratorStep step) :
    (∀ segment ∈ stepSegments step, isBoilerplate segment.2 = false) ↔ ShortStep step := by
  have hletter : ∀ c ∈ ['a', 'l', 'f', 'r'], isBoilerplate [c] = false :=
    fun c hc => (keptLexeme_letter hc).kept
  have hsource : (∀ segment ∈ sourceSegments step.source, isBoilerplate segment.2 = false) ↔
      ∀ goal, step.source = .lemma_ goal → goal < 10 ^ 7 := by
    cases hsource : step.source with
    | axiom_ id => simp [sourceSegments, hletter, (hstep id hsource).kept.kept]
    | lemma_ goal => simp [sourceSegments, hletter, isBoilerplate_decimal_iff]
  simp only [stepSegments, forall_mem_append, forall_mem_cons, hsource,
    (keptLexeme_direction step.direction).kept, true_and, kept_pathSegments_iff, ShortStep]
  exact ⟨fun ⟨hgoals, hpath, hindices⟩ => ⟨hpath, hindices, hgoals⟩,
    fun ⟨hpath, hindices, hgoals⟩ => ⟨hgoals, hpath, hindices⟩⟩

/-- **The text of a step and its tokens**: the text comes back exactly when the step has a path and no
number of eight digits but that of its goal. -/
theorem decodePayload_encodePayload_iff (vocabSize : ℕ) (eosId : Option ℕ)
    (tokenizer : RuliadByteTokenizer)
    (htokenizer : RuliadByteTokenizer.fromConfig (.structuredSymbolic vocabSize eosId) =
      .ok tokenizer)
    (stopAtEos : Bool) (goal : ℕ) (hgoal : goal ≤ usizeMax) (step : RuliadProofStep)
    (hstep : GeneratorStep step) :
    tokenizer.decodePayload (tokenizer.encodePayload (encodeModelProofStep goal step).toList)
        stopAtEos = (encodeModelProofStep goal step).toList ↔
      ShortStep step := by
  have hsegments := plainSegment_of_mem_stepSegments hstep
  have hgoal := keptLexeme_goal hgoal
  simp only [RuliadByteTokenizer.fromConfig] at htokenizer
  split at htokenizer
  · cases htokenizer
  split at htokenizer
  · cases htokenizer
  cases htokenizer
  rw [toList_encodeModelProofStep, decodePayload_row _ stopAtEos hgoal.toPlainLexeme hsegments,
    kept_row_iff, keptLexeme_eq_self_iff hgoal.ne_nil, ← kept_stepSegments_iff hstep]
  constructor
  · rintro ⟨-, h⟩ segment hmem
    exact (keptLexeme_eq_self_iff (hsegments segment hmem).2.ne_nil).1 (h segment hmem)
  · intro h
    exact ⟨hgoal.kept, fun segment hmem =>
      (keptLexeme_eq_self_iff (hsegments segment hmem).2.ne_nil).2 (h segment hmem)⟩

/-- A step with a path comes back. -/
theorem decodePayload_encodePayload_iff_rule :
    RuliadByteTokenizer.decodePayload ⟨.structuredSymbolic ⟨272, some 271, by decide, by decide⟩⟩
        (RuliadByteTokenizer.encodePayload
          ⟨.structuredSymbolic ⟨272, some 271, by decide, by decide⟩⟩
          (encodeModelProofStep 0 ⟨.axiom_ ("r" ++ decimal 2), [0], .forward⟩).toList) true =
      (encodeModelProofStep 0 ⟨.axiom_ ("r" ++ decimal 2), [0], .forward⟩).toList :=
  (decodePayload_encodePayload_iff 272 (some 271)
    ⟨.structuredSymbolic ⟨272, some 271, by decide, by decide⟩⟩ rfl true 0 (by decide)
    ⟨.axiom_ ("r" ++ decimal 2), [0], .forward⟩ (by
      rintro id heq
      cases heq
      exact .renamed 2 (by decide))).2 ⟨by decide, by decide, fun goal heq => by cases heq⟩

/-- The dash of an empty path is lost. -/
theorem decodePayload_drops_dash : ∃ tokenizer : RuliadByteTokenizer,
    RuliadByteTokenizer.fromConfig (.structuredSymbolic 272 (some 271)) = .ok tokenizer ∧
      (encodeModelProofStep 0 ⟨.lemma_ 1, [], .forward⟩).toList = "g0|l:1|f|-".toList ∧
      tokenizer.decodePayload (tokenizer.encodePayload
        (encodeModelProofStep 0 ⟨.lemma_ 1, [], .forward⟩).toList) true = "g0|l:1|f|".toList := by
  refine ⟨⟨.structuredSymbolic ⟨272, some 271, by decide, by decide⟩⟩, rfl, by decide, ?_⟩
  rw [toList_encodeModelProofStep]
  refine (decodePayload_row _ true (keptLexeme_goal (by decide)).toPlainLexeme
    (plainSegment_of_mem_stepSegments fun id heq => by cases heq)).trans ?_
  decide

end BurnDragon.Ruliad
