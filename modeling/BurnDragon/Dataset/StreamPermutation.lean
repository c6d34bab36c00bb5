import BurnDragon.Dataset.StreamingLoader
import BurnDragon.Layout.Cyclic

/-!
# The order of the documents of an epoch

`resolve_stream_document_permutation` of `scheduler.rs` draws a start and a stride for the
documents of an epoch; the stride is drawn again until `gcd_usize` finds it coprime to the number
of documents. A row of the streaming loader reads the document that its rank leads to, with
wraparound. The arithmetic does not wrap for the numbers of documents whose square fits a word
(`documentOfRank_eq`), and the ranks of an epoch meet every document once.
-/

namespace BurnDragon.Dataset

open Layout Nat

/-! ## The draws -/

/-- What the loader uses of the random generator: its states, the state of a seed, and `gen_range`
of a half-open range. -/
structure StdRng (σ : Type*) where
  seedFromU64 : BitVec 64 → σ
  genRange : σ → ℕ → ℕ → ℕ × σ

namespace StdRng

variable {σ : Type*}

/-- The state after some draws from one range. -/
def drawn (rng : StdRng σ) (low high : ℕ) (state : σ) (count : ℕ) : σ :=
  (fun state => (rng.genRange state low high).2)^[count] state

/-- The draws are from their range, and sooner or later every value of it is drawn. -/
structure Uniform (rng : StdRng σ) : Prop where
  low_le : ∀ state low high, low < high → low ≤ (rng.genRange state low high).1
  lt_high : ∀ state low high, low < high → (rng.genRange state low high).1 < high
  reaches : ∀ state low high value, low ≤ value → value < high →
    ∃ count, (rng.genRange (rng.drawn low high state count) low high).1 = value

end StdRng

def gcdUsize (lhs rhs : ℕ) : ℕ :=
  if h : rhs = 0 then lhs else gcdUsize rhs (lhs % rhs)
termination_by rhs
decreasing_by exact Nat.mod_lt _ (Nat.pos_of_ne_zero h)

/-- The loop that draws the stride, for some rounds. -/
def drawDocumentStride {σ : Type*} (rng : StdRng σ) (numDocuments : ℕ) : ℕ → σ → Option ℕ
  | 0, _ => none
  | fuel + 1, state =>
    let (candidate, state) := rng.genRange state 1 numDocuments
    if gcdUsize candidate numDocuments = 1 then some candidate
    else drawDocumentStride rng numDocuments fuel state

def mixedSeed (seed : BitVec 64) (epochIndex numDocuments : ℕ) : BitVec 64 :=
  seed ^^^ (BitVec.ofNat 64 epochIndex * 0x9E3779B97F4A7C15#64) ^^^
    (BitVec.ofNat 64 numDocuments).rotateLeft 17

/-- `resolve_stream_document_permutation`, where the stride is drawn for some rounds. -/
def resolveStreamDocumentPermutation {σ : Type*} (rng : StdRng σ) (fuel : ℕ) (seed : BitVec 64)
    (epochIndex numDocuments : ℕ) : Option (ℕ × ℕ) :=
  if numDocuments ≤ 1 then some (0, 1)
  else
    let (documentStart, state) :=
      rng.genRange (rng.seedFromU64 (mixedSeed seed epochIndex numDocuments)) 0 numDocuments
    (drawDocumentStride rng numDocuments fuel state).map (documentStart, ·)

/-- The document of a rank: what a row of an iterator reads, for the rank modulo the documents. -/
def documentOfRank (documentStart documentStride numDocuments docRank : ℕ) : ℕ :=
  (documentStart + docRank * documentStride % 2 ^ 64) % 2 ^ 64 % numDocuments

/-! ## The stride -/

theorem gcdUsize_eq_gcd (lhs rhs : ℕ) : gcdUsize lhs rhs = lhs.gcd rhs := by
  fun_induction gcdUsize lhs rhs with
  | case1 lhs => exact (Nat.gcd_zero_right lhs).symm
  | case2 lhs rhs hrhs ih => rw [ih, Nat.gcd_comm rhs, ← Nat.gcd_rec, Nat.gcd_comm]

section Stride

variable {σ : Type*} {rng : StdRng σ} {numDocuments fuel : ℕ} {state : σ}

/-- A stride that the loop returns was drawn and passed the test. -/
theorem coprime_of_drawDocumentStride (hrng : rng.Uniform) (hdocuments : 1 < numDocuments)
    {stride : ℕ} (h : drawDocumentStride rng numDocuments fuel state = some stride) :
    stride < numDocuments ∧ stride.Coprime numDocuments := by
  induction fuel generalizing state with
  | zero => cases h
  | succ fuel ih =>
    simp only [drawDocumentStride] at h
    split at h
    · next hgcd =>
      obtain rfl := Option.some.inj h
      rw [gcdUsize_eq_gcd] at hgcd
      exact ⟨hrng.lt_high _ _ _ hdocuments, hgcd⟩
    · exact ih h

/-- The loop returns once one of its draws is coprime to the number of documents. -/
theorem exists_drawDocumentStride {count : ℕ}
    (h : (rng.genRange (rng.drawn 1 numDocuments state count) 1 numDocuments).1.Coprime
      numDocuments) :
    ∃ stride, drawDocumentStride rng numDocuments (count + 1) state = some stride := by
  induction count generalizing state with
  | zero =>
    refine ⟨_, if_pos ?_⟩
    rw [gcdUsize_eq_gcd]
    exact h
  | succ count ih =>
    simp only [drawDocumentStride]
    split
    · exact ⟨_, rfl⟩
    · exact ih h

end Stride

section Permutation

variable {σ : Type*} {rng : StdRng σ} {seed : BitVec 64} {epochIndex numDocuments : ℕ}

/-- The permutation is found, since the stride 1 is drawn sooner or later. -/
theorem exists_resolveStreamDocumentPermutation (hrng : rng.Uniform) :
    ∃ fuel permutation,
      resolveStreamDocumentPermutation rng fuel seed epochIndex numDocuments =
        some permutation := by
  by_cases hdocuments : numDocuments ≤ 1
  · exact ⟨0, _, if_pos hdocuments⟩
  · let drawn :=
      rng.genRange (rng.seedFromU64 (mixedSeed seed epochIndex numDocuments)) 0 numDocuments
    obtain ⟨count, hcount⟩ := hrng.reaches drawn.2 1 numDocuments 1 le_rfl (not_le.mp hdocuments)
    have hcoprime :
        (rng.genRange (rng.drawn 1 numDocuments drawn.2 count) 1 numDocuments).1.Coprime
          numDocuments := by
      rw [hcount]
      exact coprime_one_left numDocuments
    obtain ⟨stride, hstride⟩ := exists_drawDocumentStride hcoprime
    refine ⟨count + 1, (drawn.1, stride), ?_⟩
    rw [resolveStreamDocumentPermutation, if_neg hdocuments]
    exact congrArg (Option.map (drawn.1, ·)) hstride

variable {fuel documentStart documentStride : ℕ}

theorem resolveStreamDocumentPermutation_spec (hrng : rng.Uniform) (hdocuments : 0 < numDocuments)
    (h : resolveStreamDocumentPermutation rng fuel seed epochIndex numDocuments =
      some (documentStart, documentStride)) :
    documentStart < numDocuments ∧ documentStride ≤ numDocuments ∧
      documentStride.Coprime numDocuments := by
  unfold resolveStreamDocumentPermutation at h
  split at h
  · next hone =>
    obtain ⟨rfl, rfl⟩ := Prod.mk.inj (Option.some.inj h)
    exact ⟨hdocuments, hdocuments, coprime_one_left numDocuments⟩
  · next hone =>
    obtain ⟨stride, hstride, hpair⟩ := Option.map_eq_some_iff.mp h
    obtain ⟨rfl, rfl⟩ := Prod.mk.inj hpair
    obtain ⟨hlt, hcoprime⟩ := coprime_of_drawDocumentStride hrng (not_le.mp hone) hstride
    exact ⟨hrng.lt_high _ _ _ hdocuments, hlt.le, hcoprime⟩

/-- Neither the product nor the sum wraps. -/
theorem documentOfRank_eq (hstart : documentStart < numDocuments)
    (hstride : documentStride ≤ numDocuments) (hsquare : numDocuments * numDocuments < 2 ^ 64)
    {docRank : ℕ} (hrank : docRank < numDocuments) :
    documentOfRank documentStart documentStride numDocuments docRank =
      strided numDocuments documentStart documentStride docRank := by
  have hproduct : docRank * documentStride ≤ (numDocuments - 1) * numDocuments :=
    Nat.mul_le_mul (Nat.le_sub_one_of_lt hrank) hstride
  have hsum : numDocuments + (numDocuments - 1) * numDocuments = numDocuments * numDocuments := by
    rw [add_comm, ← succ_mul, succ_eq_add_one,
      Nat.sub_add_cancel (Nat.zero_lt_of_lt hrank)]
  rw [documentOfRank, mod_eq_of_lt (a := docRank * documentStride) (by omega),
    mod_eq_of_lt (a := documentStart + docRank * documentStride) (by omega), strided]

end Permutation

/-! ## The rows of an iterator -/

section Rows

variable {τ : Type*} {config : StreamConfig τ} {it : StreamingIterator}

theorem documentIndex_eq_documentOfRank (row : ℕ) :
    it.documentIndex config row =
      documentOfRank it.documentStart it.documentStride config.numDocuments
        ((it.nextDocumentGroup + row) % config.numDocuments) := rfl

/-- As many consecutive ranks as there are documents are the ranks of one round. -/
theorem map_documentIndex (first : ℕ) :
    (List.range config.numDocuments).map (fun row => it.documentIndex config (first + row)) =
      (cyclicFrom config.numDocuments (it.nextDocumentGroup + first) config.numDocuments).map
        (documentOfRank it.documentStart it.documentStride config.numDocuments) := by
  rw [cyclicFrom, List.map_map]
  refine List.map_congr_left fun row _ => ?_
  rw [documentIndex_eq_documentOfRank, ← add_assoc, Function.comp_apply]

end Rows

/-- **The documents of an epoch.** A permutation is found. Its stride is coprime to the number of
documents, the ranks are mapped to the documents without wraparound and one to one, and the rows of
an iterator with the permutation meet every document once in as many consecutive ranks. -/
theorem epoch_visits_each_document_once {σ τ : Type*} (rng : StdRng σ) (hrng : rng.Uniform)
    (seed : BitVec 64) (epochIndex numDocuments : ℕ) (hdocuments : 0 < numDocuments)
    (hsquare : numDocuments * numDocuments < 2 ^ 64) :
    (∃ fuel permutation,
      resolveStreamDocumentPermutation rng fuel seed epochIndex numDocuments = some permutation) ∧
    ∀ fuel documentStart documentStride,
      resolveStreamDocumentPermutation rng fuel seed epochIndex numDocuments =
        some (documentStart, documentStride) →
      documentStride.Coprime numDocuments ∧
      (∀ docRank < numDocuments,
        documentOfRank documentStart documentStride numDocuments docRank =
          (documentStart + docRank * documentStride) % numDocuments) ∧
      Set.BijOn (documentOfRank documentStart documentStride numDocuments)
        (Set.Iio numDocuments) (Set.Iio numDocuments) ∧
      ∀ (config : StreamConfig τ) (it : StreamingIterator), config.numDocuments = numDocuments →
        it.documentStart = documentStart → it.documentStride = documentStride → ∀ first,
        ((List.range numDocuments).map fun row => it.documentIndex config (first + row)).Perm
          (List.range numDocuments) := by
  refine ⟨exists_resolveStreamDocumentPermutation hrng, fun fuel start stride hresolve => ?_⟩
  obtain ⟨hstart, hstride, hcoprime⟩ :=
    resolveStreamDocumentPermutation_spec hrng hdocuments hresolve
  have heq : ∀ docRank < numDocuments,
      documentOfRank start stride numDocuments docRank =
        strided numDocuments start stride docRank :=
    fun _ => documentOfRank_eq hstart hstride hsquare
  have hperm : ((List.range numDocuments).map (documentOfRank start stride numDocuments)).Perm
      (List.range numDocuments) := by
    rw [List.map_congr_left fun docRank hrank => heq docRank (List.mem_range.mp hrank)]
    exact map_strided_perm hcoprime
  refine ⟨hcoprime, heq, ⟨?_, ?_, ?_⟩, ?_⟩
  · intro docRank hrank
    exact Set.mem_Iio.mpr (heq docRank hrank ▸ strided_lt hdocuments)
  · intro docRank hrank docRank' hrank' h
    rw [heq docRank hrank, heq docRank' hrank'] at h
    exact strided_injective hcoprime hrank hrank' h
  · intro document hdocument
    obtain ⟨docRank, hrank, hmap⟩ :=
      List.mem_map.mp (hperm.mem_iff.mpr (List.mem_range.mpr hdocument))
    exact ⟨docRank, List.mem_range.mp hrank, hmap⟩
  · rintro config it rfl rfl rfl first
    rw [map_documentIndex, cyclicFrom_length]
    exact ((List.rotate_perm _ _).map _).trans hperm

/-- A generator that counts down. -/
def countingRng : StdRng ℤ where
  seedFromU64 _ := 67
  genRange state low high := (low + (state % (high - low : ℕ)).toNat, state - 1)

theorem drawn_countingRng (low high count : ℕ) (state : ℤ) :
    countingRng.drawn low high state count = state - count := by
  induction count generalizing state with
  | zero => simp [StdRng.drawn]
  | succ count ih =>
    have hsucc : countingRng.drawn low high state (count + 1) =
        countingRng.drawn low high (state - 1) count := rfl
    rw [hsucc, ih]
    omega

theorem uniform_countingRng : countingRng.Uniform where
  low_le _ _ _ _ := le_add_right _ _
  lt_high state low high h := by
    have hlt := Int.emod_lt_of_pos state (b := ((high - low : ℕ) : ℤ)) (by omega)
    simp only [countingRng]
    omega
  reaches state low high value hlow hhigh := by
    refine ⟨((state - (value - low : ℕ)) % (high - low : ℕ)).toNat, ?_⟩
    have hnonneg :=
      Int.emod_nonneg (state - (value - low : ℕ)) (b := ((high - low : ℕ) : ℤ)) (by omega)
    have hmod : (state - (state - (value - low : ℕ)) % (high - low : ℕ)) % (high - low : ℕ) =
        (value - low : ℕ) := by
      rw [Int.sub_emod, Int.emod_emod, ← Int.sub_emod, sub_sub_cancel]
      exact Int.emod_eq_of_lt (by omega) (by omega)
    rw [drawn_countingRng, Int.toNat_of_nonneg hnonneg]
    simp only [countingRng]
    rw [hmod]
    omega

/-- Ten documents of the first epoch of the seed 1337: the start is 7, the stride 4 is drawn and
rejected, the stride 3 is drawn and taken. -/
theorem epoch_visits_each_document_once_ten :
    resolveStreamDocumentPermutation countingRng 2 1337 0 10 = some (7, 3) ∧
    Nat.Coprime 3 10 ∧
    Set.BijOn (documentOfRank 7 3 10) (Set.Iio 10) (Set.Iio 10) :=
  have hresolve : resolveStreamDocumentPermutation countingRng 2 1337 0 10 = some (7, 3) := by
    simp [resolveStreamDocumentPermutation, drawDocumentStride, countingRng, gcdUsize_eq_gcd]
  have hall := (epoch_visits_each_document_once (τ := ℕ) countingRng uniform_countingRng 1337 0 10
    (by decide) (by decide)).2 2 7 3 hresolve
  ⟨hresolve, hall.1, hall.2.2.1⟩

end BurnDragon.Dataset
