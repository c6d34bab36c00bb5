import BurnDragon.Rust.Machine
import BurnDragon.Scheduling.LeastUsed

/-!
# Context masks

`continual_benchmark.rs`: the sparse mask of a context marks the channels that earlier contexts use
least, ties broken by a hash of the seed, the context and the channel. The masks made one after the
other are rounds of least-used channels (`contextMasks_rounds`), whatever the hash, so that they
share channels only when they must (`contextMasks_shareOnlyWhenFull`).

Mask values are rationals; an `f32` is `none` when it is an infinity or not a number.
-/

namespace BurnDragon.Training

open Rust Scheduling List

def splitmix64 (state : UInt64) : UInt64 :=
  let state := state + 0x9e3779b97f4a7c15
  let state := (state ^^^ (state >>> 30)) * 0xbf58476d1ce4e5b9
  let state := (state ^^^ (state >>> 27)) * 0x94d049bb133111eb
  state ^^^ (state >>> 31)

/-! ## The number of active channels -/

def roundHalfEven (q : ℚ) : ℤ :=
  let rest := q - ⌊q⌋
  if rest < 1 / 2 ∨ rest = 1 / 2 ∧ ⌊q⌋ % 2 = 0 then ⌊q⌋ else ⌊q⌋ + 1

/-- The `f32` nearest to a non-negative number: 24 significant bits, ties to even. -/
def nearestF32 (q : ℚ) : ℚ :=
  if q = 0 then
    0
  else
    let exponent := max (Int.log 2 q - 23) (-149)
    roundHalfEven (q / 2 ^ exponent) * 2 ^ exponent

/-- `(width as f32 * active_fraction).round() as usize`, clamped to `1..=width`. -/
def activeCount (width : ℕ) (activeFraction : ℚ) : ℕ :=
  let product := nearestF32 (nearestF32 width * activeFraction)
  max 1 (min width (min usizeMax ⌊product + 1 / 2⌋.toNat))

theorem activeCount_le {width : ℕ} (hwidth : 0 < width) (activeFraction : ℚ) :
    activeCount width activeFraction ≤ width :=
  max_le hwidth (min_le_left _ _)

/-! ## One mask -/

/-- How many of the masks mark each channel. -/
def maskUsage (width : ℕ) (masks : List (List ℚ)) : List ℕ :=
  masks.foldl
    (fun usage mask =>
      List.zipWith (fun count value => count + if 0 < value then 1 else 0) usage mask)
    (List.replicate width 0)

/-- The place of a channel in the order of allocation: its use, its hash, its number. -/
def channelRank (seed : UInt64) (contextIndex : ℕ) (usage : List ℕ) (index : ℕ) :
    ℕ ×ₗ ℕ ×ₗ ℕ :=
  let tieBreak := splitmix64 (seed ^^^ UInt64.ofNat contextIndex * 0xd6e8feb86659fd93 ^^^
    UInt64.ofNat index * 0xa0761d6478bd642f)
  toLex (usage.getD index 0, toLex (tieBreak.toNat, index))

/-- The channels in the order of allocation. -/
def rankedChannels (seed : UInt64) (contextIndex width : ℕ) (priorMasks : List (List ℚ)) :
    List (ℕ ×ₗ ℕ ×ₗ ℕ) :=
  ((List.range width).map (channelRank seed contextIndex (maskUsage width priorMasks))).mergeSort
    (· ≤ ·)

def rankIndex (rank : ℕ ×ₗ ℕ ×ₗ ℕ) : ℕ := (ofLex (ofLex rank).2).2

/-- The mask that marks the channels of a list of ranks. -/
def markChannels (width : ℕ) (ranks : List (ℕ ×ₗ ℕ ×ₗ ℕ)) : List ℚ :=
  ranks.foldl (fun mask rank => mask.set (rankIndex rank) 1) (List.replicate width 0)

/-- `balanced_context_mask`. -/
def balancedContextMask (seed : UInt64) (contextIndex width : ℕ) (activeFraction : Option ℚ)
    (priorMasks : List (List ℚ)) : Except String (List ℚ) :=
  if width = 0 then
    .error "balanced context mask width must be > 0"
  else
    match activeFraction.filter fun fraction => 0 < fraction ∧ fraction ≤ 1 with
    | none => .error "balanced context mask active_fraction must be in (0, 1]"
    | some fraction =>
      if contextIndex ≠ priorMasks.length ∨ ∃ mask ∈ priorMasks, mask.length ≠ width then
        .error "balanced context masks must be allocated sequentially at a stable width"
      else
        .ok (markChannels width ((rankedChannels seed contextIndex width priorMasks).take
          (activeCount width fraction)))

/-- The channels that a mask marks. -/
def activeChannels (mask : List ℚ) : Finset ℕ :=
  (Finset.range mask.length).filter fun i => 0 < mask.getD i 0

theorem mem_activeChannels {mask : List ℚ} {i : ℕ} :
    i ∈ activeChannels mask ↔ i < mask.length ∧ 0 < mask.getD i 0 := by
  rw [activeChannels, Finset.mem_filter, Finset.mem_range]

section Mask

variable {seed : UInt64} {contextIndex width : ℕ} {priorMasks : List (List ℚ)}

/-- The usage vector counts the masks that mark a channel. -/
theorem getElem?_maskUsage (hwidth : ∀ mask ∈ priorMasks, mask.length = width) {i : ℕ}
    (hi : i < width) :
    (maskUsage width priorMasks)[i]? = some (useCount (priorMasks.map activeChannels) i) := by
  induction priorMasks using List.reverseRecOn with
  | nil => simp [maskUsage, hi]
  | append_singleton masks mask ih =>
    have hmask : mask.length = width := hwidth mask (by simp)
    have ih := ih fun other hother => hwidth other (mem_append_left _ hother)
    have hvalue : mask[i]? = some (mask.getD i 0) := by
      rw [getD_eq_getElem?_getD, getElem?_eq_getElem (hmask ▸ hi), Option.getD_some]
    rw [maskUsage, foldl_append, ← maskUsage, foldl_cons, foldl_nil, getElem?_zipWith, ih, hvalue,
      map_append, map_singleton, useCount_concat, addRound]
    simp only [mem_activeChannels, hmask, hi, true_and]

theorem rankIndex_channelRank (usage : List ℕ) (i : ℕ) :
    rankIndex (channelRank seed contextIndex usage i) = i := rfl

theorem rankedChannels_perm :
    (rankedChannels seed contextIndex width priorMasks).Perm
      ((List.range width).map (channelRank seed contextIndex (maskUsage width priorMasks))) :=
  mergeSort_perm _ _

/-- The channels in the order of allocation are all the channels. -/
theorem map_rankIndex_rankedChannels_perm :
    ((rankedChannels seed contextIndex width priorMasks).map rankIndex).Perm
      (List.range width) := by
  refine (rankedChannels_perm.map rankIndex).trans ?_
  rw [map_map, show rankIndex ∘ channelRank seed contextIndex (maskUsage width priorMasks) = id
    from rfl, map_id]

theorem rankedChannels_sorted :
    (rankedChannels seed contextIndex width priorMasks).Pairwise (· ≤ ·) := by
  let le : ℕ ×ₗ ℕ ×ₗ ℕ → ℕ ×ₗ ℕ ×ₗ ℕ → Bool := fun a b => decide (a ≤ b)
  have htrans : ∀ a b c, le a b → le b c → le a c := fun a b c hab hbc =>
    decide_eq_true ((of_decide_eq_true hab).trans (of_decide_eq_true hbc))
  have htotal : ∀ a b, le a b || le b a := fun a b => by
    simpa only [le, Bool.or_eq_true, decide_eq_true_eq] using le_total a b
  exact (pairwise_mergeSort htrans htotal _).imp fun h => of_decide_eq_true h

/-- Setting the channels of a list of ranks marks them and no other. -/
theorem getElem?_foldl_set (ranks : List (ℕ ×ₗ ℕ ×ₗ ℕ)) (mask : List ℚ) (i : ℕ) :
    (ranks.foldl (fun mask rank => mask.set (rankIndex rank) 1) mask)[i]? =
      if i ∈ ranks.map rankIndex then mask[i]?.map fun _ => 1 else mask[i]? := by
  induction ranks generalizing mask with
  | nil => simp
  | cons rank ranks ih =>
    rw [foldl_cons, ih, map_cons, getElem?_set]
    by_cases hrank : rankIndex rank = i
    · subst hrank
      by_cases hlength : rankIndex rank < mask.length
      · simp [hlength]
      · simp [hlength]
    · rw [if_neg hrank]
      simp only [mem_cons, Ne.symm hrank, false_or]

theorem length_markChannels (width : ℕ) (ranks : List (ℕ ×ₗ ℕ ×ₗ ℕ)) :
    (markChannels width ranks).length = width := by
  have hset : ∀ mask : List ℚ,
      (ranks.foldl (fun mask rank => mask.set (rankIndex rank) 1) mask).length = mask.length := by
    induction ranks with
    | nil => exact fun mask => rfl
    | cons rank ranks ih => exact fun mask => (ih _).trans length_set
  rw [markChannels, hset, length_replicate]

/-- A mask marks the channels that it was made for. -/
theorem activeChannels_markChannels {ranks : List (ℕ ×ₗ ℕ ×ₗ ℕ)}
    (h : ∀ rank ∈ ranks, rankIndex rank < width) :
    activeChannels (markChannels width ranks) = (ranks.map rankIndex).toFinset := by
  have hvalue : ∀ i < width,
      (markChannels width ranks).getD i 0 = if i ∈ ranks.map rankIndex then 1 else 0 := by
    intro i hi
    rw [getD_eq_getElem?_getD, markChannels, getElem?_foldl_set, getElem?_replicate, if_pos hi]
    split_ifs <;> rfl
  ext i
  rw [mem_activeChannels, length_markChannels, mem_toFinset]
  constructor
  · rintro ⟨hi, hpos⟩
    by_contra hmem
    rw [hvalue i hi, if_neg hmem] at hpos
    exact lt_irrefl 0 hpos
  · intro hmem
    obtain ⟨rank, hrank, rfl⟩ := mem_map.1 hmem
    refine ⟨h rank hrank, ?_⟩
    rw [hvalue _ (h rank hrank), if_pos hmem]
    exact one_pos

/-- **The channels taken are the least used ones.** The order of allocation starts with the use. -/
theorem leastUsed_rankedChannels (seed : UInt64) (contextIndex active : ℕ)
    (hwidth : ∀ mask ∈ priorMasks, mask.length = width) :
    LeastUsed (Finset.range width) (useCount (priorMasks.map activeChannels))
      (((rankedChannels seed contextIndex width priorMasks).take active).map
        rankIndex).toFinset := by
  set ranked := rankedChannels seed contextIndex width priorMasks with hranked
  have hmem : ∀ i, i ∈ ranked.map rankIndex ↔ i < width := fun i => by
    rw [map_rankIndex_rankedChannels_perm.mem_iff, mem_range]
  -- the rank of a channel starts with its use
  have huse : ∀ rank ∈ ranked,
      (ofLex rank).1 = useCount (priorMasks.map activeChannels) (rankIndex rank) := by
    intro rank hrank
    obtain ⟨i, hi, rfl⟩ := mem_map.1 (rankedChannels_perm.mem_iff.1 hrank)
    have hcount := getElem?_maskUsage hwidth (mem_range.1 hi)
    rw [rankIndex_channelRank]
    simp only [channelRank, ofLex_toLex, getD_eq_getElem?_getD, hcount, Option.getD_some]
  refine ⟨fun i hi => ?_, fun i hi j hj hjchosen => ?_⟩
  · obtain ⟨rank, hrank, rfl⟩ := mem_map.1 (mem_toFinset.1 hi)
    exact Finset.mem_range.2 ((hmem _).1 (mem_map_of_mem (mem_of_mem_take hrank)))
  · obtain ⟨chosen, hchosen, rfl⟩ := mem_map.1 (mem_toFinset.1 hi)
    obtain ⟨left, hleft, rfl⟩ := mem_map.1 ((hmem j).2 (Finset.mem_range.1 hj))
    have hdrop : left ∈ ranked.drop active := by
      rw [← take_append_drop active ranked, mem_append] at hleft
      exact hleft.resolve_left fun htake =>
        hjchosen (mem_toFinset.2 (mem_map_of_mem htake))
    have hle : chosen ≤ left := by
      have hsorted : (ranked.take active ++ ranked.drop active).Pairwise (· ≤ ·) := by
        rw [take_append_drop]
        exact rankedChannels_sorted
      exact (pairwise_append.1 hsorted).2.2 _ hchosen _ hdrop
    rw [← huse chosen (mem_of_mem_take hchosen), ← huse left hleft]
    exact (Prod.Lex.le_iff.1 hle).elim le_of_lt fun h => h.1.le

/-- A new mask marks `activeCount` channels, the least used ones. -/
theorem balancedContextMask_eq_ok (seed : UInt64) {fraction : ℚ} (hpos : 0 < width) (hfraction : 0 < fraction)
    (hone : fraction ≤ 1) (hwidth : ∀ mask ∈ priorMasks, mask.length = width) :
    ∃ mask, balancedContextMask seed priorMasks.length width (some fraction) priorMasks = .ok mask ∧
      mask.length = width ∧
      LeastUsed (Finset.range width) (useCount (priorMasks.map activeChannels))
        (activeChannels mask) ∧
      (activeChannels mask).card = activeCount width fraction := by
  set ranks := (rankedChannels seed priorMasks.length width priorMasks).take
    (activeCount width fraction) with hranks
  have hleast := leastUsed_rankedChannels seed priorMasks.length (activeCount width fraction) hwidth
  have hactive : activeChannels (markChannels width ranks) = (ranks.map rankIndex).toFinset :=
    activeChannels_markChannels fun rank hrank => Finset.mem_range.1
      (hleast.subset (mem_toFinset.2 (mem_map_of_mem hrank)))
  have hcard : (activeChannels (markChannels width ranks)).card = activeCount width fraction := by
    have hnodup : (ranks.map rankIndex).Nodup := by
      rw [hranks, map_take]
      exact (map_rankIndex_rankedChannels_perm.nodup_iff.2 nodup_range).take
    have hranked : (rankedChannels seed priorMasks.length width priorMasks).length = width := by
      rw [rankedChannels_perm.length_eq, length_map, length_range]
    rw [hactive, toFinset_card_of_nodup hnodup, length_map, hranks, length_take,
      hranked, min_eq_left (activeCount_le hpos fraction)]
  refine ⟨markChannels width ranks, ?_, length_markChannels width ranks, hactive ▸ hleast, hcard⟩
  have hfilter : (some fraction).filter (fun fraction => 0 < fraction ∧ fraction ≤ 1) =
      some fraction := by
    rw [Option.filter_some, if_pos (by simpa using ⟨hfraction, hone⟩)]
  have hprior : ¬(priorMasks.length ≠ priorMasks.length ∨
      ∃ mask ∈ priorMasks, mask.length ≠ width) :=
    fun h => h.elim (fun h => h rfl) fun ⟨other, hother, hne⟩ => hne (hwidth other hother)
  rw [balancedContextMask, if_neg hpos.ne', hfilter]
  simp only [if_neg hprior]
  rfl

end Mask

/-! ## Masks made one after the other -/

/-- The masks of the first contexts, each made from all earlier ones. -/
def contextMasks (seed : UInt64) (width : ℕ) (activeFraction : Option ℚ) :
    ℕ → Except String (List (List ℚ))
  | 0 => .ok []
  | contexts + 1 => do
    let masks ← contextMasks seed width activeFraction contexts
    let mask ← balancedContextMask seed masks.length width activeFraction masks
    return masks ++ [mask]

section Masks

variable {width : ℕ} {fraction : ℚ}

theorem length_contextMasks {seed : UInt64} {activeFraction : Option ℚ} {contexts : ℕ}
    {masks : List (List ℚ)} (h : contextMasks seed width activeFraction contexts = .ok masks) :
    masks.length = contexts := by
  induction contexts generalizing masks with
  | zero =>
    cases h
    rfl
  | succ contexts ih =>
    rw [contextMasks] at h
    cases hprior : contextMasks seed width activeFraction contexts with
    | error e =>
      rw [hprior] at h
      cases h
    | ok prior =>
      rw [hprior] at h
      change (do
        let mask ← balancedContextMask seed prior.length width activeFraction prior
        return prior ++ [mask]) = _ at h
      cases hmask : balancedContextMask seed prior.length width activeFraction prior with
      | error e =>
        rw [hmask] at h
        cases h
      | ok mask =>
        rw [hmask] at h
        cases h
        rw [length_append, ih hprior, length_singleton]

/-- The masks are rounds of least-used channels. -/
theorem contextMasks_rounds (seed : UInt64) (hwidth : 0 < width) (hfraction : 0 < fraction)
    (hone : fraction ≤ 1) (contexts : ℕ) :
    ∃ masks, contextMasks seed width (some fraction) contexts = .ok masks ∧
      masks.length = contexts ∧ (∀ mask ∈ masks, mask.length = width) ∧
      Rounds (Finset.range width) (activeCount width fraction) (masks.map activeChannels) := by
  induction contexts with
  | zero => exact ⟨[], rfl, rfl, by simp, .nil⟩
  | succ contexts ih =>
    obtain ⟨masks, hmasks, hlength, hwidths, hrounds⟩ := ih
    obtain ⟨mask, hmask, hmaskWidth, hleast, hcard⟩ :=
      balancedContextMask_eq_ok seed hwidth hfraction hone hwidths
    refine ⟨masks ++ [mask], ?_, ?_, ?_, ?_⟩
    · rw [contextMasks, hmasks]
      change (do
        let mask ← balancedContextMask seed masks.length width (some fraction) masks
        return masks ++ [mask]) = _
      rw [hmask]
      rfl
    · rw [length_append, hlength, length_singleton]
    · intro other hother
      rcases mem_append.1 hother with hother | hother
      · exact hwidths other hother
      · exact mem_singleton.1 hother ▸ hmaskWidth
    · rw [map_append, map_singleton]
      exact .concat hrounds hleast hcard

/-- How many of the contexts use a channel. -/
def channelUsage (masks : List (List ℚ)) (i : ℕ) : ℕ := masks.countP (i ∈ activeChannels ·)

/-- The channels that some context uses. -/
def contextChannels (width : ℕ) (masks : List (List ℚ)) : Finset ℕ :=
  (Finset.range width).filter (0 < channelUsage masks ·)

/-- Masks of `active` channels that share channels only when they must. -/
structure ShareOnlyWhenFull (width active : ℕ) (masks : List (List ℚ)) : Prop where
  card : ∀ mask ∈ masks, (activeChannels mask).card = active
  level : ∀ k ≤ masks.length, ∀ i < width, ∀ j < width,
    channelUsage (masks.take k) i ≤ channelUsage (masks.take k) j + 1
  overlap : ∀ (k : ℕ) (hk : k < masks.length),
    (activeChannels masks[k] ∩ contextChannels width (masks.take k)).card =
      active - (Finset.range width \ contextChannels width (masks.take k)).card
  disjoint : ∀ (i j : ℕ) (hij : i < j) (hj : j < masks.length), j < width / active →
    Disjoint (activeChannels masks[i]) (activeChannels masks[j])

/-- Rounds of masks share channels only when they must. -/
theorem shareOnlyWhenFull_of_rounds {active : ℕ} {masks : List (List ℚ)}
    (h : Rounds (Finset.range width) active (masks.map activeChannels)) :
    ShareOnlyWhenFull width active masks := by
  have husage : ∀ k,
      channelUsage (masks.take k) = useCount ((masks.map activeChannels).take k) := by
    intro k
    funext i
    rw [channelUsage, useCount, ← map_take, countP_map]
    rfl
  have hchannels : ∀ k, contextChannels width (masks.take k) =
      usedChannels (Finset.range width) (useCount ((masks.map activeChannels).take k)) := by
    intro k
    rw [contextChannels, husage, usedChannels]
  have hround : ∀ (k : ℕ) (hk : k < masks.length),
      LeastUsed (Finset.range width) (useCount ((masks.map activeChannels).take k))
        (activeChannels masks[k]) ∧ (activeChannels masks[k]).card = active := by
    intro k hk
    have hround := h.leastUsed (k := k) (by rwa [length_map])
    rwa [getElem_map] at hround
  refine ⟨fun mask hmask => ?_, fun k _ i hi j hj => ?_, fun k hk => ?_, fun i j hij hj hfit => ?_⟩
  · obtain ⟨k, hk, rfl⟩ := getElem_of_mem hmask
    exact (hround k hk).2
  · obtain ⟨m, hm⟩ := (h.take k).level
    rw [husage]
    exact hm.le_add_one (Finset.mem_range.2 hi) (Finset.mem_range.2 hj)
  · rw [hchannels, (hround k hk).1.card_inter_usedChannels, (hround k hk).2]
  · have hdisjoint := h.pairwise_disjoint
    rw [Finset.card_range, pairwise_iff_getElem] at hdisjoint
    have := hdisjoint i j (by simp; omega) (by simp; omega) hij
    simpa using this

/-- **Context masks share channels only when they must.** -/
theorem contextMasks_shareOnlyWhenFull (seed : UInt64) (width : ℕ) (fraction : ℚ)
    (hwidth : 0 < width) (hfraction : 0 < fraction) (hone : fraction ≤ 1) (contexts : ℕ) :
    ∃ masks, contextMasks seed width (some fraction) contexts = .ok masks ∧
      masks.length = contexts ∧ (∀ mask ∈ masks, mask.length = width) ∧
      ShareOnlyWhenFull width (activeCount width fraction) masks := by
  obtain ⟨masks, hmasks, hlength, hwidths, hrounds⟩ :=
    contextMasks_rounds seed hwidth hfraction hone contexts
  exact ⟨masks, hmasks, hlength, hwidths, shareOnlyWhenFull_of_rounds hrounds⟩

/-- The geometry of the repository's own test. -/
theorem contextMasks_sixteen_channels :
    ∃ masks, contextMasks 7 16 (some (1 / 4)) 4 = .ok masks ∧ masks.length = 4 ∧
      (∀ mask ∈ masks, mask.length = 16) ∧
      ShareOnlyWhenFull 16 (activeCount 16 (1 / 4)) masks :=
  contextMasks_shareOnlyWhenFull 7 16 (1 / 4) (by norm_num) (by norm_num) (by norm_num) 4

example : activeCount 16 (1 / 4) = 4 := by decide +kernel

end Masks

end BurnDragon.Training
