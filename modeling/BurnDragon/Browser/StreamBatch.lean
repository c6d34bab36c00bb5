import BurnDragon.Browser.Records
import BurnDragon.Rust.BTreeMap

/-!
# Batches of stream windows

`plan_stream_aligned_batches` puts the records of each chunk of a stream group into one batch, by their
rows, and keeps the state of the model where a batch goes on from the one before. Records without a
place in a stream are batched as they come.
-/

namespace BurnDragon.Browser

open Rust Layout List

structure PlannedStreamBatch where
  recordIndices : List ℕ
  resetStreamState : Bool
  deriving DecidableEq

/-- The place of a record: a row of a chunk of a stream group. -/
structure StreamPlace where
  group : ℕ
  chunk : ℕ
  row : ℕ
  deriving DecidableEq

/-- The key of a batch. -/
def StreamPlace.key (place : StreamPlace) : ℕ ×ₗ ℕ := toLex (place.group, place.chunk)

/-- The place of a record that has all three numbers. -/
def TokenWindowRecord.place (record : TokenWindowRecord) : Option StreamPlace := do
  let group ← record.streamGroupId
  let row ← record.streamRow
  let chunk ← record.chunkIndex
  return { group := group, chunk := chunk, row := row }

/-! ## The plan -/

/-- Whether a batch follows the one before without a gap. -/
def contiguous (previousKey : Option (ℕ ×ₗ ℕ)) (key : ℕ ×ₗ ℕ) : Bool :=
  previousKey.any fun previous =>
    (ofLex previous).1 = (ofLex key).1 && checkedAdd (ofLex previous).2 1 = some (ofLex key).2

/-- Two neighbours of the list are equal. -/
def hasDuplicate (rows : List ℕ) : Bool := (rows.zip rows.tail).any fun window => window.1 = window.2

/-- The rows of the records, each of which comes with its index. -/
def rowsOf (records : List (StreamPlace × ℕ)) : List ℕ := records.map fun record => record.1.row

/-- The records of a batch in the order of their rows. -/
def sortRows (records : List (StreamPlace × ℕ)) : List (StreamPlace × ℕ) :=
  sortByKey (fun record => record.1.row) records

/-- The loop over the groups. -/
def planGroups (batchSize : ℕ) :
    List ((ℕ ×ₗ ℕ) × List (StreamPlace × ℕ)) → Option (ℕ ×ₗ ℕ) → List ℕ →
      Except String (List PlannedStreamBatch)
  | [], _, _ => .ok []
  | (key, records) :: groups, previousKey, previousRows =>
    let groupId := (ofLex key).1
    let chunkIndex := (ofLex key).2
    let records := sortRows records
    let rows := rowsOf records
    let resetStreamState := !contiguous previousKey key || chunkIndex = 0
    if batchSize < records.length then
      .error ("stream group " ++ decimal groupId ++ " chunk " ++ decimal chunkIndex ++
        " contains " ++ decimal records.length ++ " rows, above batch size " ++ decimal batchSize)
    else if hasDuplicate rows then
      .error ("stream group " ++ decimal groupId ++ " chunk " ++ decimal chunkIndex ++
        " contains duplicate stream rows")
    else if !resetStreamState && rows ≠ previousRows then
      .error ("stream group " ++ decimal groupId ++
        " changed row lanes between contiguous chunks " ++ decimal (chunkIndex - 1) ++ " and " ++
        decimal chunkIndex)
    else do
      let batches ← planGroups batchSize groups (some key) rows
      return { recordIndices := records.map Prod.snd, resetStreamState } :: batches

/-- The records by their keys. -/
def streamGroups (places : List StreamPlace) : BTreeMap (ℕ ×ₗ ℕ) (List (StreamPlace × ℕ)) :=
  BTreeMap.groupBy (fun record => record.1.key) places.zipIdx

/-- `plan_stream_aligned_batches`. -/
def planStreamAlignedBatches (records : List TokenWindowRecord) (batchSize : ℕ) :
    Except String (List PlannedStreamBatch) :=
  let batchSize := max batchSize 1
  match records.mapM TokenWindowRecord.place with
  | none => .ok ((chunks batchSize (List.range records.length)).map fun indices =>
      { recordIndices := indices, resetStreamState := true })
  | some places => planGroups batchSize (streamGroups places).entries none []

/-! ## Rows -/

section Rows

variable {records records' : List (StreamPlace × ℕ)} {rows : List ℕ}

theorem length_rowsOf_sortRows (records : List (StreamPlace × ℕ)) :
    (rowsOf (sortRows records)).length = records.length :=
  (length_map _).trans (length_insertionSort _ _)

theorem rowsOf_sortRows_perm (records : List (StreamPlace × ℕ)) :
    (rowsOf (sortRows records)).Perm (rowsOf records) :=
  (sortByKey_perm _ _).map _

theorem rowsOf_sortRows_sorted (records : List (StreamPlace × ℕ)) :
    (rowsOf (sortRows records)).Pairwise (· ≤ ·) :=
  pairwise_map.2 (pairwise_insertionSort _ _)

/-- The rows of a batch do not depend on the order in which the records come. -/
theorem rowsOf_sortRows_congr (h : (rowsOf records).Perm (rowsOf records')) :
    rowsOf (sortRows records) = rowsOf (sortRows records') :=
  ((rowsOf_sortRows_perm _).trans (h.trans (rowsOf_sortRows_perm _).symm)).eq_of_pairwise
    (fun _ _ _ _ => le_antisymm) (rowsOf_sortRows_sorted _) (rowsOf_sortRows_sorted _)

/-- Sorted rows without equal neighbours increase. -/
theorem increasing_of_hasDuplicate (hsorted : rows.Pairwise (· ≤ ·)) (h : hasDuplicate rows = false) :
    rows.Pairwise (· < ·) := by
  induction rows with
  | nil => exact .nil
  | cons row rows ih =>
    obtain ⟨hle, hsorted⟩ := pairwise_cons.1 hsorted
    cases rows with
    | nil => exact pairwise_singleton _ _
    | cons next rows =>
      have hpair : ¬ row = next ∧ hasDuplicate (next :: rows) = false := by
        simpa [hasDuplicate] using h
      have hlt : row < next := lt_of_le_of_ne (hle next mem_cons_self) hpair.1
      have hrest := ih hsorted hpair.2
      refine pairwise_cons.2 ⟨fun later hlater => ?_, hrest⟩
      rcases mem_cons.1 hlater with rfl | hlater
      · exact hlt
      · exact hlt.trans ((pairwise_cons.1 hrest).1 later hlater)

theorem not_nodup_of_hasDuplicate (h : hasDuplicate rows = true) : ¬ rows.Nodup := by
  induction rows with
  | nil => cases h
  | cons row rows ih =>
    cases rows with
    | nil => cases h
    | cons next rows =>
      have hpair : row = next ∨ hasDuplicate (next :: rows) = true := by
        simpa [hasDuplicate] using h
      rintro hnodup
      obtain ⟨hnot, hrest⟩ := nodup_cons.1 hnodup
      rcases hpair with rfl | hpair
      · exact hnot mem_cons_self
      · exact ih hpair hrest

end Rows

/-! ## What the loop plans -/

variable {batchSize : ℕ} {plan : List PlannedStreamBatch}
  {group : (ℕ ×ₗ ℕ) × List (StreamPlace × ℕ)} {batch : PlannedStreamBatch}

section Groups

variable {groups groups' : List ((ℕ ×ₗ ℕ) × List (StreamPlace × ℕ))} {previousKey : Option (ℕ ×ₗ ℕ)}
  {previousRows : List ℕ} {group' : (ℕ ×ₗ ℕ) × List (StreamPlace × ℕ)}

/-- The rows of a group in order. -/
def groupRows (group : (ℕ ×ₗ ℕ) × List (StreamPlace × ℕ)) : List ℕ := rowsOf (sortRows group.2)

/-- The key is the next chunk of the group before. -/
def Continues (previousKey : Option (ℕ ×ₗ ℕ)) (key : ℕ ×ₗ ℕ) : Prop :=
  ∃ previous, previousKey = some previous ∧ (ofLex previous).1 = (ofLex key).1 ∧
    (ofLex previous).2 + 1 = (ofLex key).2

theorem continues_of_reset {key : ℕ ×ₗ ℕ}
    (h : (!contiguous previousKey key || (ofLex key).2 = 0) = false) : Continues previousKey key := by
  simp only [Bool.or_eq_false_iff, Bool.not_eq_false', contiguous, Option.any_eq_true,
    Bool.and_eq_true, decide_eq_true_eq] at h
  obtain ⟨⟨previous, hprevious, hgroup, hchunk⟩, -⟩ := h
  refine ⟨previous, hprevious, hgroup, ?_⟩
  unfold checkedAdd at hchunk
  split_ifs at hchunk
  exact Option.some.inj hchunk

/-- What is planned for a group after the one before. -/
structure PlannedAfter (batchSize : ℕ) (previousKey : Option (ℕ ×ₗ ℕ)) (previousRows : List ℕ)
    (group : (ℕ ×ₗ ℕ) × List (StreamPlace × ℕ)) (batch : PlannedStreamBatch) : Prop where
  recordIndices : batch.recordIndices = (sortRows group.2).map Prod.snd
  length_le : group.2.length ≤ batchSize
  increasing : (groupRows group).Pairwise (· < ·)
  continues : batch.resetStreamState = false →
    Continues previousKey group.1 ∧ previousRows = groupRows group

/-- A plan for the groups, one batch for each. -/
inductive Planned (batchSize : ℕ) : Option (ℕ ×ₗ ℕ) → List ℕ →
    List ((ℕ ×ₗ ℕ) × List (StreamPlace × ℕ)) → List PlannedStreamBatch → Prop
  | nil (previousKey : Option (ℕ ×ₗ ℕ)) (previousRows : List ℕ) :
    Planned batchSize previousKey previousRows [] []
  | cons {previousKey : Option (ℕ ×ₗ ℕ)} {previousRows : List ℕ}
    {group : (ℕ ×ₗ ℕ) × List (StreamPlace × ℕ)} {batch : PlannedStreamBatch}
    {groups : List ((ℕ ×ₗ ℕ) × List (StreamPlace × ℕ))} {plan : List PlannedStreamBatch}
    (hbatch : PlannedAfter batchSize previousKey previousRows group batch)
    (hplan : Planned batchSize (some group.1) (groupRows group) groups plan) :
    Planned batchSize previousKey previousRows (group :: groups) (batch :: plan)

/-- What the loop returns is a plan. -/
theorem planned_of_planGroups (h : planGroups batchSize groups previousKey previousRows = .ok plan) :
    Planned batchSize previousKey previousRows groups plan := by
  induction groups generalizing previousKey previousRows plan with
  | nil =>
    cases h
    exact .nil _ _
  | cons group groups ih =>
    unfold planGroups at h
    dsimp only at h
    split_ifs at h with hsize hduplicate hrows
    obtain ⟨rest, hrest, h⟩ := bind_eq_ok.1 h
    obtain rfl := Except.ok.inj h
    refine .cons ⟨rfl, ?_, ?_, fun hreset => ?_⟩ (ih hrest)
    · exact (length_insertionSort _ group.2).symm.le.trans (not_lt.1 hsize)
    · exact increasing_of_hasDuplicate (rowsOf_sortRows_sorted _) (eq_false_of_ne_true hduplicate)
    · refine ⟨continues_of_reset hreset, ?_⟩
      by_contra hne
      refine hrows ?_
      rw [Bool.and_eq_true, decide_eq_true_eq, Bool.not_eq_true']
      exact ⟨hreset, Ne.symm hne⟩

/-- Why the loop fails. -/
theorem of_planGroups_error {e : String} (hprevious : previousRows.Pairwise (· < ·))
    (h : planGroups batchSize groups previousKey previousRows = .error e) :
    (∃ group ∈ groups, batchSize < group.2.length) ∨
    (∃ group ∈ groups, ¬ (groupRows group).Nodup) ∨
    ∃ group ∈ groups, ∃ key rows, (previousKey = some key ∧ previousRows = rows ∨
        ∃ group' ∈ groups, group'.1 = key ∧ groupRows group' = rows) ∧
      Continues (some key) group.1 ∧ rows.Pairwise (· < ·) ∧ (groupRows group).Pairwise (· < ·) ∧
      rows ≠ groupRows group := by
  induction groups generalizing previousKey previousRows with
  | nil => cases h
  | cons group groups ih =>
    unfold planGroups at h
    dsimp only at h
    split_ifs at h with hsize hduplicate hrows
    · exact .inl ⟨group, mem_cons_self,
        hsize.trans_eq (length_insertionSort _ group.2)⟩
    · exact .inr (.inl ⟨group, mem_cons_self, not_nodup_of_hasDuplicate hduplicate⟩)
    · rw [Bool.and_eq_true, decide_eq_true_eq, Bool.not_eq_true'] at hrows
      obtain ⟨key, rfl, hcontinues⟩ := continues_of_reset hrows.1
      exact .inr (.inr ⟨group, mem_cons_self, key, previousRows, .inl ⟨rfl, rfl⟩,
        ⟨key, rfl, hcontinues⟩, hprevious, increasing_of_hasDuplicate (rowsOf_sortRows_sorted _)
          (eq_false_of_ne_true hduplicate), hrows.2.symm⟩)
    · have hincreasing := increasing_of_hasDuplicate (rowsOf_sortRows_sorted group.2)
        (eq_false_of_ne_true hduplicate)
      have hrest : planGroups batchSize groups (some group.1) (groupRows group) = .error e := by
        revert h
        rw [show rowsOf (sortRows group.2) = groupRows group from rfl]
        cases planGroups batchSize groups (some group.1) (groupRows group) with
        | error e' => exact id
        | ok rest => exact nofun
      rcases ih hincreasing hrest with ⟨g, hg, hlong⟩ | ⟨g, hg, hnodup⟩ |
        ⟨g, hg, key, rows, hbefore, hfacts⟩
      · exact .inl ⟨g, mem_cons_of_mem _ hg, hlong⟩
      · exact .inr (.inl ⟨g, mem_cons_of_mem _ hg, hnodup⟩)
      · refine .inr (.inr ⟨g, mem_cons_of_mem _ hg, key, rows, .inr ?_, hfacts⟩)
        rcases hbefore with ⟨hkey, rfl⟩ | ⟨g', hg', hsame⟩
        · exact ⟨group, mem_cons_self, Option.some.inj hkey, rfl⟩
        · exact ⟨g', mem_cons_of_mem _ hg', hsame⟩

/-- Groups with the same keys and rows are planned alike. -/
theorem planGroups_congr (h : List.Forall₂ (fun group group' => group.1 = group'.1 ∧
      groupRows group = groupRows group') groups groups')
    (previousKey : Option (ℕ ×ₗ ℕ)) (previousRows : List ℕ) :
    (planGroups batchSize groups previousKey previousRows).map
        (List.map PlannedStreamBatch.resetStreamState) =
      (planGroups batchSize groups' previousKey previousRows).map
        (List.map PlannedStreamBatch.resetStreamState) := by
  induction h generalizing previousKey previousRows with
  | nil => rfl
  | @cons group group' groups groups' hgroup _ ih =>
    obtain ⟨key, records⟩ := group
    obtain ⟨key', records'⟩ := group'
    obtain ⟨rfl, hrows⟩ := hgroup
    have hlength : (sortRows records).length = (sortRows records').length := by
      have := congrArg List.length hrows
      simpa [groupRows, rowsOf] using this
    have hrest := ih (some key) (groupRows (key, records))
    unfold groupRows at hrows hrest
    unfold planGroups
    dsimp only at hrows hrest ⊢
    rw [hlength, hrows]
    rw [hrows] at hrest
    split_ifs
    · rfl
    · rfl
    · rfl
    · revert hrest
      cases planGroups batchSize groups (some key) (rowsOf (sortRows records')) <;>
        cases planGroups batchSize groups' (some key) (rowsOf (sortRows records')) <;>
        simp [Except.map, bind, Except.bind, pure, Except.pure]

namespace Planned

section

variable (h : Planned batchSize previousKey previousRows groups plan)
include h

/-- The indices of the batches. -/
theorem map_recordIndices :
    plan.map PlannedStreamBatch.recordIndices =
      groups.map fun group => (sortRows group.2).map Prod.snd := by
  induction h with
  | nil => rfl
  | cons hbatch _ ih => rw [map_cons, map_cons, hbatch.recordIndices, ih]

/-- Every batch is planned for a group. -/
theorem exists_group (hbatch : batch ∈ plan) : ∃ group ∈ groups,
      batch.recordIndices = (sortRows group.2).map Prod.snd ∧ group.2.length ≤ batchSize ∧
        (groupRows group).Pairwise (· < ·) := by
  induction h with
  | nil => cases hbatch
  | @cons _ _ group _ _ _ hfirst _ ih =>
    rcases mem_cons.1 hbatch with rfl | hbatch
    · exact ⟨group, mem_cons_self, hfirst.recordIndices, hfirst.length_le, hfirst.increasing⟩
    · obtain ⟨group, hgroup, hfacts⟩ := ih hbatch
      exact ⟨group, mem_cons_of_mem _ hgroup, hfacts⟩

/-- A batch that keeps the state comes after the batch of the chunk before. -/
theorem of_keeps {i : ℕ}
    (hbatch : plan[i]? = some batch) (hkeeps : batch.resetStreamState = false) :
    ∃ group ∈ groups, batch.recordIndices = (sortRows group.2).map Prod.snd ∧
      ((i = 0 ∧ Continues previousKey group.1 ∧ previousRows = groupRows group) ∨
      ∃ j previous, ∃ group' ∈ groups, i = j + 1 ∧ plan[j]? = some previous ∧
        previous.recordIndices = (sortRows group'.2).map Prod.snd ∧
        Continues (some group'.1) group.1 ∧ groupRows group' = groupRows group) := by
  induction h generalizing i with
  | nil => cases hbatch
  | @cons _ _ group first groups plan hfirst hplan ih =>
    cases i with
    | zero =>
      obtain rfl := Option.some.inj hbatch
      exact ⟨group, mem_cons_self, hfirst.recordIndices,
        .inl ⟨rfl, hfirst.continues hkeeps⟩⟩
    | succ i =>
      obtain ⟨g, hg, hindices, ⟨rfl, hcontinues, hrows⟩ |
        ⟨j, previous, g', hg', rfl, hprevious, hfacts⟩⟩ := ih hbatch
      · exact ⟨g, mem_cons_of_mem _ hg, hindices, .inr ⟨0, first, group, mem_cons_self, rfl,
          rfl, hfirst.recordIndices, hcontinues, hrows⟩⟩
      · exact ⟨g, mem_cons_of_mem _ hg, hindices, .inr ⟨j + 1, previous, g',
          mem_cons_of_mem _ hg', rfl, hprevious, hfacts⟩⟩

end

end Planned

end Groups

/-! ## Places -/

/-- The record has a group, a row and a chunk. -/
def TokenWindowRecord.Placed (record : TokenWindowRecord) : Prop :=
  record.streamGroupId.isSome ∧ record.streamRow.isSome ∧ record.chunkIndex.isSome

/-- The places of the records of a batch. -/
def PlannedStreamBatch.places (records : List TokenWindowRecord) (batch : PlannedStreamBatch) :
    List (Option StreamPlace) :=
  batch.recordIndices.map fun i => records[i]?.bind TokenWindowRecord.place

variable {places : List StreamPlace}

section Places

variable {records records' : List TokenWindowRecord} {places' : List StreamPlace}
  {place : StreamPlace}

theorem TokenWindowRecord.Placed.exists_place {record : TokenWindowRecord} (h : record.Placed) :
    ∃ place, record.place = some place := by
  obtain ⟨hgroup, hrow, hchunk⟩ := h
  obtain ⟨group, hgroup⟩ := Option.isSome_iff_exists.1 hgroup
  obtain ⟨row, hrow⟩ := Option.isSome_iff_exists.1 hrow
  obtain ⟨chunk, hchunk⟩ := Option.isSome_iff_exists.1 hchunk
  exact ⟨_, by rw [TokenWindowRecord.place, hgroup, hrow, hchunk]; rfl⟩

/-- Placed records have a list of places. -/
theorem exists_places (h : ∀ record ∈ records, record.Placed) :
    ∃ places, records.mapM TokenWindowRecord.place = some places := by
  induction records with
  | nil => exact ⟨[], rfl⟩
  | cons record records ih =>
    obtain ⟨place, hplace⟩ := (h record mem_cons_self).exists_place
    obtain ⟨places, hplaces⟩ := ih fun r hr => h r (mem_cons_of_mem _ hr)
    exact ⟨place :: places, by rw [mapM_cons, hplace, hplaces]; rfl⟩

theorem mem_places (h : records.map TokenWindowRecord.place = places.map some) :
    place ∈ places ↔ some place ∈ records.map TokenWindowRecord.place := by
  rw [h, mem_map]
  exact ⟨fun hmem => ⟨place, hmem, rfl⟩, fun ⟨_, hmem, heq⟩ => Option.some.inj heq ▸ hmem⟩

section

variable (h : group ∈ (streamGroups places).entries)
include h

/-- The records of a group are those with its key. -/
theorem of_mem_streamGroups :
    group.2 = places.zipIdx.filter fun record => record.1.key = group.1 :=
  BTreeMap.eq_filter_of_mem_groupBy h

theorem map_fst_group :
    group.2.map Prod.fst = places.filter fun place => place.key = group.1 := by
  rw [of_mem_streamGroups h]
  conv_rhs => rw [← zipIdx_map_fst 0 places, filter_map]
  rfl

theorem rowsOf_group :
    rowsOf group.2 =
      (places.filter fun place => place.key = group.1).map StreamPlace.row := by
  rw [← map_fst_group h, map_map]
  rfl

end

/-- The places of the records that a group puts into a batch. -/
theorem places_of_group (hplaces : records.map TokenWindowRecord.place = places.map some)
    (hgroup : group ∈ (streamGroups places).entries)
    (hindices : batch.recordIndices = (sortRows group.2).map Prod.snd) :
    batch.places records =
      (groupRows group).map fun row => some ⟨(ofLex group.1).1, (ofLex group.1).2, row⟩ := by
  rw [PlannedStreamBatch.places, hindices, map_map, groupRows, rowsOf, map_map]
  refine map_congr_left fun record hrecord => ?_
  have hmem : record ∈ group.2 := (sortByKey_perm _ _).mem_iff.1 hrecord
  rw [of_mem_streamGroups hgroup, mem_filter, decide_eq_true_eq] at hmem
  obtain ⟨hzip, hkey⟩ := hmem
  have hindex : places[record.2]? = some record.1 := mk_mem_zipIdx_iff_getElem?.1 hzip
  have hplace : records[record.2]?.map TokenWindowRecord.place = some (some record.1) := by
    rw [← getElem?_map, hplaces, getElem?_map, hindex]
    rfl
  obtain ⟨r, hr, hplace⟩ := Option.map_eq_some_iff.1 hplace
  change records[record.2]?.bind TokenWindowRecord.place = _
  rw [hr, Option.bind_some, hplace, ← hkey]
  rfl

theorem map_key_zipIdx (places : List StreamPlace) :
    places.zipIdx.map (fun record => record.1.key) = places.map StreamPlace.key := by
  conv_rhs => rw [← zipIdx_map_fst 0 places, map_map]
  rfl

/-- The same places in another order make groups with the same keys and rows. -/
theorem streamGroups_congr (h : places.Perm places') :
    List.Forall₂ (fun group group' => group.1 = group'.1 ∧ groupRows group = groupRows group')
      (streamGroups places).entries (streamGroups places').entries := by
  have hkeys : (streamGroups places).keys = (streamGroups places').keys :=
    BTreeMap.keys_groupBy_congr fun key => by
      rw [map_key_zipIdx, map_key_zipIdx, (h.map _).mem_iff]
  have hentries : ∀ places, (streamGroups places).entries = (streamGroups places).keys.map
      fun key => (key, places.zipIdx.filter fun record => record.1.key = key) :=
    fun _ => BTreeMap.entries_groupBy
  rw [hentries places, hentries places', hkeys, forall₂_map_left_iff, forall₂_map_right_iff,
    forall₂_same]
  intro key hkey
  have hmem : ∀ {ps}, key ∈ (streamGroups ps).keys →
      (key, ps.zipIdx.filter fun record => record.1.key = key) ∈ (streamGroups ps).entries :=
    fun {ps} hkey => by
      rw [hentries ps]
      exact mem_map_of_mem hkey
  refine ⟨rfl, rowsOf_sortRows_congr ?_⟩
  rw [rowsOf_group (hmem (hkeys ▸ hkey)), rowsOf_group (hmem hkey)]
  exact (h.filter _).map _

end Places

/-! ## Plans of placed records -/

/-- A chunk of a group has more records than a batch takes. -/
def Oversized (records : List TokenWindowRecord) (batchSize : ℕ) : Prop :=
  ∃ group chunk, max batchSize 1 <
    records.countP fun record => record.streamGroupId = some group && record.chunkIndex = some chunk

/-- Two records have one place. -/
def DuplicateRow (records : List TokenWindowRecord) : Prop :=
  ¬ (records.map TokenWindowRecord.place).Nodup

/-- The rows of a chunk. -/
def chunkRows (records : List TokenWindowRecord) (group chunk : ℕ) : Set ℕ :=
  {row | some ⟨group, chunk, row⟩ ∈ records.map TokenWindowRecord.place}

/-- Two chunks of a group follow each other with different rows. -/
def ChangedRows (records : List TokenWindowRecord) : Prop :=
  ∃ group chunk, (chunkRows records group chunk).Nonempty ∧
    (chunkRows records group (chunk + 1)).Nonempty ∧
    chunkRows records group chunk ≠ chunkRows records group (chunk + 1)

/-- A plan that loses no record and splices no streams. -/
structure StreamAligned (records : List TokenWindowRecord) (batchSize : ℕ)
    (plan : List PlannedStreamBatch) : Prop where
  once : (plan.flatMap PlannedStreamBatch.recordIndices).Perm (List.range records.length)
  size : ∀ batch ∈ plan, batch.recordIndices.length ≤ max batchSize 1
  single : ∀ batch ∈ plan, ∃ group chunk rows, rows ≠ [] ∧ rows.Pairwise (· < ·) ∧
    batch.places records = rows.map fun row => some ⟨group, chunk, row⟩
  keeps : ∀ i batch, plan[i]? = some batch → batch.resetStreamState = false →
    ∃ j previous group chunk rows, i = j + 1 ∧ plan[j]? = some previous ∧ rows ≠ [] ∧
      previous.places records = rows.map (fun row => some ⟨group, chunk, row⟩) ∧
      batch.places records = rows.map fun row => some ⟨group, chunk + 1, row⟩

section Plans

variable {records records' : List TokenWindowRecord}

theorem planStreamAlignedBatches_of_places
    (h : records.mapM TokenWindowRecord.place = some places) (batchSize : ℕ) :
    planStreamAlignedBatches records batchSize =
      planGroups (max batchSize 1) (streamGroups places).entries none [] := by
  rw [planStreamAlignedBatches, h]

theorem groupRows_ne_nil (h : group ∈ (streamGroups places).entries) : groupRows group ≠ [] := by
  have hne := BTreeMap.ne_nil_of_mem_groupBy h
  rwa [← length_pos_iff, groupRows, length_rowsOf_sortRows, length_pos_iff]

section

variable (hplaces : records.map TokenWindowRecord.place = places.map some)
include hplaces

theorem streamAligned_of_planned
    (h : Planned (max batchSize 1) none [] (streamGroups places).entries plan) :
    StreamAligned records batchSize plan := by
  refine ⟨?_, fun batch hbatch => ?_, fun batch hbatch => ?_, fun i batch hbatch hkeeps => ?_⟩
  · have hlength : places.length = records.length := by
      have := congrArg List.length hplaces
      rwa [length_map, length_map, eq_comm] at this
    rw [flatMap_def, h.map_recordIndices, ← flatMap_def]
    have hsort : ((streamGroups places).entries.flatMap fun group =>
        (sortRows group.2).map Prod.snd).Perm
        ((streamGroups places).entries.flatMap fun group => group.2.map Prod.snd) :=
      List.Perm.flatMap_left _ fun group _ => (sortByKey_perm _ _).map _
    refine hsort.trans ?_
    rw [← map_flatMap]
    have hzip : ((streamGroups places).entries.flatMap Prod.snd).Perm places.zipIdx :=
      BTreeMap.flatMap_groupBy_perm
    have hindices := hzip.map Prod.snd
    rwa [zipIdx_map_snd, ← range_eq_range', hlength] at hindices
  · obtain ⟨group, -, hindices, hle, -⟩ := h.exists_group hbatch
    rw [hindices, length_map]
    exact (length_insertionSort _ _).le.trans hle
  · obtain ⟨group, hgroup, hindices, -, hincreasing⟩ := h.exists_group hbatch
    exact ⟨_, _, _, groupRows_ne_nil hgroup, hincreasing, places_of_group hplaces hgroup hindices⟩
  · obtain ⟨group, hgroup, hindices, ⟨-, ⟨_, hnone, -⟩, -⟩ | ⟨j, previous, group', hgroup', rfl,
      hprevious, hpreviousIndices, ⟨key, hkey, hsame, hnext⟩, hrows⟩⟩ := h.of_keeps hbatch hkeeps
    · cases hnone
    · obtain rfl := Option.some.inj hkey
      refine ⟨j, previous, _, _, _, rfl, hprevious, groupRows_ne_nil hgroup',
        places_of_group hplaces hgroup' hpreviousIndices, ?_⟩
      rw [places_of_group hplaces hgroup hindices, hrows, hsame, hnext]

/-- The rows of a group are those of the records with its key. -/
theorem mem_groupRows (hgroup : group ∈ (streamGroups places).entries) {row : ℕ} :
    row ∈ groupRows group ↔ some ⟨(ofLex group.1).1, (ofLex group.1).2, row⟩ ∈
      records.map TokenWindowRecord.place := by
  rw [groupRows, (rowsOf_sortRows_perm _).mem_iff, rowsOf_group hgroup, ← mem_places hplaces,
    mem_map]
  constructor
  · rintro ⟨place, hplace, rfl⟩
    obtain ⟨hplace, hkey⟩ := mem_filter.1 hplace
    rwa [← of_decide_eq_true hkey]
  · exact fun hplace => ⟨_, mem_filter.2 ⟨hplace, decide_eq_true rfl⟩, rfl⟩

/-- A group is as long as there are records with its key. -/
theorem length_group (hplaced : ∀ record ∈ records, record.Placed)
    (hgroup : group ∈ (streamGroups places).entries) :
    group.2.length = records.countP fun record =>
      record.streamGroupId = some (ofLex group.1).1 && record.chunkIndex = some (ofLex group.1).2 := by
  have hcount : ∀ record ∈ records,
      (record.streamGroupId = some (ofLex group.1).1 && record.chunkIndex = some (ofLex group.1).2) =
        record.place.any fun place => place.key = group.1 := by
    intro record hrecord
    obtain ⟨hgroup, hrow, hchunk⟩ := hplaced record hrecord
    obtain ⟨groupId, hgroup⟩ := Option.isSome_iff_exists.1 hgroup
    obtain ⟨row, hrow⟩ := Option.isSome_iff_exists.1 hrow
    obtain ⟨chunk, hchunk⟩ := Option.isSome_iff_exists.1 hchunk
    have hkey : (toLex (groupId, chunk) : ℕ ×ₗ ℕ) = group.1 ↔
        groupId = (ofLex group.1).1 ∧ chunk = (ofLex group.1).2 :=
      ⟨fun h => h ▸ ⟨rfl, rfl⟩, fun ⟨hfirst, hsecond⟩ => by rw [hfirst, hsecond]; rfl⟩
    rw [TokenWindowRecord.place, hgroup, hrow, hchunk, Bool.eq_iff_iff, Bool.and_eq_true,
      decide_eq_true_eq, decide_eq_true_eq, Option.some_inj, Option.some_inj, ← hkey]
    exact decide_eq_true_iff.symm
  calc group.2.length
      = (places.filter fun place => place.key = group.1).length := by
        rw [← map_fst_group hgroup, length_map]
    _ = (places.map some).countP fun place => place.any fun place => place.key = group.1 := by
        rw [countP_map, ← countP_eq_length_filter]
        rfl
    _ = records.countP fun record => record.place.any fun place => place.key = group.1 := by
        rw [← hplaces, countP_map]
        rfl
    _ = _ := (countP_congr fun record hrecord => by rw [hcount record hrecord]).symm

theorem nodup_groupRows (hgroup : group ∈ (streamGroups places).entries)
    (hnodup : (records.map TokenWindowRecord.place).Nodup) : (groupRows group).Nodup := by
  rw [groupRows, (rowsOf_sortRows_perm _).nodup_iff, rowsOf_group hgroup]
  have hplacesNodup : places.Nodup := List.Nodup.of_map _ (hplaces ▸ hnodup)
  refine (hplacesNodup.filter _).map_on fun place hplace place' hplace' hrow => ?_
  have hkey : place.key = place'.key :=
    (of_decide_eq_true (mem_filter.1 hplace).2).trans
      (of_decide_eq_true (mem_filter.1 hplace').2).symm
  obtain ⟨hgroupId, hchunk⟩ := Prod.mk.inj (toLex_inj.1 hkey)
  obtain ⟨groupId, chunk, row⟩ := place
  obtain ⟨groupId', chunk', row'⟩ := place'
  obtain rfl : groupId = groupId' := hgroupId
  obtain rfl : chunk = chunk' := hchunk
  obtain rfl : row = row' := hrow
  rfl

end

/-- Why the planning of placed records fails. -/
theorem of_planStreamAlignedBatches_error (hplaced : ∀ record ∈ records, record.Placed) {e : String}
    (h : planStreamAlignedBatches records batchSize = .error e) :
    Oversized records batchSize ∨ DuplicateRow records ∨ ChangedRows records := by
  obtain ⟨places, hmapM⟩ := exists_places hplaced
  have hplaces := mapM_eq_some_iff.1 hmapM
  rw [planStreamAlignedBatches_of_places hmapM] at h
  obtain ⟨group, hgroup, hlong⟩ | ⟨group, hgroup, hrows⟩ |
    ⟨group, hgroup, key, rows, hbefore, ⟨previous, hkey, hsame, hnext⟩, hrows, hrows', hne⟩ :=
      of_planGroups_error .nil h
  · exact .inl ⟨_, _, (length_group hplaces hplaced hgroup) ▸ hlong⟩
  · exact .inr (.inl fun hnodup => hrows (nodup_groupRows hplaces hgroup hnodup))
  · obtain rfl := Option.some.inj hkey
    obtain ⟨hnone, -⟩ | ⟨group', hgroup', rfl, rfl⟩ := hbefore
    · cases hnone
    have hmem : ∀ row, row ∈ groupRows group' ↔
        row ∈ chunkRows records (ofLex group'.1).1 (ofLex group'.1).2 :=
      fun row => mem_groupRows hplaces hgroup'
    have hmem' : ∀ row, row ∈ groupRows group ↔
        row ∈ chunkRows records (ofLex group'.1).1 ((ofLex group'.1).2 + 1) := fun row => by
      rw [hsame, hnext]
      exact mem_groupRows hplaces hgroup
    refine .inr (.inr ⟨(ofLex group'.1).1, (ofLex group'.1).2, ?_, ?_, fun heq => hne ?_⟩)
    · obtain ⟨row, hrow⟩ := exists_mem_of_ne_nil _ (groupRows_ne_nil hgroup')
      exact ⟨row, (hmem row).1 hrow⟩
    · obtain ⟨row, hrow⟩ := exists_mem_of_ne_nil _ (groupRows_ne_nil hgroup)
      exact ⟨row, (hmem' row).1 hrow⟩
    · have hperm : (groupRows group').Perm (groupRows group) :=
        (perm_ext_iff_of_nodup (hrows.imp ne_of_lt) (hrows'.imp ne_of_lt)).2 fun row => by
          rw [hmem, hmem', heq]
      exact hperm.eq_of_pairwise (fun _ _ _ _ hlt hlt' => absurd hlt' hlt.asymm) hrows hrows'

/-- The places of the batches, by the groups. -/
theorem map_places_of_planned (hplaces : records.map TokenWindowRecord.place = places.map some)
    (h : Planned (max batchSize 1) none [] (streamGroups places).entries plan) :
    plan.map (PlannedStreamBatch.places records) =
      (streamGroups places).entries.map fun group =>
        (groupRows group).map fun row => some ⟨(ofLex group.1).1, (ofLex group.1).2, row⟩ := by
  have hindices := h.map_recordIndices
  have hmap : plan.map (PlannedStreamBatch.places records) =
      (plan.map PlannedStreamBatch.recordIndices).map fun indices =>
        PlannedStreamBatch.places records ⟨indices, true⟩ := by
    rw [map_map]
    rfl
  rw [hmap, hindices, map_map]
  exact map_congr_left fun group hgroup => places_of_group hplaces hgroup rfl

/-- The planned places do not depend on the order of the records. -/
theorem planned_places_congr (hplaced : ∀ record ∈ records, record.Placed)
    (h : records.Perm records') (batchSize : ℕ) :
    (planStreamAlignedBatches records batchSize).map
        (List.map fun batch => (batch.places records, batch.resetStreamState)) =
      (planStreamAlignedBatches records' batchSize).map
        (List.map fun batch => (batch.places records', batch.resetStreamState)) := by
  have hplaced' : ∀ record ∈ records', record.Placed := fun r hr => hplaced r (h.mem_iff.2 hr)
  obtain ⟨places, hmapM⟩ := exists_places hplaced
  have hplaces := mapM_eq_some_iff.1 hmapM
  obtain ⟨places', hmapM'⟩ := exists_places hplaced'
  have hplaces' := mapM_eq_some_iff.1 hmapM'
  have hperm : places.Perm places' := by
    have := h.map TokenWindowRecord.place
    rw [hplaces, hplaces'] at this
    exact (map_perm_map_iff (Option.some_injective _)).1 this
  have hgroups := streamGroups_congr hperm
  have hsame : ((streamGroups places).entries.map fun group => (groupRows group).map fun row =>
      some (⟨(ofLex group.1).1, (ofLex group.1).2, row⟩ : StreamPlace)) =
      (streamGroups places').entries.map fun group => (groupRows group).map fun row =>
        some ⟨(ofLex group.1).1, (ofLex group.1).2, row⟩ := by
    rw [← forall₂_eq_eq_eq, forall₂_map_left_iff, forall₂_map_right_iff]
    exact hgroups.imp fun _ _ ⟨hkey, hrows⟩ => by rw [hkey, hrows]
  have hresets : (planGroups (max batchSize 1) _ none []).map _ =
    (planGroups (max batchSize 1) _ none []).map _ := planGroups_congr hgroups none []
  rw [planStreamAlignedBatches_of_places hmapM, planStreamAlignedBatches_of_places hmapM']
  cases hplan : planGroups (max batchSize 1) (streamGroups places).entries none [] with
  | error e =>
    cases hplan' : planGroups (max batchSize 1) (streamGroups places').entries none [] with
    | error e' =>
      rw [hplan, hplan'] at hresets
      exact congrArg Except.error (Except.error.inj hresets)
    | ok plan' =>
      rw [hplan, hplan'] at hresets
      cases hresets
  | ok plan =>
    cases hplan' : planGroups (max batchSize 1) (streamGroups places').entries none [] with
    | error e' =>
      rw [hplan, hplan'] at hresets
      cases hresets
    | ok plan' =>
      rw [hplan, hplan'] at hresets
      have hplanned := map_places_of_planned hplaces (planned_of_planGroups hplan)
      have hplanned' := map_places_of_planned hplaces' (planned_of_planGroups hplan')
      refine congrArg Except.ok ?_
      rw [← zip_map', ← zip_map', hplanned, hplanned', hsame]
      exact congrArg _ (Except.ok.inj hresets)

/-- **Planning loses no record and splices no streams.** For records with a place, a plan is aligned with
the streams and does not depend on their order, and planning fails for three reasons only. -/
theorem stream_plan_aligned (batchSize : ℕ) (hplaced : ∀ record ∈ records, record.Placed) :
    (∀ plan, planStreamAlignedBatches records batchSize = .ok plan →
      StreamAligned records batchSize plan) ∧
    (∀ records', records.Perm records' →
      (planStreamAlignedBatches records batchSize).map
          (List.map fun batch => (batch.places records, batch.resetStreamState)) =
        (planStreamAlignedBatches records' batchSize).map
          (List.map fun batch => (batch.places records', batch.resetStreamState))) ∧
    ∀ e, planStreamAlignedBatches records batchSize = .error e →
      Oversized records batchSize ∨ DuplicateRow records ∨ ChangedRows records := by
  refine ⟨fun plan hplan => ?_, fun records' h => planned_places_congr hplaced h batchSize,
    fun e h => of_planStreamAlignedBatches_error hplaced h⟩
  obtain ⟨places, hmapM⟩ := exists_places hplaced
  have hplaces := mapM_eq_some_iff.1 hmapM
  rw [planStreamAlignedBatches_of_places hmapM] at hplan
  exact streamAligned_of_planned hplaces (planned_of_planGroups hplan)

theorem stream_plan_aligned_two :
    let records := [⟨[3], [4], none, false, some 7, some 1, some 1⟩,
      ⟨[1], [2], none, true, some 7, some 1, some 0⟩]
    (∀ plan, planStreamAlignedBatches records 2 = .ok plan → StreamAligned records 2 plan) ∧
    (∀ records', records.Perm records' →
      (planStreamAlignedBatches records 2).map
          (List.map fun batch => (batch.places records, batch.resetStreamState)) =
        (planStreamAlignedBatches records' 2).map
          (List.map fun batch => (batch.places records', batch.resetStreamState))) ∧
    ∀ e, planStreamAlignedBatches records 2 = .error e →
      Oversized records 2 ∨ DuplicateRow records ∨ ChangedRows records :=
  stream_plan_aligned 2 (by simp [TokenWindowRecord.Placed])

example : planStreamAlignedBatches [⟨[3], [4], none, false, some 7, some 1, some 1⟩,
    ⟨[1], [2], none, true, some 7, some 1, some 0⟩] 2 = .ok [⟨[1], true⟩, ⟨[0], false⟩] := rfl

end Plans

end BurnDragon.Browser
