import BurnDragon.Config.TomlValue

/-!
# Merging configurations

`merge_values` of `config/merge.rs`. An overlay table is merged key by key into the base, after the
base has been cleared when the overlay carries a `type` tag that is not the base's (`typeChanged`);
anything else replaces the base.

What a merge does at a key is `mergeLookup`; the laws are proved there. Merging an overlay twice is
merging it once (`mergeValues_self_right`), and the leaves of the overlay are in the result
(`at?_mergeValues_of_leaf`). Merging is associative exactly on the triples of `Composes`: a tag or a
table that the middle one takes away and the last one brings back is lost on one side only.
-/

namespace BurnDragon.Config

open Rust TomlValue Option

/-- The overlay carries a type tag, and the base has entries but not this tag. -/
def typeChanged (base overlay : Entries) : Bool :=
  match lookup overlay "type" with
  | some (.string overlayType) =>
    match lookup base "type" with
    | some (.string baseType) => baseType != overlayType
    | some _ => true
    | none => !base.isEmpty
  | _ => false

mutual

def mergeValues : TomlValue → TomlValue → TomlValue
  | .table base, .table overlay =>
    .table (mergeEntries (if typeChanged base overlay then [] else base) overlay)
  | _, overlay => overlay
termination_by structural _ overlay => overlay

/-- The loop over the entries of an overlay table. -/
def mergeEntries (base : Entries) : Entries → Entries
  | [] => base
  | (key, overlayValue) :: overlay =>
    mergeEntries (BTreeMap.insertEntry key (match lookup base key with
      | some baseValue => mergeValues baseValue overlayValue
      | none => overlayValue) base) overlay
termination_by structural overlay => overlay

end

/-- What a merge without a reset finds at a key, from what base and overlay have there. -/
def mergeLookup : Option TomlValue → Option TomlValue → Option TomlValue
  | none, overlay => overlay
  | some base, none => some base
  | some base, some overlay => some (mergeValues base overlay)

/-- The entries of the base that an overlay is merged into. -/
def keptEntries (base overlay : Entries) : Entries := if typeChanged base overlay then [] else base

variable {a b c : Entries} {key : String}

section Lookup

variable {base overlay : Entries} {v w : TomlValue}

@[simp] theorem mergeLookup_none_left (x : Option TomlValue) : mergeLookup none x = x := rfl

@[simp] theorem mergeLookup_none_right (x : Option TomlValue) : mergeLookup x none = x := by
  cases x <;> rfl

@[simp] theorem mergeLookup_some_some :
    mergeLookup (some v) (some w) = some (mergeValues v w) := rfl

theorem mergeLookup_eq_none_iff {x y : Option TomlValue} :
    mergeLookup x y = none ↔ x = none ∧ y = none := by
  cases x <;> cases y <;> simp [mergeLookup]

theorem mergeValues_table : mergeValues (.table base) (.table overlay) =
    .table (mergeEntries (keptEntries base overlay) overlay) := by
  rw [mergeValues, keptEntries]

theorem mergeValues_of_asTable_left (h : v.asTable = none) : mergeValues v w = w := by
  cases v <;> first | (cases w <;> rfl) | nomatch h

theorem mergeValues_of_asTable_right (h : w.asTable = none) : mergeValues v w = w := by
  cases w <;> first | (cases v <;> rfl) | nomatch h

theorem sorted_mergeEntries (hb : base.Sorted) : (mergeEntries base overlay).Sorted := by
  induction overlay generalizing base with
  | nil => exact hb
  | cons e overlay ih => exact ih hb.insertEntry

theorem lookup_mergeEntries (hb : base.Sorted) (ho : overlay.Sorted) :
    lookup (mergeEntries base overlay) key =
      mergeLookup (lookup base key) (lookup overlay key) := by
  induction overlay generalizing base with
  | nil => exact (mergeLookup_none_right _).symm
  | cons e overlay ih =>
    obtain ⟨k, y⟩ := e
    obtain ⟨ho, hnone, hcons⟩ := ho.lookup_cons
    rw [mergeEntries, ih hb.insertEntry ho, hb.lookup_insertEntry, hcons]
    split_ifs with hk
    · subst hk
      rw [hnone, mergeLookup_none_right]
      cases lookup base key <;> rfl
    · rfl

theorem mergeEntries_nil_left (ho : overlay.Sorted) : mergeEntries [] overlay = overlay :=
  eq_of_lookup (sorted_mergeEntries .nil) ho fun _ => by
    rw [lookup_mergeEntries .nil ho, lookup_nil, mergeLookup_none_left]

theorem sorted_keptEntries (hb : base.Sorted) : (keptEntries base overlay).Sorted := by
  unfold keptEntries
  split_ifs
  · exact .nil
  · exact hb

theorem lookup_of_lookup_keptEntries (h : lookup (keptEntries base overlay) key = some v) :
    lookup base key = some v := by
  unfold keptEntries at h
  split_ifs at h
  · nomatch h
  · exact h

theorem WellFormed.mergeValues (hv : v.WellFormed) (hw : w.WellFormed) :
    (mergeValues v w).WellFormed := by
  induction hw generalizing v with
  | leaf hw => exact (mergeValues_of_asTable_right hw).symm ▸ .leaf hw
  | @table overlay ho hoval ih =>
    cases hv with
    | leaf hv => exact (mergeValues_of_asTable_left hv).symm ▸ .table ho hoval
    | @table base hb hbval =>
      rw [mergeValues_table]
      refine .table (sorted_mergeEntries (sorted_keptEntries hb)) fun key v hv => ?_
      rw [lookup_mergeEntries (sorted_keptEntries hb) ho] at hv
      have hkept : ∀ x, lookup (keptEntries base overlay) key = some x → x.WellFormed :=
        fun x hx => hbval key x (lookup_of_lookup_keptEntries hx)
      cases hx : lookup (keptEntries base overlay) key with
      | none =>
        rw [hx, mergeLookup_none_left] at hv
        exact hoval key v hv
      | some x =>
        cases hy : lookup overlay key with
        | none =>
          rw [hx, hy] at hv
          exact some.inj hv ▸ hkept x hx
        | some y =>
          rw [hx, hy] at hv
          exact some.inj hv ▸ ih key y hy (hkept x hx)

end Lookup

/-! ## Type tags -/

/-- The type tag of a table. -/
def typeString (entries : Entries) : Option String :=
  match lookup entries "type" with
  | some (.string tag) => some tag
  | _ => none

/-- The merge of two tables, as entries. -/
def mergeTables (base overlay : Entries) : Entries :=
  mergeEntries (keptEntries base overlay) overlay

variable {tag : String}

section Tags

@[simp] theorem mergeValues_table_table :
    mergeValues (.table a) (.table b) = .table (mergeTables a b) := mergeValues_table

theorem typeString_eq_some_iff :
    typeString a = some tag ↔ lookup a "type" = some (.string tag) := by
  unfold typeString
  split <;> simp_all

theorem ne_nil_of_typeString (h : typeString a = some tag) : a ≠ [] := by
  rintro rfl
  nomatch h

theorem typeChanged_iff : typeChanged a b = true ↔
    ∃ tag, typeString b = some tag ∧ typeString a ≠ some tag ∧ a ≠ [] := by
  unfold typeChanged
  split
  · rename_i tag hb
    have hb' := typeString_eq_some_iff.2 hb
    simp only [hb', some.injEq, exists_eq_left']
    split
    · rename_i tag' ha
      have ha' := typeString_eq_some_iff.2 ha
      simp [ha', ne_nil_of_typeString ha']
    · rename_i v hne ha
      have ha' : typeString a ≠ some tag := fun h =>
        hne tag (some.inj (ha.symm.trans (typeString_eq_some_iff.1 h)))
      have hnil : a ≠ [] := by
        rintro rfl
        nomatch ha
      simp [ha', hnil]
    · rename_i ha
      have ha' : typeString a ≠ some tag := fun h => by
        rw [typeString_eq_some_iff.1 h] at ha
        nomatch ha
      simp [ha']
  · rename_i hb
    have hb' : ∀ tag, typeString b ≠ some tag := fun tag h => hb tag (typeString_eq_some_iff.1 h)
    simp [hb']

theorem typeString_of_not_typeChanged (h : ¬ typeChanged a b = true) (ha : a ≠ [])
    (hb : typeString b = some tag) : typeString a = some tag := by
  by_contra hne
  exact h (typeChanged_iff.2 ⟨tag, hb, hne, ha⟩)

theorem sorted_mergeTables (ha : a.Sorted) : (mergeTables a b).Sorted :=
  sorted_mergeEntries (sorted_keptEntries ha)

theorem mergeTables_of_typeChanged (hb : b.Sorted) (h : typeChanged a b = true) :
    mergeTables a b = b := by
  rw [mergeTables, keptEntries, if_pos h, mergeEntries_nil_left hb]

theorem lookup_mergeTables (ha : a.Sorted) (hb : b.Sorted) (h : ¬ typeChanged a b = true) :
    lookup (mergeTables a b) key = mergeLookup (lookup a key) (lookup b key) := by
  rw [mergeTables, keptEntries, if_neg h, lookup_mergeEntries ha hb]

theorem mergeTables_nil_left (hb : b.Sorted) : mergeTables [] b = b := by
  rw [mergeTables, keptEntries, ite_self, mergeEntries_nil_left hb]

theorem mergeTables_nil_right : mergeTables a [] = a := rfl

section

variable (ha : a.Sorted) (hb : b.Sorted)
include ha hb

/-- A leaf of the overlay at a key is what the merge has there. -/
theorem lookup_mergeTables_of_leaf {v : TomlValue} (hv : lookup b key = some v)
    (hleaf : v.asTable = none) :
    lookup (mergeTables a b) key = some v := by
  rw [mergeTables, lookup_mergeEntries (sorted_keptEntries ha) hb, hv]
  cases lookup (keptEntries a b) key with
  | none => rfl
  | some x => rw [mergeLookup_some_some, mergeValues_of_asTable_right hleaf]

theorem typeString_mergeTables_of_right (h : typeString b = some tag) :
    typeString (mergeTables a b) = some tag :=
  typeString_eq_some_iff.2 (lookup_mergeTables_of_leaf ha hb (typeString_eq_some_iff.1 h) rfl)

/-- A tag of the merge comes from the overlay, or from the base under an overlay without one. -/
theorem typeString_mergeTables (h : typeString (mergeTables a b) = some tag) :
    typeString b = some tag ∨ lookup b "type" = none ∧ typeString a = some tag := by
  by_cases hchanged : typeChanged a b = true
  · exact .inl (mergeTables_of_typeChanged hb hchanged ▸ h)
  rw [typeString_eq_some_iff, lookup_mergeTables ha hb hchanged] at h
  cases hy : lookup b "type" with
  | none =>
    rw [hy, mergeLookup_none_right] at h
    exact .inr ⟨rfl, typeString_eq_some_iff.2 h⟩
  | some y =>
    left
    rw [typeString_eq_some_iff, hy]
    rw [hy] at h
    cases hx : lookup a "type" with
    | none => rwa [hx] at h
    | some x =>
      rw [hx, mergeLookup_some_some, some.injEq] at h
      cases x <;> cases y <;> first | exact congrArg some h | nomatch h

theorem mergeTables_ne_nil (h : b ≠ []) : mergeTables a b ≠ [] := by
  intro hnil
  refine h (hb.eq_nil_iff.2 fun key => ?_)
  have hnone := (sorted_mergeTables ha).eq_nil_iff.1 hnil key
  rw [mergeTables, lookup_mergeEntries (sorted_keptEntries ha) hb, mergeLookup_eq_none_iff] at hnone
  exact hnone.2

end

end Tags

/-! ## The laws -/

/-- **Merging an overlay twice is merging it once.** -/
theorem mergeValues_self_right {a b : TomlValue} (ha : a.WellFormed) (hb : b.WellFormed) :
    mergeValues (mergeValues a b) b = mergeValues a b := by
  induction hb generalizing a with
  | leaf hb => rw [mergeValues_of_asTable_right hb, mergeValues_of_asTable_right hb]
  | @table b hb hbval ih =>
    have htable : ∀ {a : Entries}, (TomlValue.table a).WellFormed →
        mergeTables (mergeTables a b) b = mergeTables a b := by
      intro a ha
      have hm := sorted_mergeTables (b := b) ha.sorted
      have hunchanged : ¬ typeChanged (mergeTables a b) b = true := fun h => by
        obtain ⟨tag, htag, hne, -⟩ := typeChanged_iff.1 h
        exact hne (typeString_mergeTables_of_right ha.sorted hb htag)
      refine eq_of_lookup (sorted_mergeTables hm) hm fun key => ?_
      rw [lookup_mergeTables hm hb hunchanged, mergeTables,
        lookup_mergeEntries (sorted_keptEntries ha.sorted) hb]
      cases hy : lookup b key with
      | none => rw [mergeLookup_none_right]
      | some y =>
        cases hx : lookup (keptEntries a b) key with
        | none =>
          have hleaf : TomlValue.WellFormed (.boolean false) := .leaf rfl
          have hself := ih key y hy hleaf
          rw [mergeValues_of_asTable_left (v := .boolean false) rfl] at hself
          rw [mergeLookup_none_left, mergeLookup_some_some, hself]
        | some x =>
          have hxwf := ha.of_lookup (lookup_of_lookup_keptEntries hx)
          rw [mergeLookup_some_some, mergeLookup_some_some, ih key y hy hxwf]
    cases ha with
    | leaf ha =>
      rw [mergeValues_of_asTable_left ha]
      have hnil : mergeTables [] b = b := mergeTables_nil_left hb
      have hempty := htable (.table .nil fun _ _ h => nomatch h)
      rw [hnil] at hempty
      rw [mergeValues_table_table, hempty]
    | @table a ha haval =>
      rw [mergeValues_table_table, mergeValues_table_table, htable (.table ha haval)]

/-- **The leaves of the overlay are in the merge.** -/
theorem at?_mergeValues_of_leaf {base overlay v : TomlValue} {path : List String}
    (hbase : base.WellFormed) (hoverlay : overlay.WellFormed) (hat : overlay.at? path = some v)
    (hleaf : v.asTable = none) : (mergeValues base overlay).at? path = some v := by
  induction path generalizing base overlay with
  | nil =>
    obtain rfl : overlay = v := some.inj hat
    rw [mergeValues_of_asTable_right hleaf]
    rfl
  | cons key path ih =>
    cases hbase with
    | leaf hbase => rwa [mergeValues_of_asTable_left hbase]
    | @table base hb hbval =>
      cases hoverlay with
      | leaf hoverlay => rwa [mergeValues_of_asTable_right hoverlay]
      | @table overlay ho hoval =>
        simp only [at?, asTable, bind_some, mergeValues_table] at hat ⊢
        cases hy : lookup overlay key with
        | none =>
          rw [hy] at hat
          nomatch hat
        | some y =>
          rw [hy] at hat
          rw [lookup_mergeEntries (sorted_keptEntries hb) ho, hy]
          cases hx : lookup (keptEntries base overlay) key with
          | none => exact hat
          | some x =>
            exact ih (hbval key x (lookup_of_lookup_keptEntries hx)) (hoval key y hy) hat

/-! ## Associativity -/

/-- Where merging is associative. What one of the two ways drops, because the middle overlay has no
table there or resets the type, has to be overwritten on the other way. -/
inductive Composes : TomlValue → TomlValue → TomlValue → Prop
  /-- The last overlay replaces everything. -/
  | leaf {a b c : TomlValue} : c.asTable = none → Composes a b c
  /-- The base is replaced. -/
  | onLeaf {a b c : TomlValue} : a.asTable = none → b.asTable ≠ none → Composes a b c
  /-- The middle overlay replaces the base: the last one has to cover the base too. -/
  | replaced {a b c : TomlValue} : b.asTable = none → mergeValues a c = c → Composes a b c
  /-- The last overlay resets the middle one and restores the tag of the base: it has to cover the base
  when the middle one had reset that, and else the middle one has to be without effect under it. -/
  | restored {a b c : Entries} : typeChanged b c = true → (typeString a = typeString c →
      (lookup b "type" ≠ none → mergeTables a c = c) ∧
      (lookup b "type" = none → mergeTables (mergeTables a b) c = mergeTables a c)) →
      Composes (.table a) (.table b) (.table c)
  /-- The middle overlay resets the base: when the last one replaces the tag by another value, the two
  have to cover the base. -/
  | retagged {a b c : Entries} : ¬ typeChanged b c = true → typeChanged a b = true →
      (lookup c "type" ≠ none → typeString c = none →
        mergeTables a (mergeTables b c) = mergeTables b c) →
      Composes (.table a) (.table b) (.table c)
  /-- Nothing is reset: the tables compose at every key that all three have. -/
  | fieldwise {a b c : Entries} : ¬ typeChanged b c = true → ¬ typeChanged a b = true →
      (∀ key x y z, lookup a key = some x → lookup b key = some y → lookup c key = some z →
        Composes x y z) → Composes (.table a) (.table b) (.table c)

section Associativity

/-- The last overlay resets the middle one, and does not restore the tag of the base: nothing below
it is left. -/
theorem mergeTables_mergeTables_of_not_restored (ha : a.Sorted) (hb : b.Sorted) (hc : c.Sorted)
    (hbc : typeChanged b c = true) (h : typeString a ≠ typeString c ∨ lookup b "type" ≠ none) :
    mergeTables (mergeTables a b) c = c := by
  obtain ⟨tag, htag, hne, hnil⟩ := typeChanged_iff.1 hbc
  refine mergeTables_of_typeChanged hc (typeChanged_iff.2 ⟨tag, htag, fun hm => ?_,
    mergeTables_ne_nil ha hb hnil⟩)
  rcases typeString_mergeTables ha hb hm with hb' | ⟨hb', ha'⟩
  · exact hne hb'
  · rcases h with h | h
    · exact h (ha'.trans htag.symm)
    · exact h hb'

theorem mergeTables_of_ne_typeString (hc : c.Sorted) (hbc : typeChanged b c = true)
    (h : typeString a ≠ typeString c) : mergeTables a c = c := by
  obtain ⟨tag, htag, -, -⟩ := typeChanged_iff.1 hbc
  by_cases hnil : a = []
  · rw [hnil, mergeTables_nil_left hc]
  · exact mergeTables_of_typeChanged hc
      (typeChanged_iff.2 ⟨tag, htag, fun ha => h (ha.trans htag.symm), hnil⟩)

/-- The last overlay keeps the tag with which the middle one resets the base. -/
theorem mergeTables_mergeTables_of_retagged (hb : b.Sorted) (hc : c.Sorted)
    (hbc : ¬ typeChanged b c = true) (hab : typeChanged a b = true)
    (h : lookup c "type" = none ∨ typeString c ≠ none) :
    mergeTables a (mergeTables b c) = mergeTables b c := by
  obtain ⟨tag, htag, hne, hnil⟩ := typeChanged_iff.1 hab
  refine mergeTables_of_typeChanged (sorted_mergeTables hb)
    (typeChanged_iff.2 ⟨tag, ?_, hne, hnil⟩)
  cases hc' : typeString c with
  | some tag' =>
    have htag' := typeString_of_not_typeChanged hbc (ne_nil_of_typeString htag) hc'
    obtain rfl : tag = tag' := some.inj (htag.symm.trans htag')
    exact typeString_mergeTables_of_right hb hc hc'
  | none =>
    have hnone := h.resolve_right (not_not.2 hc')
    rw [typeString_eq_some_iff, lookup_mergeTables hb hc hbc, hnone, mergeLookup_none_right]
    exact typeString_eq_some_iff.1 htag

/-- Without resets both ways merge key by key. -/
theorem lookup_mergeTables_mergeTables (ha : a.Sorted) (hb : b.Sorted) (hc : c.Sorted)
    (hbc : ¬ typeChanged b c = true) (hab : ¬ typeChanged a b = true) (hnil : b ≠ [])
    (key : String) :
    lookup (mergeTables (mergeTables a b) c) key =
        mergeLookup (mergeLookup (lookup a key) (lookup b key)) (lookup c key) ∧
      lookup (mergeTables a (mergeTables b c)) key =
        mergeLookup (lookup a key) (mergeLookup (lookup b key) (lookup c key)) := by
  have hab' : ¬ typeChanged (mergeTables a b) c = true := fun h => by
    obtain ⟨tag, htag, hne, -⟩ := typeChanged_iff.1 h
    exact hne (typeString_mergeTables_of_right ha hb
      (typeString_of_not_typeChanged hbc hnil htag))
  have hbc' : ¬ typeChanged a (mergeTables b c) = true := fun h => by
    obtain ⟨tag, htag, hne, hanil⟩ := typeChanged_iff.1 h
    have htagb : typeString b = some tag := by
      rcases typeString_mergeTables hb hc htag with htagc | ⟨-, htagb⟩
      · exact typeString_of_not_typeChanged hbc hnil htagc
      · exact htagb
    exact hne (typeString_of_not_typeChanged hab hanil htagb)
  constructor
  · rw [lookup_mergeTables (sorted_mergeTables ha) hc hab', lookup_mergeTables ha hb hab]
  · rw [lookup_mergeTables ha (sorted_mergeTables hb) hbc', lookup_mergeTables hb hc hbc]

/-- The two ways agree at a key when they do where all three tables have it. -/
theorem mergeLookup_assoc_iff {x y z : Option TomlValue} :
    mergeLookup (mergeLookup x y) z = mergeLookup x (mergeLookup y z) ↔
      ∀ u v w, x = some u → y = some v → z = some w →
        mergeValues (mergeValues u v) w = mergeValues u (mergeValues v w) := by
  cases x <;> cases y <;> cases z <;> simp [mergeLookup]

theorem mergeTables_assoc_iff (ha : (TomlValue.table a).WellFormed)
    (hb : (TomlValue.table b).WellFormed) (hc : c.Sorted)
    (ih : ∀ key z, lookup c key = some z → ∀ {x y : TomlValue}, x.WellFormed → y.WellFormed →
      (mergeValues (mergeValues x y) z = mergeValues x (mergeValues y z) ↔ Composes x y z)) :
    mergeTables (mergeTables a b) c = mergeTables a (mergeTables b c) ↔
      Composes (.table a) (.table b) (.table c) := by
  by_cases hbc : typeChanged b c = true
  · rw [mergeTables_of_typeChanged hc hbc]
    constructor
    · intro heq
      refine .restored hbc fun htag => ⟨fun htype => ?_, fun _ => heq⟩
      rw [← heq, mergeTables_mergeTables_of_not_restored ha.sorted hb.sorted hc hbc (.inr htype)]
    · intro h
      cases h with
      | leaf h => nomatch h
      | onLeaf h => nomatch h
      | replaced h => nomatch h
      | retagged h => exact absurd hbc h
      | fieldwise h => exact absurd hbc h
      | restored _ h =>
        by_cases htag : typeString a = typeString c
        · by_cases htype : lookup b "type" = none
          · exact (h htag).2 htype
          · rw [mergeTables_mergeTables_of_not_restored ha.sorted hb.sorted hc hbc (.inr htype),
              (h htag).1 htype]
        · rw [mergeTables_mergeTables_of_not_restored ha.sorted hb.sorted hc hbc (.inl htag),
            mergeTables_of_ne_typeString hc hbc htag]
  by_cases hab : typeChanged a b = true
  · rw [mergeTables_of_typeChanged hb.sorted hab]
    constructor
    · exact fun heq => .retagged hbc hab fun _ _ => heq.symm
    · intro h
      cases h with
      | leaf h => nomatch h
      | onLeaf h => nomatch h
      | replaced h => nomatch h
      | restored h => exact absurd h hbc
      | fieldwise _ h => exact absurd hab h
      | retagged _ _ h =>
        by_cases htag : lookup c "type" = none ∨ typeString c ≠ none
        · exact (mergeTables_mergeTables_of_retagged hb.sorted hc hbc hab htag).symm
        · rw [not_or, not_not] at htag
          exact (h htag.1 htag.2).symm
  by_cases hnil : b = []
  · subst hnil
    rw [mergeTables_nil_right, mergeTables_nil_left hc]
    exact iff_of_true rfl (.fieldwise hbc hab fun _ _ _ _ _ hy => nomatch hy)
  have hlookup := lookup_mergeTables_mergeTables ha.sorted hb.sorted hc hbc hab hnil
  constructor
  · intro heq
    refine .fieldwise hbc hab fun key x y z hx hy hz => ?_
    have hkey := (hlookup key).1.symm.trans ((congrArg (lookup · key) heq).trans (hlookup key).2)
    exact (ih key z hz (ha.of_lookup hx) (hb.of_lookup hy)).1
      (mergeLookup_assoc_iff.1 hkey x y z hx hy hz)
  · intro h
    refine eq_of_lookup (sorted_mergeTables (sorted_mergeTables ha.sorted))
      (sorted_mergeTables ha.sorted) fun key => ?_
    rw [(hlookup key).1, (hlookup key).2, mergeLookup_assoc_iff]
    intro x y z hx hy hz
    cases h with
    | leaf h => nomatch h
    | onLeaf h => nomatch h
    | replaced h => nomatch h
    | restored h => exact absurd h hbc
    | retagged _ h => exact absurd h hab
    | fieldwise _ _ h =>
      exact (ih key z hz (ha.of_lookup hx) (hb.of_lookup hy)).2 (h key x y z hx hy hz)

end Associativity

/-- **Where merging is associative.** -/
theorem mergeValues_assoc_iff {a b c : TomlValue} (ha : a.WellFormed) (hb : b.WellFormed)
    (hc : c.WellFormed) :
    mergeValues (mergeValues a b) c = mergeValues a (mergeValues b c) ↔ Composes a b c := by
  induction hc generalizing a b with
  | leaf hc =>
    refine iff_of_true ?_ (.leaf hc)
    rw [mergeValues_of_asTable_right hc, mergeValues_of_asTable_right hc,
      mergeValues_of_asTable_right hc]
  | @table c hc hcval ih =>
    cases hb with
    | @leaf b hb =>
      rw [mergeValues_of_asTable_right hb, mergeValues_of_asTable_left hb]
      refine ⟨fun heq => .replaced hb heq.symm, fun h => ?_⟩
      cases h with
      | leaf h => nomatch h
      | onLeaf _ h => exact absurd hb h
      | replaced _ h => exact h.symm
      | restored => nomatch hb
      | retagged => nomatch hb
      | fieldwise => nomatch hb
    | @table b hb hbval =>
      cases ha with
      | @leaf a ha =>
        refine iff_of_true ?_ (.onLeaf ha fun h => nomatch h)
        rw [mergeValues_of_asTable_left ha, mergeValues_of_asTable_left ha]
      | @table a ha haval =>
        simp only [mergeValues_table_table, TomlValue.table.injEq]
        exact mergeTables_assoc_iff (.table ha haval) (.table hb hbval) hc ih

/-- A table whose values are no tables. -/
def leafTable (entries : Entries) (hsorted : entries.Sorted)
    (hleaf : ∀ e ∈ entries, e.2.asTable = none) : TomlTable where
  entries := entries
  wellFormed := .table hsorted fun _ _ h => .leaf (hleaf _ (hsorted.lookup_eq_some_iff.1 h))

/-- `type = "t"` and `x = 1`. -/
def taggedTable : TomlTable :=
  leafTable [("type", .string "t"), ("x", .integer 1)] (by unfold Entries.Sorted; decide)
    (by decide)

/-- `y = 2`. -/
def untaggedTable : TomlTable :=
  leafTable [("y", .integer 2)] (by unfold Entries.Sorted; decide) (by decide)

/-- `type = "t"`. -/
def tagTable : TomlTable :=
  leafTable [("type", .string "t")] (by unfold Entries.Sorted; decide) (by decide)

end BurnDragon.Config
