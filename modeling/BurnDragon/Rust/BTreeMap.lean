import Mathlib

/-!
# Ordered maps that are iterated over

A `BTreeMap` is the list of its entries in increasing order of the keys. `get?_insert` and
`get?_remove` say what a later lookup finds.
-/

namespace BurnDragon.Rust

open List

structure BTreeMap (K V : Type*) [LinearOrder K] where
  entries : List (K × V)
  sorted : (entries.map Prod.fst).Pairwise (· < ·)

namespace BTreeMap

variable {K V : Type*} [LinearOrder K]

variable {m : BTreeMap K V}

@[ext] theorem ext {m' : BTreeMap K V} (h : m.entries = m'.entries) : m = m' := by
  cases m
  cases m'
  simpa using h

def empty : BTreeMap K V := ⟨[], .nil⟩

/-- `keys`. -/
def keys (m : BTreeMap K V) : List K := m.entries.map Prod.fst

theorem nodup_keys (m : BTreeMap K V) : m.keys.Nodup := m.sorted.imp ne_of_lt

/-- `get`. -/
def get? (m : BTreeMap K V) (k : K) : Option V := (m.entries.find? fun e => e.1 = k).map Prod.snd

variable {k : K} {v : V}

theorem get?_eq_some_iff :
    m.get? k = some v ↔ (k, v) ∈ m.entries := by
  rw [get?, Option.map_eq_some_iff]
  constructor
  · rintro ⟨⟨k', v'⟩, hfind, rfl⟩
    obtain rfl : k' = k := by simpa using find?_some hfind
    exact mem_of_find?_eq_some hfind
  · intro hmem
    obtain ⟨e, he⟩ : ∃ e, m.entries.find? (fun e => decide (e.1 = k)) = some e :=
      Option.isSome_iff_exists.1 (find?_isSome.2 ⟨_, hmem, by simp⟩)
    have hk : e.1 = k := by simpa using find?_some he
    exact ⟨e, he, congrArg Prod.snd
      (inj_on_of_nodup_map m.nodup_keys (mem_of_find?_eq_some he) hmem hk)⟩

theorem get?_eq_none_iff : m.get? k = none ↔ k ∉ m.keys := by
  rw [Option.eq_none_iff_forall_ne_some, keys, mem_map]
  constructor
  · rintro h ⟨e, he, rfl⟩
    exact h e.2 (get?_eq_some_iff.2 he)
  · exact fun h v hv => h ⟨_, get?_eq_some_iff.1 hv, rfl⟩

/-- Maps that look up every key alike are equal. -/
theorem ext_get? {m' : BTreeMap K V} (h : ∀ k, m.get? k = m'.get? k) : m = m' := by
  have hmem : ∀ e, e ∈ m.entries ↔ e ∈ m'.entries := fun e => by
    rw [← Prod.mk.eta (p := e), ← get?_eq_some_iff, ← get?_eq_some_iff, h]
  have hlt : ∀ {n : BTreeMap K V}, n.entries.Pairwise fun e e' => e.1 < e'.1 :=
    fun {n} => pairwise_map.1 n.sorted
  refine ext (List.Perm.eq_of_pairwise (fun e e' _ _ hl hl' => absurd hl' hl.asymm) hlt hlt ?_)
  exact (perm_ext_iff_of_nodup (hlt.imp fun hl => by rintro rfl; exact hl.false)
    (hlt.imp fun hl => by rintro rfl; exact hl.false)).2 hmem

@[simp] theorem get?_empty (k : K) : (empty : BTreeMap K V).get? k = none := rfl

/-! ## Insertion -/

/-- The entries after an insertion. -/
def insertEntry (k : K) (v : V) : List (K × V) → List (K × V)
  | [] => [(k, v)]
  | e :: es =>
    if k < e.1 then (k, v) :: e :: es
    else if k = e.1 then (k, v) :: es
    else e :: insertEntry k v es

variable {es : List (K × V)}

theorem mem_insertEntry (hs : (es.map Prod.fst).Pairwise (· < ·)) {e : K × V} :
    e ∈ insertEntry k v es ↔ e = (k, v) ∨ e ∈ es ∧ e.1 ≠ k := by
  induction es with
  | nil => simp [insertEntry]
  | cons f es ih =>
    obtain ⟨hf, hs⟩ := pairwise_cons.1 hs
    have hlt : ∀ e ∈ es, f.1 < e.1 := fun e he => hf _ (mem_map_of_mem he)
    rw [insertEntry]
    split_ifs with hkf hkf'
    · have hne : ∀ e ∈ f :: es, e.1 ≠ k := by
        intro e he
        rcases mem_cons.1 he with rfl | he
        · exact hkf.ne'
        · exact (hkf.trans (hlt e he)).ne'
      rw [mem_cons]
      exact or_congr_right ⟨fun he => ⟨he, hne e he⟩, And.left⟩
    · have hne : ∀ e ∈ es, e.1 ≠ k := fun e he => hkf' ▸ (hlt e he).ne'
      simp only [mem_cons]
      constructor
      · rintro (rfl | he)
        · exact .inl rfl
        · exact .inr ⟨.inr he, hne e he⟩
      · rintro (rfl | ⟨rfl | he, hk⟩)
        · exact .inl rfl
        · exact absurd hkf'.symm hk
        · exact .inr he
    · rw [mem_cons, mem_cons, ih hs]
      constructor
      · rintro (rfl | rfl | ⟨he, hk⟩)
        · exact .inr ⟨.inl rfl, fun h => hkf' h.symm⟩
        · exact .inl rfl
        · exact .inr ⟨.inr he, hk⟩
      · rintro (rfl | ⟨rfl | he, hk⟩)
        · exact .inr (.inl rfl)
        · exact .inl rfl
        · exact .inr (.inr ⟨he, hk⟩)

theorem sorted_insertEntry (hs : (es.map Prod.fst).Pairwise (· < ·)) :
    ((insertEntry k v es).map Prod.fst).Pairwise (· < ·) := by
  induction es with
  | nil => simp [insertEntry]
  | cons f es ih =>
    obtain ⟨hf, hs'⟩ := pairwise_cons.1 hs
    rw [insertEntry]
    split_ifs with hkf hkf'
    · refine pairwise_cons.2 ⟨fun k' hk' => ?_, hs⟩
      rcases mem_cons.1 hk' with rfl | hk'
      · exact hkf
      · exact hkf.trans (hf k' hk')
    · exact pairwise_cons.2 ⟨hkf' ▸ hf, hs'⟩
    · refine pairwise_cons.2 ⟨fun k' hk' => ?_, ih hs'⟩
      obtain ⟨e, he, rfl⟩ := mem_map.1 hk'
      rcases (mem_insertEntry hs').1 he with rfl | ⟨he, -⟩
      · exact lt_of_le_of_ne (not_lt.1 hkf) (Ne.symm hkf')
      · exact hf _ (mem_map_of_mem he)

/-- `insert`, which replaces the value of a key already present. -/
def insert (m : BTreeMap K V) (k : K) (v : V) : BTreeMap K V :=
  ⟨insertEntry k v m.entries, sorted_insertEntry m.sorted⟩

theorem mem_entries_insert {e : K × V} :
    e ∈ (m.insert k v).entries ↔ e = (k, v) ∨ e ∈ m.entries ∧ e.1 ≠ k := mem_insertEntry m.sorted

variable {k' : K}

theorem mem_keys_insert :
    k' ∈ (m.insert k v).keys ↔ k' = k ∨ k' ∈ m.keys := by
  simp only [keys, mem_map, mem_entries_insert]
  constructor
  · rintro ⟨e, rfl | ⟨he, -⟩, rfl⟩
    · exact .inl rfl
    · exact .inr ⟨e, he, rfl⟩
  · rintro (rfl | ⟨e, he, rfl⟩)
    · exact ⟨_, .inl rfl, rfl⟩
    · by_cases hk : e.1 = k
      · exact ⟨_, .inl rfl, hk.symm⟩
      · exact ⟨e, .inr ⟨he, hk⟩, rfl⟩

@[simp] theorem get?_insert_self (m : BTreeMap K V) (k : K) (v : V) :
    (m.insert k v).get? k = some v :=
  get?_eq_some_iff.2 (mem_entries_insert.2 (.inl rfl))

theorem get?_insert_of_ne (m : BTreeMap K V) (v : V) (h : k' ≠ k) :
    (m.insert k v).get? k' = m.get? k' := by
  refine Option.ext fun w => ?_
  rw [get?_eq_some_iff, get?_eq_some_iff, mem_entries_insert]
  simp [h]

theorem get?_insert (m : BTreeMap K V) (k k' : K) (v : V) :
    (m.insert k v).get? k' = if k' = k then some v else m.get? k' := by
  split_ifs with h
  · rw [h, get?_insert_self]
  · rw [get?_insert_of_ne m v h]

theorem perm_insertEntry (h : k ∉ es.map Prod.fst) :
    (insertEntry k v es).Perm ((k, v) :: es) := by
  induction es with
  | nil => exact .refl _
  | cons e es ih =>
    rw [map_cons, mem_cons, not_or] at h
    rw [insertEntry, if_neg h.1]
    split_ifs
    · exact .refl _
    · exact ((ih h.2).cons e).trans (.swap _ _ _)

/-- The insertion of a new key adds an entry. -/
theorem entries_insert_perm (v : V) (h : m.get? k = none) :
    (m.insert k v).entries.Perm ((k, v) :: m.entries) :=
  perm_insertEntry (get?_eq_none_iff.1 h)

theorem insert_of_get? (h : m.get? k = some v) :
    m.insert k v = m := by
  refine ext_get? fun k' => ?_
  rw [get?_insert]
  split_ifs with hk
  · rw [hk, h]
  · rfl

theorem get?_insert_eq_some {v' : V} (h : (m.insert k v).get? k' = some v') :
    k' = k ∧ v' = v ∨ m.get? k' = some v' := by
  rw [get?_insert] at h
  split_ifs at h with hk
  · exact .inl ⟨hk, (Option.some.inj h).symm⟩
  · exact .inr h

/-- `entry(k).or_default().push(a)`. -/
def push {A : Type*} (m : BTreeMap K (List A)) (k : K) (a : A) : BTreeMap K (List A) :=
  m.insert k ((m.get? k).getD [] ++ [a])

/-- Every key of a grouping is the key of some element. -/
theorem exists_of_mem_keys_foldl_push {A : Type*} {key : A → K} {as : List A}
    {m : BTreeMap K (List A)} (h : k ∈ (as.foldl (fun m a => m.push (key a) a) m).keys) :
    k ∈ m.keys ∨ ∃ a ∈ as, key a = k := by
  induction as generalizing m with
  | nil => exact .inl h
  | cons a as ih =>
    rcases ih h with h | ⟨b, hb, hk⟩
    · rcases mem_keys_insert.1 h with rfl | h
      · exact .inr ⟨a, mem_cons_self .., rfl⟩
      · exact .inl h
    · exact .inr ⟨b, mem_cons_of_mem _ hb, hk⟩

/-! ## Removal -/

/-- The map after `remove`, which returns `get?`. -/
def remove (m : BTreeMap K V) (k : K) : BTreeMap K V :=
  ⟨m.entries.filter fun e => e.1 ≠ k,
    m.sorted.sublist (List.filter_sublist.map Prod.fst)⟩

theorem get?_remove (m : BTreeMap K V) (k k' : K) :
    (m.remove k).get? k' = if k' = k then none else m.get? k' := by
  refine Option.ext fun w => ?_
  rw [get?_eq_some_iff, remove, mem_filter]
  split_ifs with h
  · simp [h]
  · rw [get?_eq_some_iff]
    simp [h]

theorem get?_of_get?_remove (h : (m.remove k).get? k' = some v) : m.get? k' = some v := by
  rw [get?_remove] at h
  split_ifs at h
  exact h

/-- The map after `retain` of the keys from the given one on. -/
def retainFrom (m : BTreeMap K V) (k : K) : BTreeMap K V :=
  ⟨m.entries.filter fun e => k ≤ e.1,
    m.sorted.sublist (List.filter_sublist.map Prod.fst)⟩

theorem get?_retainFrom (m : BTreeMap K V) (k k' : K) :
    (m.retainFrom k).get? k' = if k ≤ k' then m.get? k' else none := by
  refine Option.ext fun w => ?_
  rw [get?_eq_some_iff, retainFrom, mem_filter]
  split_ifs with h
  · rw [get?_eq_some_iff]
    simp [h]
  · simp [h]

theorem get?_of_get?_retainFrom (h : (m.retainFrom k).get? k' = some v) : m.get? k' = some v := by
  rw [get?_retainFrom] at h
  split_ifs at h
  exact h

/-! ## Groups -/

/-- `entry(k).or_default().push(v)`. -/
def pushEntry (m : BTreeMap K (List V)) (k : K) (v : V) : BTreeMap K (List V) :=
  m.insert k ((m.get? k).getD [] ++ [v])

/-- The elements of a list by their keys, those of a key in the order of the list. -/
def groupBy (key : V → K) (xs : List V) : BTreeMap K (List V) :=
  xs.foldl (fun m x => m.pushEntry (key x) x) empty

section Groups

variable {key : V → K} {xs : List V} {k : K}

theorem getD_get?_foldl_pushEntry (key : V → K) (xs : List V) (k : K) (m : BTreeMap K (List V)) :
    ((xs.foldl (fun m x => m.pushEntry (key x) x) m).get? k).getD [] =
      (m.get? k).getD [] ++ xs.filter (key · = k) := by
  induction xs generalizing m with
  | nil => simp
  | cons x xs ih =>
    rw [foldl_cons, ih, pushEntry, get?_insert]
    split_ifs with hk
    · rw [filter_cons_of_pos (by simp [hk]), hk]
      simp
    · rw [filter_cons_of_neg (by simpa using Ne.symm hk)]

theorem mem_keys_foldl_pushEntry (m : BTreeMap K (List V)) :
    k ∈ (xs.foldl (fun m x => m.pushEntry (key x) x) m).keys ↔ k ∈ m.keys ∨ k ∈ xs.map key := by
  induction xs generalizing m with
  | nil => simp
  | cons x xs ih =>
    rw [foldl_cons, ih, pushEntry, mem_keys_insert, map_cons, mem_cons]
    tauto

@[simp] theorem mem_keys_groupBy : k ∈ (groupBy key xs).keys ↔ k ∈ xs.map key :=
  (mem_keys_foldl_pushEntry empty).trans (by simp [keys, empty])

/-- The group of a key is the part of the list with this key. -/
theorem eq_filter_of_mem_groupBy {g : List V} (h : (k, g) ∈ (groupBy key xs).entries) :
    g = xs.filter (key · = k) := by
  have := getD_get?_foldl_pushEntry key xs k empty
  rwa [show (xs.foldl _ empty : BTreeMap K (List V)).get? k = some g from get?_eq_some_iff.2 h,
    Option.getD_some, get?_empty, Option.getD_none, nil_append] at this

theorem entries_groupBy : (groupBy key xs).entries =
    (groupBy key xs).keys.map fun k => (k, xs.filter (key · = k)) := by
  rw [keys, map_map]
  refine (map_id _).symm.trans (map_congr_left fun e he => ?_)
  exact Prod.ext rfl (eq_filter_of_mem_groupBy he)

/-- The keys depend on which keys there are only. -/
theorem keys_groupBy_congr {W : Type*} {key' : W → K} {ys : List W}
    (h : ∀ k, k ∈ xs.map key ↔ k ∈ ys.map key') : (groupBy key xs).keys = (groupBy key' ys).keys := by
  have hperm : (groupBy key xs).keys.Perm (groupBy key' ys).keys :=
    (perm_ext_iff_of_nodup (nodup_keys _) (nodup_keys _)).2 fun k => by simp only
      [mem_keys_groupBy, h]
  exact hperm.eq_of_pairwise (fun a b _ _ hlt hlt' => absurd hlt' hlt.asymm)
    (groupBy key xs).sorted (groupBy key' ys).sorted

/-- The parts of a list with given keys make up the list. -/
theorem flatMap_filter_perm {ks : List K} (hnodup : ks.Nodup) (hkey : ∀ x ∈ xs, key x ∈ ks) :
    (ks.flatMap fun k => xs.filter (key · = k)).Perm xs := by
  induction ks generalizing xs with
  | nil =>
    obtain rfl : xs = [] := eq_nil_iff_forall_not_mem.2 fun x hx => nomatch hkey x hx
    exact .refl _
  | cons k ks ih =>
    obtain ⟨hk, hnodup⟩ := nodup_cons.1 hnodup
    have hrest : ∀ k' ∈ ks, xs.filter (key · = k') =
        (xs.filter (key · ≠ k)).filter (key · = k') := by
      intro k' hk'
      rw [filter_filter]
      refine filter_congr fun x _ => ?_
      by_cases hx : key x = k'
      · have : k' ≠ k := fun h => hk (h ▸ hk')
        simp [hx, this]
      · simp [hx]
    have hkey' : ∀ x ∈ xs.filter (key · ≠ k), key x ∈ ks := fun x hx => by
      obtain ⟨hx, hne⟩ := mem_filter.1 hx
      exact (mem_cons.1 (hkey x hx)).resolve_left (by simpa using hne)
    rw [flatMap_cons, flatMap_congr hrest]
    refine ((ih hnodup hkey').append_left _).trans ?_
    simpa using filter_append_perm (key · = k) xs

/-- The groups make up the list. -/
theorem flatMap_groupBy_perm : ((groupBy key xs).entries.flatMap Prod.snd).Perm xs := by
  rw [entries_groupBy, flatMap_map]
  exact flatMap_filter_perm (nodup_keys _) fun x hx =>
    mem_keys_groupBy.2 (mem_map_of_mem hx)

theorem ne_nil_of_mem_groupBy {e : K × List V} (h : e ∈ (groupBy key xs).entries) : e.2 ≠ [] := by
  have hk : e.1 ∈ (groupBy key xs).keys := mem_map_of_mem h
  obtain ⟨x, hx, hkey⟩ := mem_map.1 (mem_keys_groupBy.1 hk)
  rw [eq_filter_of_mem_groupBy h]
  exact ne_nil_of_mem (mem_filter.2 ⟨hx, by simp [hkey]⟩)

end Groups

/-! ## Values -/

/-- A map from its entries; of the entries with a key the last one counts. -/
def ofEntries (es : List (K × V)) : BTreeMap K V := es.foldl (fun m e => m.insert e.1 e.2) empty

instance [DecidableEq V] : DecidableEq (BTreeMap K V) := fun _ _ =>
  decidable_of_iff _ ⟨ext, congrArg entries⟩

/-- The map with a function applied to each value. -/
def mapValues {W : Type*} (g : V → W) (m : BTreeMap K V) : BTreeMap K W :=
  ⟨m.entries.map fun e => (e.1, g e.2), by simpa [List.map_map, Function.comp_def] using m.sorted⟩

section Values

variable {W X : Type*} {g : V → W} {m : BTreeMap K V}

@[simp] theorem get?_mapValues (k : K) : (m.mapValues g).get? k = (m.get? k).map g := by
  rw [get?, mapValues, find?_map, Option.map_map, get?, Option.map_map]
  rfl

theorem mapValues_insert (k : K) (v : V) :
    (m.insert k v).mapValues g = (m.mapValues g).insert k (g v) := by
  refine ext_get? fun k' => ?_
  rw [get?_mapValues, get?_insert, get?_insert, get?_mapValues]
  split_ifs <;> rfl

/-- `entry(k).or_default()` with a change of the value. -/
def alter (m : BTreeMap K V) (k : K) (default : V) (f : V → V) : BTreeMap K V :=
  m.insert k (f ((m.get? k).getD default))

/-- The aggregate of a key changes with the group of the key. -/
theorem mapValues_pushEntry (f : W → X → W) (d : W) (m : BTreeMap K (List X)) (k : K) (x : X) :
    (m.pushEntry k x).mapValues (List.foldl f d) =
      (m.mapValues (List.foldl f d)).alter k d (f · x) := by
  rw [pushEntry, mapValues_insert, alter, get?_mapValues, foldl_append]
  cases m.get? k <;> rfl

/-- **Aggregation by keys** gives each key the aggregate of its group. -/
theorem foldl_alter (f : W → X → W) (d : W) (key : X → K) (xs : List X) :
    xs.foldl (fun m x => m.alter (key x) d (f · x)) empty =
      (groupBy key xs).mapValues (List.foldl f d) := by
  have hgeneral : ∀ m : BTreeMap K (List X),
      xs.foldl (fun m x => m.alter (key x) d (f · x)) (m.mapValues (List.foldl f d)) =
        (xs.foldl (fun m x => m.pushEntry (key x) x) m).mapValues (List.foldl f d) := by
    induction xs with
    | nil => exact fun _ => rfl
    | cons x xs ih => exact fun m => by rw [foldl_cons, foldl_cons, ← ih, mapValues_pushEntry]
  exact hgeneral empty

end Values

end BTreeMap

end BurnDragon.Rust
