import BurnDragon.Rust.BTreeMap

/-!
# TOML values

`toml::Value`. A table is the list of its entries in increasing order of the keys, so two tables
are equal when every lookup in them is (`eq_of_lookup`). `WellFormed` says this of a value and of
all tables below it; what arrays hold is never looked into.
-/

namespace BurnDragon.Config

open Rust

inductive TomlValue
  | string (text : String)
  | integer (value : ℤ)
  | float (bits : UInt64)
  | boolean (value : Bool)
  | datetime (text : String)
  | array (values : List TomlValue)
  | table (entries : List (String × TomlValue))

/-- The entries of a table. -/
abbrev Entries := List (String × TomlValue)

/-- The keys are increasing. -/
def Entries.Sorted (entries : Entries) : Prop := (entries.map Prod.fst).Pairwise (· < ·)

/-- `get` of a table. -/
def lookup (entries : Entries) (key : String) : Option TomlValue :=
  (entries.find? fun e => e.1 = key).map Prod.snd

variable {entries entries' : Entries} {key key' : String} {value : TomlValue}

@[simp] theorem lookup_nil : lookup [] key = none := rfl

theorem Entries.Sorted.nil : Entries.Sorted [] := List.Pairwise.nil

theorem Entries.Sorted.lookup_eq_some_iff (h : entries.Sorted) :
    lookup entries key = some value ↔ (key, value) ∈ entries :=
  BTreeMap.get?_eq_some_iff (m := ⟨entries, h⟩)

theorem Entries.Sorted.lookup_insertEntry (h : entries.Sorted) :
    lookup (BTreeMap.insertEntry key value entries) key' =
      if key' = key then some value else lookup entries key' :=
  BTreeMap.get?_insert ⟨entries, h⟩ key key' value

theorem Entries.Sorted.insertEntry (h : entries.Sorted) :
    Entries.Sorted (BTreeMap.insertEntry key value entries) :=
  BTreeMap.sorted_insertEntry h

/-- Tables in which every lookup is the same are equal. -/
theorem eq_of_lookup (h : entries.Sorted) (h' : entries'.Sorted)
    (heq : ∀ key, lookup entries key = lookup entries' key) : entries = entries' :=
  have hmaps : (⟨entries, h⟩ : BTreeMap String TomlValue) = ⟨entries', h'⟩ := BTreeMap.ext_get? heq
  congrArg BTreeMap.entries hmaps

/-- A lookup in a table that starts with an entry. -/
theorem Entries.Sorted.lookup_cons (h : Entries.Sorted ((key, value) :: entries)) :
    entries.Sorted ∧ lookup entries key = none ∧
      ∀ key', lookup ((key, value) :: entries) key' =
        if key' = key then some value else lookup entries key' := by
  obtain ⟨hlt, hsorted⟩ := List.pairwise_cons.1 h
  refine ⟨hsorted, BTreeMap.get?_eq_none_iff (m := ⟨entries, hsorted⟩) |>.2 fun hmem => ?_,
    fun key' => ?_⟩
  · exact lt_irrefl key (hlt key hmem)
  · by_cases hkey : key' = key
    · simp [lookup, hkey]
    · simp [lookup, hkey, Ne.symm hkey]

theorem Entries.Sorted.eq_nil_iff (h : entries.Sorted) :
    entries = [] ↔ ∀ key, lookup entries key = none := by
  refine ⟨fun hnil key => by rw [hnil, lookup_nil], fun hnone => ?_⟩
  exact eq_of_lookup h .nil fun key => (hnone key).trans lookup_nil.symm

/-! ## Well-formed values -/

namespace TomlValue

/-- The entries of a value that is a table. -/
def asTable : TomlValue → Option Entries
  | .table entries => some entries
  | _ => none

/-- The tables that a value consists of have increasing keys. -/
inductive WellFormed : TomlValue → Prop
  | leaf {v : TomlValue} : v.asTable = none → WellFormed v
  | table {entries : Entries} : entries.Sorted → (∀ key v, lookup entries key = some v →
      WellFormed v) → WellFormed (.table entries)

theorem WellFormed.sorted (h : (TomlValue.table entries).WellFormed) : entries.Sorted := by
  cases h with
  | leaf h => nomatch h
  | table h => exact h

theorem WellFormed.of_lookup (h : (TomlValue.table entries).WellFormed)
    (hlookup : lookup entries key = some value) : value.WellFormed := by
  cases h with
  | leaf h => nomatch h
  | table _ h => exact h key value hlookup

/-- The value at a path of keys. -/
def at? : TomlValue → List String → Option TomlValue
  | v, [] => some v
  | v, key :: path =>
    match v.asTable.bind (lookup · key) with
    | some child => child.at? path
    | none => none

end TomlValue

/-- A table of a configuration file. -/
structure TomlTable where
  entries : Entries
  wellFormed : (TomlValue.table entries).WellFormed

/-- The table as a value. -/
def TomlTable.toValue (t : TomlTable) : TomlValue := .table t.entries

end BurnDragon.Config
