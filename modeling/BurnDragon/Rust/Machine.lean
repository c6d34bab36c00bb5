import Mathlib

/-!
# The Rust machine, as far as the models need it

Panics, the saturating arithmetic of `usize` (64 bits wide), and the ordered collections of the
standard library. A `BTreeMap` that is only read and inserted into is a partial function, a
`BTreeSet` is the increasing list of its elements.

* `Run α` is the result of code that returns an `α` or panics.
* `index` is the indexing of a slice, `remainder` the operator `%`.
* `insertSorted` is the insertion into a `BTreeSet`.
-/

namespace BurnDragon.Rust

open List Option

/-! ## Panics -/

/-- The panics that the models tell apart. -/
inductive Panic
  | divisionByZero
  | indexOutOfBounds
  | missingKey
  | capacityOverflow
  | arithmeticOverflow
  deriving DecidableEq

/-- The result of code that returns a value or panics. -/
abbrev Run (α : Type*) := Except Panic α

/-- How a function that returns a `Result` ends without a value. -/
inductive Fault (ε : Type*)
  | panic (panic : Panic)
  | error (error : ε)
  deriving DecidableEq

/-- The result of code that returns a `Result` or panics. -/
abbrev Fallible (ε α : Type*) := Except (Fault ε) α

/-- `Result::unwrap_or`. -/
def Fallible.unwrapOr {ε α : Type*} (x : Fallible ε α) (default : α) : Run α :=
  match x with
  | .ok a => .ok a
  | .error (.error _) => .ok default
  | .error (.panic panic) => .error panic

variable {α : Type*}

variable {ε β : Type}

/-- A sequence of two computations that succeeds. -/
theorem bind_eq_ok {α : Type} {x : Except ε α} {f : α → Except ε β} {b : β} :
    (x >>= f) = .ok b ↔ ∃ a, x = .ok a ∧ f a = .ok b := by
  cases x <;> simp [bind, Except.bind]

/-- A check followed by a computation that succeeds. -/
theorem check_bind_eq_ok {x : Except ε Unit} {f : Unit → Except ε β} {b : β} :
    (x >>= f) = .ok b ↔ x = .ok () ∧ f () = .ok b := by
  cases x <;> simp [bind, Except.bind]

theorem throw_bind {α : Type} {e : ε} {f : α → Except ε β} :
    ((throw e : Except ε α) >>= f) = .error e := rfl

/-- A guard that succeeds. -/
theorem ite_error_eq_ok {ε : Type*} {c : Prop} [Decidable c] {e : ε} {x : Except ε α} {a : α} :
    (if c then .error e else x) = .ok a ↔ ¬ c ∧ x = .ok a := by
  by_cases h : c <;> simp [h]

/-- Collecting the results of computations that all succeed. -/
theorem mapM_eq_ok {α : Type} {f : α → Except ε β} {g : α → β} {xs : List α}
    (h : ∀ x ∈ xs, f x = .ok (g x)) : xs.mapM f = .ok (xs.map g) := by
  induction xs with
  | nil => rfl
  | cons x xs ih =>
    rw [mapM_cons, h x (by simp), ih fun y hy => h y (by simp [hy])]
    rfl

theorem mapM_returns {α : Type} {f : α → Except ε β} {xs : List α}
    (h : ∀ x ∈ xs, ∃ y, f x = .ok y) : ∃ ys, xs.mapM f = .ok ys := by
  induction xs with
  | nil => exact ⟨[], rfl⟩
  | cons x xs ih =>
    obtain ⟨y, hy⟩ := h x (by simp)
    obtain ⟨ys, hys⟩ := ih fun x hx => h x (by simp [hx])
    exact ⟨y :: ys, by rw [mapM_cons, hy, hys]; rfl⟩

variable {ys : List β}

theorem forall₂_of_mapM {α : Type} {f : α → Except ε β} {xs : List α} (h : xs.mapM f = .ok ys) :
    List.Forall₂ (fun x y => f x = .ok y) xs ys := by
  induction xs generalizing ys with
  | nil => cases h; exact .nil
  | cons x xs ih =>
    rw [mapM_cons] at h
    obtain ⟨y, hy, h⟩ := bind_eq_ok.1 h
    obtain ⟨ys', hys', h⟩ := bind_eq_ok.1 h
    cases h
    exact .cons hy (ih hys')

variable {i : ℕ}

/-- Every result of a loop is the result of the item at its place. -/
theorem getElem?_of_mapM {α : Type} {f : α → Except ε β} {xs : List α} {y : β}
    (h : xs.mapM f = .ok ys) (hy : ys[i]? = some y) : ∃ x, xs[i]? = some x ∧ f x = .ok y := by
  have hall := forall₂_of_mapM h
  clear h
  induction hall generalizing i with
  | nil => simp at hy
  | @cons x y' xs ys hxy _ ih =>
    cases i with
    | zero =>
      obtain rfl : y' = y := by simpa using hy
      exact ⟨x, rfl, hxy⟩
    | succ i => exact ih (by simpa using hy)

/-- What depends on the results of a loop in the way of its items. -/
theorem map_of_mapM {α γ : Type} {f : α → Except ε β} {φ : β → γ} {ψ : α → γ} {xs : List α}
    (h : xs.mapM f = .ok ys) (hf : ∀ x ∈ xs, ∀ y, f x = .ok y → φ y = ψ x) :
    ys.map φ = xs.map ψ := by
  have hall := forall₂_of_mapM h
  clear h
  induction hall with
  | nil => rfl
  | @cons x y xs ys hxy _ ih =>
    rw [map_cons, map_cons, hf x mem_cons_self y hxy,
      ih fun x' hx' => hf x' (mem_cons_of_mem x hx')]

theorem length_of_mapM {α : Type} {f : α → Except ε β} {xs : List α} (h : xs.mapM f = .ok ys) :
    ys.length = xs.length := (forall₂_of_mapM h).length_eq.symm

/-- A loop whose every item succeeds under a condition and then has a known result. -/
theorem mapM_eq_ok_iff {α : Type} {f : α → Except ε β} {g : α → β} {P : α → Prop} {xs : List α}
    (h : ∀ x ∈ xs, ∀ y, f x = .ok y ↔ P x ∧ y = g x) :
    xs.mapM f = .ok ys ↔ (∀ x ∈ xs, P x) ∧ ys = xs.map g := by
  constructor
  · intro hmap
    have hall := forall₂_of_mapM hmap
    clear hmap
    induction hall with
    | nil => exact ⟨by simp, rfl⟩
    | @cons x y xs ys hxy _ ih =>
      obtain ⟨hx, rfl⟩ := (h x mem_cons_self y).1 hxy
      obtain ⟨hxs, rfl⟩ := ih fun x' hx' => h x' (mem_cons_of_mem x hx')
      exact ⟨by simpa using ⟨hx, hxs⟩, rfl⟩
  · rintro ⟨hxs, rfl⟩
    exact mapM_eq_ok fun x hx => (h x hx _).2 ⟨hxs x hx, rfl⟩

/-- `mapM` over options returns a list if all of them do. -/
theorem mapM_eq_some_iff {α : Type} {f : α → Option β} {xs : List α} :
    xs.mapM f = some ys ↔ xs.map f = ys.map some := by
  induction xs generalizing ys with
  | nil => cases ys <;> simp
  | cons x xs ih =>
    rw [mapM_cons, map_cons, bind_eq_bind, bind_eq_some_iff]
    constructor
    · rintro ⟨y, hy, h⟩
      obtain ⟨ys, hys, h⟩ := bind_eq_some_iff.1 h
      obtain rfl := some.inj h
      rw [hy, ih.1 hys, map_cons]
    · intro h
      cases ys with
      | nil => cases h
      | cons y ys =>
        obtain ⟨hy, hys⟩ := List.cons.inj h
        exact ⟨y, hy, bind_eq_some_iff.2 ⟨ys, ih.2 hys, rfl⟩⟩

theorem forM_eq_ok {α : Type} {f : α → Except ε Unit} {xs : List α} {u : Unit} :
    xs.forM f = .ok u ↔ ∀ x ∈ xs, f x = .ok () := by
  induction xs with
  | nil => simp [List.forM, pure, Except.pure]
  | cons x xs ih =>
    change (f x >>= fun _ => xs.forM f) = _ ↔ _
    rw [check_bind_eq_ok, ih, forall_mem_cons]

theorem mapError_eq_ok {ε ε' : Type*} {f : ε → ε'} {x : Except ε α} {a : α} :
    x.mapError f = .ok a ↔ x = .ok a := by
  cases x <;> simp [Except.mapError]

/-- `Option::ok_or_else`. -/
def okOr {ε : Type*} (x : Option α) (e : ε) : Except ε α :=
  match x with
  | some a => .ok a
  | none => .error e

theorem okOr_eq_ok {ε : Type*} {x : Option α} {e : ε} {a : α} : okOr x e = .ok a ↔ x = some a := by
  cases x <;> simp [okOr]

/-- `xs[i]`. -/
def index (xs : List α) (i : ℕ) : Run α :=
  match xs[i]? with
  | some x => .ok x
  | none => .error .indexOutOfBounds

theorem index_eq_ok {xs : List α} {x : α} : index xs i = .ok x ↔ xs[i]? = some x := by
  unfold index
  split <;> simp_all

theorem index_of_lt {xs : List α} (h : i < xs.length) : index xs i = .ok xs[i] :=
  index_eq_ok.2 (getElem?_eq_getElem h)

/-- `xs[k]` for a map. -/
def lookup {K V : Type*} (m : K → Option V) (k : K) : Run V :=
  match m k with
  | some v => .ok v
  | none => .error .missingKey

theorem lookup_eq_ok {K V : Type*} {m : K → Option V} {k : K} {v : V} :
    lookup m k = .ok v ↔ m k = some v := by
  unfold lookup
  split <;> simp_all

/-- `a % b`. -/
def remainder (a b : ℕ) : Run ℕ :=
  if b = 0 then .error .divisionByZero else .ok (a % b)

variable {a b : ℕ}

theorem remainder_of_pos (h : 0 < b) : remainder a b = .ok (a % b) := by
  rw [remainder, if_neg (by omega)]

/-- `a && b`, where the operands may panic. -/
def andThen (a b : Run Bool) : Run Bool := a >>= fun ok => if ok then b else .ok false

theorem andThen_eq_ok_true {a b : Run Bool} :
    andThen a b = .ok true ↔ a = .ok true ∧ b = .ok true := by
  rcases a with _ | _ | _ <;> simp [andThen, bind, Except.bind]

/-- A conjunction returns when its first operand does, and its second where it counts. -/
theorem andThen_returns_iff {a b : Run Bool} :
    (∃ ok, andThen a b = .ok ok) ↔ (∃ ok, a = .ok ok) ∧ (a = .ok true → ∃ ok, b = .ok ok) := by
  rcases a with _ | _ | _ <;> simp [andThen, bind, Except.bind]

/-- A loop that returns `false` at the first item that fails its check. -/
def forAll (check : α → Run Bool) : List α → Run Bool
  | [] => .ok true
  | x :: xs => andThen (check x) (forAll check xs)

section ForAll

variable {check : α → Run Bool} {xs : List α}

theorem forAll_eq_ok_true : forAll check xs = .ok true ↔ ∀ x ∈ xs, check x = .ok true := by
  induction xs with
  | nil => simp [forAll]
  | cons x xs ih => rw [forAll, andThen_eq_ok_true, ih, forall_mem_cons]

/-- The loop returns when no item panics that comes after items that pass the check. -/
theorem forAll_returns_iff : (∃ ok, forAll check xs = .ok ok) ↔
    ∀ pre x post, xs = pre ++ x :: post → (∀ y ∈ pre, check y = .ok true) →
      ∃ ok, check x = .ok ok := by
  induction xs with
  | nil => simp [forAll]
  | cons x xs ih =>
    rw [forAll, andThen_returns_iff, ih]
    constructor
    · rintro ⟨hx, hxs⟩ (_ | ⟨y, pre⟩) z post heq hpre
      · obtain ⟨rfl, rfl⟩ : x = z ∧ xs = post := by simpa using heq
        exact hx
      · obtain ⟨rfl, rfl⟩ : x = y ∧ xs = pre ++ z :: post := by simpa using heq
        exact hxs (hpre x (by simp)) pre z post rfl fun w hw => hpre w (by simp [hw])
    · refine fun h => ⟨h [] x xs rfl (by simp), fun hx pre z post heq hpre => ?_⟩
      exact h (x :: pre) z post (by simp [heq]) (by simpa using ⟨hx, hpre⟩)

theorem forAll_returns (h : ∀ x ∈ xs, ∃ ok, check x = .ok ok) : ∃ ok, forAll check xs = .ok ok :=
  forAll_returns_iff.2 fun _ x _ heq _ => h x (by simp [heq])

end ForAll

/-! ## Machine integers -/

/-- `usize::MAX`. -/
def usizeMax : ℕ := 2 ^ 64 - 1

/-! ## Named instances

Propositions that definitions rest on. Under a name they leave a definition the same term wherever
it is elaborated. -/

namespace Instances

scoped instance two : Nat.AtLeastTwo 2 := ⟨by decide⟩
scoped instance four : Nat.AtLeastTwo 4 := ⟨by decide⟩
scoped instance five : Nat.AtLeastTwo 5 := ⟨by decide⟩
scoped instance eight : Nat.AtLeastTwo 8 := ⟨by decide⟩
scoped instance ten : Nat.AtLeastTwo 10 := ⟨by decide⟩
scoped instance twentyFive : Nat.AtLeastTwo 25 := ⟨by decide⟩
scoped instance thirtyFive : Nat.AtLeastTwo 35 := ⟨by decide⟩
scoped instance fifty : Nat.AtLeastTwo 50 := ⟨by decide⟩
scoped instance seventy : Nat.AtLeastTwo 70 := ⟨by decide⟩
scoped instance seventyFive : Nat.AtLeastTwo 75 := ⟨by decide⟩
scoped instance ninety : Nat.AtLeastTwo 90 := ⟨by decide⟩
scoped instance hundred : Nat.AtLeastTwo 100 := ⟨by decide⟩

scoped instance lawfulBEq {α : Type*} [LinearOrder α] : LawfulBEq α := inferInstance

end Instances

theorem four_le_usizeMax : 4 ≤ usizeMax := by decide

theorem five_le_usizeMax : 5 ≤ usizeMax := by decide

/-- `isize::MAX`. -/
def isizeMax : ℕ := 2 ^ 63 - 1

/-- The result of an operator on `usize`: out of range it panics in a build with overflow checks and
wraps around in the others. -/
def usizeResult (overflowChecks : Bool) (n : ℕ) : Run ℕ :=
  if n ≤ usizeMax then .ok n
  else if overflowChecks then .error .arithmeticOverflow
  else .ok (n % 2 ^ 64)

variable {n : ℕ}

theorem usizeResult_of_le {overflowChecks : Bool} (h : n ≤ usizeMax) :
    usizeResult overflowChecks n = .ok n := if_pos h

theorem usizeResult_false_returns (n : ℕ) : ∃ c, usizeResult false n = .ok c := by
  by_cases h : n ≤ usizeMax <;> simp [usizeResult, h]

/-- `usize::checked_add`. -/
def checkedAdd (a b : ℕ) : Option ℕ := if a + b ≤ usizeMax then some (a + b) else none

/-- `usize::checked_mul`. -/
def checkedMul (a b : ℕ) : Option ℕ := if a * b ≤ usizeMax then some (a * b) else none

/-- `Vec::with_capacity` for items of the given size; it returns no value that a model needs. -/
def withCapacity (itemSize capacity : ℕ) : Run Unit :=
  if itemSize * capacity ≤ isizeMax then .ok () else .error .capacityOverflow

/-- `usize::saturating_add`. -/
def saturatingAdd (a b : ℕ) : ℕ := min (a + b) usizeMax

/-- `usize::saturating_mul`. -/
def saturatingMul (a b : ℕ) : ℕ := min (a * b) usizeMax

/-- `usize::BITS - leading_zeros`, the number of binary digits. -/
def bitLength (a : ℕ) : ℕ := if a = 0 then 0 else Nat.log2 a + 1

/-- `usize::checked_shl`. -/
def checkedShl (a amount : ℕ) : Option ℕ :=
  if amount < 64 then some ((a <<< amount) % 2 ^ 64) else none

theorem saturatingAdd_le (a b : ℕ) : saturatingAdd a b ≤ a + b := min_le_left _ _

theorem saturatingAdd_of_le (h : a + b ≤ usizeMax) : saturatingAdd a b = a + b :=
  min_eq_left h

theorem saturatingAdd_le_usizeMax (a b : ℕ) : saturatingAdd a b ≤ usizeMax := min_le_right _ _

theorem saturatingAdd_zero (h : a ≤ usizeMax) : saturatingAdd a 0 = a := min_eq_left h

theorem saturatingAdd_assoc (a b c : ℕ) :
    saturatingAdd (saturatingAdd a b) c = saturatingAdd a (b + c) := by
  unfold saturatingAdd
  omega

theorem saturatingMul_of_le (h : a * b ≤ usizeMax) : saturatingMul a b = a * b :=
  min_eq_left h

theorem saturatingAdd_le_iff (h : n < usizeMax) :
    saturatingAdd a b ≤ n ↔ a + b ≤ n := by
  unfold saturatingAdd
  omega

/-- Reserving room for one item more than a number that the code does not bound. -/
theorem withCapacity_saturatingAdd_iff {itemSize : ℕ} (h : 2 ≤ itemSize) :
    withCapacity itemSize (saturatingAdd n 1) = .ok () ↔ itemSize * (n + 1) ≤ isizeMax := by
  have hsize : ∀ k, itemSize * k ≤ isizeMax → k ≤ usizeMax := fun k hk => by
    have : 2 * k ≤ itemSize * k := Nat.mul_le_mul_right k h
    unfold isizeMax at hk
    unfold usizeMax
    omega
  have hcap : withCapacity itemSize (saturatingAdd n 1) = .ok () ↔
      itemSize * saturatingAdd n 1 ≤ isizeMax := by
    unfold withCapacity
    split_ifs with hle
    · simp [hle]
    · simp [hle]
  rw [hcap]
  constructor
  · intro hle
    by_cases hn : n + 1 ≤ usizeMax
    · rwa [saturatingAdd_of_le hn] at hle
    · have : saturatingAdd n 1 = usizeMax := min_eq_right (by omega)
      rw [this] at hle
      have : 2 * usizeMax ≤ itemSize * usizeMax := Nat.mul_le_mul_right _ h
      unfold isizeMax at hle
      unfold usizeMax at this hle
      omega
  · intro hle
    rwa [saturatingAdd_of_le (hsize _ hle)]

theorem bitLength_le_iff : bitLength a ≤ n ↔ a < 2 ^ n := by
  unfold bitLength
  split_ifs with h
  · exact iff_of_true (Nat.zero_le n) (h ▸ Nat.two_pow_pos n)
  · rw [Nat.succ_le_iff, Nat.log2_lt h]

/-- Shifting a one by fewer places than the width. -/
theorem checkedShl_one (h : n < 64) : checkedShl 1 n = some (2 ^ n) := by
  rw [checkedShl, if_pos h, Nat.one_shiftLeft, Nat.mod_eq_of_lt (Nat.pow_lt_pow_right (by omega) h)]

/-! ## Maps and sets -/

/-- A `BTreeMap` or `HashMap` that is only read and inserted into. -/
abbrev Map (K V : Type*) := K → Option V

namespace Map

variable {K V : Type*}

def empty : Map K V := fun _ => none

/-- `insert`, which replaces the value of a key already present. -/
def insert [DecidableEq K] (m : Map K V) (k : K) (v : V) : Map K V := Function.update m k (some v)

@[simp] theorem empty_apply (k : K) : (empty : Map K V) k = none := rfl

@[simp] theorem insert_self [DecidableEq K] (m : Map K V) (k : K) (v : V) :
    m.insert k v k = some v := Function.update_self ..

variable {k : K}

theorem insert_of_ne [DecidableEq K] (m : Map K V) {k' : K} (v : V) (h : k' ≠ k) :
    m.insert k v k' = m k' := Function.update_of_ne h ..

/-- The map collected from a list of entries; a later entry replaces an earlier one. -/
def ofList [DecidableEq K] (entries : List (K × V)) : Map K V :=
  entries.foldl (fun m e => m.insert e.1 e.2) empty

/-- Inserting entries with distinct keys: a key finds the value of its entry. -/
theorem foldl_insert_apply [DecidableEq K] {X : Type*} {key : X → K} {value : X → V} {xs : List X}
    (h : (xs.map key).Nodup) (m : Map K V) (k : K) :
    xs.foldl (fun m x => m.insert (key x) (value x)) m k =
      ((xs.find? fun x => key x = k).map value).or (m k) := by
  induction xs generalizing m with
  | nil => simp
  | cons x xs ih =>
    obtain ⟨hx, h⟩ := nodup_cons.1 h
    rw [foldl_cons, ih h, find?_cons]
    by_cases hk : key x = k
    · have hnone : xs.find? (fun y => key y = k) = none := by
        refine find?_eq_none.2 fun y hy => ?_
        simp only [decide_eq_true_eq]
        exact fun heq => hx (mem_map.2 ⟨y, hy, heq.trans hk.symm⟩)
      simp [hk, hnone]
    · simp [hk, insert_of_ne m (value x) (Ne.symm hk)]

/-- With distinct keys, the map of a list of entries has exactly their values. -/
theorem foldl_insert_eq_some_iff [DecidableEq K] {X : Type*} {key : X → K} {value : X → V}
    {xs : List X} (h : (xs.map key).Nodup) {v : V} :
    xs.foldl (fun m x => m.insert (key x) (value x)) empty k = some v ↔
      ∃ x ∈ xs, key x = k ∧ value x = v := by
  rw [foldl_insert_apply h, empty_apply, or_none, map_eq_some_iff]
  constructor
  · rintro ⟨x, hx, hv⟩
    exact ⟨x, mem_of_find?_eq_some hx, by simpa using find?_some hx, hv⟩
  · rintro ⟨x, hx, rfl, hv⟩
    obtain ⟨y, hy⟩ : ∃ y, xs.find? (fun y => key y = key x) = some y :=
      isSome_iff_exists.1 (find?_isSome.2 ⟨x, hx, by simp⟩)
    refine ⟨y, hy, ?_⟩
    rw [inj_on_of_nodup_map h (mem_of_find?_eq_some hy) hx
      (by simpa using find?_some hy), hv]

theorem ofList_eq_some_iff [DecidableEq K] {entries : List (K × V)}
    (h : (entries.map Prod.fst).Nodup) {v : V} :
    ofList entries k = some v ↔ (k, v) ∈ entries := by
  rw [ofList, foldl_insert_eq_some_iff h]
  constructor
  · rintro ⟨⟨_, _⟩, hmem, rfl, rfl⟩
    exact hmem
  · exact fun hmem => ⟨_, hmem, rfl, rfl⟩

/-- The map finds the position of every element of the list. -/
def Indexes (m : Map K ℕ) (xs : List K) : Prop := ∀ x i, m x = some i ↔ xs[i]? = some x

namespace Indexes

variable {m : Map K ℕ} {xs : List K} {x : K}

theorem empty : Indexes (Map.empty : Map K ℕ) [] := by simp [Indexes]

theorem not_mem (h : Indexes m xs) (hx : m x = none) : x ∉ xs := fun hmem => by
  obtain ⟨i, hi⟩ := mem_iff_getElem?.1 hmem
  simp [(h x i).2 hi] at hx

theorem eq_none (h : Indexes m xs) (hx : x ∉ xs) : m x = none :=
  eq_none_iff_forall_ne_some.2 fun i hi => hx (mem_of_getElem? ((h x i).1 hi))

/-- An element has one position. -/
theorem nodup (h : Indexes m xs) : xs.Nodup := by
  rw [nodup_iff_injective_getElem]
  intro i j hij
  have hi : m xs[i] = some i.1 := (h _ _).2 (getElem?_eq_getElem i.2)
  have hj : m xs[j] = some j.1 := (h _ _).2 (getElem?_eq_getElem j.2)
  rw [show xs[i] = xs[j] from hij, hj] at hi
  exact Fin.ext (some.inj hi).symm

/-- Appending an element that the map does not find. -/
theorem concat [DecidableEq K] (h : Indexes m xs) (hx : m x = none) :
    Indexes (m.insert x xs.length) (xs ++ [x]) := by
  intro y i
  have hmem := h.not_mem hx
  by_cases hy : y = x
  · subst hy
    rw [insert_self, some.injEq]
    constructor
    · rintro rfl
      exact getElem?_concat_length
    · intro hi
      by_contra hne
      have hlt := (List.getElem?_eq_some_iff.1 hi).1
      rw [length_append, length_singleton] at hlt
      rw [getElem?_append_left (by omega)] at hi
      exact hmem (mem_of_getElem? hi)
  · rw [insert_of_ne m _ hy, h]
    by_cases hi : i < xs.length
    · rw [getElem?_append_left hi]
    · rw [getElem?_append_right (by omega), getElem?_eq_none (by omega)]
      simp only [getElem?_singleton, reduceCtorEq, false_iff]
      split_ifs <;> simp [Ne.symm hy]

end Indexes

end Map

section Set

variable [LinearOrder α]

open scoped Instances in
/-- Insertion into a `BTreeSet`, held as the increasing list of its elements. -/
def insertSorted (x : α) (s : List α) : List α :=
  if x ∈ s then s else s.orderedInsert (· ≤ ·) x

@[simp] theorem mem_insertSorted {x y : α} {s : List α} :
    y ∈ insertSorted x s ↔ y = x ∨ y ∈ s := by
  unfold insertSorted
  split
  · constructor
    · exact .inr
    · rintro (rfl | h) <;> assumption
  · exact mem_orderedInsert ..

theorem length_insertSorted_le (x : α) (s : List α) :
    (insertSorted x s).length ≤ s.length + 1 := by
  unfold insertSorted
  split
  · omega
  · rw [orderedInsert_length]

theorem pairwise_insertSorted {x : α} {s : List α} (hs : s.Pairwise (· < ·)) :
    (insertSorted x s).Pairwise (· < ·) := by
  unfold insertSorted
  split
  · exact hs
  · rename_i hx
    induction s with
    | nil => simp
    | cons y s ih =>
      obtain ⟨hy, hs⟩ := pairwise_cons.1 hs
      obtain ⟨hxy, hx⟩ : x ≠ y ∧ x ∉ s := by simpa using hx
      rw [orderedInsert_cons]
      split_ifs with hle
      · refine pairwise_cons.2 ⟨fun z hz => ?_, pairwise_cons.2 ⟨hy, hs⟩⟩
        obtain rfl | hz := mem_cons.1 hz
        · exact lt_of_le_of_ne hle hxy
        · exact lt_of_le_of_lt hle (hy z hz)
      · refine pairwise_cons.2 ⟨fun z hz => ?_, ih hs hx⟩
        obtain rfl | hz := (mem_orderedInsert ..).1 hz
        · exact not_le.1 hle
        · exact hy z hz

section Collect

variable {X : Type*} {key : X → α}

theorem mem_foldl_insertSorted {xs : List X} {s : List α} {y : α} :
    y ∈ xs.foldl (fun s x => insertSorted (key x) s) s ↔ y ∈ s ∨ ∃ x ∈ xs, key x = y := by
  induction xs generalizing s with
  | nil => simp
  | cons x xs ih =>
    rw [foldl_cons, ih, mem_insertSorted]
    simp only [mem_cons, exists_eq_or_imp]
    grind

theorem pairwise_foldl_insertSorted {xs : List X} {s : List α} (hs : s.Pairwise (· < ·)) :
    (xs.foldl (fun s x => insertSorted (key x) s) s).Pairwise (· < ·) := by
  induction xs generalizing s with
  | nil => exact hs
  | cons x xs ih => exact ih (pairwise_insertSorted hs)

theorem length_foldl_insertSorted_le (xs : List X) (s : List α) :
    (xs.foldl (fun s x => insertSorted (key x) s) s).length ≤ s.length + xs.length := by
  induction xs generalizing s with
  | nil => simp
  | cons x xs ih =>
    have h := ih (insertSorted (key x) s)
    have hinsert := length_insertSorted_le (key x) s
    rw [foldl_cons, length_cons]
    omega

end Collect

end Set

/-! ## Slices -/

/-- `swap` on a slice, for two indices in range. -/
def swap (xs : List α) (i j : ℕ) : List α :=
  match xs[i]?, xs[j]? with
  | some x, some y => (xs.set i y).set j x
  | _, _ => xs

theorem swap_perm (xs : List α) (i j : ℕ) : (swap xs i j).Perm xs := by
  unfold swap
  split
  · rename_i x y hx hy
    obtain ⟨hi, rfl⟩ := List.getElem?_eq_some_iff.1 hx
    obtain ⟨hj, rfl⟩ := List.getElem?_eq_some_iff.1 hy
    exact set_set_perm hi hj
  · rfl

/-- `sort_by_key`, which is stable. -/
def sortByKey {κ : Type*} [LinearOrder κ] (key : α → κ) (xs : List α) : List α :=
  xs.insertionSort fun x y => key x ≤ key y

theorem sortByKey_perm {κ : Type*} [LinearOrder κ] (key : α → κ) (xs : List α) :
    (sortByKey key xs).Perm xs :=
  perm_insertionSort _ xs

end BurnDragon.Rust
