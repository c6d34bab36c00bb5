import BurnDragon.Rust.Machine

/-!
# Text

The parts of `str` and of the integer formatting that the models use. A `String` is split and
searched through its list of characters.

* `decimal n` is the text of an integer, `parseUsize` the parser of `usize`; the parser inverts the
  formatting (`parseUsize_decimal`).
* `splitOn_intercalate` says that splitting at a separator inverts joining with it.
-/

namespace BurnDragon.Rust

open List

/-! ## Characters -/

/-- `char::is_whitespace`, the Unicode property `White_Space`. -/
def isWhitespace (c : Char) : Bool :=
  let n := c.toNat
  (9 ≤ n && n ≤ 13) || n == 32 || n == 133 || n == 160 || n == 5760 || (8192 ≤ n && n ≤ 8202) ||
    n == 8232 || n == 8233 || n == 8239 || n == 8287 || n == 12288

/-- `str::trim`. -/
def trim (s : List Char) : List Char :=
  ((s.dropWhile isWhitespace).reverse.dropWhile isWhitespace).reverse

theorem trim_eq_self {s : List Char} (h : ∀ c ∈ s, isWhitespace c = false) : trim s = s := by
  have hdrop : ∀ {t : List Char}, (∀ c ∈ t, isWhitespace c = false) →
      t.dropWhile isWhitespace = t := by
    intro t ht
    cases t with
    | nil => rfl
    | cons c t => rw [dropWhile_cons_of_neg (by simp [ht c (by simp)])]
  rw [trim, hdrop h, hdrop (by simpa using h), reverse_reverse]

/-- `str::len`, in bytes. -/
def byteLen (s : List Char) : ℕ := (s.map Char.utf8Size).sum

theorem byteLen_append (s t : List Char) : byteLen (s ++ t) = byteLen s + byteLen t := by
  simp [byteLen]

/-- `str::strip_prefix`. -/
def stripPrefix (p s : List Char) : Option (List Char) :=
  if p.isPrefixOf s then some (s.drop p.length) else none

/-- `str::find`, the position of the first occurrence of a text; positions count characters. -/
def findText (pattern : List Char) : List Char → Option ℕ
  | [] => if pattern = [] then some 0 else none
  | c :: rest =>
    if pattern.isPrefixOf (c :: rest) then some 0
    else (findText pattern rest).map fun position => position + 1

@[simp] theorem stripPrefix_nil (s : List Char) : stripPrefix [] s = some s := by
  simp [stripPrefix]

@[simp] theorem stripPrefix_cons_cons (a b : Char) (p s : List Char) :
    stripPrefix (a :: p) (b :: s) = if a = b then stripPrefix p s else none := by
  by_cases h : a = b <;> simp [stripPrefix, h]

/-! ## Integers as text -/

/-- The decimal text of an integer. -/
def decimal (n : ℕ) : String := n.repr

/-- The lower case hexadecimal text of an integer, filled up with zeros to eight digits. -/
def hex08 (n : ℕ) : String := String.ofList (List.leftpad 8 '0' (Nat.toDigits 16 n))

/-- The text of an unsigned integer without its optional plus sign. -/
def unsignedDigits : List Char → List Char
  | '+' :: rest => rest
  | s => s

/-- `str::parse::<usize>`. -/
def parseUsize (s : List Char) : Option ℕ :=
  let digits := unsignedDigits s
  if digits ≠ [] ∧ digits.all Char.isDigit ∧ Nat.ofDigitChars 10 digits 0 ≤ usizeMax then
    some (Nat.ofDigitChars 10 digits 0)
  else
    none

theorem toList_decimal (n : ℕ) : (decimal n).toList = Nat.toDigits 10 n := Nat.toList_repr

variable {n : ℕ} {c : Char}

theorem isDigit_of_mem_decimal (hc : c ∈ (decimal n).toList) : c.isDigit :=
  Nat.isDigit_of_mem_toDigits (by omega) (by omega) (toList_decimal n ▸ hc)

theorem decimal_ne_nil (n : ℕ) : (decimal n).toList ≠ [] := by
  rw [toList_decimal]
  exact Nat.toDigits_ne_nil

/-- A character that is no digit does not occur in the text of an integer. -/
theorem not_mem_decimal (hc : c.isDigit = false) : c ∉ (decimal n).toList :=
  fun h => by simp [isDigit_of_mem_decimal h] at hc

theorem isWhitespace_of_isDigit (hc : c.isDigit) : isWhitespace c = false := by
  simp only [Char.isDigit, Bool.and_eq_true, decide_eq_true_eq, ge_iff_le, UInt32.le_iff_toNat_le]
    at hc
  have h₁ : 48 ≤ c.toNat := hc.1
  have h₂ : c.toNat ≤ 57 := hc.2
  simp only [isWhitespace, Bool.or_eq_false_iff, Bool.and_eq_false_iff, decide_eq_false_iff_not,
    beq_eq_false_iff_ne]
  omega

theorem unsignedDigits_decimal (n : ℕ) :
    unsignedDigits (decimal n).toList = (decimal n).toList := by
  unfold unsignedDigits
  split
  · rename_i rest heq
    have hplus : '+' ∈ (decimal n).toList := by rw [heq]; simp
    exact absurd hplus (not_mem_decimal (by decide))
  · rfl

/-- **Parsing inverts formatting** for the integers that fit. -/
theorem parseUsize_decimal (hn : n ≤ usizeMax) : parseUsize (decimal n).toList = some n := by
  have hdigits : (decimal n).toList.all Char.isDigit := by
    simpa using fun c hc => isDigit_of_mem_decimal hc
  have hval : Nat.ofDigitChars 10 (decimal n).toList 0 = n := by
    rw [toList_decimal, Nat.ofDigitChars_ten_toDigits]
  simp only [parseUsize, unsignedDigits_decimal, hval]
  exact if_pos ⟨decimal_ne_nil n, hdigits, hn⟩

theorem decimal_injective : Function.Injective decimal := by
  intro m n h
  have := congrArg (fun s : String => Nat.ofDigitChars 10 s.toList 0) h
  simpa only [toList_decimal, Nat.ofDigitChars_ten_toDigits] using this

theorem length_decimal_le {k : ℕ} (hk : 0 < k) (h : n < 10 ^ k) :
    (decimal n).toList.length ≤ k := by
  rw [toList_decimal]
  exact (Nat.length_toDigits_le_iff (by omega) hk).2 h

theorem isAlphanum_of_mem_hex08 (hc : c ∈ (hex08 n).toList) : c.isAlphanum := by
  have hdigit : ∀ d < 16, (Nat.digitChar d).isAlphanum := by decide
  have hdigits : ∀ n, ∀ c ∈ Nat.toDigits 16 n, c.isAlphanum := by
    intro n
    induction n using Nat.strong_induction_on with
    | _ n ih =>
      intro c hc
      rw [Nat.toDigits_eq_if (by omega)] at hc
      split at hc
      · rename_i hn
        obtain rfl := mem_singleton.1 hc
        exact hdigit n hn
      · rcases mem_append.1 hc with hc | hc
        · exact ih _ (by omega) c hc
        · obtain rfl := mem_singleton.1 hc
          exact hdigit _ (Nat.mod_lt _ (by omega))
  rw [hex08, String.toList_ofList, List.leftpad, mem_append] at hc
  rcases hc with hc | hc
  · obtain rfl := eq_of_mem_replicate hc
    decide
  · exact hdigits n c hc

theorem length_hex08_le {k : ℕ} (hk : 8 ≤ k) (h : n < 16 ^ k) : (hex08 n).toList.length ≤ k := by
  have hlen := (Nat.length_toDigits_le_iff (b := 16) (by omega) (by omega)).2 h
  rw [hex08, String.toList_ofList, length_leftpad]
  omega

/-! ## Reading a token -/

/-- Two texts that begin with a token of certain characters, and go on without one of them, begin with
the same token. -/
theorem append_inj_of_head {P : Char → Prop} {xs ys rest rest' : List Char} (hxs : ∀ c ∈ xs, P c)
    (hys : ∀ c ∈ ys, P c) (hrest : ∀ c ∈ rest.head?, ¬ P c) (hrest' : ∀ c ∈ rest'.head?, ¬ P c)
    (h : xs ++ rest = ys ++ rest') : xs = ys ∧ rest = rest' := by
  induction xs generalizing ys with
  | nil =>
    cases ys with
    | nil => exact ⟨rfl, h⟩
    | cons y ys =>
      rw [nil_append] at h
      exact absurd (hys y (by simp)) (hrest y (by simp [h]))
  | cons x xs ih =>
    cases ys with
    | nil =>
      rw [nil_append] at h
      exact absurd (hxs x (by simp)) (hrest' x (by simp [← h]))
    | cons y ys =>
      simp only [cons_append, List.cons.injEq] at h
      obtain ⟨rfl, h⟩ := h
      obtain ⟨rfl, hrests⟩ := @ih ys (fun c hc => hxs c (by simp [hc]))
        (fun c hc => hys c (by simp [hc])) h
      exact ⟨rfl, hrests⟩

/-! ## Splitting -/

variable {sep : Char} {text : String} {parts : List String}

/-- **Splitting at a separator inverts joining with it**, when no part contains the separator. -/
theorem splitOn_intercalate (htext : text.toList = [sep]) (hne : parts ≠ [])
    (h : ∀ p ∈ parts, sep ∉ p.toList) :
    (String.intercalate text parts).toList.splitOn sep = parts.map String.toList := by
  rw [String.toList_intercalate, htext]
  refine List.splitOn_intercalate sep ?_ (by simpa using hne)
  simpa using h

/-- The last of the joined parts may contain the separator; then it is split too. -/
theorem splitOn_intercalate_concat (htext : text.toList = [sep]) (last : String)
    (h : ∀ p ∈ parts, sep ∉ p.toList) :
    (String.intercalate text (parts ++ [last])).toList.splitOn sep =
      parts.map String.toList ++ last.toList.splitOn sep := by
  rw [String.toList_intercalate, htext]
  induction parts with
  | nil => simp
  | cons part parts ih =>
    obtain ⟨next, rest, hrest⟩ : ∃ next rest, parts ++ [last] = next :: rest :=
      exists_cons_of_ne_nil (by simp)
    rw [cons_append, map_cons, hrest, map_cons, intercalate_cons_cons, append_assoc,
      singleton_append, splitOn_append_cons_self_of_not_mem (h part (by simp)), ← map_cons, ← hrest,
      ih fun p hp => h p (by simp [hp])]
    rfl

/-- The parts have no separator, and only characters of the text. -/
theorem not_mem_of_mem_splitOn {s part : List Char} (h : part ∈ s.splitOn sep) :
    sep ∉ part ∧ part ⊆ s := by
  induction s generalizing part with
  | nil =>
    obtain rfl : part = [] := by simpa using h
    simp
  | cons c s ih =>
    rw [splitOn_cons_eq_if_modifyHead] at h
    split_ifs at h with hc
    · rcases mem_cons.1 h with rfl | h
      · simp
      · exact ⟨(ih h).1, fun x hx => mem_cons_of_mem _ ((ih h).2 hx)⟩
    · cases hsplit : s.splitOn sep with
      | nil => exact absurd hsplit (splitOn_ne_nil sep s)
      | cons first rest =>
        rw [hsplit, modifyHead_cons] at h
        rcases mem_cons.1 h with rfl | h
        · obtain ⟨hfirst, hsub⟩ := @ih first (by simp [hsplit])
          refine ⟨fun hmem => ?_, cons_subset_cons c hsub⟩
          rcases mem_cons.1 hmem with rfl | hmem
          · simp at hc
          · exact hfirst hmem
        · obtain ⟨hpart, hsub⟩ := @ih part (by simp [hsplit, h])
          exact ⟨hpart, fun x hx => mem_cons_of_mem _ (hsub hx)⟩

/-- The characters of joined parts. -/
theorem mem_intercalate (htext : text.toList = [sep])
    (hc : c ∈ (String.intercalate text parts).toList) :
    c = sep ∨ ∃ part ∈ parts, c ∈ part.toList := by
  rw [String.toList_intercalate, htext] at hc
  induction parts with
  | nil => simp at hc
  | cons part parts ih =>
    cases parts with
    | nil => exact .inr ⟨part, by simp, by simpa using hc⟩
    | cons next parts =>
      rw [map_cons, map_cons, intercalate_cons_cons, append_assoc, mem_append, mem_append] at hc
      rcases hc with hc | hc | hc
      · exact .inr ⟨part, by simp, hc⟩
      · exact .inl (mem_singleton.1 hc)
      · rcases ih hc with h | ⟨p, hp, h⟩
        · exact .inl h
        · exact .inr ⟨p, by simp [mem_cons.1 hp], h⟩

end BurnDragon.Rust
