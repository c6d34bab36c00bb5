import Mathlib

/-!
# Decision points of a set of words

Two words part after a prefix when both go on from it with different letters. To tell the words of
a part `vs` from the others of `ws` it is enough to look at the prefixes of words of `vs` after
which words of `ws` part (`mem_iff_follows`), unless a word ends where another one goes on
(`EndsInside`).
-/

namespace BurnDragon.Words

open List

variable {α : Type*}

/-- A word of the set goes on with the letter after the prefix. -/
def Continues (ws : Set (List α)) (p : List α) (a : α) : Prop := ∃ w ∈ ws, p ++ [a] <+: w

/-- Words of the set go on with different letters after the prefix. -/
def PartsAfter (ws : Set (List α)) (p : List α) : Prop :=
  ∃ a b, a ≠ b ∧ Continues ws p a ∧ Continues ws p b

/-- Words of `ws` part after a proper prefix of a word of `vs`. -/
def IsDecision (ws vs : Set (List α)) (p : List α) : Prop :=
  (∃ v ∈ vs, p <+: v ∧ p ≠ v) ∧ PartsAfter ws p

/-- Below the prefix, a word of `ws` that a word of `vs` starts with is a proper prefix of another.
-/
def EndsInside (ws vs : Set (List α)) (p : List α) : Prop :=
  ∃ c ∈ ws, p <+: c ∧ (∃ d ∈ ws, c <+: d ∧ c ≠ d) ∧ ∃ v ∈ vs, c <+: v

/-! ## One letter further -/

/-- A proper extension starts with one more letter. -/
theorem exists_next_letter {p w : List α} (h : p <+: w) (hne : p ≠ w) :
    ∃ a, p ++ [a] <+: w := by
  obtain ⟨rest, rfl⟩ := h
  cases rest with
  | nil => exact absurd (append_nil p).symm hne
  | cons a rest => exact ⟨a, rest, by simp⟩

theorem prefix_of_append_singleton {p w : List α} {a : α} (h : p ++ [a] <+: w) :
    p <+: w ∧ p ≠ w := by
  refine ⟨(prefix_append p [a]).trans h, ?_⟩
  rintro rfl
  have hlength := h.length_le
  simp only [length_append, length_singleton] at hlength
  omega

theorem append_singleton_prefix_iff {p w : List α} {a : α} :
    p ++ [a] <+: w ↔ p <+: w ∧ w[p.length]? = some a := by
  constructor
  · rintro ⟨rest, rfl⟩
    exact ⟨⟨a :: rest, by simp⟩, by simp⟩
  · rintro ⟨⟨rest, rfl⟩, h⟩
    cases rest with
    | nil => simp at h
    | cons b rest =>
      obtain rfl : b = a := by simpa using h
      exact ⟨rest, by simp⟩

/-- The letter after a common prefix is determined. -/
theorem next_letter_unique {p w : List α} {a b : α} (ha : p ++ [a] <+: w)
    (hb : p ++ [b] <+: w) : a = b :=
  Option.some.inj
    ((append_singleton_prefix_iff.1 ha).2.symm.trans (append_singleton_prefix_iff.1 hb).2)

variable {ws vs : Set (List α)} {p : List α}

/-- No word of `ws` is the prefix itself: what ends inside below it does so one letter further. -/
theorem endsInside_iff_of_notMem (hp : p ∉ ws) :
    EndsInside ws vs p ↔ ∃ a, Continues ws p a ∧ EndsInside ws vs (p ++ [a]) := by
  constructor
  · rintro ⟨c, hc, hpc, h⟩
    obtain ⟨a, ha⟩ := exists_next_letter hpc fun heq => hp (heq ▸ hc)
    exact ⟨a, ⟨c, hc, ha⟩, c, hc, ha, h⟩
  · rintro ⟨a, -, c, hc, hpc, h⟩
    exact ⟨c, hc, (prefix_of_append_singleton hpc).1, h⟩

/-- The decisions below a prefix are the prefix itself and those one letter further. -/
theorem prefix_and_isDecision_iff (hvs : vs ⊆ ws) {q : List α} :
    p <+: q ∧ IsDecision ws vs q ↔
      q = p ∧ IsDecision ws vs p ∨ ∃ a, Continues ws p a ∧ p ++ [a] <+: q ∧ IsDecision ws vs q := by
  constructor
  · rintro ⟨hpq, hq⟩
    by_cases hne : p = q
    · exact .inl ⟨hne.symm, hne ▸ hq⟩
    · obtain ⟨a, ha⟩ := exists_next_letter hpq hne
      obtain ⟨v, hv, hqv, -⟩ := hq.1
      exact .inr ⟨a, ⟨v, hvs hv, ha.trans hqv⟩, ha, hq⟩
  · rintro (⟨rfl, h⟩ | ⟨a, -, ha, hq⟩)
    · exact ⟨prefix_rfl, h⟩
    · exact ⟨(prefix_of_append_singleton ha).1, hq⟩

/-! ## Telling words apart -/

/-- **The decisions determine the words of the part.** -/
theorem mem_iff_follows (hvs : vs ⊆ ws) (hne : vs.Nonempty) (hends : ¬ EndsInside ws vs [])
    {c : List α} (hc : c ∈ ws) :
    c ∈ vs ↔ ∀ p a, IsDecision ws vs p → p ++ [a] <+: c → Continues vs p a := by
  refine ⟨fun hmem p a _ ha => ⟨c, hmem, ha⟩, fun hfollows => ?_⟩
  have hinside : ∀ {w d : List α}, w ∈ ws → d ∈ ws → w <+: d → (∃ v ∈ vs, w <+: v) → w = d := by
    intro w d hw hd hwd hv
    by_contra h
    exact hends ⟨w, hw, nil_prefix, ⟨d, hd, hwd, h⟩, hv⟩
  -- every prefix of the word is a prefix of a word of the part
  have hprefix : ∀ p, p <+: c → ∃ v ∈ vs, p <+: v := by
    intro p
    induction p using List.reverseRecOn with
    | nil => exact fun _ => ⟨hne.some, hne.some_mem, nil_prefix⟩
    | append_singleton p a ih =>
      intro hpa
      obtain ⟨hpc, hpne⟩ := prefix_of_append_singleton hpa
      obtain ⟨v, hv, hpv⟩ := ih hpc
      have hpvne : p ≠ v := by
        rintro rfl
        exact hpne (hinside (hvs hv) hc hpc ⟨p, hv, prefix_rfl⟩)
      obtain ⟨b, hb⟩ := exists_next_letter hpv hpvne
      by_cases hab : a = b
      · exact ⟨v, hv, hab ▸ hb⟩
      · exact hfollows p a ⟨⟨v, hv, hpv, hpvne⟩, a, b, hab, ⟨c, hc, hpa⟩, ⟨v, hvs hv, hb⟩⟩ hpa
  obtain ⟨v, hv, hcv⟩ := hprefix c prefix_rfl
  exact hinside hc (hvs hv) hcv ⟨v, hv, hcv⟩ ▸ hv

/-- Words that never part and do not end inside one another are all equal. -/
theorem eq_of_forall_not_isDecision (hvs : vs ⊆ ws) (hne : vs.Nonempty)
    (hends : ¬ EndsInside ws vs []) (hdecision : ∀ p, ¬ IsDecision ws vs p) {c d : List α}
    (hc : c ∈ ws) (hd : d ∈ ws) : c = d := by
  have hall : ∀ w ∈ ws, ∀ v ∈ vs, w = v := by
    intro w hw v hv
    have hsingle : ({v} : Set (List α)) ⊆ ws := Set.singleton_subset_iff.2 (hvs hv)
    have hsub : ∀ x ∈ ({v} : Set (List α)), x ∈ vs := fun x hx => hx ▸ hv
    refine (mem_iff_follows hsingle (Set.singleton_nonempty v) ?_ hw).2 fun p a h _ => ?_
    · rintro ⟨x, hx, hpx, hlong, y, hy, hxy⟩
      exact hends ⟨x, hx, hpx, hlong, y, hsub y hy, hxy⟩
    · obtain ⟨⟨y, hy, hpy⟩, hparts⟩ := h
      exact absurd ⟨⟨y, hsub y hy, hpy⟩, hparts⟩ (hdecision p)
  exact (hall c hc _ hne.some_mem).trans (hall d hd _ hne.some_mem).symm

end BurnDragon.Words
