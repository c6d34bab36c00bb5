import BurnDragon.Equational.Algebra

/-!
# Rewriting at a position

A position is the list of argument indices on the way from the root of a term. `At R path` applies a
relation `R` at a position, and `Instance p r` is the root rewrite from an instance of `p` to the
same instance of `r`; it asks that the variables of `r` occur in `p`, so that matching `p` determines
the result. `At (Instance p r) path` is what a checker that matches, instantiates and replaces at a
given position computes.

* It is one step of `Rewrite` (`At.rewrite_of_instance`).
* It is deterministic (`At.unique`, `Instance.unique`) and stable under a renaming of the variables
  and the symbols (`At.map`, `Instance.map`).
* It keeps terms over a signature that its rule is over (`At.over_right`, `Instance.over_right`).
* It is local: away from the position the subterms stay, and above it the labels stay
  (`At.subtermAt_eq`, `At.label_eq`).
* It is reversible when `p` and `r` have the same variables (`At.converse`, `Instance.symm`).
-/

namespace BurnDragon.Equational

open List

variable {V A F : Type*}

namespace Term

/-- A term determines the substitution that it is an instance by, at the variables of the pattern. -/
theorem eq_of_subst_eq {W : Type*} {σ τ : V → Term W A F} {t : Term V A F}
    (h : t.subst σ = t.subst τ) : ∀ i ∈ t.vars, σ i = τ i := by
  induction t with
  | var i => simpa using h
  | atom a => simp
  | apply f args ih =>
    intro i hi
    obtain ⟨t, ht, hi⟩ := mem_vars_apply.1 hi
    simp only [subst_apply, apply.injEq, true_and] at h
    exact ih t ht (map_inj_left.1 h t ht) i hi

theorem subst_map {V' W A' F' W' : Type*} {v : V → V'} {w : W → W'} {a : A → A'} {f : F → F'}
    {σ : V → Term W A F} {τ : V' → Term W' A' F'} {t : Term V A F}
    (h : ∀ i ∈ t.vars, τ (v i) = (σ i).map w a f) :
    (t.map v a f).subst τ = (t.subst σ).map w a f := by
  induction t with
  | var i => simpa using h i (by simp)
  | atom s => rfl
  | apply g args ih =>
    simp only [map_apply, subst_apply, map_map, apply.injEq, true_and]
    exact map_congr_left fun t ht => ih t ht fun i hi => h i (mem_vars_apply.2 ⟨t, ht, hi⟩)

theorem mem_vars_map {V' A' F' : Type*} {v : V → V'} {a : A → A'} {f : F → F'} {t : Term V A F}
    {j : V'} : j ∈ (t.map v a f).vars ↔ ∃ i ∈ t.vars, v i = j := by
  induction t with
  | var i => simp [eq_comm]
  | atom s => simp
  | apply g args ih =>
    simp only [map_apply, mem_vars_apply, mem_map, exists_exists_and_eq_and]
    constructor
    · rintro ⟨t, ht, hj⟩
      obtain ⟨i, hi, rfl⟩ := (ih t ht).1 hj
      exact ⟨i, ⟨t, ht, hi⟩, rfl⟩
    · rintro ⟨i, ⟨t, ht, hi⟩, rfl⟩
      exact ⟨t, ht, (ih t ht).2 ⟨i, hi, rfl⟩⟩

end Term

/-! ## Instances of a rule -/

/-- `s` and `t` are the same instance of `p` and of `r`. -/
def Instance (p r s t : Term V A F) : Prop :=
  ∃ σ : V → Term V A F, p.subst σ = s ∧ r.subst σ = t ∧ ∀ i ∈ r.vars, i ∈ p.vars

namespace Instance

variable {p r s t u : Term V A F}

/-- A rule whose sides have the same variables can be used backwards. -/
theorem symm (hvars : ∀ i ∈ p.vars, i ∈ r.vars) (h : Instance p r s t) : Instance r p t s := by
  obtain ⟨σ, hs, ht, -⟩ := h
  exact ⟨σ, ht, hs, hvars⟩

theorem unique (h : Instance p r s t) (h' : Instance p r s u) : t = u := by
  obtain ⟨σ, rfl, rfl, hr⟩ := h
  obtain ⟨τ, hs, rfl, -⟩ := h'
  exact Term.subst_congr fun i hi => (Term.eq_of_subst_eq hs i (hr i hi)).symm

/-- Two ground terms are instances of themselves. -/
theorem of_vars_eq_nil (hs : s.vars = []) (ht : t.vars = []) : Instance s t s t := by
  have hground : ∀ {u : Term V A F}, u.vars = [] → u.subst Term.var = u := by
    intro u hu
    clear hs ht
    induction u with
    | var i => rfl
    | atom a => rfl
    | apply f args ih =>
      simp only [Term.subst_apply, Term.apply.injEq, true_and]
      refine (map_congr_left fun t htm => ?_).trans (map_id args)
      refine ih t htm (eq_nil_iff_forall_not_mem.2 fun i hi => ?_)
      have : i ∈ (Term.apply f args).vars := Term.mem_vars_apply.2 ⟨t, htm, hi⟩
      simp [hu] at this
  exact ⟨Term.var, hground hs, hground ht, by simp [ht]⟩

/-- Renaming the variables injectively and the symbols in any way keeps an instance. -/
theorem map {V' A' F' : Type*} {v : V → V'} {a : A → A'} {f : F → F'} (w : V → V')
    (hv : ∀ i ∈ p.vars, ∀ j ∈ p.vars, v i = v j → i = j) (h : Instance p r s t) :
    Instance (p.map v a f) (r.map v a f) (s.map w a f) (t.map w a f) := by
  classical
  obtain ⟨σ, rfl, rfl, hr⟩ := h
  let τ : V' → Term V' A' F' := fun j =>
    if hj : ∃ i ∈ p.vars, v i = j then (σ hj.choose).map w a f else .var j
  have hτ : ∀ i ∈ p.vars, τ (v i) = (σ i).map w a f := by
    intro i hi
    have hex : ∃ k ∈ p.vars, v k = v i := ⟨i, hi, rfl⟩
    simp only [τ, dif_pos hex]
    rw [hv _ hex.choose_spec.1 i hi hex.choose_spec.2]
  refine ⟨τ, Term.subst_map hτ, Term.subst_map fun i hi => hτ i (hr i hi), fun j hj => ?_⟩
  obtain ⟨i, hi, rfl⟩ := Term.mem_vars_map.1 hj
  exact Term.mem_vars_map.2 ⟨i, hr i hi, rfl⟩

theorem over_right {Q : Term.Signature A F} (hr : Term.Over Q r) (hs : Term.Over Q s)
    (h : Instance p r s t) : Term.Over Q t := by
  obtain ⟨σ, rfl, rfl, hvars⟩ := h
  exact hr.subst fun i hi => hs.of_subst i (hvars i hi)

end Instance

/-! ## Positions -/

namespace Term

/-- The subterm at a position, if there is one. -/
def subtermAt : Term V A F → List ℕ → Option (Term V A F)
  | t, [] => some t
  | .apply _ args, i :: path =>
    match args[i]? with
    | some arg => subtermAt arg path
    | none => none
  | .var _, _ :: _ => none
  | .atom _, _ :: _ => none

/-- The symbol at the root of a term, with the number of its arguments. -/
def label : Term V A F → V ⊕ A ⊕ F × ℕ
  | .var i => .inl i
  | .atom a => .inr (.inl a)
  | .apply f args => .inr (.inr (f, args.length))

@[simp] theorem subtermAt_nil (t : Term V A F) : t.subtermAt [] = some t := by
  cases t using Term.ind <;> rfl

@[simp] theorem subtermAt_apply_cons (f : F) (args : List (Term V A F)) (i : ℕ) (path : List ℕ) :
    (Term.apply f args).subtermAt (i :: path) = args[i]?.bind fun arg => arg.subtermAt path := by
  rw [subtermAt]
  cases args[i]? <;> rfl

end Term

/-- `R` applied to the subterm at a position. -/
inductive At (R : Term V A F → Term V A F → Prop) : List ℕ → Term V A F → Term V A F → Prop
  | root {s t : Term V A F} (h : R s t) : At R [] s t
  | arg {f : F} {args : List (Term V A F)} {i : ℕ} {path : List ℕ} {s t : Term V A F}
    (hs : args[i]? = some s) (h : At R path s t) :
    At R (i :: path) (.apply f args) (.apply f (args.set i t))

namespace At

variable {R : Term V A F → Term V A F → Prop} {path : List ℕ} {s t u : Term V A F}

/-- `R` in the first of two arguments. -/
theorem fst {f : F} (h : At R path s t) :
    At R (0 :: path) (.apply f [s, u]) (.apply f [t, u]) :=
  @arg _ _ _ R f [s, u] 0 path s t rfl h

/-- `R` in the second of two arguments. -/
theorem snd {f : F} (h : At R path s t) :
    At R (1 :: path) (.apply f [u, s]) (.apply f [u, t]) :=
  @arg _ _ _ R f [u, s] 1 path s t rfl h

theorem nil_iff : At R [] s t ↔ R s t :=
  ⟨fun h => by cases h with | root h => exact h, .root⟩

theorem map {V' A' F' : Type*} {R' : Term V' A' F' → Term V' A' F' → Prop} {v : V → V'} {a : A → A'}
    {f : F → F'} (h : At R path s t) (hR : ∀ s t, R s t → R' (s.map v a f) (t.map v a f)) :
    At R' path (s.map v a f) (t.map v a f) := by
  induction h with
  | root h => exact .root (hR _ _ h)
  | arg hs _ ih =>
    simp only [Term.map_apply, map_set]
    exact .arg (by rw [getElem?_map, hs, Option.map_some]) ih

/-- The subterms at the position are related. -/
theorem exists_subtermAt (h : At R path s t) :
    ∃ u v, s.subtermAt path = some u ∧ t.subtermAt path = some v ∧ R u v := by
  induction h with
  | root h => exact ⟨_, _, Term.subtermAt_nil _, Term.subtermAt_nil _, h⟩
  | arg hs _ ih =>
    obtain ⟨u, v, hu, hv, huv⟩ := ih
    have hlen := (List.getElem?_eq_some_iff.1 hs).1
    exact ⟨u, v, by simp [hs, hu], by simp [hlen, hv], huv⟩

/-- At positions that are not at or below the position, the labels stay. -/
theorem label_eq (h : At R path s t) {q : List ℕ} (hq : ¬ path <+: q) :
    (t.subtermAt q).map Term.label = (s.subtermAt q).map Term.label := by
  induction h generalizing q with
  | root h => simp at hq
  | arg hs _ ih =>
    rename_i f args i path s t _
    cases q with
    | nil => simp [Term.label]
    | cons j q =>
      simp only [cons_prefix_cons, not_and] at hq
      by_cases hij : i = j
      · subst hij
        obtain ⟨hlen, hget⟩ := List.getElem?_eq_some_iff.1 hs
        simpa [hlen, hget] using ih (hq rfl)
      · simp [getElem?_set_ne hij]

/-- At positions that are neither above, at nor below the position, the subterms stay. -/
theorem subtermAt_eq (h : At R path s t) {q : List ℕ} (hq : ¬ path <+: q) (hq' : ¬ q <+: path) :
    t.subtermAt q = s.subtermAt q := by
  induction h generalizing q with
  | root h => simp at hq
  | arg hs _ ih =>
    rename_i f args i path s t _
    cases q with
    | nil => simp at hq'
    | cons j q =>
      simp only [cons_prefix_cons, not_and] at hq hq'
      by_cases hij : i = j
      · subst hij
        obtain ⟨hlen, hget⟩ := List.getElem?_eq_some_iff.1 hs
        simpa [hlen, hget] using ih (hq rfl) (hq' rfl)
      · simp [getElem?_set_ne hij]

/-- The converse of a relation at the position takes the result back. -/
theorem converse {R' : Term V A F → Term V A F → Prop} (h : At R path s t)
    (hR : ∀ s t, R s t → R' t s) : At R' path t s := by
  induction h with
  | root h => exact .root (hR _ _ h)
  | arg hs _ ih =>
    rename_i f args i path s t _
    obtain ⟨hlen, hget⟩ := List.getElem?_eq_some_iff.1 hs
    have hback : (args.set i t).set i s = args := by
      rw [set_set, ← hget, set_getElem_self]
    have harg : At R' (i :: path) (.apply f (args.set i t)) (.apply f ((args.set i t).set i s)) :=
      .arg (by simp [hlen]) ih
    rwa [hback] at harg

/-- Rewriting with an equation of `E` at a position is a rewrite step. -/
theorem rewrite_of_instance {E : Set (Equation V A F)} {p r : Term V A F}
    (hE : ⟨p, r⟩ ∈ E ∨ ⟨r, p⟩ ∈ E) (h : At (Instance p r) path s t) : Rewrite E s t := by
  induction h with
  | root h =>
    obtain ⟨σ, rfl, rfl, -⟩ := h
    rcases hE with hE | hE
    · exact .forward hE σ
    · exact .reverse hE σ
  | arg hs _ ih => exact .arg hs ih

/-- What keeps a term over a signature keeps it so at a position. -/
theorem over_right {Q : Term.Signature A F} (h : At R path s t) (hs : Term.Over Q s)
    (hR : ∀ s t, Term.Over Q s → R s t → Term.Over Q t) : Term.Over Q t := by
  induction h with
  | root h => exact hR _ _ hs h
  | arg hget _ ih =>
    rw [Term.Over.apply_iff] at hs
    refine .apply (by simpa using hs.1) fun w hw => ?_
    rcases mem_or_eq_of_mem_set hw with hw | rfl
    · exact hs.2 w hw
    · exact ih (hs.2 _ (mem_of_getElem? hget))

end At

end BurnDragon.Equational
