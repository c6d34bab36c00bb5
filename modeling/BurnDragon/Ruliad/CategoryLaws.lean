import BurnDragon.Arrows.Composition
import BurnDragon.Ruliad.Category

/-!
# Accepted tables are categories

What `valid_finite_category` and `valid_functor` establish when they return `true`. The loops read a
table entry by entry; `FiniteCategory` restates them without indices that may be out of range, and
`validFiniteCategory_eq_ok_true` says that they check exactly this. From there the table is a category
in the sense of `Arrows.IsCategory`, and the general results about paths apply to `compose_path`.
-/

namespace BurnDragon.Ruliad.Category

open Rust List

variable (objectCount : ℕ) (morphisms : List RuliadCategoryMorphism) (identities : List ℕ)
  (composition : List (List (Option ℕ)))

/-- What `valid_finite_category` checks. -/
structure FiniteCategory : Prop where
  objects : objectCount ≠ 0
  arrows : morphisms ≠ []
  identities_length : identities.length = objectCount
  composition_length : composition.length = morphisms.length
  row_length : ∀ row ∈ composition, row.length = morphisms.length
  morphism : ∀ (id : ℕ) (f : RuliadCategoryMorphism), morphisms[id]? = some f →
    validMorphism objectCount identities f id = true
  identity : ∀ object id : ℕ, identities[object]? = some id →
    validIdentity morphisms id object = true
  composite : ∀ (left right : ℕ) (f g : RuliadCategoryMorphism), morphisms[left]? = some f →
    morphisms[right]? = some g → validComposite morphisms composition (f, left) (g, right) = .ok true
  units : ∀ (id : ℕ) (f : RuliadCategoryMorphism), morphisms[id]? = some f →
    validUnits identities composition f id = .ok true
  assoc : ∀ (first second third : ℕ) (f g k : RuliadCategoryMorphism),
    morphisms[first]? = some f → morphisms[second]? = some g → morphisms[third]? = some k →
    associative composition (f, first) (g, second) (k, third) = true

variable {objectCount morphisms identities composition}

/-- The loops of `valid_finite_category` check exactly the fields of `FiniteCategory`. -/
theorem validFiniteCategory_eq_ok_true :
    validFiniteCategory objectCount morphisms identities composition = .ok true ↔
      FiniteCategory objectCount morphisms identities composition := by
  have hall : ∀ {α : Type} {xs : List α} {P : α × ℕ → Prop},
      (∀ arrow ∈ xs.zipIdx, P arrow) ↔ ∀ (id : ℕ) (x : α), xs[id]? = some x → P (x, id) := by
    intro α xs P
    simp only [Prod.forall, mem_zipIdx_iff_getElem?]
    exact forall_comm
  have hsizes : ¬ (objectCount = 0 ∨ morphisms = [] ∨ identities.length ≠ objectCount ∨
      composition.length ≠ morphisms.length ∨
      (composition.any fun row => row.length ≠ morphisms.length)) ↔ objectCount ≠ 0 ∧
      morphisms ≠ [] ∧ identities.length = objectCount ∧ composition.length = morphisms.length ∧
      ∀ row ∈ composition, row.length = morphisms.length := by simp
  have hite : ∀ {c : Prop} [Decidable c] {x : Run Bool},
      (if c then .ok false else x) = .ok true ↔ ¬ c ∧ x = .ok true := by
    intro c _ x
    by_cases hc : c <;> simp [hc]
  simp only [validFiniteCategory, hite, hsizes, not_not, all_eq_true, andThen_eq_ok_true,
    forAll_eq_ok_true, hall, Except.ok.injEq]
  constructor
  · rintro ⟨⟨h0, h1, h2, h3, h4⟩, h5, h6, h7, h8, h9⟩
    exact ⟨h0, h1, h2, h3, h4, h5, h6, fun left right f g hf hg => h7 left f hf right g hg, h8,
      fun first second third f g k hf hg hk => h9 first f hf second g hg third k hk⟩
  · rintro ⟨h0, h1, h2, h3, h4, h5, h6, h7, h8, h9⟩
    exact ⟨⟨h0, h1, h2, h3, h4⟩, h5, h6, fun left f hf right g hg => h7 left right f g hf hg, h8,
      fun first f hf second g hg third k hk => h9 first second third f g k hf hg hk⟩

/-! ## The table as a category -/

variable (morphisms identities composition) in
/-- The morphisms of a table, by their indices. -/
def tableArrows : Arrows ℕ ℕ where
  ends id := morphisms[id]?.map fun morphism => (morphism.source, morphism.target)
  comp := composePair composition
  unit object := identities[object]?

variable {id x y : ℕ}

theorem tableArrows_ends_eq_some :
    (tableArrows morphisms identities composition).ends id = some (x, y) ↔
      ∃ f, morphisms[id]? = some f ∧ f.source = x ∧ f.target = y := by
  simp [tableArrows, Option.map_eq_some_iff]

variable {left right : ℕ}

/-- Within the table the entries are present or absent as `composePair` reads them. -/
theorem index_composition {cell : Option ℕ}
    (h : (do index (← index composition left) right) = .ok cell) :
    composePair composition left right = cell := by
  obtain ⟨row, hrow, hcell⟩ := bind_eq_ok.1 h
  rw [composePair, index_eq_ok.1 hrow]
  simp [index_eq_ok.1 hcell]

theorem validComposite_eq_ok_true {f g : RuliadCategoryMorphism}
    (h : validComposite morphisms composition (f, left) (g, right) = .ok true) :
    (f.target = g.source → ∃ id k, composePair composition left right = some id ∧
      morphisms[id]? = some k ∧ k.source = f.source ∧ k.target = g.target) ∧
    (f.target ≠ g.source → composePair composition left right = none) := by
  simp only [validComposite, bind_eq_ok] at h
  obtain ⟨row, hrow, cell, hcell, h⟩ := h
  have hpair : composePair composition left right = cell :=
    index_composition (bind_eq_ok.2 ⟨row, hrow, hcell⟩)
  rw [hpair]
  constructor
  · intro heq
    rw [if_pos heq] at h
    cases cell with
    | none => simp [pure, Except.pure] at h
    | some id =>
      cases hk : morphisms[id]? with
      | none => simp [hk, pure, Except.pure] at h
      | some k =>
        simp only [Option.bind_some, hk, pure, Except.pure, Except.ok.injEq, Bool.and_eq_true,
          decide_eq_true_eq] at h
        exact ⟨id, k, rfl, hk, h⟩
  · intro hne
    rw [if_neg hne] at h
    simpa [pure, Except.pure] using h

theorem validUnits_eq_ok_true {f : RuliadCategoryMorphism} :
    validUnits identities composition f id = .ok true ↔ ∃ before after,
      identities[f.source]? = some before ∧ identities[f.target]? = some after ∧
      composePair composition before id = some id ∧ composePair composition id after = some id := by
  simp only [validUnits, bind_eq_ok, index_eq_ok]
  constructor
  · rintro ⟨before, hbefore, h⟩
    split_ifs at h with hne
    · simp [pure, Except.pure] at h
    · simp only [bind_eq_ok, index_eq_ok, pure, Except.pure, Except.ok.injEq,
        decide_eq_true_eq] at h
      obtain ⟨after, hafter, h⟩ := h
      exact ⟨before, after, hbefore, hafter, not_not.1 hne, h⟩
  · rintro ⟨before, after, hbefore, hafter, hleft, hright⟩
    refine ⟨before, hbefore, ?_⟩
    rw [if_neg (not_not.2 hleft), bind_eq_ok]
    exact ⟨after, index_eq_ok.2 hafter, by simp [hright, pure, Except.pure]⟩

theorem validIdentity_eq_true {object : ℕ} : validIdentity morphisms id object = true ↔
    ∃ f, morphisms[id]? = some f ∧ f.identity = true ∧ f.source = object ∧ f.target = object := by
  unfold validIdentity
  cases morphisms[id]? <;> simp [and_assoc]

/-- **An accepted table is a category.** -/
theorem FiniteCategory.isCategory (h : FiniteCategory objectCount morphisms identities composition) :
    (tableArrows morphisms identities composition).IsCategory where
  comp_ends := by
    intro left right x y z hleft hright
    obtain ⟨f, hf, rfl, rfl⟩ := tableArrows_ends_eq_some.1 hleft
    obtain ⟨g, hg, hy, rfl⟩ := tableArrows_ends_eq_some.1 hright
    obtain ⟨id, k, hid, hk, hsource, htarget⟩ :=
      (validComposite_eq_ok_true (h.composite left right f g hf hg)).1 hy.symm
    exact ⟨id, hid, tableArrows_ends_eq_some.2 ⟨k, hk, hsource, htarget⟩⟩
  comp_none := by
    intro left right x y y' z hleft hright hne
    obtain ⟨f, hf, rfl, rfl⟩ := tableArrows_ends_eq_some.1 hleft
    obtain ⟨g, hg, rfl, rfl⟩ := tableArrows_ends_eq_some.1 hright
    exact (validComposite_eq_ok_true (h.composite left right f g hf hg)).2 hne
  assoc := by
    intro first second third w x y z hfirst hsecond hthird
    obtain ⟨f, hf, -, rfl⟩ := tableArrows_ends_eq_some.1 hfirst
    obtain ⟨g, hg, hx, rfl⟩ := tableArrows_ends_eq_some.1 hsecond
    obtain ⟨k, hk, hy, -⟩ := tableArrows_ends_eq_some.1 hthird
    have hassoc := h.assoc first second third f g k hf hg hk
    rw [associative, if_neg (by simp [hx, hy])] at hassoc
    simp only [Bool.and_eq_true, decide_eq_true_eq] at hassoc
    exact hassoc.2
  unit_ends := by
    intro id x y hid
    obtain ⟨f, hf, rfl, rfl⟩ := tableArrows_ends_eq_some.1 hid
    obtain ⟨before, after, hbefore, hafter, hleft, hright⟩ :=
      validUnits_eq_ok_true.1 (h.units id f hf)
    obtain ⟨i, hi, -, hisource, hitarget⟩ :=
      validIdentity_eq_true.1 (h.identity f.source before hbefore)
    obtain ⟨j, hj, -, hjsource, hjtarget⟩ :=
      validIdentity_eq_true.1 (h.identity f.target after hafter)
    exact ⟨before, after, hbefore, hafter, tableArrows_ends_eq_some.2 ⟨i, hi, hisource, hitarget⟩,
      tableArrows_ends_eq_some.2 ⟨j, hj, hjsource, hjtarget⟩, hleft, hright⟩

/-! ## Paths -/

variable {path : List ℕ}

variable (identities) in
/-- On morphisms of the table the loop of `compose_path` composes in the table's category. -/
theorem composeFrom_eq (h : ∀ id ∈ path, id < morphisms.length) (current : ℕ) :
    composeFrom morphisms composition current path =
      path.foldlM (tableArrows morphisms identities composition).comp current := by
  induction path generalizing current with
  | nil => rfl
  | cons next rest ih =>
    obtain ⟨hnext, hrest⟩ := forall_mem_cons.1 h
    rw [composeFrom, if_neg (by omega), foldlM_cons]
    change _ = (composePair composition current next) >>= _
    cases composePair composition current next with
    | none => rfl
    | some composed => exact ih hrest composed

variable (identities) in
theorem composePath_eq (h : ∀ id ∈ path, id < morphisms.length) :
    composePath morphisms composition path =
      (tableArrows morphisms identities composition).composite path := by
  cases path with
  | nil => rfl
  | cons current rest =>
    obtain ⟨hcurrent, hrest⟩ := forall_mem_cons.1 h
    rw [composePath, if_neg (by omega), composeFrom_eq identities hrest]
    rfl

/-- A path leads through morphisms of the table. -/
theorem lt_of_isPath (h : (tableArrows morphisms identities composition).IsPath x path y) :
    ∀ id ∈ path, id < morphisms.length := by
  induction path generalizing x with
  | nil => simp
  | cons id path ih =>
    obtain ⟨y', hends, hpath⟩ := h
    obtain ⟨f, hf, -⟩ := tableArrows_ends_eq_some.1 hends
    exact List.forall_mem_cons.2 ⟨(List.getElem?_eq_some_iff.1 hf).1, ih hpath⟩

variable (morphisms) in
/-- Morphisms of the table, at least one, each starting where the one before it ends. -/
def Composable (path : List ℕ) : Prop :=
  path ≠ [] ∧ (∀ id ∈ path, id < morphisms.length) ∧ path.IsChain fun left right =>
    morphisms[left]?.map (·.target) = morphisms[right]?.map (·.source)

variable (identities composition) in
theorem composable_iff : Composable morphisms path ↔
    path ≠ [] ∧ ∃ x y, (tableArrows morphisms identities composition).IsPath x path y := by
  unfold Composable
  refine and_congr_right fun hne => ⟨?_, ?_⟩
  · rintro ⟨hlt, hchain⟩
    induction path with
    | nil => exact absurd rfl hne
    | cons id path ih =>
      obtain ⟨hid, hpath⟩ := forall_mem_cons.1 hlt
      have hends : (tableArrows morphisms identities composition).ends id =
          some (morphisms[id].source, morphisms[id].target) :=
        tableArrows_ends_eq_some.2 ⟨_, getElem?_eq_getElem hid, rfl, rfl⟩
      cases path with
      | nil => exact ⟨_, _, _, hends, rfl⟩
      | cons next path =>
        obtain ⟨hstep, hchain⟩ := isChain_cons_cons.1 hchain
        obtain ⟨x, y, z, hnext, hrest⟩ := ih (cons_ne_nil next path) hpath hchain
        obtain ⟨g, hg, rfl, rfl⟩ := tableArrows_ends_eq_some.1 hnext
        rw [getElem?_eq_getElem hid, hg] at hstep
        have heq : morphisms[id].target = g.source := by simpa using hstep
        exact ⟨_, y, _, hends, heq ▸ ⟨_, hnext, hrest⟩⟩
  · rintro ⟨x, y, hpath⟩
    refine ⟨lt_of_isPath hpath, ?_⟩
    induction path generalizing x with
    | nil => exact List.IsChain.nil
    | cons id path ih =>
      obtain ⟨z, hends, hpath⟩ := hpath
      cases path with
      | nil => exact List.IsChain.singleton id
      | cons next path =>
        refine isChain_cons_cons.2 ⟨?_, ih (cons_ne_nil next path) z hpath⟩
        obtain ⟨w, hnext, -⟩ := hpath
        obtain ⟨f, hf, -, rfl⟩ := tableArrows_ends_eq_some.1 hends
        obtain ⟨g, hg, hsource, -⟩ := tableArrows_ends_eq_some.1 hnext
        simp [hf, hg, hsource]

/-- After a morphism the loop of `compose_path` succeeds on the paths from its end. -/
theorem FiniteCategory.composeFrom_isSome_iff
    (h : FiniteCategory objectCount morphisms identities composition) {current : ℕ}
    (hends : (tableArrows morphisms identities composition).ends current = some (x, y)) :
    (composeFrom morphisms composition current path).isSome ↔
      ∃ z, (tableArrows morphisms identities composition).IsPath y path z := by
  have hcategory := h.isCategory
  constructor
  · intro hsome
    induction path generalizing current y with
    | nil => exact ⟨y, rfl⟩
    | cons next rest ih =>
      rw [composeFrom] at hsome
      split_ifs at hsome with hnext
      · simp at hsome
      have hnextEnds : (tableArrows morphisms identities composition).ends next =
          some (morphisms[next].source, morphisms[next].target) :=
        tableArrows_ends_eq_some.2 ⟨_, getElem?_eq_getElem (not_le.1 hnext), rfl, rfl⟩
      by_cases hy : y = morphisms[next].source
      · subst hy
        obtain ⟨composed, hcomposed, hcomposedEnds⟩ := hcategory.comp_ends hends hnextEnds
        rw [show composePair composition current next = some composed from hcomposed] at hsome
        obtain ⟨z, hz⟩ := ih hcomposedEnds hsome
        exact ⟨z, _, hnextEnds, hz⟩
      · have hnone : composePair composition current next = none :=
          hcategory.comp_none hends hnextEnds hy
        simp [hnone] at hsome
  · rintro ⟨z, hpath⟩
    obtain ⟨k, hk, -⟩ := hcategory.foldlM_ends hends hpath
    rw [composeFrom_eq identities (lt_of_isPath hpath), hk]
    rfl

/-- `compose_path` succeeds on the composable paths of an accepted table, and on no other list. -/
theorem FiniteCategory.composePath_isSome_iff
    (h : FiniteCategory objectCount morphisms identities composition) :
    (composePath morphisms composition path).isSome ↔ Composable morphisms path := by
  rw [composable_iff identities composition]
  cases path with
  | nil => simp [composePath]
  | cons current rest =>
    rw [composePath]
    split_ifs with hcurrent
    · simp only [Option.isSome_none, Bool.false_eq_true, false_iff, not_and, not_exists]
      intro _ x y hpath
      have := lt_of_isPath hpath current mem_cons_self
      omega
    · have hends : (tableArrows morphisms identities composition).ends current =
          some (morphisms[current].source, morphisms[current].target) :=
        tableArrows_ends_eq_some.2 ⟨_, getElem?_eq_getElem (not_le.1 hcurrent), rfl, rfl⟩
      rw [h.composeFrom_isSome_iff hends]
      constructor
      · rintro ⟨z, hpath⟩
        exact ⟨cons_ne_nil current rest, _, z, _, hends, hpath⟩
      · rintro ⟨-, x, z, y, hends', hpath⟩
        obtain ⟨rfl, rfl⟩ := Prod.mk.inj (Option.some.inj (hends.symm.trans hends'))
        exact ⟨z, hpath⟩

/-! ## Functors -/

/-- The entries of the table are the composites that `compose_pair` reads. -/
theorem mem_compositionEntries :
    (left, right, id) ∈ compositionEntries composition ↔
      composePair composition left right = some id := by
  simp only [compositionEntries, composePair, mem_flatMap, mem_filterMap, Prod.exists,
    mem_zipIdx_iff_getElem?, Option.map_eq_some_iff, Prod.mk.injEq]
  constructor
  · rintro ⟨row, left', hrow, cell, right', hcell, id', rfl, rfl, rfl, rfl⟩
    simp [hrow, hcell]
  · intro h
    obtain ⟨row, hrow, hcell⟩ := Option.bind_eq_some_iff.1 (Option.join_eq_some_iff.1 h)
    exact ⟨row, left, hrow, some id, right, hcell, id, rfl, rfl, rfl, rfl⟩

variable {functor : RuliadCategoryFunctor}

theorem validFunctor_eq_ok_true :
    validFunctor objectCount morphisms identities composition functor = .ok true ↔
      functorInRange objectCount morphisms identities functor ∧
      PreservesGraph morphisms identities functor ∧
      ∀ left right id, composePair composition left right = some id →
        PreservesEntry composition functor (left, right, id) := by
  unfold validFunctor
  by_cases hrange : functorInRange objectCount morphisms identities functor
  · rw [if_neg (not_not.2 hrange), andThen_eq_ok_true, preservesGraph_eq_ok_true, forAll_eq_ok_true]
    simp only [Prod.forall, mem_compositionEntries, preservesComposite_eq_ok_true, hrange, true_and]
  · simp [hrange]

/-- **An accepted functor is a functor.** -/
theorem isFunctor_of_validFunctor
    (h : validFunctor objectCount morphisms identities composition functor = .ok true) :
    (tableArrows morphisms identities composition).IsFunctor
      (tableArrows morphisms identities composition) (functor.objectMap[·]?)
      (functor.morphismMap[·]?) := by
  obtain ⟨-, hgraph, hentries⟩ := validFunctor_eq_ok_true.1 h
  constructor
  · intro id x y hid
    obtain ⟨f, hf, rfl, rfl⟩ := tableArrows_ends_eq_some.1 hid
    obtain ⟨image, mapped, himage, hmapped, hsource, htarget⟩ := hgraph.ends id f hf
    exact ⟨image, _, _, himage, hsource, htarget,
      tableArrows_ends_eq_some.2 ⟨mapped, hmapped, rfl, rfl⟩⟩
  · intro object identity hidentity
    obtain ⟨mappedObject, image, hobject, himage, hunit⟩ := hgraph.units object identity hidentity
    exact ⟨mappedObject, image, hobject, himage, hunit⟩
  · intro left right id left' right' hid hleft hright
    obtain ⟨leftImage, rightImage, image, hleftImage, hrightImage, himage, hcomp⟩ :=
      hentries left right id hid
    obtain rfl : leftImage = left' := Option.some.inj (hleftImage.symm.trans hleft)
    obtain rfl : rightImage = right' := Option.some.inj (hrightImage.symm.trans hright)
    exact ⟨image, himage, hcomp⟩

/-- The images of a path are morphisms of the table. -/
theorem images_lt (h : functorInRange objectCount morphisms identities functor) {images : List ℕ}
    (himages : path.mapM (functor.morphismMap[·]?) = some images) :
    ∀ image ∈ images, image < morphisms.length := by
  simp only [functorInRange, Bool.and_eq_true, all_eq_true, decide_eq_true_eq] at h
  have hmap : ∀ image ∈ functor.morphismMap, image < morphisms.length := h.1.2
  induction path generalizing images with
  | nil =>
    obtain rfl : [] = images := Option.some.inj himages
    simp
  | cons id path ih =>
    rw [mapM_cons] at himages
    obtain ⟨image, himage, himages⟩ := Option.bind_eq_some_iff.1 himages
    obtain ⟨rest, hrest, himages⟩ := Option.bind_eq_some_iff.1 himages
    obtain rfl : image :: rest = images := Option.some.inj himages
    exact forall_mem_cons.2 ⟨hmap image (mem_of_getElem? himage), ih hrest⟩

/-! ## The laws of an accepted table -/

/-- **Accepted tables are categories and accepted functors are functors.** Along composable paths of
any length the composite does not depend on the cut, and the functor commutes with it. -/
theorem accepted_tables_compose
    (h : validFiniteCategory objectCount morphisms identities composition = .ok true) :
    (tableArrows morphisms identities composition).IsCategory ∧
    (∀ path, (composePath morphisms composition path).isSome ↔ Composable morphisms path) ∧
    (∀ p q, p ≠ [] → q ≠ [] → Composable morphisms (p ++ q) → ∃ f g k,
      composePath morphisms composition p = some f ∧ composePath morphisms composition q = some g ∧
      composePair composition f g = some k ∧
      composePath morphisms composition (p ++ q) = some k) ∧
    ∀ functor, validFunctor objectCount morphisms identities composition functor = .ok true →
      (tableArrows morphisms identities composition).IsFunctor
        (tableArrows morphisms identities composition) (functor.objectMap[·]?)
        (functor.morphismMap[·]?) ∧
      ∀ path, Composable morphisms path → ∃ composed image images,
        composePath morphisms composition path = some composed ∧
        path.mapM (functor.morphismMap[·]?) = some images ∧
        functor.morphismMap[composed]? = some image ∧
        composePath morphisms composition images = some image := by
  have htable := validFiniteCategory_eq_ok_true.1 h
  have hcategory := htable.isCategory
  refine ⟨hcategory, fun path => htable.composePath_isSome_iff, fun p q hp hq hpath => ?_,
    fun functor hfunctor => ⟨isFunctor_of_validFunctor hfunctor, fun path hpath => ?_⟩⟩
  · obtain ⟨-, x, y, hends⟩ := (composable_iff identities composition).1 hpath
    obtain ⟨f, g, k, hf, hg, hk, hcut⟩ := hcategory.composite_append hp hq hends
    have hlt := lt_of_isPath hends
    refine ⟨f, g, k, ?_, ?_, hk, ?_⟩
    · rwa [composePath_eq identities fun id hid => hlt id (by simp [hid])]
    · rwa [composePath_eq identities fun id hid => hlt id (by simp [hid])]
    · rwa [composePath_eq identities hlt]
  · obtain ⟨hne, x, y, hends⟩ := (composable_iff identities composition).1 hpath
    obtain ⟨composed, image, images, hcomposed, himages, himage, hmapped⟩ :=
      (isFunctor_of_validFunctor hfunctor).composite_map hcategory hne hends
    refine ⟨composed, image, images, ?_, himages, himage, ?_⟩
    · rwa [composePath_eq identities (lt_of_isPath hends)]
    · rwa [composePath_eq identities (images_lt (validFunctor_eq_ok_true.1 hfunctor).1 himages)]

/-- Two objects, an arrow between them, and their identities. -/
def arrowMorphisms : List RuliadCategoryMorphism :=
  [⟨"a", 0, 0, true⟩, ⟨"f", 0, 1, false⟩, ⟨"b", 1, 1, true⟩]

def arrowComposition : List (List (Option ℕ)) :=
  [[some 0, some 1, none], [none, none, some 1], [none, none, some 2]]

theorem accepted_tables_compose_arrow : ∃ f g k,
    composePath arrowMorphisms arrowComposition [0, 1] = some f ∧
    composePath arrowMorphisms arrowComposition [2] = some g ∧
    composePair arrowComposition f g = some k ∧
    composePath arrowMorphisms arrowComposition ([0, 1] ++ [2]) = some k := by
  have h : validFiniteCategory 2 arrowMorphisms [0, 2] arrowComposition = .ok true := by
    decide +kernel
  obtain ⟨-, hsome, happend, -⟩ := accepted_tables_compose h
  exact happend [0, 1] [2] (List.cons_ne_nil _ _) (List.cons_ne_nil _ _) ((hsome _).1 rfl)

end BurnDragon.Ruliad.Category
