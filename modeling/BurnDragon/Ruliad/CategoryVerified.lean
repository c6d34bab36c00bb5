import BurnDragon.Ruliad.CategoryGeneration
import BurnDragon.Ruliad.CategoryLaws
import BurnDragon.Ruliad.Oracles

/-!
# Generated categories verify

The verifier accepts what the generator of `category.rs` builds. In a thin category a morphism is known
by its ends, so every equation of the verifier is one between ends.

* `Thin.finiteCategory` and `Thin.validFunctor` are the loops of the verifier.
* `VerifiedFields` says what a task adds: two equal sides, a functor, a naturality square.
* `generated_category_verifies` puts the tasks together.
-/

namespace BurnDragon.Ruliad.Category

open Rust List

/-! ## The verifier accepts the tables -/

/-- The name of a generated morphism is a word. -/
theorem thinArrow_name (s t : ℕ) : (thinArrow s t).name.toList ≠ [] ∧
    ∀ c ∈ (thinArrow s t).name.toList, isWhitespace c = false := by
  have hname : (thinArrow s t).name.toList =
      'm' :: ((decimal s).toList ++ '_' :: (decimal t).toList) := by
    simp [thinArrow]
  have hdigit : ∀ (n : ℕ) (c : Char), c ∈ (decimal n).toList → isWhitespace c = false :=
    fun n c hc => isWhitespace_of_isDigit (isDigit_of_mem_decimal hc)
  rw [hname]
  refine ⟨cons_ne_nil _ _, forall_mem_cons.2 ⟨by decide, fun c hc => ?_⟩⟩
  rcases mem_append.1 hc with hc | hc
  · exact hdigit s c hc
  · rcases mem_cons.1 hc with rfl | hc
    · decide
    · exact hdigit t c hc

variable {n : ℕ} {category : GeneratedThinCategory}

namespace Thin

variable {id left right : ℕ} {f g : RuliadCategoryMorphism} (h : Thin n category)

include h

/-- A morphism is the one between its ends. -/
theorem eq_of_ends (hf : category.morphisms[left]? = some f)
    (hg : category.morphisms[right]? = some g) (hsource : f.source = g.source)
    (htarget : f.target = g.target) : left = right := by
  refine h.unique left right f hf (hg.trans ?_)
  rw [(h.arrow _ _ hf).1, (h.arrow _ _ hg).1, hsource, htarget]

/-- The composite of two morphisms is the morphism between their outer ends. -/
theorem composePair_eq {k : RuliadCategoryMorphism} (hf : category.morphisms[left]? = some f)
    (hg : category.morphisms[right]? = some g) (hk : category.morphisms[id]? = some k)
    (hmid : f.target = g.source) (hsource : k.source = f.source) (htarget : k.target = g.target) :
    composePair category.composition left right = some id := by
  obtain ⟨id', hid', harrow⟩ := (h.composite left right f g hf hg).1 hmid
  rw [hid', h.eq_of_ends harrow hk hsource.symm htarget.symm]

/-- Two objects in order have a morphism. -/
theorem exists_arrow {s t : ℕ} (hst : s ≤ t) (ht : t < n) :
    ∃ id : ℕ, category.morphisms[id]? = some (thinArrow s t) := by
  obtain ⟨id, -, hid⟩ := h.find s t hst ht
  exact ⟨id, hid⟩

theorem exists_identity {object : ℕ} (hobject : object < n) : ∃ id : ℕ,
    category.identities[object]? = some id ∧
    category.morphisms[id]? = some (thinArrow object object) := by
  have hlt : object < category.identities.length := h.identities_length.symm ▸ hobject
  exact ⟨_, getElem?_eq_getElem hlt, h.identity object _ (getElem?_eq_getElem hlt)⟩

theorem validMorphism (hf : category.morphisms[id]? = some f) :
    validMorphism n category.identities f id = true := by
  obtain ⟨heq, hle, hlt⟩ := h.arrow id f hf
  obtain ⟨hne, hwhite⟩ := thinArrow_name f.source f.target
  rw [← heq] at hne hwhite
  have hidentity : f.identity = true → f.source = f.target ∧
      category.identities[f.source]? = some id := by
    intro hid
    have hends : f.source = f.target := by
      rw [heq] at hid
      simpa [thinArrow] using hid
    obtain ⟨id', hid', harrow⟩ := h.exists_identity (show f.source < n by omega)
    refine ⟨hends, ?_⟩
    rw [hid', h.eq_of_ends harrow hf rfl hends]
  simp only [Category.validMorphism, trim_eq_self hwhite, Bool.and_eq_true, Bool.not_eq_true',
    Bool.or_eq_false_iff, decide_eq_false_iff_not, not_le, isEmpty_eq_false_iff,
    any_eq_false, Bool.and_eq_false_imp, ne_eq, not_not]
  exact ⟨⟨⟨⟨by omega, hlt⟩, hne⟩, fun c hc => by simp [hwhite c hc]⟩, hidentity⟩

theorem validComposite (hf : category.morphisms[left]? = some f)
    (hg : category.morphisms[right]? = some g) :
    validComposite category.morphisms category.composition (f, left) (g, right) = .ok true := by
  have hleft : left < category.composition.length := by
    rw [h.composition_length]
    exact (List.getElem?_eq_some_iff.1 hf).1
  have hright : right < category.composition[left].length := by
    rw [h.row_length _ (getElem_mem hleft)]
    exact (List.getElem?_eq_some_iff.1 hg).1
  have hcell : category.composition[left][right] =
      composePair category.composition left right := by
    simp [composePair, hleft, hright]
  obtain ⟨hsome, hnone⟩ := h.composite left right f g hf hg
  simp only [Category.validComposite, index_of_lt hleft, index_of_lt hright, bind, Except.bind,
    hcell]
  split_ifs with hmid
  · obtain ⟨id, hid, harrow⟩ := hsome hmid
    simp [hid, harrow, thinArrow, pure, Except.pure]
  · simp [hnone hmid, pure, Except.pure]

theorem associative {first second third : ℕ} {k : RuliadCategoryMorphism}
    (hf : category.morphisms[first]? = some f) (hg : category.morphisms[second]? = some g)
    (hk : category.morphisms[third]? = some k) :
    associative category.composition (f, first) (g, second) (k, third) = true := by
  unfold Category.associative
  split_ifs with hends
  · rfl
  obtain ⟨hfg, hgk⟩ : f.target = g.source ∧ g.target = k.source := by simpa using hends
  obtain ⟨fg, hfg', hfgArrow⟩ := (h.composite first second f g hf hg).1 hfg
  obtain ⟨gk, hgk', hgkArrow⟩ := (h.composite second third g k hg hk).1 hgk
  obtain ⟨id, hid, hidArrow⟩ := (h.composite fg third _ k hfgArrow hk).1 hgk
  have hright := h.composePair_eq hf hgkArrow hidArrow hfg rfl rfl
  simp [hfg', hgk', hid, hright]

/-- **The verifier accepts a thin category.** -/
theorem finiteCategory (hn : 1 ≤ n) :
    FiniteCategory n category.morphisms category.identities category.composition where
  objects := by omega
  arrows := by
    intro hnil
    obtain ⟨id, hid⟩ := h.exists_arrow (le_refl 0) (show 0 < n by omega)
    simp [hnil] at hid
  identities_length := h.identities_length
  composition_length := h.composition_length
  row_length := h.row_length
  morphism := fun id f hf => h.validMorphism hf
  identity := fun object id hid => validIdentity_eq_true.2
    ⟨_, h.identity object id hid, by simp [thinArrow], rfl, rfl⟩
  composite := fun left right f g hf hg => h.validComposite hf hg
  units := by
    intro id f hf
    obtain ⟨-, hle, hlt⟩ := h.arrow id f hf
    obtain ⟨before, hbefore, hbeforeArrow⟩ := h.exists_identity (show f.source < n by omega)
    obtain ⟨after, hafter, hafterArrow⟩ := h.exists_identity hlt
    exact validUnits_eq_ok_true.2 ⟨before, after, hbefore, hafter,
      h.composePair_eq hbeforeArrow hf hf rfl rfl rfl, h.composePair_eq hf hafterArrow hf rfl rfl rfl⟩
  assoc := fun first second third f g k hf hg hk => h.associative hf hg hk

/-- An entry of the composition table is the composite of two morphisms. -/
theorem of_composePair (hid : composePair category.composition left right = some id) :
    ∃ f g, category.morphisms[left]? = some f ∧ category.morphisms[right]? = some g ∧
      f.target = g.source ∧ category.morphisms[id]? = some (thinArrow f.source g.target) := by
  obtain ⟨row, hrow, hcell⟩ := Option.bind_eq_some_iff.1 (Option.join_eq_some_iff.1 hid)
  have hleft : left < category.morphisms.length := by
    rw [← h.composition_length]
    exact (List.getElem?_eq_some_iff.1 hrow).1
  have hright : right < category.morphisms.length := by
    rw [← h.row_length row (mem_of_getElem? hrow)]
    exact (List.getElem?_eq_some_iff.1 hcell).1
  have hf := getElem?_eq_getElem hleft
  have hg := getElem?_eq_getElem hright
  obtain ⟨hsome, hnone⟩ := h.composite left right _ _ hf hg
  by_cases hmid : category.morphisms[left].target = category.morphisms[right].source
  · obtain ⟨id', hid', harrow⟩ := hsome hmid
    obtain rfl : id' = id := Option.some.inj (hid'.symm.trans hid)
    exact ⟨_, _, hf, hg, hmid, harrow⟩
  · rw [hnone hmid] at hid
    simp at hid

end Thin

/-! ## The functor -/

/-- The image of an object under a shift. -/
def shifted (n shift object : ℕ) : ℕ := min (saturatingAdd object shift) (n - 1)

variable {shift : ℕ}

theorem shifted_le_shifted {s t : ℕ} (hst : s ≤ t) : shifted n shift s ≤ shifted n shift t := by
  unfold shifted saturatingAdd
  omega

variable {object : ℕ}

theorem shifted_lt (hn : 1 ≤ n) : shifted n shift object < n := by
  unfold shifted
  omega

theorem le_shifted (hn : n ≤ usizeMax) (hobject : object < n) :
    object ≤ shifted n shift object := by
  unfold shifted saturatingAdd
  omega

/-- The functor takes every morphism to the one between the shifted ends. -/
structure Shifts (n shift : ℕ) (category : GeneratedThinCategory)
    (functor : RuliadCategoryFunctor) : Prop where
  object : functor.objectMap = (List.range n).map (shifted n shift)
  length : functor.morphismMap.length = category.morphisms.length
  arrow : ∀ (id : ℕ) (f : RuliadCategoryMorphism), category.morphisms[id]? = some f →
    ∃ image, functor.morphismMap[id]? = some image ∧
      category.morphisms[image]? = some (thinArrow (shifted n shift f.source)
        (shifted n shift f.target))

theorem Shifts.objectMap_getElem? {functor : RuliadCategoryFunctor}
    (h : Shifts n shift category functor) (hobject : object < n) :
    functor.objectMap[object]? = some (shifted n shift object) := by
  simp [h.object, getElem?_range hobject]

namespace Thin

variable (h : Thin n category)

include h

theorem shiftFunctor_returns (hn : 1 ≤ n) :
    ∃ functor, shiftFunctor category shift = .ok functor ∧ Shifts n shift category functor := by
  let objectMap := (List.range n).map (shifted n shift)
  have himage : ∀ (id : ℕ) (f : RuliadCategoryMorphism), category.morphisms[id]? = some f →
      ∃ image, arrowImage category objectMap f = .ok image ∧ category.morphisms[image]? =
        some (thinArrow (shifted n shift f.source) (shifted n shift f.target)) := by
    intro id f hf
    obtain ⟨-, hle, hlt⟩ := h.arrow id f hf
    have hindex : ∀ object < n, index objectMap object = .ok (shifted n shift object) := by
      intro object hobject
      exact index_eq_ok.2 (by simp [objectMap, getElem?_range hobject])
    obtain ⟨image, himage, harrow⟩ := h.find _ _ (shifted_le_shifted (n := n) hle) (shifted_lt hn)
    exact ⟨image, bind_eq_ok.2 ⟨_, hindex _ (by omega), bind_eq_ok.2 ⟨_, hindex _ hlt, himage⟩⟩,
      harrow⟩
  obtain ⟨morphismMap, hmap⟩ : ∃ morphismMap,
      category.morphisms.mapM (arrowImage category objectMap) = .ok morphismMap := by
    refine mapM_returns fun f hf => ?_
    obtain ⟨id, hid⟩ := mem_iff_getElem?.1 hf
    obtain ⟨image, hreturn, -⟩ := himage id f hid
    exact ⟨image, hreturn⟩
  refine ⟨⟨"shift_" ++ decimal shift, objectMap, morphismMap⟩, ?_, rfl, length_of_mapM hmap, ?_⟩
  · unfold shiftFunctor
    rw [h.identities_length]
    exact bind_eq_ok.2 ⟨morphismMap, hmap, rfl⟩
  · intro id f hf
    have hid : id < morphismMap.length := by
      rw [length_of_mapM hmap]
      exact (List.getElem?_eq_some_iff.1 hf).1
    obtain ⟨f', hf', hreturn⟩ := getElem?_of_mapM hmap (getElem?_eq_getElem hid)
    obtain rfl : f = f' := Option.some.inj (hf.symm.trans hf')
    obtain ⟨image, hreturn', harrow⟩ := himage id f hf
    obtain rfl : image = morphismMap[id] := Except.ok.inj (hreturn'.symm.trans hreturn)
    exact ⟨_, getElem?_eq_getElem hid, harrow⟩

/-- **The verifier accepts the shift of a thin category.** -/
theorem validFunctor {functor : RuliadCategoryFunctor} (hn : 1 ≤ n)
    (hF : Shifts n shift category functor) :
    validFunctor n category.morphisms category.identities category.composition functor =
      .ok true := by
  refine validFunctor_eq_ok_true.2 ⟨?_, ?_, ?_⟩
  · have hobjects : ∀ object ∈ functor.objectMap, object < n := by
      rw [hF.object]
      exact forall_mem_map.2 fun object _ => shifted_lt hn
    have himages : ∀ image ∈ functor.morphismMap, image < category.morphisms.length := by
      intro image himage
      obtain ⟨id, hid⟩ := mem_iff_getElem?.1 himage
      have hlt : id < category.morphisms.length := hF.length ▸ (List.getElem?_eq_some_iff.1 hid).1
      obtain ⟨image', himage', harrow⟩ := hF.arrow id _ (getElem?_eq_getElem hlt)
      obtain rfl : image' = image := Option.some.inj (himage'.symm.trans hid)
      exact (List.getElem?_eq_some_iff.1 harrow).1
    have hends : ∀ f ∈ category.morphisms, f.source < n ∧ f.target < n := by
      intro f hf
      obtain ⟨id, hid⟩ := mem_iff_getElem?.1 hf
      have := h.arrow id f hid
      omega
    have hlength : functor.objectMap.length = n := by simp [hF.object]
    simp only [functorInRange, Bool.and_eq_true, decide_eq_true_eq, all_eq_true]
    exact ⟨⟨⟨⟨⟨⟨by omega, h.identities_length⟩, hlength⟩, hF.length⟩, hobjects⟩, himages⟩, hends⟩
  · constructor
    · intro id f hf
      obtain ⟨-, hle, hlt⟩ := h.arrow id f hf
      obtain ⟨image, himage, harrow⟩ := hF.arrow id f hf
      exact ⟨image, _, himage, harrow, hF.objectMap_getElem? (by omega), hF.objectMap_getElem? hlt⟩
    · intro object identity hidentity
      have hobject : object < n := h.identities_length ▸ (List.getElem?_eq_some_iff.1 hidentity).1
      obtain ⟨image, himage, harrow⟩ := hF.arrow identity _ (h.identity object identity hidentity)
      obtain ⟨unit, hunit, hunitArrow⟩ :=
        h.exists_identity (shifted_lt hn : shifted n shift object < n)
      refine ⟨_, image, hF.objectMap_getElem? hobject, himage, ?_⟩
      rw [hunit, h.eq_of_ends hunitArrow harrow rfl rfl]
  · intro left right id hid
    obtain ⟨f, g, hf, hg, hmid, hk⟩ := h.of_composePair hid
    obtain ⟨leftImage, hleft, hleftArrow⟩ := hF.arrow left f hf
    obtain ⟨rightImage, hright, hrightArrow⟩ := hF.arrow right g hg
    obtain ⟨image, himage, harrow⟩ := hF.arrow id _ hk
    refine ⟨leftImage, rightImage, image, hleft, hright, himage, ?_⟩
    exact h.composePair_eq hleftArrow hrightArrow harrow (congrArg (shifted n shift) hmid) rfl rfl

end Thin

/-! ## Paths -/

/-- A path of objects that climbs. -/
structure Climbs (n length : ℕ) (objects : List ℕ) : Prop where
  length : objects.length = length
  chain : objects.IsChain (· ≤ ·)
  lt : ∀ object ∈ objects, object < n

theorem objectsAfter_yields (steps : ℕ) {current : ℕ} (hcurrent : current < n) :
    Draw.Yields (objectsAfter n steps current) fun rest => Climbs n (steps + 1) (current :: rest) := by
  induction steps generalizing current with
  | zero => exact Draw.Yields.pure ⟨rfl, List.IsChain.singleton current, by simpa using hcurrent⟩
  | succ steps ih =>
    refine Draw.Yields.bind (Draw.Yields.nextUsize (Nat.succ_pos _)) fun jump hjump => ?_
    refine Draw.Yields.bind (ih (show current + jump < n by omega)) fun rest hrest => ?_
    refine Draw.Yields.pure ⟨by simp [hrest.length], ?_, ?_⟩
    · exact isChain_cons_cons.2 ⟨Nat.le_add_right current jump, hrest.chain⟩
    · exact forall_mem_cons.2 ⟨hcurrent, hrest.lt⟩

theorem monotoneObjectPath_yields (hn : 1 ≤ n) (pathLen : ℕ) :
    Draw.Yields (monotoneObjectPath n pathLen) (Climbs n (max pathLen 2)) := by
  refine Draw.Yields.bind (Draw.Yields.nextUsize hn) fun current hcurrent => ?_
  refine Draw.Yields.bind (objectsAfter_yields _ hcurrent) fun rest hrest => ?_
  rw [show max pathLen 2 - 1 + 1 = max pathLen 2 by omega] at hrest
  exact Draw.Yields.pure hrest

/-- The morphisms of the category, by their indices. -/
def GeneratedThinCategory.arrows (category : GeneratedThinCategory) : Arrows ℕ ℕ :=
  tableArrows category.morphisms category.identities category.composition

namespace Thin

variable (h : Thin n category)

include h

/-- The morphisms between the objects of a climbing path follow each other. -/
theorem objectArrows_returns {x : ℕ} {rest : List ℕ} {length : ℕ}
    (hpath : Climbs n length (x :: rest)) : ∃ arrows,
    ((x :: rest).zip rest).mapM (fun (source, target) => arrowId category.morphismId source target) =
      .ok arrows ∧ arrows.length = rest.length ∧ ∃ y, category.arrows.IsPath x arrows y := by
  induction rest generalizing x length with
  | nil => exact ⟨[], rfl, rfl, x, rfl⟩
  | cons y rest ih =>
    obtain ⟨hle, hchain⟩ := isChain_cons_cons.1 hpath.chain
    obtain ⟨hx, hlt⟩ := forall_mem_cons.1 hpath.lt
    obtain ⟨arrows, harrows, hlength, z, hz⟩ := ih ⟨rfl, hchain, hlt⟩
    obtain ⟨id, hid, harrow⟩ := h.find x y hle (hlt y mem_cons_self)
    refine ⟨id :: arrows, ?_, by simp [hlength], z, y, ?_, hz⟩
    · rw [zip_cons_cons, mapM_cons]
      exact bind_eq_ok.2 ⟨id, hid, bind_eq_ok.2 ⟨arrows, harrows, rfl⟩⟩
    · exact tableArrows_ends_eq_some.2 ⟨_, harrow, rfl, rfl⟩

theorem objectPathArrows_returns {objects : List ℕ} {length : ℕ} (hlength : 2 ≤ length)
    (hpath : Climbs n length objects) : ∃ path, objectPathArrows category objects = .ok path ∧
      path ≠ [] ∧ ∃ x y, category.arrows.IsPath x path y := by
  cases objects with
  | nil =>
    have : 0 = length := hpath.length
    omega
  | cons x rest =>
    obtain ⟨arrows, harrows, hlen, y, hy⟩ := h.objectArrows_returns hpath
    have hne : arrows ≠ [] := by
      rintro rfl
      have hlen' : (x :: rest).length = length := hpath.length
      rw [length_cons, ← hlen, length_nil] at hlen'
      omega
    refine ⟨arrows, bind_eq_ok.2 ⟨arrows, harrows, ?_⟩, hne, x, y, hy⟩
    rw [if_neg hne]
    rfl

theorem isCategory (hn : 1 ≤ n) : category.arrows.IsCategory := (h.finiteCategory hn).isCategory

/-- A path of the category has a composite. -/
theorem composePath_returns (hn : 1 ≤ n) {path : List ℕ} {x y : ℕ} (hne : path ≠ [])
    (hpath : category.arrows.IsPath x path y) : ∃ composed,
    composePath category.morphisms category.composition path = some composed ∧
    composed < category.morphisms.length := by
  obtain ⟨composed, hcomposed, hends⟩ := (h.isCategory hn).composite_ends hne hpath
  obtain ⟨k, hk, -⟩ := tableArrows_ends_eq_some.1 hends
  exact ⟨composed, (composePath_eq category.identities (lt_of_isPath hpath)).trans hcomposed,
    (List.getElem?_eq_some_iff.1 hk).1⟩

theorem composableTriple_yields (hn : 1 ≤ n) : Draw.Yields (composableTriple category)
    fun (first, second, third) => ∃ f g k, category.morphisms[first]? = some f ∧
      category.morphisms[second]? = some g ∧ category.morphisms[third]? = some k ∧
      f.target = g.source ∧ g.target = k.source := by
  unfold composableTriple
  rw [h.identities_length]
  refine Draw.Yields.bind (monotoneObjectPath_yields hn 4) fun objects hobjects => ?_
  have hlen : objects.length = 4 := hobjects.length
  match objects, hlen with
  | [a, b, c, d], _ =>
    obtain ⟨⟨hab, hbc, hcd⟩, ha, hb, hc, hd⟩ :
        (a ≤ b ∧ b ≤ c ∧ c ≤ d) ∧ a < n ∧ b < n ∧ c < n ∧ d < n := by
      have hchain := hobjects.chain
      have hlt := hobjects.lt
      simp only [isChain_cons_cons, List.IsChain.singleton, and_true] at hchain
      simpa [hchain] using hlt
    obtain ⟨first, hfirst, hf⟩ := h.find a b hab hb
    obtain ⟨second, hsecond, hg⟩ := h.find b c hbc hc
    obtain ⟨third, hthird, hk⟩ := h.find c d hcd hd
    refine Draw.Yields.lift (a := (first, second, third)) ?_ ⟨_, _, _, hf, hg, hk, rfl, rfl⟩
    simp only [index, getElem?_cons_zero, getElem?_cons_succ, bind, Except.bind, hfirst,
      hsecond, hthird, pure, Except.pure]

end Thin

/-! ## The tasks -/

/-- What the verifier needs of the fields of a task. -/
structure VerifiedFields (n : ℕ) (category : GeneratedThinCategory) (task : RuliadTaskKind)
    (fields : GeneratedCategoryTaskFields) : Prop where
  equal : fields.lhs = fields.rhs
  lt : fields.lhs < category.morphisms.length
  functor : ∀ functor, fields.functor = some functor →
    validFunctor n category.morphisms category.identities category.composition functor = .ok true
  naturality : ∀ functor square, fields.functor = some functor → fields.naturality = some square →
    naturalityCommutes category.morphisms category.composition functor square = .ok true
  functor_isSome : task = .verifyFunctorPreservation → fields.functor.isSome
  naturality_isSome : task = .verifyNaturalitySquare → fields.functor.isSome ∧
    fields.naturality.isSome

namespace Thin

variable (h : Thin n category)

include h

theorem lawFields_succeeds (hn : 1 ≤ n) :
    TryDraw.Succeeds (lawFields category) (VerifiedFields n category .verifyCategoryLaw) := by
  refine TryDraw.Succeeds.bind (TryDraw.Succeeds.draw (h.composableTriple_yields hn)) ?_
  rintro ⟨first, second, third⟩ ⟨f, g, k, hf, hg, hk, hfg, hgk⟩
  obtain ⟨fg, hfg', hfgArrow⟩ := (h.composite first second f g hf hg).1 hfg
  obtain ⟨gk, hgk', hgkArrow⟩ := (h.composite second third g k hg hk).1 hgk
  obtain ⟨id, hid, hidArrow⟩ := (h.composite fg third _ k hfgArrow hk).1 hgk
  have hright : composePair category.composition first gk = some id :=
    h.composePair_eq hf hgkArrow hidArrow hfg rfl rfl
  refine .okOr_bind hfg' (.okOr_bind hgk' (.okOr_bind hid (.okOr_bind hright (.pure ?_))))
  exact ⟨rfl, (List.getElem?_eq_some_iff.1 hidArrow).1, by simp, by simp, by simp, by simp⟩

variable {overflowChecks : Bool}

/-- The shift that the generator draws. -/
theorem generatedShiftFunctor_yields (hn : 1 ≤ n) (hmax : n ≤ usizeMax) :
    Draw.Yields (generatedShiftFunctor overflowChecks category)
      fun functor => ∃ shift, Shifts n shift category functor := by
  unfold generatedShiftFunctor
  rw [h.identities_length]
  refine Draw.Yields.bind (Draw.Yields.rangeUsize (Nat.zero_le _) (by omega)) fun shift _ => ?_
  obtain ⟨functor, hfunctor, hshifts⟩ := h.shiftFunctor_returns hn
  exact Draw.Yields.lift hfunctor ⟨shift, hshifts⟩

variable {x y : ℕ}

/-- The second morphism that the functor task takes starts where the first ends. -/
theorem secondArrow_returns {first : ℕ} {rest : List ℕ}
    (hpath : category.arrows.IsPath x (first :: rest) y) : ∃ second f g,
    secondArrow category (first :: rest) first = .ok second ∧
    category.morphisms[first]? = some f ∧ category.morphisms[second]? = some g ∧
    f.target = g.source := by
  obtain ⟨z, hfirst, hrest⟩ := hpath
  obtain ⟨f, hf, -, rfl⟩ := tableArrows_ends_eq_some.1 hfirst
  cases rest with
  | nil =>
    obtain ⟨unit, hunit, harrow⟩ := h.exists_identity (h.arrow _ _ hf).2.2
    refine ⟨unit, f, _, ?_, hf, harrow, rfl⟩
    exact bind_eq_ok.2 ⟨f, index_eq_ok.2 hf, index_eq_ok.2 hunit⟩
  | cons second rest =>
    obtain ⟨w, hsecond, -⟩ := hrest
    obtain ⟨g, hg, hsource, -⟩ := tableArrows_ends_eq_some.1 hsecond
    exact ⟨second, f, g, rfl, hf, hg, hsource.symm⟩

theorem functorFields_succeeds (hn : 1 ≤ n) (hmax : n ≤ usizeMax) {path : List ℕ} (hne : path ≠ [])
    (hpath : category.arrows.IsPath x path y) :
    TryDraw.Succeeds (functorFields overflowChecks category path)
      (VerifiedFields n category .verifyFunctorPreservation) := by
  refine .bind (.draw (h.generatedShiftFunctor_yields hn hmax)) ?_
  rintro functor ⟨shift, hF⟩
  cases path with
  | nil => exact absurd rfl hne
  | cons first rest =>
    obtain ⟨second, f, g, hsecond, hf, hg, hmid⟩ := h.secondArrow_returns hpath
    obtain ⟨composed, hcomposed, hk⟩ := (h.composite first second f g hf hg).1 hmid
    obtain ⟨firstImage, hfirst', hfirstArrow⟩ := hF.arrow first f hf
    obtain ⟨secondImage, hsecond', hsecondArrow⟩ := hF.arrow second g hg
    obtain ⟨image, himage, harrow⟩ := hF.arrow composed _ hk
    have hright : composePair category.composition firstImage secondImage = some image :=
      h.composePair_eq hfirstArrow hsecondArrow harrow (congrArg (shifted n shift) hmid) rfl rfl
    refine .ofRun_bind rfl (.ofRun_bind hsecond (.okOr_bind hcomposed ?_))
    refine .ofRun_bind (index_eq_ok.2 himage) (.ofRun_bind (index_eq_ok.2 hfirst') ?_)
    refine .ofRun_bind (index_eq_ok.2 hsecond') (.okOr_bind hright (.pure ?_))
    refine ⟨rfl, (List.getElem?_eq_some_iff.1 harrow).1, ?_, by simp, by simp, by simp⟩
    rintro _ ⟨⟩
    exact h.validFunctor hn hF

theorem naturalityComponents_returns {functor : RuliadCategoryFunctor} (hmax : n ≤ usizeMax)
    (hn : 1 ≤ n) (hF : Shifts n shift category functor) :
    ∃ components, naturalityComponents category functor = .ok components ∧
      ∀ object < n, ∃ id, components[object]? = some id ∧
        category.morphisms[id]? = some (thinArrow object (shifted n shift object)) := by
  have hcomponent : ∀ object < n, ∃ id, (do
      arrowId category.morphismId object (← index functor.objectMap object)) = .ok id ∧
      category.morphisms[id]? = some (thinArrow object (shifted n shift object)) := by
    intro object hobject
    obtain ⟨id, hid, harrow⟩ := h.find object _ (le_shifted hmax hobject) (shifted_lt hn)
    exact ⟨id, bind_eq_ok.2 ⟨_, index_eq_ok.2 (hF.objectMap_getElem? hobject), hid⟩, harrow⟩
  unfold naturalityComponents
  rw [h.identities_length]
  obtain ⟨components, hcomponents⟩ : ∃ components, ((List.range n).mapM fun object => do
      arrowId category.morphismId object (← index functor.objectMap object)) = .ok components :=
    mapM_returns fun object hobject => by
      obtain ⟨id, hid, -⟩ := hcomponent object (mem_range.1 hobject)
      exact ⟨id, hid⟩
  refine ⟨components, hcomponents, fun object hobject => ?_⟩
  have hlt : object < components.length := by
    rw [length_of_mapM hcomponents, length_range]
    exact hobject
  obtain ⟨object', hobject', hid⟩ :=
    getElem?_of_mapM hcomponents (getElem?_eq_getElem hlt)
  rw [getElem?_range hobject] at hobject'
  obtain rfl := Option.some.inj hobject'
  obtain ⟨id, hid', harrow⟩ := hcomponent object hobject
  obtain rfl : id = components[object] := Except.ok.inj (hid'.symm.trans hid)
  exact ⟨_, getElem?_eq_getElem hlt, harrow⟩

omit h in
theorem composePath_pair {left right id : ℕ} (hleft : left < category.morphisms.length)
    (hright : right < category.morphisms.length)
    (hid : composePair category.composition left right = some id) :
    composePath category.morphisms category.composition [left, right] = some id := by
  rw [composePath, if_neg (by omega), composeFrom, if_neg (by omega), hid]
  rfl

/-- The verifier accepts the square of a morphism. -/
theorem naturalityCommutes_square {functor : RuliadCategoryFunctor} (hn : 1 ≤ n)
    (hF : Shifts n shift category functor) {first before image after id : ℕ}
    {f : RuliadCategoryMorphism} (hf : category.morphisms[first]? = some f)
    (himage : functor.morphismMap[first]? = some image)
    (hbefore : category.morphisms[before]? = some (thinArrow f.source (shifted n shift f.source)))
    (himageArrow : category.morphisms[image]? = some (thinArrow (shifted n shift f.source) (shifted
      n shift f.target)))
    (hafter : category.morphisms[after]? = some (thinArrow f.target (shifted n shift f.target)))
    (hleft : composePath category.morphisms category.composition [before, image] = some id)
    (hright : composePath category.morphisms category.composition [first, after] = some id) :
    naturalityCommutes category.morphisms category.composition functor
      ⟨first, [before, image], [first, after]⟩ = .ok true := by
  obtain ⟨-, hle, hlt⟩ := h.arrow first f hf
  have hlength : functor.objectMap.length = n := by simp [hF.object]
  have hobject : ∀ object < n, functor.objectMap[object]? = some (shifted n shift object) :=
    fun object => hF.objectMap_getElem?
  have hfunctor := (validFunctor_eq_ok_true.1 (h.validFunctor hn hF)).1
  simp only [functorInRange, Bool.and_eq_true, decide_eq_true_eq] at hfunctor
  obtain ⟨⟨⟨⟨⟨⟨-, -⟩, -⟩, hmapLength⟩, hobjects⟩, hmorphisms⟩, -⟩ := hfunctor
  have hrange : naturalityInRange category.morphisms functor
      ⟨first, [before, image], [first, after]⟩ = true := by
    have hne : functor.objectMap ≠ [] := by
      rw [← length_pos_iff_ne_nil, hlength]
      omega
    simp only [naturalityInRange, Bool.and_eq_true, decide_eq_true_eq, hlength]
    exact ⟨⟨⟨⟨⟨⟨(List.getElem?_eq_some_iff.1 hf).1, rfl⟩, rfl⟩, hne⟩, hmapLength⟩, hmorphisms⟩,
      hobjects⟩
  have hends : naturalityEnds functor ⟨first, [before, image], [first, after]⟩ f = .ok true := by
    rw [naturalityEnds, if_neg (by rw [hlength]; omega)]
    refine andThen_eq_ok_true.2 ⟨?_, ?_⟩
    · simp [index, himage, bind, Except.bind, pure, Except.pure]
    · simp [index, bind, Except.bind, pure, Except.pure]
  have hsquare : squareEnds functor f (thinArrow f.source (shifted n shift f.source))
      (thinArrow (shifted n shift f.source) (shifted n shift f.target)) f
      (thinArrow f.target (shifted n shift f.target)) = .ok true := by
    simp [squareEnds, index_eq_ok.2 (hobject f.source (by omega)), index_eq_ok.2 (hobject _ hlt),
      bind, Except.bind, pure, Except.pure, thinArrow]
  rw [naturalityCommutes, if_neg (not_not.2 hrange)]
  refine bind_eq_ok.2 ⟨f, index_eq_ok.2 hf, andThen_eq_ok_true.2 ⟨hends, ?_⟩⟩
  simp only [hleft, hright, head?_cons, getLast?_cons_cons, getLast?_singleton,
    Option.bind_some, hf, hbefore, himageArrow, hafter]
  exact andThen_eq_ok_true.2 ⟨by simp, hsquare⟩

/-- The square of a morphism: first along the component at its source and its image, then along
itself and the component at its target. -/
theorem naturalityFields_succeeds (hn : 1 ≤ n) (hmax : n ≤ usizeMax) {path : List ℕ}
    (hne : path ≠ []) (hpath : category.arrows.IsPath x path y) :
    TryDraw.Succeeds (naturalityFields overflowChecks category path)
      (VerifiedFields n category .verifyNaturalitySquare) := by
  refine .bind (.draw (h.generatedShiftFunctor_yields hn hmax)) ?_
  rintro functor ⟨shift, hF⟩
  cases path with
  | nil => exact absurd rfl hne
  | cons first rest =>
    obtain ⟨z, hfirst, -⟩ := hpath
    obtain ⟨f, hf, -, -⟩ := tableArrows_ends_eq_some.1 hfirst
    obtain ⟨-, hle, hlt⟩ := h.arrow first f hf
    obtain ⟨components, hcomponents, hcomponent⟩ := h.naturalityComponents_returns hmax hn hF
    obtain ⟨before, hbefore, hbeforeArrow⟩ := hcomponent f.source (by omega)
    obtain ⟨after, hafter, hafterArrow⟩ := hcomponent f.target hlt
    obtain ⟨image, himage, himageArrow⟩ := hF.arrow first f hf
    obtain ⟨unit, hunit, -⟩ := h.exists_identity (show 0 < n by omega)
    obtain ⟨id, harrow⟩ := h.exists_arrow (le_trans hle (le_shifted hmax hlt))
      (shifted_lt hn : shifted n shift f.target < n)
    have hleft : composePair category.composition before image = some id :=
      h.composePair_eq hbeforeArrow himageArrow harrow rfl rfl rfl
    have hright : composePair category.composition first after = some id :=
      h.composePair_eq hf hafterArrow harrow rfl rfl rfl
    have hltOf : ∀ {id : ℕ} {k : RuliadCategoryMorphism}, category.morphisms[id]? = some k →
        id < category.morphisms.length := fun hk => (List.getElem?_eq_some_iff.1 hk).1
    have hleftPath := composePath_pair (hltOf hbeforeArrow) (hltOf himageArrow) hleft
    have hrightPath := composePath_pair (hltOf hf) (hltOf hafterArrow) hright
    have hsquare : naturalitySquare category functor (first :: rest) =
        .ok (⟨first, [before, image], [first, after]⟩, f) := by
      simp only [naturalitySquare, hcomponents, index_eq_ok.2 hunit, index_eq_ok.2 hf,
        index_eq_ok.2 hbefore, index_eq_ok.2 himage, index_eq_ok.2 hafter, bind, Except.bind,
        head?_cons, Option.getD_some, pure, Except.pure]
    refine .ofRun_bind hsquare (.okOr_bind hleftPath (.okOr_bind hrightPath (.pure ?_)))
    refine ⟨rfl, hltOf harrow, ?_, ?_, by simp, by simp⟩
    · rintro _ ⟨⟩
      exact h.validFunctor hn hF
    · rintro _ _ ⟨⟩ ⟨⟩
      exact h.naturalityCommutes_square hn hF hf himage hbeforeArrow himageArrow hafterArrow
        hleftPath hrightPath

end Thin

/-! ## Generated specs -/

theorem selectedTask_eq (task : RuliadTaskKind) : selectedTask task = .composeCategoryPath ∨
    selectedTask task = .verifyCategoryLaw ∨ selectedTask task = .verifyFunctorPreservation ∨
    selectedTask task = .verifyNaturalitySquare := by
  cases task <;> simp [selectedTask]

theorem Thin.taskFields_succeeds (h : Thin n category) {overflowChecks : Bool} (hn : 1 ≤ n)
    (hmax : n ≤ usizeMax) (task : RuliadTaskKind) {path : List ℕ} {x y composed : ℕ}
    (hne : path ≠ []) (hpath : category.arrows.IsPath x path y)
    (hcomposed : composed < category.morphisms.length) :
    TryDraw.Succeeds
      (generatedCategoryTaskFields overflowChecks category (selectedTask task) path composed)
      (VerifiedFields n category (selectedTask task)) := by
  have hcompose : TryDraw.Succeeds
      (generatedCategoryTaskFields overflowChecks category .composeCategoryPath path composed)
      (VerifiedFields n category .composeCategoryPath) :=
    .pure ⟨rfl, hcomposed, by simp [composeFields], by simp [composeFields], by simp, by simp⟩
  cases task with
  | verifyCategoryLaw => exact h.lawFields_succeeds hn
  | verifyFunctorPreservation => exact h.functorFields_succeeds hn hmax hne hpath
  | verifyNaturalitySquare => exact h.naturalityFields_succeeds hn hmax hne hpath
  | _ => exact hcompose

/-- What the verifier checks of a category spec, and its verdict. -/
structure Verified (spec : CategorySpec) : Prop where
  category : validFiniteCategory spec.objectCount spec.morphisms spec.identities
    spec.composition = .ok true
  functor : ∀ functor, spec.functor = some functor → validFunctor spec.objectCount spec.morphisms
    spec.identities spec.composition functor = .ok true
  answer : categoryTaskOk spec = .ok true
  verdict : verifyCategory spec = .ok true

theorem categoryFields_succeeds (h : Thin n category) (overflowChecks : Bool) (pathLen : ℕ)
    (hn : 1 ≤ n) (hmax : n ≤ usizeMax) (task : RuliadTaskKind) : TryDraw.Succeeds
      (categoryFields overflowChecks n pathLen category (selectedTask task))
      fun spec => spec.objectCount = n ∧ spec.task = selectedTask task ∧ Verified spec := by
  refine .bind (.draw (monotoneObjectPath_yields hn pathLen)) fun objects hobjects => ?_
  obtain ⟨path, hpath, hne, x, y, hends⟩ :=
    h.objectPathArrows_returns (le_max_right pathLen 2) hobjects
  obtain ⟨composed, hcomposed, hlt⟩ := h.composePath_returns hn hne hends
  refine .ofRun_bind hpath (.okOr_bind hcomposed ?_)
  refine .bind (h.taskFields_succeeds hn hmax task hne hends hlt) fun fields hfields => ?_
  refine .pure ⟨rfl, rfl, ?_⟩
  have hcategory := validFiniteCategory_eq_ok_true.2 (h.finiteCategory hn)
  obtain ⟨lhs, rhs, proofSteps, functor, naturality⟩ := fields
  obtain ⟨hequal, hlhs, hfunctor, hnaturality, hfunctorSome, hnaturalitySome⟩ := hfields
  obtain rfl : lhs = rhs := hequal
  have hanswer : categoryTaskOk ⟨n, category.morphisms, category.identities, category.composition,
      path, composed, lhs, lhs, decide (lhs = lhs), proofSteps, functor, naturality,
      selectedTask task⟩ = .ok true := by
    have htask := selectedTask_eq task
    generalize selectedTask task = selected at htask hfunctorSome hnaturalitySome
    rcases htask with rfl | rfl | rfl | rfl
    · exact andThen_eq_ok_true.2 ⟨by simp [hcomposed], by simp⟩
    · exact andThen_eq_ok_true.2 ⟨by simp [hcomposed], by simp⟩
    · obtain ⟨functor, rfl⟩ := Option.isSome_iff_exists.1 (hfunctorSome rfl)
      exact andThen_eq_ok_true.2 ⟨hfunctor functor rfl, by simp⟩
    · obtain ⟨hsome, hsome'⟩ := hnaturalitySome rfl
      obtain ⟨functor, rfl⟩ := Option.isSome_iff_exists.1 hsome
      obtain ⟨square, rfl⟩ := Option.isSome_iff_exists.1 hsome'
      exact andThen_eq_ok_true.2 ⟨hfunctor functor rfl,
        andThen_eq_ok_true.2 ⟨hnaturality functor square rfl rfl, by simp⟩⟩
  refine ⟨hcategory, hfunctor, hanswer, ?_⟩
  rw [verifyCategory, hanswer]
  refine andThen_eq_ok_true.2 ⟨hcategory, ?_⟩
  simp [hlhs, hlt]

/-- **Generated category specs verify.** Whatever is drawn for the sizes, with one object at least,
the generator returns a spec that passes the checks of the verifier. -/
theorem generated_category_verifies {overflowChecks : Bool} {family : RuliadFamilyConfig}
    {rng rng₁ rng₂ : SplitMix64} {objectCount steps : ℕ} (task : RuliadTaskKind)
    (hwidth : StateT.run (Draw.rangeOr overflowChecks family.width 3 7) rng =
      .ok (objectCount, rng₁))
    (hsteps : StateT.run (Draw.rangeOr overflowChecks family.steps 3 6) rng₁ = .ok (steps, rng₂))
    (hpos : 1 ≤ objectCount) (hmax : objectCount ≤ usizeMax) :
    ∃ spec rng₃, StateT.run
        (ExceptT.run (generateCategoryFields overflowChecks family task)) rng =
        .ok (.ok spec, rng₃) ∧
      spec.objectCount = objectCount ∧ spec.task = selectedTask task ∧ Verified spec := by
  obtain ⟨category, hcategory, hthin⟩ := generatedThinCategory_thin objectCount
  obtain ⟨result, rng₃, hrun, spec, rfl, hspec⟩ :=
    categoryFields_succeeds hthin overflowChecks (max steps 2) hpos hmax task rng₂
  refine ⟨spec, rng₃, ?_, hspec⟩
  rw [generateCategoryFields]
  exact (TryDraw.run_lift_bind hwidth).trans ((TryDraw.run_ofRun_bind hcategory rng₁).trans
    ((TryDraw.run_lift_bind hsteps).trans hrun))

theorem generated_category_verifies_two : ∃ spec rng₃, StateT.run (ExceptT.run
      (generateCategoryFields true ⟨some ⟨2, 2⟩, some ⟨3, 3⟩⟩ .verifyNaturalitySquare)) ⟨7⟩ =
      .ok (.ok spec, rng₃) ∧
    spec.objectCount = 2 ∧ spec.task = .verifyNaturalitySquare ∧ Verified spec :=
  generated_category_verifies .verifyNaturalitySquare rfl rfl (Nat.le_succ 1) (by decide)

end BurnDragon.Ruliad.Category
