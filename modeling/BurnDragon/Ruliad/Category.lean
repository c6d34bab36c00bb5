import BurnDragon.Ruliad.Spec

/-!
# Finite categories

The checks of `category.rs`. A finite category is a list of morphisms with a composition table; the
table, the functor and the paths of a spec come from outside, so an index may be out of range.

`validFunctor` reads the image of every entry of the composition table. It does not compare the size
of the table with the number of morphisms, and `validFunctor_returns_iff` says when it panics.
-/

namespace BurnDragon.Ruliad.Category

open Rust List

variable (objectCount : ℕ) (morphisms : List RuliadCategoryMorphism) (identities : List ℕ)
  (composition : List (List (Option ℕ)))

/-! ## Composition -/

/-- `compose_pair`. -/
def composePair (left right : ℕ) : Option ℕ :=
  (composition[left]?.bind fun row => row[right]?).join

/-- The loop of `compose_path`. -/
def composeFrom (current : ℕ) : List ℕ → Option ℕ
  | [] => some current
  | next :: rest =>
    if next ≥ morphisms.length then
      none
    else
      match composePair composition current next with
      | some current => composeFrom current rest
      | none => none

/-- `compose_path`. -/
def composePath : List ℕ → Option ℕ
  | [] => none
  | current :: rest =>
    if current ≥ morphisms.length then none else composeFrom morphisms composition current rest

/-! ## Categories -/

/-- The check of a morphism and its index. -/
def validMorphism (morphism : RuliadCategoryMorphism) (id : ℕ) : Bool :=
  !(morphism.source ≥ objectCount || morphism.target ≥ objectCount ||
    (trim morphism.name.toList).isEmpty || morphism.name.toList.any isWhitespace) &&
  !(morphism.identity &&
    (morphism.source ≠ morphism.target || identities[morphism.source]? ≠ some id))

/-- The check of an identity and its object. -/
def validIdentity (identity object : ℕ) : Bool :=
  match morphisms[identity]? with
  | none => false
  | some morphism => morphism.identity && morphism.source = object && morphism.target = object

/-- The check of the composite of two morphisms. -/
def validComposite (left right : RuliadCategoryMorphism × ℕ) : Run Bool := do
  let row ← index composition left.2
  let composed ← index row right.2
  if left.1.target = right.1.source then
    match composed.bind fun id => morphisms[id]? with
    | none => return false
    | some result => return result.source = left.1.source && result.target = right.1.target
  else
    return composed.isNone

/-- The check of the unit laws at a morphism. -/
def validUnits (morphism : RuliadCategoryMorphism) (id : ℕ) : Run Bool := do
  let before ← index identities morphism.source
  if composePair composition before id ≠ some id then
    return false
  else
    let after ← index identities morphism.target
    return composePair composition id after = some id

/-- The check of the associative law at three morphisms. -/
def associative (first second third : RuliadCategoryMorphism × ℕ) : Bool :=
  if first.1.target ≠ second.1.source || second.1.target ≠ third.1.source then
    true
  else
    let left := (composePair composition first.2 second.2).bind fun partial_ =>
      composePair composition partial_ third.2
    let right := (composePair composition second.2 third.2).bind fun partial_ =>
      composePair composition first.2 partial_
    left.isSome && left = right

/-- `valid_finite_category`. -/
def validFiniteCategory : Run Bool :=
  let arrows := morphisms.zipIdx
  if objectCount = 0 ∨ morphisms = [] ∨ identities.length ≠ objectCount ∨
      composition.length ≠ morphisms.length ∨
      (composition.any fun row => row.length ≠ morphisms.length) then
    .ok false
  else if ¬ arrows.all fun (morphism, id) => validMorphism objectCount identities morphism id then
    .ok false
  else if ¬ identities.zipIdx.all fun (identity, object) =>
      validIdentity morphisms identity object then
    .ok false
  else
    andThen
      (forAll (fun left => forAll (fun right => validComposite morphisms composition left right)
        arrows) arrows)
      (andThen (forAll (fun (morphism, id) => validUnits identities composition morphism id) arrows)
        (.ok (arrows.all fun first => arrows.all fun second => arrows.all fun third =>
          associative composition first second third)))

/-! ## Functors -/

/-- The first check of `valid_functor`: the maps have the right sizes and stay in range. -/
def functorInRange (functor : RuliadCategoryFunctor) : Bool :=
  objectCount ≠ 0 && identities.length = objectCount &&
  functor.objectMap.length = objectCount && functor.morphismMap.length = morphisms.length &&
  (functor.objectMap.all fun object => object < objectCount) &&
  (functor.morphismMap.all fun morphism => morphism < morphisms.length) &&
  morphisms.all fun morphism => morphism.source < objectCount && morphism.target < objectCount

/-- The image of a morphism goes from the image of its source to the image of its target. -/
def preservesEnds (functor : RuliadCategoryFunctor) (source : RuliadCategoryMorphism)
    (sourceId : ℕ) : Run Bool := do
  let image ← index functor.morphismMap sourceId
  match morphisms[image]? with
  | none => return false
  | some mapped =>
    andThen (do return mapped.source = (← index functor.objectMap source.source))
      (do return mapped.target = (← index functor.objectMap source.target))

/-- The image of an identity is the identity of the image. -/
def preservesIdentity (functor : RuliadCategoryFunctor) (identity object : ℕ) : Run Bool :=
  if identity ≥ functor.morphismMap.length then
    .ok false
  else do
    let mappedObject ← index functor.objectMap object
    let image ← index functor.morphismMap identity
    return image = (← index identities mappedObject)

/-- The entries that are present in the composition table, row by row: two morphisms and their
composite. -/
def compositionEntries : List (ℕ × ℕ × ℕ) :=
  composition.zipIdx.flatMap fun (row, left) =>
    row.zipIdx.filterMap fun (composed, right) => composed.map fun id => (left, right, id)

/-- The image of a composite is the composite of the images. -/
def preservesComposite (functor : RuliadCategoryFunctor) (entry : ℕ × ℕ × ℕ) : Run Bool := do
  let lhs ← index functor.morphismMap entry.2.2
  let left ← index functor.morphismMap entry.1
  let right ← index functor.morphismMap entry.2.1
  return composePair composition left right = some lhs

/-- The two loops of `valid_functor` before the one over the composition table. -/
def preservesGraph (functor : RuliadCategoryFunctor) : Run Bool :=
  andThen
    (forAll (fun (source, sourceId) => preservesEnds morphisms functor source sourceId)
      morphisms.zipIdx)
    (forAll (fun (identity, object) => preservesIdentity identities functor identity object)
      identities.zipIdx)

/-- `valid_functor`. -/
def validFunctor (functor : RuliadCategoryFunctor) : Run Bool :=
  if ¬ functorInRange objectCount morphisms identities functor then
    .ok false
  else
    andThen (preservesGraph morphisms identities functor)
      (forAll (preservesComposite composition functor) (compositionEntries composition))

/-! ## Naturality -/

/-- The equations between the ends of the four morphisms of the square. -/
def squareEnds (functor : RuliadCategoryFunctor) (source leftFirst leftLast rightFirst
    rightLast : RuliadCategoryMorphism) : Run Bool := do
  let sourceImage ← index functor.objectMap source.source
  let targetImage ← index functor.objectMap source.target
  return leftFirst.source = source.source && leftFirst.target = sourceImage &&
    leftLast.source = sourceImage && leftLast.target = targetImage &&
    rightFirst.source = source.source && rightFirst.target = source.target &&
    rightLast.source = source.target && rightLast.target = targetImage

/-- The first check of `naturality_commutes`. -/
def naturalityInRange (functor : RuliadCategoryFunctor) (naturality : RuliadNaturalityCheck) :
    Bool :=
  naturality.sourceMorphism < morphisms.length && naturality.leftPath.length = 2 &&
  naturality.rightPath.length = 2 && functor.objectMap ≠ [] &&
  functor.morphismMap.length = morphisms.length &&
  (functor.morphismMap.all fun morphism => morphism < morphisms.length) &&
  functor.objectMap.all fun object => object < functor.objectMap.length

/-- The second check of `naturality_commutes`: the paths contain the morphism and its image. -/
def naturalityEnds (functor : RuliadCategoryFunctor) (naturality : RuliadNaturalityCheck)
    (source : RuliadCategoryMorphism) : Run Bool :=
  if source.source ≥ functor.objectMap.length ∨ source.target ≥ functor.objectMap.length then
    .ok false
  else
    andThen
      (do
        let last ← index naturality.leftPath 1
        return last = (← index functor.morphismMap naturality.sourceMorphism))
      (do return (← index naturality.rightPath 0) = naturality.sourceMorphism)

/-- `naturality_commutes`. -/
def naturalityCommutes (functor : RuliadCategoryFunctor) (naturality : RuliadNaturalityCheck) :
    Run Bool :=
  if ¬ naturalityInRange morphisms functor naturality then
    .ok false
  else do
    let source ← index morphisms naturality.sourceMorphism
    let morphism := fun id => morphisms[id]?
    andThen (naturalityEnds functor naturality source) <|
      match composePath morphisms composition naturality.leftPath,
        composePath morphisms composition naturality.rightPath,
        naturality.leftPath.head?.bind morphism, naturality.leftPath.getLast?.bind morphism,
        naturality.rightPath.head?.bind morphism, naturality.rightPath.getLast?.bind morphism with
      | some leftId, some rightId, some leftFirst, some leftLast, some rightFirst,
        some rightLast =>
        andThen (.ok (leftId = rightId))
          (squareEnds functor source leftFirst leftLast rightFirst rightLast)
      | _, _, _, _, _, _ => .ok false

/-! ## Panics -/

variable {objectCount morphisms identities composition} {functor : RuliadCategoryFunctor}
  {naturality : RuliadNaturalityCheck}

/-- The checks of a category come before the entries that they make safe to read. -/
theorem validFiniteCategory_returns :
    ∃ ok, validFiniteCategory objectCount morphisms identities composition = .ok ok := by
  simp only [validFiniteCategory]
  split
  · exact ⟨_, rfl⟩
  rename_i hsizes
  split
  · exact ⟨_, rfl⟩
  rename_i hmorphisms
  split
  · exact ⟨_, rfl⟩
  obtain ⟨-, -, hidentitiesLen, hlen, hrows⟩ : objectCount ≠ 0 ∧ morphisms ≠ [] ∧
      identities.length = objectCount ∧ composition.length = morphisms.length ∧
      ∀ row ∈ composition, row.length = morphisms.length := by simpa using hsizes
  have hcomposite : ∀ left ∈ morphisms.zipIdx, ∀ right ∈ morphisms.zipIdx,
      ∃ ok, validComposite morphisms composition left right = .ok ok := by
    rintro ⟨left, leftId⟩ hleft ⟨right, rightId⟩ hright
    have hleftId : leftId < composition.length := hlen ▸ (mem_zipIdx' hleft).1
    have hrightId : rightId < composition[leftId].length :=
      (hrows _ (getElem_mem hleftId)) ▸ (mem_zipIdx' hright).1
    simp only [validComposite, index_of_lt hleftId, index_of_lt hrightId, bind, Except.bind]
    split
    · split <;> exact ⟨_, rfl⟩
    · exact ⟨_, rfl⟩
  have hunits : ∀ arrow ∈ morphisms.zipIdx,
      ∃ ok, validUnits identities composition arrow.1 arrow.2 = .ok ok := by
    rintro ⟨morphism, id⟩ harrow
    have hvalid : validMorphism objectCount identities morphism id = true :=
      (all_eq_true.1 (not_not.1 hmorphisms)) _ harrow
    obtain ⟨hsource, htarget⟩ : morphism.source < identities.length ∧
        morphism.target < identities.length := by
      simp only [validMorphism, Bool.and_eq_true, Bool.not_eq_true', Bool.or_eq_false_iff,
        decide_eq_false_iff_not, not_le] at hvalid
      omega
    simp only [validUnits, index_of_lt hsource, index_of_lt htarget, bind, Except.bind]
    split <;> exact ⟨_, rfl⟩
  rw [andThen_returns_iff, andThen_returns_iff]
  exact ⟨forAll_returns fun left hleft => forAll_returns (hcomposite left hleft),
    fun _ => ⟨forAll_returns hunits, fun _ => ⟨_, rfl⟩⟩⟩

/-- What the first loops of `valid_functor` check: ends and identities are preserved. -/
structure PreservesGraph (morphisms : List RuliadCategoryMorphism) (identities : List ℕ)
    (functor : RuliadCategoryFunctor) : Prop where
  ends : ∀ (id : ℕ) (source : RuliadCategoryMorphism), morphisms[id]? = some source →
    ∃ (image : ℕ) (mapped : RuliadCategoryMorphism), functor.morphismMap[id]? = some image ∧
      morphisms[image]? = some mapped ∧ functor.objectMap[source.source]? = some mapped.source ∧
      functor.objectMap[source.target]? = some mapped.target
  units : ∀ object identity : ℕ, identities[object]? = some identity → ∃ mappedObject image : ℕ,
    functor.objectMap[object]? = some mappedObject ∧
    functor.morphismMap[identity]? = some image ∧ identities[mappedObject]? = some image

/-- The composite of an entry is preserved. -/
def PreservesEntry (composition : List (List (Option ℕ))) (functor : RuliadCategoryFunctor)
    (entry : ℕ × ℕ × ℕ) : Prop :=
  ∃ left right image, functor.morphismMap[entry.1]? = some left ∧
    functor.morphismMap[entry.2.1]? = some right ∧
    functor.morphismMap[entry.2.2]? = some image ∧
    composePair composition left right = some image

/-- The three morphisms of an entry are in the domain of the functor. -/
def EntryInRange (functor : RuliadCategoryFunctor) (entry : ℕ × ℕ × ℕ) : Prop :=
  entry.1 < functor.morphismMap.length ∧ entry.2.1 < functor.morphismMap.length ∧
    entry.2.2 < functor.morphismMap.length

/-- The functor fails one of the earlier checks, or no entry of the table is out of range that comes
after preserved entries only. -/
def FunctorReadable (objectCount : ℕ) (morphisms : List RuliadCategoryMorphism)
    (identities : List ℕ) (composition : List (List (Option ℕ)))
    (functor : RuliadCategoryFunctor) : Prop :=
  functorInRange objectCount morphisms identities functor →
    PreservesGraph morphisms identities functor →
    ∀ pre entry post, compositionEntries composition = pre ++ entry :: post →
      (∀ e ∈ pre, PreservesEntry composition functor e) → EntryInRange functor entry

theorem preservesEnds_eq_ok_true {source : RuliadCategoryMorphism} {id : ℕ} :
    preservesEnds morphisms functor source id = .ok true ↔ ∃ image mapped,
      functor.morphismMap[id]? = some image ∧ morphisms[image]? = some mapped ∧
      functor.objectMap[source.source]? = some mapped.source ∧
      functor.objectMap[source.target]? = some mapped.target := by
  simp only [preservesEnds, bind_eq_ok, index_eq_ok]
  refine exists_congr fun image => ?_
  cases morphisms[image]? with
  | none => simp [pure, Except.pure]
  | some mapped =>
    simp only [andThen_eq_ok_true, bind_eq_ok, index_eq_ok, pure, Except.pure, Except.ok.injEq,
      decide_eq_true_eq, exists_eq_right', Option.some.injEq, exists_eq_left', exists_and_left]

theorem preservesIdentity_eq_ok_true {identity object : ℕ} :
    preservesIdentity identities functor identity object = .ok true ↔ ∃ mappedObject image,
      functor.objectMap[object]? = some mappedObject ∧
      functor.morphismMap[identity]? = some image ∧ identities[mappedObject]? = some image := by
  unfold preservesIdentity
  split
  · rename_i hlen
    simp [getElem?_eq_none hlen]
  · simp only [bind_eq_ok, index_eq_ok, pure, Except.pure, Except.ok.injEq, decide_eq_true_eq,
      exists_eq_right', exists_and_left]

theorem preservesGraph_eq_ok_true :
    preservesGraph morphisms identities functor = .ok true ↔
      PreservesGraph morphisms identities functor := by
  rw [preservesGraph, andThen_eq_ok_true, forAll_eq_ok_true, forAll_eq_ok_true]
  simp only [Prod.forall, mem_zipIdx_iff_getElem?, preservesEnds_eq_ok_true,
    preservesIdentity_eq_ok_true]
  constructor
  · rintro ⟨hends, hidentities⟩
    exact ⟨fun id source => hends source id, fun object identity => hidentities identity object⟩
  · rintro ⟨hends, hidentities⟩
    exact ⟨fun source id => hends id source, fun identity object => hidentities object identity⟩

theorem preservesComposite_eq_ok_true {entry : ℕ × ℕ × ℕ} :
    preservesComposite composition functor entry = .ok true ↔
      PreservesEntry composition functor entry := by
  simp only [preservesComposite, PreservesEntry, bind_eq_ok, index_eq_ok, pure, Except.pure,
    Except.ok.injEq, decide_eq_true_eq]
  constructor
  · rintro ⟨image, himage, left, hleft, right, hright, h⟩
    exact ⟨left, right, image, hleft, hright, himage, h⟩
  · rintro ⟨left, right, image, hleft, hright, himage, h⟩
    exact ⟨image, himage, left, hleft, right, hright, h⟩

theorem preservesComposite_returns_iff {entry : ℕ × ℕ × ℕ} :
    (∃ ok, preservesComposite composition functor entry = .ok ok) ↔
      EntryInRange functor entry := by
  simp only [preservesComposite, EntryInRange, bind_eq_ok, index_eq_ok, pure, Except.pure,
    Except.ok.injEq, getElem?_eq_some_iff]
  constructor
  · rintro ⟨_, _, ⟨hid, -⟩, _, ⟨hleft, -⟩, _, ⟨hright, -⟩, -⟩
    exact ⟨hleft, hright, hid⟩
  · rintro ⟨hleft, hright, hid⟩
    exact ⟨_, _, ⟨hid, rfl⟩, _, ⟨hleft, rfl⟩, _, ⟨hright, rfl⟩, rfl⟩

/-- The loops before the composition table read within the ranges that the first check gives. -/
theorem preservesGraph_returns (h : functorInRange objectCount morphisms identities functor) :
    ∃ ok, preservesGraph morphisms identities functor = .ok ok := by
  simp only [functorInRange, Bool.and_eq_true, decide_eq_true_eq, all_eq_true] at h
  obtain ⟨⟨⟨⟨⟨⟨-, hidentities⟩, hobjects⟩, harrows⟩, hobjectMap⟩, -⟩, hmorphisms⟩ := h
  refine andThen_returns_iff.2 ⟨forAll_returns ?_, fun _ => forAll_returns ?_⟩
  · rintro ⟨source, id⟩ hsource
    have hget : morphisms[id]? = some source := mem_zipIdx_iff_getElem?.1 hsource
    have hid := (List.getElem?_eq_some_iff.1 hget).1
    obtain ⟨hs, ht⟩ := hmorphisms source (mem_of_getElem? hget)
    rw [← hobjects] at hs ht
    simp only [preservesEnds, index_of_lt (harrows ▸ hid), bind, Except.bind]
    split
    · exact ⟨_, rfl⟩
    · simp only [index_of_lt hs, index_of_lt ht]
      exact andThen_returns_iff.2 ⟨⟨_, rfl⟩, fun _ => ⟨_, rfl⟩⟩
  · rintro ⟨identity, object⟩ hidentity
    have hget : identities[object]? = some identity := mem_zipIdx_iff_getElem?.1 hidentity
    have hobject : object < functor.objectMap.length := by
      have := (List.getElem?_eq_some_iff.1 hget).1
      omega
    have hmapped : functor.objectMap[object] < identities.length :=
      hidentities ▸ hobjectMap _ (getElem_mem hobject)
    simp only [preservesIdentity]
    split
    · exact ⟨_, rfl⟩
    · rename_i hlen
      simp only [index_of_lt hobject, index_of_lt (not_le.1 hlen), index_of_lt hmapped, bind,
        Except.bind]
      exact ⟨_, rfl⟩

/-- **When the functor check returns.** -/
theorem validFunctor_returns_iff :
    (∃ ok, validFunctor objectCount morphisms identities composition functor = .ok ok) ↔
      FunctorReadable objectCount morphisms identities composition functor := by
  unfold validFunctor FunctorReadable
  by_cases hrange : functorInRange objectCount morphisms identities functor
  · rw [if_neg (not_not.2 hrange), andThen_returns_iff, forAll_returns_iff,
      and_iff_right (preservesGraph_returns hrange), preservesGraph_eq_ok_true]
    simp only [preservesComposite_eq_ok_true, preservesComposite_returns_iff, hrange, forall_const]
  · simp [hrange]

/-- The checks of a naturality square come before the entries that they make safe to read. -/
theorem naturalityCommutes_returns :
    ∃ ok, naturalityCommutes morphisms composition functor naturality = .ok ok := by
  unfold naturalityCommutes
  split
  · exact ⟨_, rfl⟩
  rename_i hrange
  simp only [naturalityInRange, Bool.and_eq_true, decide_eq_true_eq, not_not] at hrange
  obtain ⟨⟨⟨⟨⟨⟨hsource, hleft⟩, hright⟩, -⟩, harrows⟩, -⟩, -⟩ := hrange
  simp only [index_of_lt hsource, bind, Except.bind]
  refine andThen_returns_iff.2 ⟨?_, fun hends => ?_⟩
  · unfold naturalityEnds
    split
    · exact ⟨_, rfl⟩
    · simp only [index_of_lt (show 1 < naturality.leftPath.length by omega),
        index_of_lt (show 0 < naturality.rightPath.length by omega),
        index_of_lt (harrows ▸ hsource), bind, Except.bind]
      exact andThen_returns_iff.2 ⟨⟨_, rfl⟩, fun _ => ⟨_, rfl⟩⟩
  · unfold naturalityEnds at hends
    split at hends
    · simp at hends
    rename_i hobjects
    obtain ⟨hs, ht⟩ := not_or.1 hobjects
    split
    · refine andThen_returns_iff.2 ⟨⟨_, rfl⟩, fun _ => ?_⟩
      simp only [squareEnds, index_of_lt (not_le.1 hs), index_of_lt (not_le.1 ht), bind,
        Except.bind]
      exact ⟨_, rfl⟩
    · exact ⟨_, rfl⟩

end BurnDragon.Ruliad.Category
