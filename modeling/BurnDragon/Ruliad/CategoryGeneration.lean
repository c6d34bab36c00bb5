import BurnDragon.Ruliad.Category
import BurnDragon.Ruliad.Family

/-!
# Generated categories

The generator of `category.rs`. Its category has one morphism from an object to each object that does
not come before it, so a morphism is known by its ends; the functor shifts the objects and stops at
the last one; and the path climbs through the objects.

* `Tables` is the invariant of the loops that number the morphisms.
* `Thin n category` says what the tables of such a category contain.
-/

namespace BurnDragon.Ruliad.Category

open Rust List

/-! ## The generator -/

structure GeneratedThinCategory where
  morphisms : List RuliadCategoryMorphism
  identities : List ℕ
  composition : List (List (Option ℕ))
  morphismId : List (List (Option ℕ))

/-- `Option::expect`. -/
def expect {α : Type} (x : Option α) : Run α :=
  match x with
  | some a => .ok a
  | none => .error .missingKey

/-- The morphism between two objects. -/
def thinArrow (source target : ℕ) : RuliadCategoryMorphism where
  name := "m" ++ decimal source ++ "_" ++ decimal target
  source := source
  target := target
  identity := source = target

/-- The pairs of objects in the order of the loops. -/
def thinPairs (objectCount : ℕ) : List (ℕ × ℕ) :=
  (List.range objectCount).flatMap fun source =>
    (List.range' source (objectCount - source)).map fun target => (source, target)

/-- One round of the loops: a morphism and its entry in `morphism_id`. -/
def pushArrow (tables : List RuliadCategoryMorphism × List (List (Option ℕ))) (pair : ℕ × ℕ) :
    List RuliadCategoryMorphism × List (List (Option ℕ)) :=
  (tables.1 ++ [thinArrow pair.1 pair.2],
    tables.2.modify pair.1 fun row => row.set pair.2 (some tables.1.length))

/-- `morphism_id[source][target]`. -/
def arrowSlot (morphismId : List (List (Option ℕ))) (source target : ℕ) : Run (Option ℕ) := do
  index (← index morphismId source) target

def arrowId (morphismId : List (List (Option ℕ))) (source target : ℕ) : Run ℕ := do
  expect (← arrowSlot morphismId source target)

/-- `generated_thin_category`. -/
def generatedThinCategory (objectCount : ℕ) : Run GeneratedThinCategory := do
  let (morphisms, morphismId) := (thinPairs objectCount).foldl pushArrow
    ([], List.replicate objectCount (List.replicate objectCount none))
  let identities ← morphismId.zipIdx.mapM fun (row, object) => do expect (← index row object)
  let composition ← morphisms.mapM fun left => morphisms.mapM fun right =>
    if left.target = right.source then arrowSlot morphismId left.source right.target
    else .ok none
  return ⟨morphisms, identities, composition, morphismId⟩

/-- The loop of `monotone_object_path`: the given number of objects after an object. -/
def objectsAfter (objectCount : ℕ) : ℕ → ℕ → Draw (List ℕ)
  | 0, _ => pure []
  | steps + 1, current => do
    let remaining := objectCount - (current + 1)
    let next := current + (← Draw.nextUsize (remaining + 1))
    return next :: (← objectsAfter objectCount steps next)

/-- `monotone_object_path`. -/
def monotoneObjectPath (objectCount pathLen : ℕ) : Draw (List ℕ) := do
  let current ← Draw.nextUsize objectCount
  return current :: (← objectsAfter objectCount (max pathLen 2 - 1) current)

section Tasks

variable (overflowChecks : Bool) (category : GeneratedThinCategory)

/-- `composable_triple`. -/
def composableTriple : Draw (ℕ × ℕ × ℕ) := do
  let objects ← monotoneObjectPath category.identities.length 4
  let arrow : ℕ → Run ℕ := fun i => do
    arrowId category.morphismId (← index objects i) (← index objects (i + 1))
  StateT.lift do return (← arrow 0, ← arrow 1, ← arrow 2)

/-- The image of a morphism under a map of the objects. -/
def arrowImage (objectMap : List ℕ) (morphism : RuliadCategoryMorphism) : Run ℕ := do
  let source ← index objectMap morphism.source
  let target ← index objectMap morphism.target
  arrowId category.morphismId source target

/-- The functor that a shift gives. -/
def shiftFunctor (shift : ℕ) : Run RuliadCategoryFunctor := do
  let objectCount := category.identities.length
  let objectMap := (List.range objectCount).map fun object =>
    min (saturatingAdd object shift) (objectCount - 1)
  let morphismMap ← category.morphisms.mapM (arrowImage category objectMap)
  return ⟨"shift_" ++ decimal shift, objectMap, morphismMap⟩

/-- `generated_shift_functor`. -/
def generatedShiftFunctor : Draw RuliadCategoryFunctor := do
  let shift ← Draw.rangeUsize overflowChecks 0 (category.identities.length - 1)
  StateT.lift (shiftFunctor category shift)

/-- `morphism_name`. -/
def morphismName (id : ℕ) : String :=
  (category.morphisms[id]?.map (·.name)).getD ("m?" ++ decimal id)

/-- The loop of `category_path_proof_steps`. -/
def pathProofSteps (current : ℕ) : List ℕ → List String
  | [] => []
  | next :: rest =>
    match composePair category.composition current next with
    | some composed => (morphismName category current ++ "*" ++ morphismName category next ++ "=" ++
        morphismName category composed) :: pathProofSteps composed rest
    | none => pathProofSteps current rest

/-- `category_path_proof_steps`. -/
def categoryPathProofSteps : List ℕ → List String
  | [] => []
  | current :: rest => pathProofSteps category current rest

structure GeneratedCategoryTaskFields where
  lhs : ℕ
  rhs : ℕ
  proofSteps : List String
  functor : Option RuliadCategoryFunctor
  naturality : Option RuliadNaturalityCheck

/-- The fields of `compose_category_path`. -/
def composeFields (path : List ℕ) (composed : ℕ) : GeneratedCategoryTaskFields :=
  ⟨composed, composed, categoryPathProofSteps category path, none, none⟩

/-- The fields of `verify_category_law`. -/
def lawFields : TryDraw GeneratedCategoryTaskFields := do
  let (first, second, third) ← composableTriple category
  let pair := composePair category.composition
  let fg ← TryDraw.okOr (pair first second) "generated invalid category law lhs"
  let gh ← TryDraw.okOr (pair second third) "generated invalid category law rhs"
  let lhs ← TryDraw.okOr (pair fg third) "generated invalid category law lhs fold"
  let rhs ← TryDraw.okOr (pair first gh) "generated invalid category law rhs fold"
  let name := morphismName category
  return ⟨lhs, rhs, ["al:" ++ name fg ++ ">" ++ name lhs, "ar:" ++ name gh ++ ">" ++ name rhs],
    none, none⟩

/-- The second morphism of a path, or the identity at the end of the first. -/
def secondArrow (path : List ℕ) (first : ℕ) : Run ℕ :=
  match path[1]? with
  | some second => .ok second
  | none => do index category.identities (← index category.morphisms first).target

/-- The fields of `verify_functor_preservation`. -/
def functorFields (path : List ℕ) : TryDraw GeneratedCategoryTaskFields := do
  let functor ← generatedShiftFunctor overflowChecks category
  let first ← TryDraw.ofRun (index path 0)
  let second ← TryDraw.ofRun (secondArrow category path first)
  let pair := composePair category.composition
  let composed ← TryDraw.okOr (pair first second) "generated invalid functor path"
  let lhs ← TryDraw.ofRun (index functor.morphismMap composed)
  let firstImage ← TryDraw.ofRun (index functor.morphismMap first)
  let secondImage ← TryDraw.ofRun (index functor.morphismMap second)
  let rhs ← TryDraw.okOr (pair firstImage secondImage) "generated invalid functor composition"
  let name := morphismName category
  return ⟨lhs, rhs, ["F(" ++ name first ++ "*" ++ name second ++ ")=" ++ name lhs,
    "F(" ++ name first ++ ")*F(" ++ name second ++ ")=" ++ name rhs], some functor, none⟩

/-- The components of the transformation from the identity to the functor. -/
def naturalityComponents (functor : RuliadCategoryFunctor) : Run (List ℕ) :=
  (List.range category.identities.length).mapM fun object => do
    arrowId category.morphismId object (← index functor.objectMap object)

/-- The morphism of a naturality square, and its two paths. -/
def naturalitySquare (functor : RuliadCategoryFunctor) (path : List ℕ) :
    Run (RuliadNaturalityCheck × RuliadCategoryMorphism) := do
  let components ← naturalityComponents category functor
  let sourceMorphism := path.head?.getD (← index category.identities 0)
  let morphism ← index category.morphisms sourceMorphism
  let leftPath := [← index components morphism.source, ← index functor.morphismMap sourceMorphism]
  let rightPath := [sourceMorphism, ← index components morphism.target]
  return (⟨sourceMorphism, leftPath, rightPath⟩, morphism)

/-- The fields of `verify_naturality_square`. -/
def naturalityFields (path : List ℕ) : TryDraw GeneratedCategoryTaskFields := do
  let functor ← generatedShiftFunctor overflowChecks category
  let (square, morphism) ← TryDraw.ofRun (naturalitySquare category functor path)
  let lhs ← TryDraw.okOr (composePath category.morphisms category.composition square.leftPath)
    "generated invalid naturality left path"
  let rhs ← TryDraw.okOr (composePath category.morphisms category.composition square.rightPath)
    "generated invalid naturality right path"
  let name := morphismName category
  return ⟨lhs, rhs,
    ["L=F(" ++ name square.sourceMorphism ++ ")@e" ++ decimal morphism.source ++ "=" ++ name lhs,
      "R=e" ++ decimal morphism.target ++ "@" ++ name square.sourceMorphism ++ "=" ++ name rhs],
    some functor, some square⟩

/-- `generated_category_task_fields`. The last branch is unreachable: the task is normalised. -/
def generatedCategoryTaskFields (task : RuliadTaskKind) (path : List ℕ) (composed : ℕ) :
    TryDraw GeneratedCategoryTaskFields :=
  match task with
  | .composeCategoryPath => return composeFields category path composed
  | .verifyCategoryLaw => lawFields category
  | .verifyFunctorPreservation => functorFields overflowChecks category path
  | .verifyNaturalitySquare => naturalityFields overflowChecks category path
  | _ => TryDraw.ofRun (.error .missingKey)

end Tasks

/-- The task that `generate_category_fields` selects. -/
def selectedTask : RuliadTaskKind → RuliadTaskKind
  | .composeCategoryPath => .composeCategoryPath
  | .verifyCategoryLaw => .verifyCategoryLaw
  | .verifyFunctorPreservation => .verifyFunctorPreservation
  | .verifyNaturalitySquare => .verifyNaturalitySquare
  | _ => .composeCategoryPath

/-- The morphisms between the objects of a path. -/
def objectPathArrows (category : GeneratedThinCategory) (objectPath : List ℕ) : Run (List ℕ) := do
  let arrows ← (objectPath.zip objectPath.tail).mapM fun (source, target) =>
    arrowId category.morphismId source target
  if arrows = [] then
    return [← index category.identities (← index objectPath 0)]
  else
    return arrows

/-- The rest of `generate_category_fields`, once the sizes are drawn. -/
def categoryFields (overflowChecks : Bool) (objectCount pathLen : ℕ)
    (category : GeneratedThinCategory) (task : RuliadTaskKind) : TryDraw CategorySpec := do
  let objectPath ← monotoneObjectPath objectCount pathLen
  let path ← TryDraw.ofRun (objectPathArrows category objectPath)
  let composed ← TryDraw.okOr (composePath category.morphisms category.composition path)
    "generated invalid category path"
  let fields ← generatedCategoryTaskFields overflowChecks category task path composed
  return {
    objectCount := objectCount
    morphisms := category.morphisms
    identities := category.identities
    composition := category.composition
    path := path
    composed := composed
    lhs := fields.lhs
    rhs := fields.rhs
    holds := fields.lhs = fields.rhs
    proofSteps := fields.proofSteps
    functor := fields.functor
    naturality := fields.naturality
    task := task }

/-- `generate_category_fields`. -/
def generateCategoryFields (overflowChecks : Bool) (family : RuliadFamilyConfig)
    (task : RuliadTaskKind) : TryDraw CategorySpec := do
  let objectCount ← Draw.rangeOr overflowChecks family.width 3 7
  let category ← TryDraw.ofRun (generatedThinCategory objectCount)
  let steps ← Draw.rangeOr overflowChecks family.steps 3 6
  categoryFields overflowChecks objectCount (max steps 2) category (selectedTask task)

/-! ## The tables -/

/-- The entry of two objects in `morphism_id`. -/
def slot (morphismId : List (List (Option ℕ))) : Map (ℕ × ℕ) ℕ := fun pair =>
  (morphismId[pair.1]?.bind fun row => row[pair.2]?).join

variable {n s t : ℕ} {tables : List RuliadCategoryMorphism × List (List (Option ℕ))}

section Tables

variable {pair : ℕ × ℕ} {pairs todo : List (ℕ × ℕ)}

theorem mem_thinPairs : (s, t) ∈ thinPairs n ↔ s ≤ t ∧ t < n := by
  simp only [thinPairs, mem_flatMap, mem_map, mem_range, mem_range'_1, Prod.mk.injEq]
  constructor
  · rintro ⟨source, hsource, target, ⟨hle, hlt⟩, rfl, rfl⟩
    omega
  · rintro ⟨hle, hlt⟩
    exact ⟨s, by omega, t, by omega, rfl, rfl⟩

theorem nodup_thinPairs (n : ℕ) : (thinPairs n).Nodup := by
  refine nodup_flatMap.2 ⟨fun source _ => ?_, ?_⟩
  · exact List.Nodup.map (fun _ _ h => (Prod.mk.inj h).2) nodup_range'
  · refine nodup_range.pairwise_of_forall_ne fun source _ source' _ hne => ?_
    intro pair hpair hpair'
    obtain ⟨_, -, rfl⟩ := mem_map.1 hpair
    obtain ⟨_, -, heq⟩ := mem_map.1 hpair'
    exact hne (Prod.mk.inj heq).1.symm

/-- What the loops have entered after the given pairs. -/
structure Tables (n : ℕ) (pairs : List (ℕ × ℕ))
    (tables : List RuliadCategoryMorphism × List (List (Option ℕ))) : Prop where
  morphisms : tables.1 = pairs.map fun pair => thinArrow pair.1 pair.2
  length : tables.2.length = n
  row : ∀ row ∈ tables.2, row.length = n
  indexes : Map.Indexes (slot tables.2) pairs

/-- Writing an entry within the table changes the entry of its pair alone. -/
theorem slot_modify {morphismId : List (List (Option ℕ))} (hlength : morphismId.length = n)
    (hrow : ∀ row ∈ morphismId, row.length = n) (hs : pair.1 < n) (ht : pair.2 < n) (id : ℕ) :
    slot (morphismId.modify pair.1 fun row => row.set pair.2 (some id)) =
      Map.insert (slot morphismId) pair id := by
  funext other
  have hget : morphismId[pair.1]? = some morphismId[pair.1] := getElem?_eq_getElem _
  have hlen : morphismId[pair.1].length = n := hrow _ (getElem_mem _)
  by_cases hother : other = pair
  · subst hother
    simp [slot, hget, hlen, ht]
  · rw [Map.insert_of_ne _ _ hother]
    by_cases hfirst : pair.1 = other.1
    · have hsecond : pair.2 ≠ other.2 := fun h => hother (Prod.ext hfirst.symm h.symm)
      simp [slot, ← hfirst, hget, getElem?_set_ne hsecond]
    · simp [slot, hfirst]

theorem Tables.push (h : Tables n pairs tables) (hs : pair.1 < n) (ht : pair.2 < n)
    (hpair : pair ∉ pairs) : Tables n (pairs ++ [pair]) (pushArrow tables pair) where
  morphisms := by simp [pushArrow, h.morphisms]
  length := by simp [pushArrow, h.length]
  row := by
    intro row hrow
    obtain ⟨i, hi, rfl⟩ := getElem_of_mem hrow
    simp only [pushArrow, length_modify] at hi
    have hlen := h.row _ (getElem_mem hi)
    simp only [pushArrow, getElem_modify]
    split_ifs
    · rw [length_set, hlen]
    · exact hlen
  indexes := by
    have hlength : tables.1.length = pairs.length := by simp [h.morphisms]
    rw [pushArrow, slot_modify h.length h.row hs ht, hlength]
    exact h.indexes.concat (h.indexes.eq_none hpair)

theorem Tables.foldl (h : Tables n pairs tables) (hnodup : (pairs ++ todo).Nodup)
    (htodo : ∀ pair ∈ todo, pair.1 < n ∧ pair.2 < n) :
    Tables n (pairs ++ todo) (todo.foldl pushArrow tables) := by
  induction todo generalizing pairs tables with
  | nil => simpa using h
  | cons pair todo ih =>
    obtain ⟨⟨hs, ht⟩, htodo⟩ := forall_mem_cons.1 htodo
    have hpair : pair ∉ pairs := fun hmem =>
      (disjoint_of_nodup_append hnodup) hmem mem_cons_self
    rw [append_cons] at hnodup ⊢
    exact ih (h.push hs ht hpair) hnodup htodo

theorem tables_thinPairs (n : ℕ) : Tables n (thinPairs n) ((thinPairs n).foldl pushArrow
    ([], List.replicate n (List.replicate n none))) := by
  have hslot : slot (List.replicate n (List.replicate n none)) = Map.empty := by
    funext pair
    by_cases hs : pair.1 < n <;> by_cases ht : pair.2 < n <;>
      simp [slot, hs, ht]
  have hempty : Tables n [] ([], List.replicate n (List.replicate n none)) :=
    ⟨rfl, by simp, by simp [mem_replicate], hslot ▸ Map.Indexes.empty⟩
  refine hempty.foldl ((nil_append (thinPairs n)).symm ▸ nodup_thinPairs n) fun pair hpair => ?_
  have := mem_thinPairs.1 hpair
  omega

end Tables

/-! ## The thin category -/

/-- What the tables of a generated category contain. -/
structure Thin (n : ℕ) (category : GeneratedThinCategory) : Prop where
  arrow : ∀ (id : ℕ) (f : RuliadCategoryMorphism), category.morphisms[id]? = some f →
    f = thinArrow f.source f.target ∧ f.source ≤ f.target ∧ f.target < n
  find : ∀ s t, s ≤ t → t < n → ∃ id, arrowId category.morphismId s t = .ok id ∧
    category.morphisms[id]? = some (thinArrow s t)
  unique : ∀ (id id' : ℕ) (f : RuliadCategoryMorphism), category.morphisms[id]? = some f →
    category.morphisms[id']? = some f → id = id'
  identities_length : category.identities.length = n
  identity : ∀ object id : ℕ, category.identities[object]? = some id →
    category.morphisms[id]? = some (thinArrow object object)
  composition_length : category.composition.length = category.morphisms.length
  row_length : ∀ row ∈ category.composition, row.length = category.morphisms.length
  composite : ∀ (left right : ℕ) (f g : RuliadCategoryMorphism),
    category.morphisms[left]? = some f → category.morphisms[right]? = some g →
    (f.target = g.source → ∃ id, composePair category.composition left right = some id ∧
      category.morphisms[id]? = some (thinArrow f.source g.target)) ∧
    (f.target ≠ g.source → composePair category.composition left right = none)

theorem arrowSlot_eq {morphismId : List (List (Option ℕ))} (hlength : morphismId.length = n)
    (hrow : ∀ row ∈ morphismId, row.length = n) (hs : s < n) (ht : t < n) :
    arrowSlot morphismId s t = .ok (slot morphismId (s, t)) := by
  have hs' : s < morphismId.length := hlength ▸ hs
  have ht' : t < morphismId[s].length := (hrow _ (getElem_mem hs')).symm ▸ ht
  simp [arrowSlot, slot, index_of_lt hs', index_of_lt ht', bind, Except.bind, hs', ht']

section Build

variable {id left right : ℕ} {f g : RuliadCategoryMorphism} (h : Tables n (thinPairs n) tables)

include h

theorem Tables.getElem?_eq_some_iff :
    tables.1[id]? = some f ↔ f = thinArrow f.source f.target ∧
      (thinPairs n)[id]? = some (f.source, f.target) := by
  rw [h.morphisms, getElem?_map, Option.map_eq_some_iff]
  constructor
  · rintro ⟨⟨s, t⟩, hpair, rfl⟩
    exact ⟨rfl, hpair⟩
  · rintro ⟨hf, hpair⟩
    exact ⟨_, hpair, hf.symm⟩

/-- Two objects in order have a morphism, which `morphism_id` finds. -/
theorem Tables.find (hst : s ≤ t) (ht : t < n) :
    ∃ id, slot tables.2 (s, t) = some id ∧ tables.1[id]? = some (thinArrow s t) := by
  obtain ⟨id, hid⟩ := mem_iff_getElem?.1 (mem_thinPairs.2 ⟨hst, ht⟩)
  exact ⟨id, (h.indexes _ _).2 hid, h.getElem?_eq_some_iff.2 ⟨rfl, hid⟩⟩

theorem Tables.arrow (hf : tables.1[id]? = some f) :
    f = thinArrow f.source f.target ∧ f.source ≤ f.target ∧ f.target < n := by
  obtain ⟨heq, hpair⟩ := h.getElem?_eq_some_iff.1 hf
  exact ⟨heq, mem_thinPairs.1 (mem_of_getElem? hpair)⟩

theorem Tables.unique (hf : tables.1[left]? = some f) (hf' : tables.1[right]? = some f) :
    left = right := by
  have hleft := (h.indexes _ _).2 (h.getElem?_eq_some_iff.1 hf).2
  have hright := (h.indexes _ _).2 (h.getElem?_eq_some_iff.1 hf').2
  exact Option.some.inj (hleft.symm.trans hright)

/-- The entry of the composition table of two morphisms. -/
theorem Tables.cell_returns (hf : f ∈ tables.1) (hg : g ∈ tables.1) : ∃ cell,
    (if f.target = g.source then arrowSlot tables.2 f.source g.target else .ok none) = .ok cell ∧
    (f.target = g.source → ∃ id, cell = some id ∧
      tables.1[id]? = some (thinArrow f.source g.target)) ∧
    (f.target ≠ g.source → cell = none) := by
  obtain ⟨left, hleft⟩ := mem_iff_getElem?.1 hf
  obtain ⟨right, hright⟩ := mem_iff_getElem?.1 hg
  obtain ⟨-, hfle, hflt⟩ := h.arrow hleft
  obtain ⟨-, hgle, hglt⟩ := h.arrow hright
  split_ifs with heq
  · obtain ⟨id, hslot, hid⟩ := h.find (show f.source ≤ g.target by omega) hglt
    exact ⟨_, arrowSlot_eq h.length h.row (by omega) hglt, fun _ => ⟨id, hslot, hid⟩,
      fun hne => absurd heq hne⟩
  · exact ⟨none, rfl, fun h => absurd h heq, fun _ => rfl⟩

theorem Tables.identities_returns : ∃ identities,
    (tables.2.zipIdx.mapM fun (row, object) => do expect (← index row object)) = .ok identities ∧
    identities.length = n ∧ ∀ object id : ℕ, identities[object]? = some id →
      tables.1[id]? = some (thinArrow object object) := by
  have hrow : ∀ (object : ℕ) (row : List (Option ℕ)), tables.2[object]? = some row →
      ∃ id, (do expect (← index row object)) = .ok id ∧
        tables.1[id]? = some (thinArrow object object) := by
    intro object row hobject
    have hlt : object < n := h.length ▸ (List.getElem?_eq_some_iff.1 hobject).1
    obtain ⟨id, hslot, hid⟩ := h.find le_rfl hlt
    have harrow := arrowSlot_eq h.length h.row hlt hlt
    rw [arrowSlot, index_eq_ok.2 hobject, hslot] at harrow
    exact ⟨id, bind_eq_ok.2 ⟨some id, harrow, rfl⟩, hid⟩
  obtain ⟨identities, hidentities⟩ : ∃ identities, (tables.2.zipIdx.mapM fun (row, object) => do
      expect (← index row object)) = .ok identities := by
    refine mapM_returns ?_
    rintro ⟨row, object⟩ hmem
    obtain ⟨id, hid, -⟩ := hrow object row (mem_zipIdx_iff_getElem?.1 hmem)
    exact ⟨id, hid⟩
  refine ⟨identities, hidentities, ?_, fun object id hid => ?_⟩
  · rw [length_of_mapM hidentities, length_zipIdx, h.length]
  · obtain ⟨⟨row, object'⟩, hzip, hid'⟩ := getElem?_of_mapM hidentities hid
    rw [getElem?_zipIdx, Option.map_eq_some_iff] at hzip
    obtain ⟨row', hget, heq⟩ := hzip
    obtain ⟨rfl, rfl⟩ := Prod.mk.inj heq
    obtain ⟨id', hid'', harrow⟩ := hrow object row' hget
    rw [Nat.zero_add] at hid'
    obtain rfl : id' = id := Except.ok.inj (hid''.symm.trans hid')
    exact harrow

end Build

/-- **The generator builds a thin category.** -/
theorem generatedThinCategory_thin (n : ℕ) :
    ∃ category, generatedThinCategory n = .ok category ∧ Thin n category := by
  have htables := tables_thinPairs n
  unfold generatedThinCategory
  generalize (thinPairs n).foldl pushArrow ([], List.replicate n (List.replicate n none)) = tables
    at htables
  obtain ⟨identities, hidentities, hlength, hidentity⟩ := htables.identities_returns
  obtain ⟨composition, hcomposition⟩ : ∃ composition, (tables.1.mapM fun left =>
      tables.1.mapM fun right => if left.target = right.source then
        arrowSlot tables.2 left.source right.target else .ok none) = .ok composition :=
    mapM_returns fun f hf => mapM_returns fun g hg => by
      obtain ⟨cell, hcell, -⟩ := htables.cell_returns hf hg
      exact ⟨cell, hcell⟩
  refine ⟨⟨tables.1, identities, composition, tables.2⟩, ?_, ?_⟩
  · exact bind_eq_ok.2 ⟨identities, hidentities, bind_eq_ok.2 ⟨composition, hcomposition, rfl⟩⟩
  · exact {
      arrow := fun id f hf => htables.arrow hf
      find := by
        intro s t hst ht
        obtain ⟨id, hslot, hid⟩ := htables.find hst ht
        refine ⟨id, ?_, hid⟩
        rw [arrowId, arrowSlot_eq htables.length htables.row (by omega) ht, hslot]
        rfl
      unique := fun id id' f hf hf' => htables.unique hf hf'
      identities_length := hlength
      identity := hidentity
      composition_length := length_of_mapM hcomposition
      row_length := by
        intro row hrow
        obtain ⟨i, hi⟩ := mem_iff_getElem?.1 hrow
        obtain ⟨f, -, hf⟩ := getElem?_of_mapM hcomposition hi
        exact length_of_mapM hf
      composite := by
        intro left right f g hf hg
        have hleft : left < composition.length := by
          rw [length_of_mapM hcomposition]
          exact (List.getElem?_eq_some_iff.1 hf).1
        obtain ⟨f', hf', hrow⟩ :=
          getElem?_of_mapM hcomposition (getElem?_eq_getElem hleft)
        obtain rfl : f = f' := Option.some.inj (hf.symm.trans hf')
        have hright : right < composition[left].length := by
          rw [length_of_mapM hrow]
          exact (List.getElem?_eq_some_iff.1 hg).1
        obtain ⟨g', hg', hcell⟩ := getElem?_of_mapM hrow (getElem?_eq_getElem hright)
        obtain rfl : g = g' := Option.some.inj (hg.symm.trans hg')
        obtain ⟨cell, hcell', hspec⟩ := htables.cell_returns (mem_of_getElem? hf)
          (mem_of_getElem? hg)
        obtain rfl : cell = composition[left][right] := Except.ok.inj (hcell'.symm.trans hcell)
        rwa [show composePair composition left right = composition[left][right] by
          simp [composePair, hleft, hright]] }

end BurnDragon.Ruliad.Category
