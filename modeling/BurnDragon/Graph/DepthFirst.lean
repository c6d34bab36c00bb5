import BurnDragon.Rust.Machine

/-!
# Depth-first closure

The nodes that a depth-first search reaches in a graph given by its successor function. The search
keeps the increasing list of the nodes seen so far and does not enter a seen node, so it ends on
graphs with cycles too; `fuel` bounds the depth of its recursion.

With enough fuel the search from `x` with nothing seen collects exactly the nodes reachable from `x`
(`mem_depthFirst_nil`). Enough is one more than the number of the unseen nodes that have successors:
`visit` is the same recursion, undefined where the fuel runs out, and it does not run out
(`visit_eq_some`).
-/

namespace BurnDragon.Graph

open Rust Finset

variable {α : Type*} [LinearOrder α]

/-- Add `x` and what is reachable from it through unseen nodes to the nodes seen. -/
def depthFirst (succ : α → List α) : ℕ → α → List α → List α
  | 0, _, seen => seen
  | fuel + 1, x, seen =>
    if x ∈ seen then
      seen
    else
      (succ x).foldl (fun seen y => depthFirst succ fuel y seen) (insertSorted x seen)

/-- `y` is a successor of `x`. -/
def Edge (succ : α → List α) (x y : α) : Prop := y ∈ succ x

/-- `y` is reachable from `x`. -/
def Reaches (succ : α → List α) : α → α → Prop := Relation.ReflTransGen (Edge succ)

variable {succ : α → List α} {seen : List α}

theorem pairwise_depthFirst (fuel : ℕ) (x : α) (hs : seen.Pairwise (· < ·)) :
    (depthFirst succ fuel x seen).Pairwise (· < ·) := by
  induction fuel generalizing x seen with
  | zero => exact hs
  | succ fuel ih =>
    rw [depthFirst]
    split_ifs
    · exact hs
    · have hfold : ∀ (ys : List α) {seen : List α}, seen.Pairwise (· < ·) →
          (ys.foldl (fun seen y => depthFirst succ fuel y seen) seen).Pairwise (· < ·) := by
        intro ys
        induction ys with
        | nil => exact fun h => h
        | cons y ys ihys => exact fun h => ihys (ih y h)
      exact hfold _ (pairwise_insertSorted hs)

/-- The search adds only nodes that are reachable from its start. -/
theorem reaches_of_mem_depthFirst (fuel : ℕ) (x : α) {z : α}
    (hz : z ∈ depthFirst succ fuel x seen) : z ∈ seen ∨ Reaches succ x z := by
  induction fuel generalizing x seen with
  | zero => exact .inl hz
  | succ fuel ih =>
    rw [depthFirst] at hz
    split_ifs at hz
    · exact .inl hz
    · have hfold : ∀ (ys : List α) {seen : List α}, (∀ y ∈ ys, Edge succ x y) →
          z ∈ ys.foldl (fun seen y => depthFirst succ fuel y seen) seen →
          z ∈ seen ∨ Reaches succ x z := by
        intro ys
        induction ys with
        | nil => exact fun _ h => .inl h
        | cons y ys ihys =>
          intro seen hys h
          rcases ihys (fun w hw => hys w (by simp [hw])) h with h | h
          · exact (ih y h).imp_right fun h => .head (hys y (by simp)) h
          · exact .inr h
      rcases hfold _ (fun y hy => hy) hz with h | h
      · obtain rfl | h := mem_insertSorted.1 h
        · exact .inr .refl
        · exact .inl h
      · exact .inr h

/-- What a search from `x` with the result `found` guarantees: it kept what was seen, found `x`, and
found every successor of every node that it added. -/
structure Closed (succ : α → List α) (x : α) (seen found : List α) : Prop where
  subset : seen ⊆ found
  start : x ∈ found
  step : ∀ y ∈ found, y ∉ seen → ∀ z ∈ succ y, z ∈ found

/-- The nodes of `nodes` that are not seen yet. -/
def unseen (nodes : Finset α) (seen : List α) : Finset α := nodes.filter (· ∉ seen)

variable {nodes : Finset α}

theorem unseen_subset {seen' : List α} (h : seen ⊆ seen') :
    unseen nodes seen' ⊆ unseen nodes seen := fun y hy => by
  simp only [unseen, mem_filter] at hy ⊢
  exact ⟨hy.1, fun hseen => hy.2 (h hseen)⟩

/-- Entering a node leaves fewer unseen ones. -/
theorem card_unseen_lt {seen' : List α} {x : α} (hx : x ∈ nodes) (hseen : x ∉ seen)
    (h : insertSorted x seen ⊆ seen') :
    (unseen nodes seen').card < (unseen nodes seen).card := by
  have hxn : x ∈ unseen nodes seen := by
    simp only [unseen, mem_filter]
    exact ⟨hx, hseen⟩
  have hsub : unseen nodes seen' ⊆ (unseen nodes seen).erase x := by
    refine subset_erase.2 ⟨unseen_subset fun z hz => ?_, ?_⟩
    · exact h (mem_insertSorted.2 (.inr hz))
    · simp only [unseen, mem_filter, not_and, not_not]
      exact fun _ => h (mem_insertSorted.2 (.inl rfl))
  have hle := card_le_card hsub
  rw [card_erase_of_mem hxn] at hle
  have hpos := card_pos.2 ⟨x, hxn⟩
  omega

/-- The recursion of `depthFirst`, without a result where the fuel runs out. -/
def visit (succ : α → List α) : ℕ → α → List α → Option (List α)
  | 0, _, _ => none
  | fuel + 1, x, seen =>
    if x ∈ seen then
      some seen
    else
      (succ x).foldlM (fun seen y => visit succ fuel y seen) (insertSorted x seen)

/-- **The search is complete**: with more fuel than unseen nodes that have successors, the recursion
ends and its result is closed. -/
theorem visit_eq_some (hnodes : ∀ x, succ x ≠ [] → x ∈ nodes) (fuel : ℕ) (x : α)
    (hfuel : (unseen nodes seen).card < fuel) :
    visit succ fuel x seen = some (depthFirst succ fuel x seen) ∧
      Closed succ x seen (depthFirst succ fuel x seen) := by
  induction fuel generalizing x seen with
  | zero => omega
  | succ fuel ih =>
    rw [visit, depthFirst]
    split_ifs with hx
    · exact ⟨rfl, fun _ h => h, hx, fun y hy hy' => absurd hy hy'⟩
    · -- the searches from the successors start from at least `x :: seen`, so they have fuel left
      have hfold : ∀ (ys : List α) {seen' : List α}, insertSorted x seen ⊆ seen' →
          (ys ≠ [] → succ x ≠ []) →
          let found := ys.foldl (fun seen y => depthFirst succ fuel y seen) seen'
          ys.foldlM (fun seen y => visit succ fuel y seen) seen' = some found ∧
            seen' ⊆ found ∧ (∀ y ∈ ys, y ∈ found) ∧
              ∀ y ∈ found, y ∉ seen' → ∀ z ∈ succ y, z ∈ found := by
        intro ys
        induction ys with
        | nil => exact fun _ _ => ⟨rfl, fun _ h => h, by simp, fun y hy hy' => absurd hy hy'⟩
        | cons y ys ihys =>
          intro seen' hseen' hys
          have hlt : (unseen nodes seen').card < fuel := by
            have := card_unseen_lt (hnodes x (hys (by simp))) hx hseen'
            omega
          obtain ⟨hvisit, hy⟩ := ih y hlt
          obtain ⟨hfoldlM, h₁, h₂, h₃⟩ :=
            ihys (fun z hz => hy.subset (hseen' hz)) fun _ => hys (by simp)
          refine ⟨?_, fun z hz => h₁ (hy.subset hz), ?_, fun w hw hw' z hz => ?_⟩
          · rw [List.foldlM_cons, hvisit]
            exact hfoldlM
          · rintro z (_ | ⟨_, hz⟩)
            · exact h₁ hy.start
            · exact h₂ z hz
          · by_cases hmid : w ∈ depthFirst succ fuel y seen'
            · exact h₁ (hy.step w hmid hw' z hz)
            · exact h₃ w hw hmid z hz
      obtain ⟨hfoldlM, h₁, h₂, h₃⟩ := hfold (succ x) (fun _ h => h) fun h => h
      refine ⟨hfoldlM, fun z hz => h₁ (mem_insertSorted.2 (.inr hz)),
        h₁ (mem_insertSorted.2 (.inl rfl)), fun y hy hy' z hz => ?_⟩
      by_cases hyx : y = x
      · exact h₂ z (hyx ▸ hz)
      · exact h₃ y hy (fun h => (mem_insertSorted.1 h).elim hyx hy') z hz

omit [LinearOrder α] in
/-- A set of nodes that is closed under successors and contains `x` contains what `x` reaches. -/
theorem mem_of_reaches {x y : α} {found : List α} (h : Closed succ x [] found)
    (hy : Reaches succ x y) : y ∈ found := by
  induction hy with
  | refl => exact h.start
  | tail _ hedge ih => exact h.step _ ih (by simp) _ hedge

/-- **The search with nothing seen collects exactly the reachable nodes.** -/
theorem mem_depthFirst_nil (hnodes : ∀ x, succ x ≠ [] → x ∈ nodes) {fuel : ℕ}
    (hfuel : nodes.card < fuel) {x y : α} :
    y ∈ depthFirst succ fuel x [] ↔ Reaches succ x y := by
  constructor
  · intro h
    simpa using reaches_of_mem_depthFirst fuel x h
  · refine mem_of_reaches (visit_eq_some hnodes fuel x (lt_of_le_of_lt ?_ hfuel)).2
    exact card_le_card (filter_subset _ _)

/-- With enough fuel, the recursion from `x` with nothing seen ends with the reachable nodes. -/
theorem visit_nil_eq_some (hnodes : ∀ x, succ x ≠ [] → x ∈ nodes) {fuel fuel' : ℕ}
    (hfuel : nodes.card < fuel) (hfuel' : nodes.card < fuel') (x : α) :
    visit succ fuel x [] = some (depthFirst succ fuel' x []) := by
  have hcard : (unseen nodes []).card ≤ nodes.card :=
    card_le_card (filter_subset _ _)
  rw [(visit_eq_some hnodes fuel x (hcard.trans_lt hfuel)).1]
  congr 1
  refine (pairwise_depthFirst _ _ .nil).eq_of_mem_iff (pairwise_depthFirst _ _ .nil) fun y => ?_
  rw [mem_depthFirst_nil hnodes hfuel, mem_depthFirst_nil hnodes hfuel']

end BurnDragon.Graph
