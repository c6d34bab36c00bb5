import Mathlib

/-!
# Searching for cycles with a stack

A depth-first search that keeps the nodes it is inside of, and gives up at a node it is inside of already,
gives up exactly at the nodes that are `Blocked`: those from which a node of the stack or a cycle can be
reached. `blocked_iff` is the step of the search, and started with an empty stack it finds the nodes that
reach a cycle (`blocked_empty`).
-/

namespace BurnDragon.Graph

open Relation

variable {α : Type*} {r : α → α → Prop} {stack : Set α} {x : α}

/-- A cycle can be reached from the node. -/
def ReachesCycle (r : α → α → Prop) (x : α) : Prop :=
  ∃ y, ReflTransGen r x y ∧ TransGen r y y

/-- A node of the stack or a cycle can be reached from the node. -/
def Blocked (r : α → α → Prop) (stack : Set α) (x : α) : Prop :=
  (∃ y ∈ stack, ReflTransGen r x y) ∨ ReachesCycle r x

theorem ReachesCycle.head {y : α} (hxy : r x y) (h : ReachesCycle r y) : ReachesCycle r x := by
  obtain ⟨z, hyz, hz⟩ := h
  exact ⟨z, .head hxy hyz, hz⟩

theorem blocked_of_mem (hx : x ∈ stack) : Blocked r stack x := .inl ⟨x, hx, .refl⟩

theorem blocked_empty : Blocked r ∅ x ↔ ReachesCycle r x :=
  or_iff_right fun ⟨_, hy, _⟩ => hy

/-- A node outside the stack is blocked when one of its successors is, with the node on the stack. -/
theorem blocked_iff (hx : x ∉ stack) :
    Blocked r stack x ↔ ∃ y, r x y ∧ Blocked r (insert x stack) y := by
  constructor
  · rintro (⟨z, hz, hxz⟩ | ⟨z, hxz, hcycle⟩)
    · rcases ReflTransGen.cases_head hxz with rfl | ⟨y, hxy, hyz⟩
      · exact absurd hz hx
      · exact ⟨y, hxy, .inl ⟨z, .inr hz, hyz⟩⟩
    · rcases ReflTransGen.cases_head hxz with rfl | ⟨y, hxy, hyz⟩
      · obtain ⟨y, hxy, hyx⟩ := TransGen.head'_iff.1 hcycle
        exact ⟨y, hxy, .inl ⟨x, .inl rfl, hyx⟩⟩
      · exact ⟨y, hxy, .inr ⟨z, hyz, hcycle⟩⟩
  · rintro ⟨y, hxy, ⟨z, rfl | hz, hyz⟩ | hcycle⟩
    · exact .inr ⟨z, .refl, .head' hxy hyz⟩
    · exact .inl ⟨z, hz, .head hxy hyz⟩
    · exact .inr (hcycle.head hxy)

/-- The nodes that the search is not inside of. -/
def outside [Fintype α] [DecidableEq α] (stack : List α) : Finset α :=
  Finset.univ.filter (· ∉ stack)

/-- Entering a node leaves fewer nodes to enter. -/
theorem card_outside_lt [Fintype α] [DecidableEq α] {stack : List α} (hx : x ∉ stack) :
    (outside (stack ++ [x])).card < (outside stack).card := by
  refine Finset.card_lt_card ⟨fun y hy => ?_, fun hsub => ?_⟩
  · simp only [outside, Finset.mem_filter, Finset.mem_univ, true_and, List.mem_append,
      not_or] at hy ⊢
    exact hy.1
  · have hmem : x ∈ outside (stack ++ [x]) := hsub (by simp [outside, hx])
    simp [outside] at hmem

theorem card_outside_le [Fintype α] [DecidableEq α] (stack : List α) :
    (outside stack).card ≤ Fintype.card α := Finset.card_le_univ _

end BurnDragon.Graph
