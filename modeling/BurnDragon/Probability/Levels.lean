import Mathlib

/-!
# Weights brought under a cap or over a floor

What a weight lacks up to a level is its room, and what it has above is its surplus. `levelDown`
takes the surplus over a cap from the weights and hands it out in proportion to their room;
`levelUp` fills the room under a floor with shares of the surplus. Both keep the total. Where the
mean weight is on the right side of the level there is always enough room, or enough surplus, so no
weight stays above the cap (`levelDown_le`) and none below the floor (`le_levelUp`).
-/

namespace BurnDragon.Probability

open List

variable {K : Type*} [Field K] [LinearOrder K]

/-- What a weight lacks up to a level. -/
def room (level weight : K) : K := max (level - weight) 0

/-- What a weight has above a level. -/
def surplus (level weight : K) : K := max (weight - level) 0

def totalRoom (level : K) (ws : List K) : K := (ws.map (room level)).sum

def totalSurplus (level : K) (ws : List K) : K := (ws.map (surplus level)).sum

/-- The weight after the surpluses over the cap have been handed out in proportion to the room. -/
def levelDown (cap : K) (ws : List K) (w : K) : K :=
  w - surplus cap w + totalSurplus cap ws * room cap w / totalRoom cap ws

/-- The weight after the room under the floor has been filled in proportion to the surpluses. -/
def levelUp (floor : K) (ws : List K) (w : K) : K :=
  w - totalRoom floor ws * surplus floor w / totalSurplus floor ws + room floor w

theorem room_nonneg (level weight : K) : 0 ≤ room level weight := le_max_right ..

theorem surplus_nonneg (level weight : K) : 0 ≤ surplus level weight := le_max_right ..

variable [IsStrictOrderedRing K] {level w : K} {ws : List K}

theorem room_of_le (h : w ≤ level) : room level w = level - w := max_eq_left (sub_nonneg.2 h)

theorem room_of_ge (h : level ≤ w) : room level w = 0 := max_eq_right (sub_nonpos.2 h)

theorem surplus_of_le (h : w ≤ level) : surplus level w = 0 := max_eq_right (sub_nonpos.2 h)

theorem surplus_of_ge (h : level ≤ w) : surplus level w = w - level :=
  max_eq_left (sub_nonneg.2 h)

theorem add_room_eq (level w : K) : w + room level w = level + surplus level w := by
  rcases le_total w level with h | h
  · rw [room_of_le h, surplus_of_le h]
    ring
  · rw [room_of_ge h, surplus_of_ge h]
    ring

theorem totalRoom_nonneg (level : K) (ws : List K) : 0 ≤ totalRoom level ws := by
  refine sum_nonneg fun x hx => ?_
  obtain ⟨w, -, rfl⟩ := mem_map.1 hx
  exact room_nonneg level w

theorem totalSurplus_nonneg (level : K) (ws : List K) : 0 ≤ totalSurplus level ws := by
  refine sum_nonneg fun x hx => ?_
  obtain ⟨w, -, rfl⟩ := mem_map.1 hx
  exact surplus_nonneg level w

/-- **The room and the surplus of weights differ as their total does from that of the level.** -/
theorem sum_add_totalRoom (level : K) (ws : List K) :
    ws.sum + totalRoom level ws = ws.length * level + totalSurplus level ws := by
  induction ws with
  | nil => simp [totalRoom, totalSurplus]
  | cons w ws ih =>
    have hw := add_room_eq level w
    unfold totalRoom totalSurplus at ih ⊢
    rw [map_cons, map_cons, sum_cons, sum_cons, sum_cons, length_cons, Nat.cast_succ]
    linarith

theorem totalSurplus_le_totalRoom (h : ws.sum ≤ ws.length * level) :
    totalSurplus level ws ≤ totalRoom level ws := by
  have := sum_add_totalRoom level ws
  linarith

theorem totalRoom_le_totalSurplus (h : ws.length * level ≤ ws.sum) :
    totalRoom level ws ≤ totalSurplus level ws := by
  have := sum_add_totalRoom level ws
  linarith

/-- No room at all leaves no room to any weight. -/
theorem room_eq_zero (h : totalRoom level ws = 0) (hw : w ∈ ws) : room level w = 0 :=
  le_antisymm (h ▸ single_le_sum (fun x hx => by
    obtain ⟨v, -, rfl⟩ := mem_map.1 hx
    exact room_nonneg level v) _ (mem_map_of_mem hw)) (room_nonneg level w)

/-- A share is at most what it is proportional to, when no more than the total is shared out. -/
theorem share_le {x part total : K} (hpart : 0 ≤ part) (htotal : 0 ≤ total) (h : x ≤ total) :
    x * part / total ≤ part := by
  rcases htotal.eq_or_lt with rfl | hpos
  · rw [div_zero]
    exact hpart
  · rw [div_le_iff₀ hpos, mul_comm part]
    exact mul_le_mul_of_nonneg_right h hpart

omit [IsStrictOrderedRing K] in
/-- The shares add up to what is shared out. -/
theorem sum_shares {f : K → K} {x : K} (h : (ws.map f).sum = 0 → x = 0) :
    (ws.map fun w => x * f w / (ws.map f).sum).sum = x := by
  have hsum : (ws.map fun w => x * f w / (ws.map f).sum).sum =
      x / (ws.map f).sum * (ws.map f).sum := by
    rw [← sum_map_mul_left]
    exact congrArg List.sum (map_congr_left fun w _ => mul_div_right_comm ..)
  rw [hsum]
  by_cases hzero : (ws.map f).sum = 0
  · rw [hzero, mul_zero, h hzero]
  · exact div_mul_cancel₀ x hzero

omit [LinearOrder K] [IsStrictOrderedRing K] in
/-- The total of weights from which some weight is taken and to which some is added. -/
theorem sum_map_sub_add (f g : K → K) (ws : List K) :
    (ws.map fun w => w - f w + g w).sum = ws.sum - (ws.map f).sum + (ws.map g).sum := by
  induction ws with
  | nil => simp
  | cons w ws ih =>
    simp only [map_cons, sum_cons, ih]
    ring

/-! ## Down to a cap -/

section Cap

variable {cap : K}

/-- **No weight stays above the cap.** -/
theorem levelDown_le (h : ws.sum ≤ ws.length * cap) (w : K) : levelDown cap ws w ≤ cap := by
  have hshare := share_le (room_nonneg cap w) (totalRoom_nonneg cap ws)
    (totalSurplus_le_totalRoom h)
  have hw := add_room_eq cap w
  unfold levelDown
  linarith

/-- The weight that is left before the shares are handed out. -/
theorem sub_surplus_le_levelDown (cap : K) (ws : List K) (w : K) :
    w - surplus cap w ≤ levelDown cap ws w :=
  le_add_of_nonneg_right (div_nonneg
    (mul_nonneg (totalSurplus_nonneg cap ws) (room_nonneg cap w)) (totalRoom_nonneg cap ws))

theorem sub_surplus (cap w : K) : w - surplus cap w = min w cap := by
  rcases le_total w cap with h | h
  · rw [surplus_of_le h, sub_zero, min_eq_left h]
  · rw [surplus_of_ge h, sub_sub_cancel, min_eq_right h]

/-- **The total is kept.** -/
theorem sum_levelDown (h : ws.sum ≤ ws.length * cap) :
    (ws.map (levelDown cap ws)).sum = ws.sum := by
  have hnone : totalRoom cap ws = 0 → totalSurplus cap ws = 0 := fun hroom =>
    le_antisymm (hroom ▸ totalSurplus_le_totalRoom h) (totalSurplus_nonneg cap ws)
  have hshares : (ws.map fun w => totalSurplus cap ws * room cap w / totalRoom cap ws).sum =
      totalSurplus cap ws := sum_shares hnone
  unfold levelDown
  rw [sum_map_sub_add, hshares]
  exact sub_add_cancel ..

/-- Without weights above the cap nothing changes. -/
theorem levelDown_eq_self (h : ∀ v ∈ ws, v ≤ cap) (hw : w ∈ ws) : levelDown cap ws w = w := by
  have hnone : totalSurplus cap ws = 0 := sum_eq_zero fun x hx => by
    obtain ⟨v, hv, rfl⟩ := mem_map.1 hx
    exact surplus_of_le (h v hv)
  rw [levelDown, hnone, surplus_of_le (h w hw), zero_mul, zero_div, sub_zero, add_zero]

end Cap

/-! ## Up to a floor -/

section Floor

variable {floor : K}

/-- **No weight stays below the floor.** -/
theorem le_levelUp (h : ws.length * floor ≤ ws.sum) (w : K) : floor ≤ levelUp floor ws w := by
  have hshare := share_le (surplus_nonneg floor w) (totalSurplus_nonneg floor ws)
    (totalRoom_le_totalSurplus h)
  have hw := add_room_eq floor w
  unfold levelUp
  linarith

theorem levelUp_le (floor : K) (ws : List K) (w : K) : levelUp floor ws w ≤ max w floor := by
  have hshare : 0 ≤ totalRoom floor ws * surplus floor w / totalSurplus floor ws := div_nonneg
    (mul_nonneg (totalRoom_nonneg floor ws) (surplus_nonneg floor w))
    (totalSurplus_nonneg floor ws)
  unfold levelUp
  rcases le_total w floor with h | h
  · rw [room_of_le h]
    exact le_max_of_le_right (by linarith)
  · rw [room_of_ge h]
    exact le_max_of_le_left (by linarith)

/-- **The total is kept.** -/
theorem sum_levelUp (h : ws.length * floor ≤ ws.sum) :
    (ws.map (levelUp floor ws)).sum = ws.sum := by
  have hnone : totalSurplus floor ws = 0 → totalRoom floor ws = 0 := fun hsurplus =>
    le_antisymm (hsurplus ▸ totalRoom_le_totalSurplus h) (totalRoom_nonneg floor ws)
  have hshares : (ws.map fun w =>
      totalRoom floor ws * surplus floor w / totalSurplus floor ws).sum = totalRoom floor ws :=
    sum_shares hnone
  unfold levelUp
  rw [sum_map_sub_add, hshares]
  exact sub_add_cancel ..

/-- Without weights below the floor nothing changes. -/
theorem levelUp_eq_self (h : ∀ v ∈ ws, floor ≤ v) (hw : w ∈ ws) : levelUp floor ws w = w := by
  have hnone : totalRoom floor ws = 0 := sum_eq_zero fun x hx => by
    obtain ⟨v, hv, rfl⟩ := mem_map.1 hx
    exact room_of_ge (h v hv)
  rw [levelUp, hnone, room_of_ge (h w hw), zero_mul, zero_div, sub_zero, add_zero]

end Floor

end BurnDragon.Probability
