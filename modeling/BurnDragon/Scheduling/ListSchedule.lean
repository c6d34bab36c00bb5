import Mathlib

/-!
# List schedules

Tasks of unit length run on machines, and a task needs other tasks to be done before it
(`TaskGraph`). A list scheduler goes from tick to tick and lets every machine take one ready task.
`PartialSchedule` is what holds of the events before a tick: no task twice, no machine twice in one
tick, every task strictly after what it needs, and no empty tick. A tick with ready tasks keeps it
(`PartialSchedule.append_tick`), there is a ready task while any is left (`PartialSchedule.exists_ready`), and
a schedule with as many events as tasks has done every task once (`PartialSchedule.done_iff`).
-/

namespace BurnDragon.Scheduling

open List

variable {T M : Type*}

/-- Finitely many tasks with their machines. The rank goes down from a task to what it needs, so the
needs have no cycle. -/
structure TaskGraph (T M : Type*) where
  tasks : Finset T
  machine : T → M
  needs : T → T → Prop
  rank : T → ℕ
  mem_of_needs : ∀ {a b : T}, needs a b → a ∈ tasks → b ∈ tasks
  rank_lt : ∀ {a b : T}, needs a b → rank b < rank a

variable {graph : TaskGraph T M} {tick : ℕ} {events : List (ℕ × T)}

/-- A task has run at some tick. -/
def Done (events : List (ℕ × T)) (a : T) : Prop := ∃ k, (k, a) ∈ events

theorem done_iff_mem {a : T} : Done events a ↔ a ∈ events.map Prod.snd := by
  simp [Done]

/-- A task that may run next. -/
structure Ready (graph : TaskGraph T M) (events : List (ℕ × T)) (a : T) : Prop where
  mem : a ∈ graph.tasks
  not_done : ¬Done events a
  needs : ∀ b, graph.needs a b → Done events b

/-- The events of the ticks before `tick`. -/
structure PartialSchedule (graph : TaskGraph T M) (tick : ℕ) (events : List (ℕ × T)) : Prop where
  nodup : (events.map Prod.snd).Nodup
  mem : ∀ event ∈ events, event.2 ∈ graph.tasks
  lt : ∀ event ∈ events, event.1 < tick
  after : ∀ event ∈ events, ∀ b, graph.needs event.2 b → ∃ k < event.1, (k, b) ∈ events
  machine : ∀ event ∈ events, ∀ event' ∈ events, event.1 = event'.1 →
    graph.machine event.2 = graph.machine event'.2 → event = event'
  busy : ∀ k < tick, ∃ a, (k, a) ∈ events
  sorted : events.Pairwise fun event event' => event.1 ≤ event'.1

namespace PartialSchedule

theorem start : PartialSchedule graph 0 [] where
  nodup := nodup_nil
  mem _ h := absurd h not_mem_nil
  lt _ h := absurd h not_mem_nil
  after _ h := absurd h not_mem_nil
  machine _ h := absurd h not_mem_nil
  busy k hk := absurd hk (Nat.not_lt_zero k)
  sorted := .nil

/-- A tick in which some machines take a ready task each. -/
theorem append_tick (h : PartialSchedule graph tick events) {chosen : List T} (hne : chosen ≠ [])
    (hready : ∀ a ∈ chosen, Ready graph events a) (hmachine : (chosen.map graph.machine).Nodup) :
    PartialSchedule graph (tick + 1) (events ++ chosen.map fun a => (tick, a)) := by
  have hnew : ∀ event ∈ chosen.map fun a => (tick, a), event.1 = tick ∧ event.2 ∈ chosen := by
    intro event hevent
    obtain ⟨a, ha, rfl⟩ := mem_map.1 hevent
    exact ⟨rfl, ha⟩
  have hsnd : (chosen.map fun a => (tick, a)).map Prod.snd = chosen := by
    rw [map_map]
    exact map_id chosen
  refine ⟨?_, fun event hevent => ?_, fun event hevent => ?_, fun event hevent b hb => ?_,
    fun event hevent event' hevent' htick hsame => ?_, fun k hk => ?_, ?_⟩
  · rw [map_append, hsnd]
    refine List.Nodup.append h.nodup hmachine.of_map fun a hdone ha => ?_
    exact (hready a ha).not_done (done_iff_mem.2 hdone)
  · rcases mem_append.1 hevent with hevent | hevent
    · exact h.mem event hevent
    · exact (hready _ (hnew event hevent).2).mem
  · rcases mem_append.1 hevent with hevent | hevent
    · exact (h.lt event hevent).trans (Nat.lt_succ_self tick)
    · exact (hnew event hevent).1 ▸ Nat.lt_succ_self tick
  · rcases mem_append.1 hevent with hevent | hevent
    · obtain ⟨k, hk, hmem⟩ := h.after event hevent b hb
      exact ⟨k, hk, mem_append_left _ hmem⟩
    · obtain ⟨htick, hchosen⟩ := hnew event hevent
      obtain ⟨k, hmem⟩ := (hready _ hchosen).needs b hb
      exact ⟨k, htick ▸ h.lt _ hmem, mem_append_left _ hmem⟩
  · rcases mem_append.1 hevent with hevent | hevent <;>
      rcases mem_append.1 hevent' with hevent' | hevent'
    · exact h.machine event hevent event' hevent' htick hsame
    · exact absurd (htick.trans (hnew event' hevent').1) (h.lt event hevent).ne
    · exact absurd (htick.symm.trans (hnew event hevent).1) (h.lt event' hevent').ne
    · refine Prod.ext htick ?_
      exact inj_on_of_nodup_map hmachine (hnew event hevent).2 (hnew event' hevent').2 hsame
  · rcases Nat.lt_succ_iff_lt_or_eq.1 hk with hk | rfl
    · obtain ⟨a, ha⟩ := h.busy k hk
      exact ⟨a, mem_append_left _ ha⟩
    · obtain ⟨a, ha⟩ := exists_mem_of_ne_nil chosen hne
      exact ⟨a, mem_append_right _ (mem_map_of_mem ha)⟩
  · exact pairwise_append.2 ⟨h.sorted, pairwise_map.2 (pairwise_of_forall fun _ _ => le_rfl),
      fun event hevent event' hevent' => (h.lt event hevent).le.trans (hnew event' hevent').1.ge⟩

/-- A task runs at one tick. -/
theorem tick_unique (h : PartialSchedule graph tick events) {k k' : ℕ} {a : T}
    (hk : (k, a) ∈ events) (hk' : (k', a) ∈ events) : k = k' :=
  congrArg Prod.fst (inj_on_of_nodup_map h.nodup hk hk' rfl)

/-- **Causality**: a task runs strictly after what it needs. -/
theorem lt_of_needs (h : PartialSchedule graph tick events) {k k' : ℕ} {a b : T}
    (ha : (k, a) ∈ events) (hb : (k', b) ∈ events) (hneeds : graph.needs a b) : k' < k := by
  obtain ⟨k'', hlt, hmem⟩ := h.after _ ha b hneeds
  exact h.tick_unique hb hmem ▸ hlt

section Complete

variable [DecidableEq T]

section

variable (h : PartialSchedule graph tick events)
include h

theorem toFinset_subset :
    (events.map Prod.snd).toFinset ⊆ graph.tasks := by
  intro a ha
  obtain ⟨event, hevent, rfl⟩ := mem_map.1 (mem_toFinset.1 ha)
  exact h.mem event hevent

theorem card_toFinset :
    (events.map Prod.snd).toFinset.card = events.length := by
  rw [toFinset_card_of_nodup h.nodup, length_map]

/-- **No deadlock**: while a task is left, one is ready. -/
theorem exists_ready (hlt : events.length < graph.tasks.card) : ∃ a, Ready graph events a := by
  have hleft : (graph.tasks \ (events.map Prod.snd).toFinset).Nonempty := by
    rw [← Finset.card_pos, Finset.card_sdiff_of_subset h.toFinset_subset, h.card_toFinset]
    omega
  obtain ⟨a, ha, hmin⟩ := Finset.exists_min_image _ graph.rank hleft
  rw [Finset.mem_sdiff, mem_toFinset, ← done_iff_mem] at ha
  refine ⟨a, ha.1, ha.2, fun b hb => ?_⟩
  by_contra hnot
  have hb' : b ∈ graph.tasks \ (events.map Prod.snd).toFinset := by
    rw [Finset.mem_sdiff, mem_toFinset, ← done_iff_mem]
    exact ⟨graph.mem_of_needs hb ha.1, hnot⟩
  exact absurd (graph.rank_lt hb) (hmin b hb').not_gt

/-- **A full schedule** has done every task. -/
theorem done_iff (hge : graph.tasks.card ≤ events.length) (a : T) :
    Done events a ↔ a ∈ graph.tasks := by
  have hall : (events.map Prod.snd).toFinset = graph.tasks :=
    Finset.eq_of_subset_of_card_le h.toFinset_subset (h.card_toFinset ▸ hge)
  rw [done_iff_mem, ← mem_toFinset, hall]

end

/-- In a full schedule a machine is busy once for each of its tasks. -/
theorem countP_machine [DecidableEq M] (h : PartialSchedule graph tick events)
    (hge : graph.tasks.card ≤ events.length) (m : M) :
    events.countP (fun event => graph.machine event.2 = m) =
      (graph.tasks.filter fun a => graph.machine a = m).card := by
  have hall : (events.map Prod.snd).toFinset = graph.tasks :=
    Finset.eq_of_subset_of_card_le h.toFinset_subset (h.card_toFinset ▸ hge)
  have hfilter : graph.tasks.filter (fun a => graph.machine a = m) =
      ((events.map Prod.snd).filter fun a => graph.machine a = m).toFinset := by
    rw [← hall]
    ext a
    simp
  rw [hfilter, toFinset_card_of_nodup (h.nodup.filter _), ← countP_eq_length_filter, countP_map]
  rfl

end Complete

end PartialSchedule

end BurnDragon.Scheduling
