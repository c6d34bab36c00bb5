import BurnDragon.Scheduling.ListSchedule

/-!
# Timetables

A list scheduler that always takes the task which it prefers follows a timetable when, at every
tick before a horizon, the task of the timetable is ready and preferred to the others, and no
machine without a task has one ready (`Timetable`). The scheduler takes exactly the tasks of the
tick (`Timetable.chosen_iff`), so that its events before the horizon are those of the timetable
(`Follows`).
-/

namespace BurnDragon.Scheduling

variable {T M : Type*}

/-- Times of the tasks that a scheduler with a preference keeps to before the horizon. -/
structure Timetable (graph : TaskGraph T M) (prefers : T → T → Prop) (time : T → ℕ) (horizon : ℕ) :
    Prop where
  needs_lt : ∀ a ∈ graph.tasks, time a < horizon → ∀ b, graph.needs a b → time b < time a
  preferred : ∀ a ∈ graph.tasks, ∀ b ∈ graph.tasks, graph.machine a = graph.machine b →
    time a < horizon → time a ≤ time b → (∀ c, graph.needs b c → time c < time a) → prefers a b
  busy : ∀ t < horizon, ∀ b ∈ graph.tasks, t ≤ time b → (∀ c, graph.needs b c → time c < t) →
    ∃ a ∈ graph.tasks, graph.machine a = graph.machine b ∧ time a = t

/-- The events before the horizon are at the times of their tasks. -/
def Follows (graph : TaskGraph T M) (time : T → ℕ) (horizon tick : ℕ) (events : List (ℕ × T)) :
    Prop :=
  ∀ k < horizon, k < tick → ∀ a, (k, a) ∈ events ↔ a ∈ graph.tasks ∧ time a = k

section Follows

variable {graph : TaskGraph T M} {prefers : T → T → Prop} {time : T → ℕ} {horizon tick : ℕ}
  {events : List (ℕ × T)} {a : T}

theorem follows_zero (events : List (ℕ × T)) : Follows graph time horizon 0 events :=
  fun _ _ hk => absurd hk (Nat.not_lt_zero _)

section

variable (h : Follows graph time horizon tick events)
  (hschedule : PartialSchedule graph tick events) (htick : tick ≤ horizon)
include h hschedule htick

/-- Up to the horizon the tasks with earlier times are done. -/
theorem Follows.done_iff :
    Done events a ↔ a ∈ graph.tasks ∧ time a < tick := by
  constructor
  · rintro ⟨k, hk⟩
    have hlt : k < tick := hschedule.lt _ hk
    obtain ⟨ha, rfl⟩ := (h k (hlt.trans_le htick) hlt a).mp hk
    exact ⟨ha, hlt⟩
  · rintro ⟨ha, hlt⟩
    exact ⟨time a, (h _ (hlt.trans_le htick) hlt a).mpr ⟨ha, rfl⟩⟩

theorem Follows.ready_iff :
    Ready graph events a ↔
      a ∈ graph.tasks ∧ tick ≤ time a ∧ ∀ b, graph.needs a b → time b < tick := by
  constructor
  · rintro ⟨ha, hnot, hneeds⟩
    refine ⟨ha, not_lt.mp fun hlt => hnot ((h.done_iff hschedule htick).mpr ⟨ha, hlt⟩),
      fun b hb => ?_⟩
    exact ((h.done_iff hschedule htick).mp (hneeds b hb)).2
  · rintro ⟨ha, hle, hneeds⟩
    refine ⟨ha, fun hdone => ?_, fun b hb => ?_⟩
    · exact absurd ((h.done_iff hschedule htick).mp hdone).2 hle.not_gt
    · exact (h.done_iff hschedule htick).mpr ⟨graph.mem_of_needs hb ha, hneeds b hb⟩

end

/-- The preferred ready task of a machine is the one of the tick. -/
theorem Timetable.chosen_iff (ht : Timetable graph prefers time horizon)
    (hantisymm : ∀ a b, graph.machine a = graph.machine b → prefers a b → prefers b a → a = b)
    (h : Follows graph time horizon tick events) (hschedule : PartialSchedule graph tick events)
    (htick : tick < horizon) :
    (Ready graph events a ∧
        ∀ b, Ready graph events b → graph.machine a = graph.machine b → prefers a b) ↔
      a ∈ graph.tasks ∧ time a = tick := by
  have hready := fun b => h.ready_iff hschedule htick.le (a := b)
  have hpreferred : ∀ a ∈ graph.tasks, time a = tick → Ready graph events a ∧
      ∀ b, Ready graph events b → graph.machine a = graph.machine b → prefers a b := by
    rintro a ha rfl
    refine ⟨(hready a).mpr ⟨ha, le_rfl, ht.needs_lt a ha htick⟩, fun b hb hmachine => ?_⟩
    obtain ⟨hb, hle, hneeds⟩ := (hready b).mp hb
    exact ht.preferred a ha b hb hmachine htick hle hneeds
  constructor
  · rintro ⟨ha, hfirst⟩
    obtain ⟨hmem, hle, hneeds⟩ := (hready a).mp ha
    obtain ⟨b, hb, hmachine, htime⟩ := ht.busy tick htick a hmem hle hneeds
    obtain ⟨hbready, hbfirst⟩ := hpreferred b hb htime
    obtain rfl := hantisymm a b hmachine.symm (hfirst b hbready hmachine.symm)
      (hbfirst a ha hmachine)
    exact ⟨hb, htime⟩
  · rintro ⟨ha, htime⟩
    exact hpreferred a ha htime

section

variable (h : Follows graph time horizon tick events)
  (hschedule : PartialSchedule graph tick events)
include h hschedule

/-- The timetable is followed in the next tick too. -/
theorem Follows.append_tick {chosen : List T}
    (hchosen : tick < horizon → ∀ a, a ∈ chosen ↔ a ∈ graph.tasks ∧ time a = tick) :
    Follows graph time horizon (tick + 1) (events ++ chosen.map fun a => (tick, a)) := by
  intro k hk hlt a
  rw [List.mem_append, List.mem_map]
  rcases Nat.lt_succ_iff_lt_or_eq.mp hlt with hlt | rfl
  · rw [← h k hk hlt a]
    refine or_iff_left ?_
    rintro ⟨b, -, heq⟩
    exact absurd (congrArg Prod.fst heq) hlt.ne'
  · rw [← hchosen hk a]
    constructor
    · rintro (hold | ⟨b, hb, heq⟩)
      · exact absurd (hschedule.lt _ hold) (lt_irrefl _)
      · obtain rfl : b = a := congrArg Prod.snd heq
        exact hb
    · exact fun ha => .inr ⟨a, ha, rfl⟩

/-- In a full schedule a task with a time before the horizon runs at its time. -/
theorem Follows.tick_eq {k : ℕ} (hk : (k, a) ∈ events) (htime : time a < horizon) : k = time a := by
  have hlt : k < tick := hschedule.lt _ hk
  by_cases hhorizon : k < horizon
  · exact ((h k hhorizon hlt a).mp hk).2.symm
  · have hearlier : time a < tick := by omega
    exact hschedule.tick_unique hk ((h _ htime hearlier a).mpr ⟨hschedule.mem _ hk, rfl⟩)

/-- A task with a later time runs at the horizon or after it. -/
theorem Follows.horizon_le {k : ℕ} (hk : (k, a) ∈ events) (htime : horizon ≤ time a) :
    horizon ≤ k := by
  by_contra hlt
  have heq := ((h k (not_le.mp hlt) (hschedule.lt _ hk) a).mp hk).2
  omega

end

end Follows

end BurnDragon.Scheduling
