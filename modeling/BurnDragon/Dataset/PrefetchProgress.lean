import BurnDragon.Dataset.PrefetchOrder

/-!
# A waiting consumer is never stuck

As long as seeks go forward and the limit is not reached, every state in which `recv` waits can be
continued to the delivery of the batch that it waits for (`recv_can_deliver`): the channel can be
emptied, a worker can finish what it is doing, and the claims come to the expected index.
-/

namespace BurnDragon.Dataset

open Rust Transition PrefetchEvent

namespace RandomPrefetch

variable {β : Type*} {config : PrefetchConfig β} {prefetch prefetch' : RandomPrefetch config}
  {events : List (PrefetchEvent β)}

/-- Some run from here on receives a batch and shows only claims before. -/
def Delivers (prefetch : RandomPrefetch config) : Prop :=
  ∃ claims prefetch' batch, (∀ event ∈ claims, ∃ taskIndex, event = claimed taskIndex) ∧
    Run Step prefetch (claims ++ [.received (some batch)]) prefetch'

theorem Delivers.of_run {claims : List (PrefetchEvent β)}
    (hclaims : ∀ event ∈ claims, ∃ taskIndex, event = claimed taskIndex)
    (hrun : Run Step prefetch claims prefetch')
    (h : prefetch'.Delivers) : prefetch.Delivers := by
  obtain ⟨more, last, batch, hmore, hlast⟩ := h
  refine ⟨claims ++ more, last, batch, fun n hn => ?_, ?_⟩
  · exact (List.mem_append.1 hn).elim (hclaims n) (hmore n)
  · rw [List.append_assoc]
    exact hrun.trans hlast

theorem Delivers.of_silent (hrun : Run Step prefetch [] prefetch') (h : prefetch'.Delivers) :
    prefetch.Delivers :=
  .of_run (by simp) hrun h

/-- `recv` waits and the channel is empty. -/
structure Settled (prefetch : RandomPrefetch config) : Prop where
  consumer : prefetch.consumer = .receiving
  channel : prefetch.channel = []

/-- Emptying the channel leads to the expected batch, or the workers are where they were. -/
theorem drain (hreceiving : prefetch.consumer = .receiving) : prefetch.Delivers ∨
    ∃ prefetch', Run Step prefetch [] prefetch' ∧ prefetch'.Settled ∧
      prefetch'.workers = prefetch.workers ∧ prefetch'.nextTask = prefetch.nextTask ∧
      prefetch'.nextIndex = prefetch.nextIndex := by
  generalize hchannel : prefetch.channel = channel
  induction channel generalizing prefetch with
  | nil => exact .inr ⟨prefetch, .refl, ⟨hreceiving, hchannel⟩, rfl, rfl, rfl⟩
  | cons received rest ih =>
    obtain ⟨taskIndex, batch⟩ := received
    by_cases hindex : taskIndex = prefetch.nextIndex
    · subst hindex
      exact .inl ⟨[], _, batch, by simp, Run.single (Step.recvExpected hreceiving hchannel)⟩
    · let kept : RandomPrefetch config := { prefetch with
        channel := rest
        pending := prefetch.pending.insert taskIndex batch }
      have hstep : Run Step prefetch [] kept :=
        Run.single (Step.recvOther hreceiving hchannel hindex)
      have hkept : kept.consumer = .receiving := hreceiving
      rcases ih hkept rfl with hdelivers | ⟨p, hrun, hsettled, hsame⟩
      · exact .inl (.of_silent hstep hdelivers)
      · exact .inr ⟨p, hstep.trans hrun, hsettled, hsame⟩

theorem capacity_pos (config : PrefetchConfig β) : 0 < config.capacity :=
  Nat.lt_of_lt_of_le Nat.zero_lt_one ((Nat.le_max_right ..).trans (Nat.le_max_right ..))

variable {w : Fin config.workerCount}

/-- A worker that is sending to a settled consumer can send. -/
theorem Settled.send {taskIndex : ℕ} {batch : β} (h : prefetch.Settled)
    (hw : prefetch.workers w = .sending taskIndex batch) :
    Run Step prefetch [] { prefetch.setWorker w .claiming with
      channel := [(taskIndex, batch)] } := by
  have hstep := Step.send hw (by rw [h.channel]; exact capacity_pos config)
  rw [h.channel] at hstep
  exact Run.single hstep

/-- A settled consumer gets the expected batch from the worker that is sending it. -/
theorem Settled.delivers_of_sending {batch : β} (h : prefetch.Settled)
    (hw : prefetch.workers w = .sending prefetch.nextIndex batch) : prefetch.Delivers := by
  have hrecv : Step { prefetch.setWorker w .claiming with
      channel := [(prefetch.nextIndex, batch)] } (some (.received (some batch))) _ :=
    Step.recvExpected h.consumer rfl
  exact ⟨[], _, batch, by simp, (h.send hw).trans (Run.single hrecv)⟩

section

variable (hsample : ∀ taskIndex, ∃ batch, config.source.Samples taskIndex batch)
include hsample

/-- A settled consumer gets the expected batch when its index is held. -/
theorem Settled.delivers_of_held (h : prefetch.Settled) (hsound : prefetch.Sound)
    (hheld : prefetch.Held prefetch.nextIndex) : prefetch.Delivers := by
  cases hheld with
  | sampling w hw =>
    obtain ⟨batch, hbatch⟩ := hsample prefetch.nextIndex
    refine .of_silent (Run.single (Step.sample hw hbatch)) ?_
    exact Settled.delivers_of_sending (w := w) ⟨h.consumer, h.channel⟩ (setWorker_self ..)
  | inFlight batch hflight =>
    cases hflight with
    | sending w hw => exact h.delivers_of_sending hw
    | channel hmem => simp [h.channel] at hmem
    | pending hget => simp [hsound.waiting h.consumer] at hget

/-- A worker can finish what it is doing and claim again. -/
theorem Settled.finish (h : prefetch.Settled) (hw : prefetch.workers w ≠ .exited) :
    prefetch.Delivers ∨ ∃ prefetch', Run Step prefetch [] prefetch' ∧ prefetch'.Settled ∧
      prefetch'.workers w = .claiming ∧ prefetch'.nextTask = prefetch.nextTask ∧
      prefetch'.nextIndex = prefetch.nextIndex := by
  have hsending : ∀ {p : RandomPrefetch config} {taskIndex : ℕ} {batch : β}, p.Settled →
      p.workers w = .sending taskIndex batch → p.Delivers ∨ ∃ p', Run Step p [] p' ∧ p'.Settled ∧
        p'.workers w = .claiming ∧ p'.nextTask = p.nextTask ∧ p'.nextIndex = p.nextIndex := by
    intro p taskIndex batch hp hw
    have hsend := hp.send hw
    have hconsumer : RandomPrefetch.consumer { p.setWorker w .claiming with
        channel := [(taskIndex, batch)] } = .receiving := hp.consumer
    rcases drain hconsumer with hdelivers | ⟨p', hrun, hsettled, hworkers, htask, hnext⟩
    · exact .inl (.of_silent hsend hdelivers)
    · exact .inr ⟨p', hsend.trans hrun, hsettled, hworkers ▸ setWorker_self .., htask, hnext⟩
  cases hworker : prefetch.workers w with
  | claiming => exact .inr ⟨prefetch, .refl, h, hworker, rfl, rfl⟩
  | sampling taskIndex =>
    obtain ⟨batch, hbatch⟩ := hsample taskIndex
    have hstep := Run.single (Step.sample hworker hbatch)
    rcases hsending (p := prefetch.setWorker w (.sending taskIndex batch)) ⟨h.consumer, h.channel⟩
      (setWorker_self ..) with hdelivers | ⟨p', hrun, hrest⟩
    · exact .inl (.of_silent hstep hdelivers)
    · exact .inr ⟨p', hstep.trans hrun, hrest⟩
  | sending taskIndex batch => exact hsending h hworker
  | exited => exact absurd hworker hw

/-- **A waiting consumer can get the batch that it waits for.** -/
theorem recv_can_deliver (hrun : Runs config events prefetch)
    (hforward : Forward config.absoluteStepStart events)
    (hreceiving : prefetch.consumer = .receiving)
    (hlimit : ¬ config.LimitReached prefetch.nextIndex) (hlt : prefetch.nextIndex < usizeMax) :
    prefetch.Delivers := by
  rcases drain hreceiving with hdelivers | ⟨settled, hsettled, hsettle, hworkers, htask, hnext⟩
  · exact hdelivers
  refine .of_silent hsettled ?_
  replace hrun : Runs config events settled := by simpa using Run.trans hrun hsettled
  rw [← hnext] at hlimit hlt
  clear hsettled hworkers htask hnext hreceiving
  -- the number of claims that are missing until the expected index is claimed
  induction hmissing : settled.nextIndex + 1 - settled.nextTask using Nat.strong_induction_on
    generalizing settled events with
  | _ missing ih =>
    have hstart : config.absoluteStepStart ≤ settled.nextIndex :=
      hrun.nextIndex_eq ▸ hforward.le_expected config.start_le
    have hclaimed : claimed settled.nextIndex ∈ events → settled.Delivers := fun hmem =>
      hsettle.delivers_of_held hsample hrun.sound (hrun.held hforward hlt hmem le_rfl)
    rcases hrun.covered with hall | hcov
    · exact hclaimed (hall _ hlt.le hstart hlimit)
    by_cases hbelow : settled.nextIndex < settled.nextTask
    · exact hclaimed (hcov.claimed _ hstart hbelow hlimit)
    -- a worker claims the next index
    let w : Fin config.workerCount := ⟨0, Nat.lt_of_lt_of_le Nat.zero_lt_one (Nat.le_max_right ..)⟩
    rcases hsettle.finish hsample (hcov.exited w) with hdelivers | ⟨p, hp, hsettle', hw, htask, hnext⟩
    · exact hdelivers
    have hrun' : Runs config events p := by simpa using Run.trans hrun hp
    have htaskLimit : ¬ config.LimitReached p.nextTask := by
      rintro ⟨limit, htotal, hle⟩
      exact hlimit ⟨limit, htotal, hle.trans (htask ▸ not_lt.1 hbelow)⟩
    have hclaim := Step.claim hw htaskLimit
    have hadd : (p.nextTask + 1) % 2 ^ 64 = p.nextTask + 1 := by
      unfold usizeMax at hlt
      exact Nat.mod_eq_of_lt (by omega)
    have hmeasure : p.nextIndex + 1 - (p.nextTask + 1) % 2 ^ 64 < missing := by omega
    let claiming := p.fetchAdd.setWorker w (.sampling p.nextTask)
    have hrest : claiming.Delivers := ih _ hmeasure (hforward.concat (by simp)) claiming
      (show p.nextIndex < usizeMax from hnext.symm ▸ hlt)
      (show ¬ config.LimitReached p.nextIndex from hnext.symm ▸ hlimit) ⟨hsettle'.consumer, hsettle'.channel⟩
      (hrun'.tail hclaim) rfl
    exact .of_silent hp (.of_run (by simp) (Run.single hclaim) hrest)

end

end RandomPrefetch

end BurnDragon.Dataset
