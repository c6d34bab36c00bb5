import BurnDragon.Dataset.RandomLoaderRuns

/-!
# The batches of the random data loader

What the iterators of a regular run yield: every batch is sampled for the step at which it is yielded in
the epoch of this step, the steps follow one another from the step at which the loader is resumed, and
every iterator comes to its number of batches.
-/

namespace BurnDragon.Dataset

open Rust Transition List

variable {β : Type*}

open LoaderEvent

/-- The number of batches of an iterator that starts at a step. -/
def LoaderConfig.stepsFrom (config : LoaderConfig β) (start : ℕ) : ℕ :=
  match config.totalSteps with
  | some limit => min (limit - start) config.source.stepsPerEpoch
  | none => config.source.stepsPerEpoch

variable {config : LoaderConfig β} {initialSteps : ℕ} {events : List (LoaderEvent β)}
  {iterators : List RandomIterator} {consumedSteps : Option UInt64} {k : ℕ} {it : RandomIterator}

/-- The events agree with the iterators and the counter. -/
structure Accounts (config : LoaderConfig β) (initialSteps : ℕ) (events : List (LoaderEvent β))
    (iterators : List RandomIterator) (consumedSteps : Option UInt64) : Prop where
  starts_length : (starts events).length = iterators.length
  stepsTotal : ∀ (k : ℕ) (it : RandomIterator), iterators[k]? = some it →
    ∃ start, (starts events)[k]? = some start ∧ it.stepsTotal = config.stepsFrom start
  step : ∀ (k : ℕ) (it : RandomIterator), iterators[k]? = some it →
    it.step = (stepsOf k events).length ∧ it.step ≤ it.stepsTotal
  fresh : ∀ k, iterators.length ≤ k → stepsOf k events = []
  samples : ∀ k absoluteStep batch, .yielded k absoluteStep batch ∈ events →
    config.source.Samples absoluteStep batch
  limited : ∀ limit c, config.totalSteps = some limit → consumedSteps = some c →
    steps events = List.range' (min initialSteps limit) (steps events).length ∧
      min initialSteps limit + (steps events).length = min c.toNat limit
  unlimited : consumedSteps = none → ∀ k, stepsOf k events = List.range (stepsOf k events).length
  ended : ∀ k : ℕ, .ended k ∈ events → (∃ it : RandomIterator, iterators[k]? = some it ∧ it.stepsTotal ≤ it.step) ∨
    ∃ c, consumedSteps = some c ∧ config.LimitReached c.toNat

namespace Accounts

theorem resume (config : LoaderConfig β) (initialSteps : ℕ) :
    Accounts config initialSteps [] [] (initialConsumedSteps config.totalSteps initialSteps) where
  starts_length := rfl
  stepsTotal _ _ h := by simp at h
  step _ _ h := by simp at h
  fresh _ _ := rfl
  samples _ _ _ h := by simp at h
  limited limit c htotal hc := by
    have hlimit := config.totalSteps_le limit htotal
    obtain rfl : UInt64.ofNat (min initialSteps limit) = c := by
      simpa [initialConsumedSteps, htotal] using hc
    have hsize : min initialSteps limit < UInt64.size := by
      unfold usizeMax at hlimit
      rw [UInt64.size]
      omega
    refine ⟨rfl, ?_⟩
    rw [UInt64.toNat_ofNat_of_lt' hsize]
    exact (min_eq_left (min_le_right ..)).symm
  unlimited _ _ := rfl
  ended _ h := by simp at h

section

variable (h : Accounts config initialSteps events iterators consumedSteps)
include h

/-- An iterator is created. -/
theorem created {start : ℕ}
    (hsteps : it.stepsTotal = config.stepsFrom start) (hstep : it.step = 0) :
    Accounts config initialSteps (events ++ [.created start]) (iterators ++ [it]) consumedSteps := by
  have hcases : ∀ {k it'}, (iterators ++ [it])[k]? = some it' →
      iterators[k]? = some it' ∨ k = iterators.length ∧ it' = it := by
    intro k it' hit'
    rcases Nat.lt_or_ge k iterators.length with hlt | hge
    · exact .inl (by rwa [getElem?_append_left hlt] at hit')
    · rw [getElem?_append_right hge, getElem?_singleton] at hit'
      split at hit'
      · exact .inr ⟨by omega, by simpa using hit'.symm⟩
      · simp at hit'
  constructor
  case starts_length => simp [h.starts_length]
  case stepsTotal =>
    intro k it' hit'
    rw [starts_created]
    rcases hcases hit' with hit' | ⟨rfl, rfl⟩
    · obtain ⟨start', hstart', hsteps'⟩ := h.stepsTotal k it' hit'
      exact ⟨start', List.getElem?_append_left (List.getElem?_eq_some_iff.1 hstart').1 ▸ hstart',
        hsteps'⟩
    · exact ⟨start, by rw [← h.starts_length]; exact getElem?_concat_length, hsteps⟩
  case step =>
    intro k it' hit'
    rw [stepsOf_created]
    rcases hcases hit' with hit' | ⟨rfl, rfl⟩
    · exact h.step k it' hit'
    · exact ⟨by rw [h.fresh _ le_rfl, hstep]; rfl, hstep ▸ Nat.zero_le _⟩
  case fresh =>
    intro k hk
    rw [stepsOf_created]
    exact h.fresh k ((length_append ▸ Nat.le_add_right ..).trans hk)
  case samples => exact fun k s b hmem => h.samples k s b (by simpa using hmem)
  case limited => simpa using h.limited
  case unlimited => simpa using h.unlimited
  case ended =>
    intro k hmem
    refine (h.ended k (by simpa using hmem)).imp_left fun ⟨it', hit', hle⟩ => ⟨it', ?_, hle⟩
    rw [List.getElem?_append_left (List.getElem?_eq_some_iff.1 hit').1]
    exact hit'

/-- A call of `next` finds no batch left. -/
theorem concat_ended
    (hended : (∃ it : RandomIterator, iterators[k]? = some it ∧ it.stepsTotal ≤ it.step) ∨ ∃ c,
      consumedSteps = some c ∧ config.LimitReached c.toNat) :
    Accounts config initialSteps (events ++ [.ended k]) iterators consumedSteps where
  starts_length := by simpa using h.starts_length
  stepsTotal := by simpa using h.stepsTotal
  step := by simpa using h.step
  fresh := by simpa using h.fresh
  samples k s b hmem := h.samples k s b (by simpa using hmem)
  limited := by simpa using h.limited
  unlimited := by simpa using h.unlimited
  ended k' hmem := by
    rcases mem_append.1 hmem with hmem | hmem
    · exact h.ended k' hmem
    · obtain rfl : k' = k := by simpa using hmem
      exact hended

/-- A batch is yielded. -/
theorem concat_yielded {n : ℕ} {batch : β} (hit : iterators[k]? = some it)
    (hunfinished : it.step < it.stepsTotal)
    (hposition : (consumedSteps.map UInt64.toNat).getD it.step = n) (hlt : n < usizeMax)
    (hlimit : ¬ config.LimitReached n) (hsample : config.source.Samples n batch) :
    Accounts config initialSteps (events ++ [.yielded k n batch])
      (iterators.set k { it with step := it.step + 1 }) (consumedSteps.map (· + 1)) := by
  have hset : ∀ {k' it'}, (iterators.set k { it with step := it.step + 1 })[k']? = some it' →
      k' = k ∧ it' = { it with step := it.step + 1 } ∨ k' ≠ k ∧ iterators[k']? = some it' := by
    intro k' it' hit'
    by_cases hk : k' = k
    · subst hk
      rw [List.getElem?_set_self (List.getElem?_eq_some_iff.1 hit).1] at hit'
      exact .inl ⟨rfl, (Option.some_inj.1 hit').symm⟩
    · rw [getElem?_set_ne (Ne.symm hk)] at hit'
      exact .inr ⟨hk, hit'⟩
  have hcounter : ∀ {c}, consumedSteps = some c → n = c.toNat := by
    rintro c rfl
    exact hposition.symm
  constructor
  case starts_length => simp [h.starts_length]
  case stepsTotal =>
    intro k' it' hit'
    rw [starts_yielded]
    rcases hset hit' with ⟨rfl, rfl⟩ | ⟨-, hit'⟩
    · exact h.stepsTotal k' it hit
    · exact h.stepsTotal k' it' hit'
  case step =>
    intro k' it' hit'
    rcases hset hit' with ⟨rfl, rfl⟩ | ⟨hne, hit'⟩
    · rw [stepsOf_yielded_self, length_append, ← (h.step k' it hit).1]
      exact ⟨rfl, hunfinished⟩
    · rw [stepsOf_yielded_of_ne (Ne.symm hne)]
      exact h.step k' it' hit'
  case fresh =>
    intro k' hk'
    rw [length_set] at hk'
    have hk := (List.getElem?_eq_some_iff.1 hit).1
    rw [stepsOf_yielded_of_ne (by omega)]
    exact h.fresh k' hk'
  case samples =>
    intro k' s b hmem
    rcases mem_append.1 hmem with hmem | hmem
    · exact h.samples k' s b hmem
    · obtain ⟨rfl, rfl, rfl⟩ : k' = k ∧ s = n ∧ b = batch := by simpa using hmem
      exact hsample
  case limited =>
    intro limit c' htotal hc'
    obtain ⟨c, hc, rfl⟩ := Option.map_eq_some_iff.1 hc'
    obtain ⟨hsteps, hlength⟩ := h.limited limit c htotal hc
    obtain rfl := hcounter hc
    have hle : c.toNat < limit := by
      by_contra hge
      exact hlimit ⟨limit, htotal, not_lt.1 hge⟩
    rw [min_eq_left hle.le] at hlength
    rw [steps_yielded, length_append, length_singleton,
      RandomDataLoader.toNat_succ hlt, min_eq_left (Nat.succ_le_of_lt hle)]
    refine ⟨?_, by omega⟩
    rw [range'_1_concat, ← hsteps, hlength]
  case unlimited =>
    intro hnone k'
    have hnone : consumedSteps = none := by simpa using hnone
    have hold := h.unlimited hnone k'
    by_cases hk : k' = k
    · subst hk
      have hn : n = (stepsOf k' events).length := by
        rw [← (h.step k' it hit).1, ← hposition, hnone]
        rfl
      rw [stepsOf_yielded_self, length_append, length_singleton, range_succ, ← hold, hn]
    · rw [stepsOf_yielded_of_ne (Ne.symm hk)]
      exact hold
  case ended =>
    intro k' hmem
    rcases h.ended k' (by simpa using hmem) with ⟨it', hit', hle⟩ | ⟨c, hc, hreached⟩
    · refine .inl ⟨it', ?_, hle⟩
      have hk : k' ≠ k := by
        rintro rfl
        obtain rfl : it' = it := Option.some_inj.1 (hit'.symm.trans hit)
        omega
      rwa [getElem?_set_ne (Ne.symm hk)]
    · obtain rfl := hcounter hc
      exact absurd hreached hlimit

/-- A batch is dropped because the limit is reached. -/
theorem concat_dropped {c : UInt64} (hc : consumedSteps = some c) (hlt : c.toNat < usizeMax)
    (hlimit : config.LimitReached c.toNat) :
    Accounts config initialSteps (events ++ [.ended k]) iterators (consumedSteps.map (· + 1)) := by
  subst hc
  have hsucc : (c + 1).toNat = c.toNat + 1 := RandomDataLoader.toNat_succ hlt
  have hreached : config.LimitReached (c + 1).toNat := hsucc ▸ hlimit.mono (Nat.le_succ _)
  refine concat_ended { h with limited := ?_, unlimited := by simp, ended := ?_ }
    (.inr ⟨c + 1, rfl, hreached⟩)
  · rintro limit _ htotal ⟨⟩
    obtain ⟨limit', htotal', hle⟩ := hlimit
    obtain rfl : limit = limit' := Option.some_inj.1 (htotal.symm.trans htotal')
    obtain ⟨hsteps, hlength⟩ := h.limited limit c htotal rfl
    refine ⟨hsteps, ?_⟩
    show _ = min (c + 1).toNat limit
    omega
  · intro k' hmem
    exact (h.ended k' hmem).imp_right fun _ => ⟨c + 1, rfl, hreached⟩

end

end Accounts

/-! ## Regular runs -/

namespace RandomDataLoader

variable {loader loader' : RandomDataLoader config} {event : Option (LoaderEvent β)}
  {action : Action} {batch : β}

/-- The runs of a resumed loader in which every step is regular. -/
abbrev RegularRun (config : LoaderConfig β) (initialSteps : ℕ) (events : List (LoaderEvent β))
    (loader : RandomDataLoader config) : Prop :=
  Run RegularStep (resume config initialSteps) events loader

theorem RegularRun.consistent (h : RegularRun config initialSteps events loader) :
    loader.Consistent :=
  h.invariant (.resume config initialSteps) fun _ _ _ hs ⟨_, hstep, hregular⟩ => hs.step hstep hregular

theorem stepsTotal_eq_stepsFrom (h : loader.HasCounter) :
    loader.stepsTotal = config.stepsFrom loader.absoluteStepStart.toNat := by
  rcases h.cases with ⟨htotal, hconsumed⟩ | ⟨limit, c, htotal, hconsumed⟩
  · simp [stepsTotal, iterSteps, LoaderConfig.stepsFrom, htotal]
  · rw [stepsTotal_of_limit htotal hconsumed, LoaderConfig.stepsFrom, htotal, absoluteStepStart,
      hconsumed]
    rfl

/-- The end of a call of `next` agrees with the events, if the batch is the right one. -/
theorem finishNext_accounts (hcounter : loader.HasCounter)
    (h : Accounts config initialSteps events loader.iterators loader.consumedSteps)
    (hit : loader.iterators[k]? = some it) (hunfinished : it.step < it.stepsTotal)
    (hlt : loader.position it < usizeMax)
    (hsample : ¬ config.LimitReached (loader.position it) →
      config.source.Samples (loader.position it) batch) :
    Accounts config initialSteps (events ++ [(loader.finishNext k it batch).1])
      (loader.finishNext k it batch).2.iterators (loader.finishNext k it batch).2.consumedSteps := by
  by_cases hlimit : config.LimitReached (loader.position it)
  · rw [finishNext_of_limitReached hcounter hlimit]
    rcases hcounter.cases with ⟨hnone, -⟩ | ⟨-, c, -, hc⟩
    · obtain ⟨limit, htotal, -⟩ := hlimit
      simp [hnone] at htotal
    · rw [position_of_counter hc] at hlt hlimit
      exact h.concat_dropped hc hlt hlimit
  · rw [finishNext_of_not_limitReached hcounter hlimit]
    exact h.concat_yielded hit hunfinished rfl hlt hlimit (hsample hlimit)

/-- **Regular steps agree with their events.** -/
theorem Step.accounts (hstep : Step loader action event loader') (hregular : loader.Regular action)
    (hconsistent : loader.Consistent)
    (h : Accounts config initialSteps events loader.iterators loader.consumedSteps) :
    Accounts config initialSteps (events ++ event.toList) loader'.iterators
      loader'.consumedSteps := by
  have hsteps := stepsTotal_eq_stepsFrom hconsistent.counter
  cases hstep with
  | work => simpa using h
  | iterDirect => exact h.created hsteps rfl
  | iterSpawn => simpa using h
  | iterPrimed => exact h.created hsteps rfl
  | iterSeek => exact h.created hsteps rfl
  | nextExhausted hcall hit hfinished => exact h.concat_ended (.inl ⟨_, hit, hfinished⟩)
  | @nextNoSlot k it hcall hit hunfinished huse hnone =>
    exact absurd hnone (hconsistent.usesPrefetch it (mem_of_getElem? hit) huse)
  | @nextDirect k it batch hcall hit hunfinished huse hsample =>
    obtain ⟨hlt, hepoch, -⟩ := hregular it hit hunfinished
    refine finishNext_accounts hconsistent.counter h hit hunfinished hlt fun hlimit => ?_
    rw [hepoch huse hlimit] at hsample
    exact hsample
  | nextStart => simpa using h
  | @nextReceived k it slot slot' batch hcall hit hslot hreceived =>
    obtain ⟨⟨it', hwaits⟩, -⟩ := hconsistent.next k hcall
    obtain rfl : it = it' := Option.some_inj.1 (hit.symm.trans hwaits.iterator)
    have hcounter : HasCounter { loader with prefetch := some slot' } := hconsistent.counter
    refine finishNext_accounts
      hcounter h hit hwaits.unfinished hwaits.position_lt fun hlimit => ?_
    have hlimit : ¬ config.LimitReached (loader.position it) := hlimit
    show config.source.Samples (loader.position it) batch
    have hnext : slot.nextIndex = loader.position it := by
      rcases hconsistent.counter.cases with ⟨htotal, hc⟩ | ⟨limit, c, -, hc⟩
      · rw [hwaits.unlimited htotal slot hslot, position, hc]
        rfl
      · rw [position_of_counter hc] at hlimit ⊢
        exact hconsistent.sync slot c hslot hc hlimit
    exact hnext ▸ hreceived.received (hconsistent.slot slot hslot).1
  | @nextNone k slot slot' hcall hslot hnone =>
    refine h.concat_ended (.inr ?_)
    have hreached := hnone.received_none (hconsistent.slot slot hslot).1
    rcases hconsistent.counter.cases with ⟨htotal, -⟩ | ⟨limit, c, -, hc⟩
    · obtain ⟨limit, htotal', -⟩ := hreached
      simp [htotal] at htotal'
    · refine ⟨c, hc, ?_⟩
      by_contra hlimit
      exact hlimit (hconsistent.sync slot c hslot hc hlimit ▸ hreached)

theorem RegularRun.accounts (h : RegularRun config initialSteps events loader) :
    Accounts config initialSteps events loader.iterators loader.consumedSteps := by
  refine h.induct (P := fun events loader =>
    Accounts config initialSteps events loader.iterators loader.consumedSteps)
    (.resume config initialSteps) fun events loader event loader' hrun ih hstep => ?_
  have hrun : RegularRun config initialSteps events loader := hrun
  obtain ⟨action, hstep, hregular⟩ := hstep
  exact hstep.accounts hregular hrun.consistent ih

/-! ## `next` returns -/

variable {slot : PrefetchSlot config}

/-- The expected step of the prefetch is the step of the iterator that waits. -/
theorem Waits.nextIndex_eq (h : loader.Waits k it) (hconsistent : loader.Consistent)
    (hslot : loader.prefetch = some slot) (hlimit : ¬ config.LimitReached (loader.position it)) :
    slot.nextIndex = loader.position it := by
  rcases hconsistent.counter.cases with ⟨htotal, hc⟩ | ⟨limit, c, -, hc⟩
  · rw [h.unlimited htotal slot hslot, position, hc]
    rfl
  · rw [position_of_counter hc] at hlimit ⊢
    exact hconsistent.sync slot c hslot hc hlimit

/-- The work of the prefetch while `next` waits is work of the loader. -/
theorem run_of_prefetch (hslot : loader.prefetch = some slot) (hcall : loader.call = .next k)
    {claims : List (PrefetchEvent β)}
    {prefetch' : RandomPrefetch (config.prefetchConfig slot.start)}
    (hrun : Run RandomPrefetch.Step slot.prefetch claims prefetch')
    (hclaims : ∀ event ∈ claims, ∃ taskIndex, event = PrefetchEvent.claimed taskIndex) :
    Run RegularStep loader [] { loader with prefetch := some ⟨slot.start, prefetch'⟩ } := by
  refine hrun.induct (P := fun claims p => (∀ event ∈ claims, ∃ taskIndex, event = .claimed taskIndex) →
    Run RegularStep loader [] { loader with prefetch := some ⟨slot.start, p⟩ })
    (fun _ => ?_) (fun es p event p' _ ih hstep hclaims => ?_) hclaims
  · have heq : { loader with prefetch := some ⟨slot.start, slot.prefetch⟩ } = loader := by
      rw [← hslot]
    exact heq ▸ .refl
  · have hwork : Step { loader with prefetch := some ⟨slot.start, p⟩ } .work none
        { loader with prefetch := some ⟨slot.start, p'⟩ } :=
      .work rfl (.of_prefetch hstep) (fun e he => hclaims e (by simp [Option.mem_def.1 he]))
        fun _ => .inr ⟨k, hcall⟩
    exact (ih fun e he => hclaims e (mem_append_left _ he)).tail ⟨.work, hwork, trivial⟩

/-- What the prefetch delivers is what `next` returns. -/
theorem yields_of_received {slot' : PrefetchSlot config} (hconsistent : loader.Consistent)
    (hcall : loader.call = .next k) (hit : loader.iterators[k]? = some it)
    (hlimit : ¬ config.LimitReached (loader.position it)) (hslot : loader.prefetch = some slot)
    (hreceived : slot.Step (some (.received (some batch))) slot') :
    ∃ loader', Run RegularStep loader [.yielded k (loader.position it) batch] loader' := by
  have hstep := Step.nextReceived hcall hit hslot hreceived
  have hcounter : HasCounter { loader with prefetch := some slot' } := hconsistent.counter
  rw [finishNext_of_not_limitReached hcounter hlimit] at hstep
  exact ⟨_, Run.single (e := some _) ⟨.work, hstep, trivial⟩⟩

section

variable (hsample : ∀ request, ∃ batch, config.source.sampleHostBatch request batch)
  (h : RegularRun config initialSteps events loader)
include hsample h

section

variable (hcall : loader.call = .next k) (hit : loader.iterators[k]? = some it)
  (hlimit : ¬ config.LimitReached (loader.position it))
include hcall hit hlimit

/-- A call of `next` whose `recv` waits can return the next batch. -/
theorem RegularRun.receiving_next_returns (hslot : loader.prefetch = some slot)
    (hreceiving : slot.prefetch.consumer = .receiving) :
    ∃ batch loader', Run RegularStep loader [.yielded k (loader.position it) batch] loader' := by
  have hconsistent := h.consistent
  obtain ⟨⟨it', hwaits⟩, -⟩ := hconsistent.next k hcall
  obtain rfl : it = it' := Option.some_inj.1 (hit.symm.trans hwaits.iterator)
  have hnext := hwaits.nextIndex_eq hconsistent hslot hlimit
  obtain ⟨prefetchEvents, hprefetch, hforward⟩ := (hconsistent.slot slot hslot).1
  obtain ⟨claims, last, batch, hclaims, hrun⟩ := RandomPrefetch.recv_can_deliver
    (fun n => hsample _) hprefetch hforward hreceiving
    (show ¬ config.LimitReached slot.nextIndex from hnext ▸ hlimit)
    (show slot.nextIndex < usizeMax from hnext ▸ hwaits.position_lt)
  obtain ⟨p, p', hbefore, hreceived, -⟩ := hrun.exists_step
  have hwork := run_of_prefetch hslot hcall hbefore hclaims
  have hworked : RegularRun config initialSteps events
      { loader with prefetch := some ⟨slot.start, p⟩ } := by simpa using Run.trans h hwork
  obtain ⟨loader', hyield⟩ := yields_of_received hworked.consistent hcall hit hlimit rfl
    (.of_prefetch hreceived)
  exact ⟨batch, loader', hwork.trans hyield⟩

/-- A call of `next` that waits for the prefetch can return the next batch. -/
theorem RegularRun.waiting_next_returns :
    ∃ batch loader', Run RegularStep loader [.yielded k (loader.position it) batch] loader' := by
  obtain ⟨⟨_, hwaits⟩, hpriming⟩ := h.consistent.next k hcall
  obtain ⟨slot, hslot⟩ := Option.ne_none_iff_exists'.1 hwaits.prefetch
  cases hconsumer : slot.prefetch.consumer with
  | priming => exact absurd hconsumer (hpriming slot hslot)
  | receiving => exact h.receiving_next_returns hsample hcall hit hlimit hslot hconsumer
  | idle =>
    cases hget : slot.prefetch.pending.get? slot.prefetch.nextIndex with
    | some batch =>
      exact ⟨batch, yields_of_received h.consistent hcall hit hlimit hslot
        (.of_prefetch (.recvPending hconsumer hget))⟩
    | none =>
      -- `recv` starts to wait
      have hwait := RandomPrefetch.Step.recvWait hconsumer hget
      have hrun := run_of_prefetch hslot hcall (Run.single hwait) (by simp)
      have hwaiting : RegularRun config initialSteps events { loader with
          prefetch := some ⟨slot.start, { slot.prefetch with consumer := .receiving }⟩ } := by
        simpa using Run.trans h hrun
      obtain ⟨batch, loader', hyield⟩ := hwaiting.receiving_next_returns hsample hcall hit hlimit
        rfl rfl
      exact ⟨batch, loader', hrun.trans hyield⟩

end

/-- **`next` returns**: an iterator with batches left that is called regularly, or whose call has not
returned, can yield the batch of the next step. -/
theorem RegularRun.next_returns (hit : loader.iterators[k]? = some it)
    (hunfinished : it.step < it.stepsTotal) (hlimit : ¬ config.LimitReached (loader.position it))
    (hcall : loader.call = .next k ∨ loader.call = .idle ∧ loader.Regular (.next k)) :
    ∃ batch loader', Run RegularStep loader [.yielded k (loader.position it) batch] loader' := by
  rcases hcall with hcall | ⟨hcall, hregular⟩
  · exact h.waiting_next_returns hsample hcall hit hlimit
  cases huse : it.usesPrefetch with
  | false =>
    obtain ⟨batch, hbatch⟩ := hsample (config.source.request it.epochIndex (loader.position it))
    have hstep := Step.nextDirect hcall hit hunfinished huse hbatch
    rw [finishNext_of_not_limitReached h.consistent.counter hlimit] at hstep
    exact ⟨batch, _, Run.single (e := some _) ⟨.next k, hstep, hregular⟩⟩
  | true =>
    have hslot := h.consistent.usesPrefetch it (mem_of_getElem? hit) huse
    obtain ⟨slot, hslot⟩ := Option.ne_none_iff_exists'.1 hslot
    have hstart : Run RegularStep loader [] { loader with call := .next k } :=
      Run.single (e := none) ⟨.next k, .nextStart hcall hit hunfinished huse hslot, hregular⟩
    have hstarted : RegularRun config initialSteps events { loader with call := .next k } := by
      simpa using Run.trans h hstart
    obtain ⟨batch, loader', hyield⟩ := hstarted.waiting_next_returns hsample rfl hit hlimit
    exact ⟨batch, loader', hstart.trans hyield⟩

end

/-! ## All batches -/

theorem finishNext_ne_created (start : ℕ) : (loader.finishNext k it batch).1 ≠ .created start := by
  unfold finishNext
  split
  · simp only
    split
    · split <;> simp
    · simp
  · simp

/-- An iterator is created at the counter. -/
theorem Step.created {start : ℕ} (h : Step loader action (some (.created start)) loader') :
    start = loader.absoluteStepStart.toNat := by
  generalize hevent : some (LoaderEvent.created start) = event at h
  cases h with
  | iterDirect => simpa using hevent
  | iterPrimed => simpa using hevent
  | iterSeek => simpa using hevent
  | nextDirect => exact absurd (Option.some_inj.1 hevent).symm (finishNext_ne_created start)
  | nextReceived => exact absurd (Option.some_inj.1 hevent).symm (finishNext_ne_created start)
  | _ => simp at hevent

/-- The batches of a run do not depend on how it is cut or executed. -/
structure Uniform (config : LoaderConfig β) (initialSteps : ℕ) (events : List (LoaderEvent β)) :
    Prop where
  /-- A batch is sampled for its step, in the epoch of the step. -/
  samples : ∀ k absoluteStep batch, .yielded k absoluteStep batch ∈ events →
    config.source.Samples absoluteStep batch
  /-- With a limit, the steps follow one another from the one at which the loader is resumed. -/
  limited : ∀ limit, config.totalSteps = some limit →
    steps events = List.range' (min initialSteps limit) (steps events).length ∧
      min initialSteps limit + (steps events).length ≤ limit
  /-- Without one, every iterator yields the steps from zero on. -/
  unlimited : config.totalSteps = none → ∀ k, stepsOf k events = List.range (stepsOf k events).length
  /-- An iterator starts after the batches that have been yielded. -/
  created : ∀ before start after, events = before ++ .created start :: after →
    (∀ limit, config.totalSteps = some limit →
      min start limit = min initialSteps limit + (steps before).length) ∧
    (config.totalSteps = none → start = 0)
  /-- An iterator yields at most its number of batches. -/
  le : ∀ (k start : ℕ), (starts events)[k]? = some start →
    (stepsOf k events).length ≤ config.stepsFrom start
  /-- It ends when it has yielded all of them, or no step is left before the limit. -/
  ended : ∀ (k start : ℕ), (starts events)[k]? = some start → .ended k ∈ events →
    (stepsOf k events).length = config.stepsFrom start ∨
      ∃ limit, config.totalSteps = some limit ∧
        min initialSteps limit + (steps events).length = limit

theorem RegularRun.uniform (h : RegularRun config initialSteps events loader) :
    Uniform config initialSteps events := by
  have haccounts := h.accounts
  have hiterator : ∀ {k start : ℕ}, (starts events)[k]? = some start → ∃ it : RandomIterator,
      loader.iterators[k]? = some it ∧ it.stepsTotal = config.stepsFrom start := by
    intro k start hstart
    have hlt := (List.getElem?_eq_some_iff.1 hstart).1
    rw [haccounts.starts_length] at hlt
    have hit := getElem?_eq_getElem hlt
    obtain ⟨start', hstart', hsteps⟩ := haccounts.stepsTotal k _ hit
    obtain rfl : start = start' := Option.some_inj.1 (hstart.symm.trans hstart')
    exact ⟨_, hit, hsteps⟩
  constructor
  case samples => exact haccounts.samples
  case limited =>
    intro limit htotal
    rcases h.consistent.counter.cases with ⟨hnone, -⟩ | ⟨-, c, -, hc⟩
    · simp [hnone] at htotal
    · obtain ⟨hsteps, hlength⟩ := haccounts.limited limit c htotal hc
      exact ⟨hsteps, hlength ▸ min_le_right _ _⟩
  case unlimited =>
    intro hnone
    rcases h.consistent.counter.cases with ⟨-, hconsumed⟩ | ⟨limit, -, htotal, -⟩
    · exact haccounts.unlimited hconsumed
    · simp [hnone] at htotal
  case created =>
    rintro before start after rfl
    rw [← singleton_append, ← append_assoc] at h
    obtain ⟨_, hcreated, -⟩ := h.split
    obtain ⟨s, s', hbefore, ⟨action, hstep, -⟩, -⟩ := hcreated.exists_step
    have hbefore : RegularRun config initialSteps before s := hbefore
    rw [hstep.created, absoluteStepStart]
    rcases hbefore.consistent.counter.cases with ⟨hnone, hconsumed⟩ | ⟨limit, c, htotal, hconsumed⟩
    · simp [hnone, hconsumed]
    · simp only [htotal, hconsumed, Option.getD_some]
      refine ⟨?_, by simp⟩
      rintro _ ⟨⟩
      exact (hbefore.accounts.limited limit c htotal hconsumed).2.symm
  case le =>
    intro k start hstart
    obtain ⟨it, hit, hsteps⟩ := hiterator hstart
    obtain ⟨hstep, hle⟩ := haccounts.step k it hit
    omega
  case ended =>
    intro k start hstart hended
    obtain ⟨it, hit, hsteps⟩ := hiterator hstart
    obtain ⟨hstep, hle⟩ := haccounts.step k it hit
    rcases haccounts.ended k hended with ⟨it', hit', hfinished⟩ | ⟨c, hc, limit, htotal, hreached⟩
    · obtain rfl : it = it' := Option.some_inj.1 (hit.symm.trans hit')
      exact .inl (by omega)
    · exact .inr ⟨limit, htotal, (haccounts.limited limit c htotal hc).2.trans
        (min_eq_right hreached)⟩

/-- **The batches of regular runs do not depend on how they are cut or executed.** The batches are
those of their steps, `next` returns them as long as there are any, and a run of another loader of the
same source yields the same batch at the same step, if the source always samples the same. -/
theorem regular_runs_uniform
    (hsample : ∀ request, ∃ batch, config.source.sampleHostBatch request batch)
    (h : RegularRun config initialSteps events loader) :
    Uniform config initialSteps events ∧
    (∀ k it, loader.iterators[k]? = some it → it.step < it.stepsTotal →
      ¬ config.LimitReached (loader.position it) →
      loader.call = .next k ∨ loader.call = .idle ∧ loader.Regular (.next k) →
      ∃ batch loader', Run RegularStep loader [.yielded k (loader.position it) batch] loader') ∧
    ∀ (config' : LoaderConfig β) (initialSteps' : ℕ) (events' : List (LoaderEvent β))
      (loader' : RandomDataLoader config'), config'.source = config.source →
      RegularRun config' initialSteps' events' loader' →
      (∀ request batch batch', config.source.sampleHostBatch request batch →
        config.source.sampleHostBatch request batch' → batch = batch') →
      ∀ k k' absoluteStep batch batch', .yielded k absoluteStep batch ∈ events →
        .yielded k' absoluteStep batch' ∈ events' → batch = batch' := by
  refine ⟨h.uniform, fun k it hit hunfinished hlimit hcall =>
    h.next_returns hsample hit hunfinished hlimit hcall, ?_⟩
  intro config' initialSteps' events' loader' hsource h' hsame k k' n batch batch' hmem hmem'
  have hbatch' := h'.uniform.samples k' n batch' hmem'
  rw [hsource] at hbatch'
  exact hsame _ batch batch' (h.uniform.samples k n batch hmem) hbatch'

/-- A validation loader of two steps per epoch and four in all, whose batches are their requests. -/
def requestConfig : LoaderConfig HostBatchRequest where
  source := {
    split := .val
    batchSize := 1
    blockSize := 1
    stepsPerEpoch := 2
    seed := 0
    sourceSelectionEnabled := false
    scheduleIncludes := fun _ => false
    ruliadPolicyStratifiedDifficultyLevels := 0
    sampleHostBatch := fun request batch => batch = request }
  totalSteps := some 4
  prefetchDepth := 8
  prefetchWorkers := 2
  stepsPerEpoch_pos := by decide
  stepsPerEpoch_le := by decide
  totalSteps_pos := by simp
  totalSteps_le := by simp [usizeMax]

/-- The loader resumed at step one creates an iterator. -/
theorem step_iter_requestConfig : Step (resume requestConfig 1) .iter (some (.created 1))
    (resume requestConfig 1).pushIterator :=
  .iterDirect rfl rfl

/-- Its first batch is that of step one, in epoch zero. -/
theorem step_next_requestConfig : Step (resume requestConfig 1).pushIterator (.next 0)
    (some (.yielded 0 1 (requestConfig.source.request 0 1)))
    ((resume requestConfig 1).pushIterator.counted.countStep 0 ⟨2, 0, 0, false⟩) :=
  .nextDirect (k := 0) rfl rfl (by decide) rfl rfl

theorem regular_runs_uniform_requestConfig : requestConfig.source.Samples 1
    (requestConfig.source.request 0 1) := by
  have hcreated : RegularRun requestConfig 1 [.created 1] _ :=
    Run.single (e := some _) ⟨.iter, step_iter_requestConfig, fun h => by simp [requestConfig] at h⟩
  have hregular : (resume requestConfig 1).pushIterator.Regular (.next 0) := by
    rintro it ⟨⟩ -
    exact ⟨by decide, fun _ _ => rfl, fun h => by cases h⟩
  have hrun := hcreated.tail ⟨.next 0, step_next_requestConfig, hregular⟩
  exact (regular_runs_uniform (fun request => ⟨request, rfl⟩) hrun).1.samples 0 1 _ (by simp)

/-- **An iterator that is created within an epoch samples the steps of the next epoch in the old
one.** -/
theorem resumed_iterator_keeps_epoch : ∃ loader,
    Run AnyStep (resume requestConfig 1) [.created 1,
      .yielded 0 1 (requestConfig.source.request 0 1),
      .yielded 0 2 (requestConfig.source.request 0 2)] loader ∧
    ¬ requestConfig.source.Samples 2 (requestConfig.source.request 0 2) := by
  have hcreated : Run AnyStep (resume requestConfig 1) [.created 1] _ :=
    Run.single (e := some _) ⟨.iter, step_iter_requestConfig⟩
  have hfirst := hcreated.tail ⟨.next 0, step_next_requestConfig⟩
  have hsecond := hfirst.tail (e := some (.yielded 0 2 (requestConfig.source.request 0 2)))
    ⟨.next 0, .nextDirect (k := 0) rfl rfl (by decide) rfl rfl⟩
  refine ⟨_, hsecond, fun h => ?_⟩
  have hepoch : (requestConfig.source.request 0 2).epochIndex = requestConfig.source.epochOf 2 :=
    congrArg HostBatchRequest.epochIndex h
  revert hepoch
  decide

end RandomDataLoader

end BurnDragon.Dataset
