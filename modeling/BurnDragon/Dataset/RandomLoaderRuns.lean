import BurnDragon.Dataset.PrefetchProgress
import BurnDragon.Dataset.RandomLoader

/-!
# Runs of the random data loader

In a regular run the prefetch is always at the counter of the loader (`Consistent.sync`), so that what
it delivers is the batch of the step at which `next` yields it.
-/

namespace BurnDragon.Dataset

open Rust Transition PrefetchEvent Option

variable {β : Type*} {config : LoaderConfig β}

namespace LoaderConfig

/-- The loader can use a prefetch. -/
def Prefetches (config : LoaderConfig β) : Prop :=
  0 < config.prefetchDepth ∧ 1 < config.source.stepsPerEpoch ∧ config.source.split = .train

theorem LimitReached.mono {m n : ℕ} (h : config.LimitReached m) (hle : m ≤ n) :
    config.LimitReached n := by
  obtain ⟨limit, htotal, hlimit⟩ := h
  exact ⟨limit, htotal, hlimit.trans hle⟩

end LoaderConfig

/-! ## The slot -/

namespace PrefetchSlot

variable {slot slot' : PrefetchSlot config} {event : Option (PrefetchEvent β)}

/-- The prefetch is in a run in which every seek goes forward. -/
def Sound (slot : PrefetchSlot config) : Prop :=
  ∃ events, RandomPrefetch.Runs (config.prefetchConfig slot.start) events slot.prefetch ∧
    Forward slot.start.toNat events

theorem Sound.spawn (start : UInt64) :
    Sound (⟨start, .spawn _⟩ : PrefetchSlot config) :=
  ⟨[], .refl, by simp [Forward]⟩

theorem Step.nextIndex_eq (h : slot.Step event slot') :
    slot'.nextIndex = event.toList.foldl advance slot.nextIndex := by
  cases h with
  | of_prefetch h => exact h.nextIndex_eq

theorem Step.sound (h : slot.Step event slot') (hsound : slot.Sound)
    (hseek : ∀ absoluteStep, event = some (seekTo absoluteStep) → slot.nextIndex ≤ absoluteStep) :
    slot'.Sound := by
  obtain ⟨events, hrun, hforward⟩ := hsound
  cases h with
  | of_prefetch h =>
    refine ⟨_, hrun.tail h, ?_⟩
    cases event with
    | none => simpa using hforward
    | some event =>
      refine hforward.concat fun n hn => ?_
      have hexpected : slot.prefetch.nextIndex = expected slot.start.toNat events := hrun.nextIndex_eq
      exact hexpected ▸ hseek n (congrArg some hn)

theorem Step.consumer_of_seek {absoluteStep : ℕ} (h : slot.Step (some (.seekTo absoluteStep)) slot') :
    slot'.prefetch.consumer = .idle := by
  cases h with
  | of_prefetch h =>
    cases h with
    | seekTo hidle => exact hidle

theorem Step.consumer_of_received {batch : Option β} (h : slot.Step (some (.received batch)) slot') :
    slot'.prefetch.consumer = .idle := by
  cases h with
  | of_prefetch h =>
    cases h with
    | recvPending hidle => exact hidle
    | _ => rfl

/-- What is received was sampled for the expected step. -/
theorem Step.received {batch : β} (h : slot.Step (some (.received (some batch))) slot')
    (hsound : slot.Sound) : config.source.Samples slot.nextIndex batch := by
  obtain ⟨events, hrun, -⟩ := hsound
  cases h with
  | of_prefetch h => exact (hrun.sound.inFlight _ batch h.received).1

/-- The prefetch only ends when the limit is reached. -/
theorem Step.received_none (h : slot.Step (some (.received none)) slot') (hsound : slot.Sound) :
    config.LimitReached slot.nextIndex := by
  obtain ⟨events, hrun, hforward⟩ := hsound
  cases h with
  | of_prefetch h =>
    cases h with
    | recvDisconnected hreceiving hchannel hexited =>
      exact hrun.limitReached hforward hreceiving hchannel hexited

end PrefetchSlot

namespace RandomDataLoader

variable {loader loader' : RandomDataLoader config} {it : RandomIterator} {k : ℕ}
  {event : Option (LoaderEvent β)} {action : Action} {batch : β}

/-! ## One call of `next` -/

variable {c : UInt64}

theorem toNat_succ (h : c.toNat < usizeMax) : (c + 1).toNat = c.toNat + 1 := by
  unfold usizeMax at h
  rw [UInt64.toNat_add]
  exact Nat.mod_eq_of_lt (by have : (1 : UInt64).toNat = 1 := rfl; omega)

/-- The counter moves on and the call returns. -/
def counted (loader : RandomDataLoader config) : RandomDataLoader config :=
  { loader with consumedSteps := loader.consumedSteps.map (· + 1), call := .idle }

/-- There is a counter if there is a limit. -/
def HasCounter (loader : RandomDataLoader config) : Prop :=
  loader.consumedSteps.isSome = config.totalSteps.isSome

theorem HasCounter.cases (h : loader.HasCounter) :
    (config.totalSteps = none ∧ loader.consumedSteps = none) ∨
      ∃ limit c, config.totalSteps = some limit ∧ loader.consumedSteps = some c := by
  unfold HasCounter at h
  cases htotal : config.totalSteps <;> cases hconsumed : loader.consumedSteps <;> simp_all

theorem finishNext_of_limitReached (h : loader.HasCounter)
    (hlimit : config.LimitReached (loader.position it)) :
    loader.finishNext k it batch = (.ended k, loader.counted) := by
  obtain ⟨limit, htotal, hle⟩ := hlimit
  rcases h.cases with ⟨hnone, -⟩ | ⟨-, c, -, hconsumed⟩
  · simp [hnone] at htotal
  · have hle : limit ≤ c.toNat := by simpa [position, hconsumed] using hle
    simp [finishNext, counted, hconsumed, htotal, hle]

theorem finishNext_of_not_limitReached (h : loader.HasCounter)
    (hlimit : ¬ config.LimitReached (loader.position it)) :
    loader.finishNext k it batch =
      (.yielded k (loader.position it) batch, loader.counted.countStep k it) := by
  rcases h.cases with ⟨-, hconsumed⟩ | ⟨limit, c, htotal, hconsumed⟩
  · simp [finishNext, counted, position, hconsumed]
  · have hlt : ¬ limit ≤ c.toNat := fun hle =>
      hlimit ⟨limit, htotal, by simpa [position, hconsumed] using hle⟩
    simp [finishNext, counted, position, hconsumed, htotal, hlt]

/-! ## What regular runs keep -/

/-- The k-th iterator waits for a batch of the prefetch. -/
structure Waits (loader : RandomDataLoader config) (k : ℕ) (it : RandomIterator) : Prop where
  iterator : loader.iterators[k]? = some it
  unfinished : it.step < it.stepsTotal
  position_lt : loader.position it < usizeMax
  prefetch : loader.prefetch ≠ none
  unlimited : config.totalSteps = none → ∀ slot, loader.prefetch = some slot →
    slot.nextIndex = it.step

structure Consistent (loader : RandomDataLoader config) : Prop where
  counter : loader.HasCounter
  idle : loader.call = .idle → ∀ slot, loader.prefetch = some slot →
    slot.prefetch.consumer = .idle
  iter : loader.call = .iter → loader.usePersistentPrefetch = true
  next : ∀ k, loader.call = .next k → (∃ it, loader.Waits k it) ∧
    ∀ slot, loader.prefetch = some slot → slot.prefetch.consumer ≠ .priming
  slot : ∀ slot, loader.prefetch = some slot → slot.Sound ∧ config.Prefetches
  usesPrefetch : ∀ it ∈ loader.iterators, it.usesPrefetch = true → loader.prefetch ≠ none
  /-- The prefetch is at the counter. -/
  sync : ∀ slot c, loader.prefetch = some slot → loader.consumedSteps = some c →
    ¬ config.LimitReached c.toNat → slot.nextIndex = c.toNat
  /-- Beside a prefetch, an iterator samples itself only what is the last step. -/
  direct : config.Prefetches → ∀ it ∈ loader.iterators, it.usesPrefetch = false →
    0 < it.stepsTotal → ∀ c, loader.consumedSteps = some c → config.LimitReached (c.toNat + 1)

theorem usePersistentPrefetch_iff : loader.usePersistentPrefetch = true ↔
    0 < config.prefetchDepth ∧ 1 < loader.stepsTotal ∧ config.source.split = .train := by
  simp [usePersistentPrefetch, and_assoc]

theorem stepsTotal_le (loader : RandomDataLoader config) :
    loader.stepsTotal ≤ config.source.stepsPerEpoch := by
  unfold stepsTotal iterSteps
  split
  · split
    · exact Nat.zero_le _
    · exact min_le_right _ _
  · exact le_rfl

theorem stepsTotal_of_limit {limit : ℕ} (htotal : config.totalSteps = some limit)
    (hconsumed : loader.consumedSteps = some c) :
    loader.stepsTotal = min (limit - c.toNat) config.source.stepsPerEpoch := by
  simp only [stepsTotal, iterSteps, htotal, hconsumed]
  split
  · omega
  · rfl

theorem prefetches_of_use (h : loader.usePersistentPrefetch = true) : config.Prefetches := by
  obtain ⟨hdepth, hsteps, hsplit⟩ := usePersistentPrefetch_iff.1 h
  exact ⟨hdepth, hsteps.trans_le loader.stepsTotal_le, hsplit⟩

/-- An iterator that uses the prefetch starts before the limit. -/
theorem not_limitReached_of_use (h : loader.usePersistentPrefetch = true)
    (hconsumed : loader.consumedSteps = some c) : ¬ config.LimitReached c.toNat := by
  rintro ⟨limit, htotal, hle⟩
  have hsteps := (usePersistentPrefetch_iff.1 h).2.1
  rw [stepsTotal_of_limit htotal hconsumed] at hsteps
  omega

/-- Where the loader can use a prefetch, an iterator without it is created before the last step. -/
theorem limitReached_succ_of_not_use (hprefetches : config.Prefetches)
    (hcounter : loader.HasCounter) (h : loader.usePersistentPrefetch = false)
    (hpos : 0 < loader.stepsTotal) (hconsumed : loader.consumedSteps = some c) :
    config.LimitReached (c.toNat + 1) := by
  obtain ⟨hdepth, hspe, hsplit⟩ := hprefetches
  rcases hcounter.cases with ⟨-, hnone⟩ | ⟨limit, -, htotal, -⟩
  · simp [hnone] at hconsumed
  have hsteps : ¬ 1 < loader.stepsTotal := fun hlt => by
    simp [usePersistentPrefetch_iff.2 ⟨hdepth, hlt, hsplit⟩] at h
  rw [stepsTotal_of_limit htotal hconsumed] at hsteps hpos
  exact ⟨limit, htotal, by omega⟩

theorem Consistent.resume (config : LoaderConfig β) (initialSteps : ℕ) :
    (resume config initialSteps).Consistent where
  counter := by simp [HasCounter, RandomDataLoader.resume, initialConsumedSteps]
  idle _ _ h := by simp [RandomDataLoader.resume] at h
  iter h := by simp [RandomDataLoader.resume] at h
  next _ h := by simp [RandomDataLoader.resume] at h
  slot _ h := by simp [RandomDataLoader.resume] at h
  usesPrefetch it h := by simp [RandomDataLoader.resume] at h
  sync _ _ h := by simp [RandomDataLoader.resume] at h
  direct _ it h := by simp [RandomDataLoader.resume] at h

/-- The work of the prefetch leaves the expected step as it is. -/
theorem Consistent.work {slot slot' : PrefetchSlot config} {event : Option (PrefetchEvent β)}
    (h : loader.Consistent) (hslot : loader.prefetch = some slot) (hstep : slot.Step event slot')
    (hclaims : ∀ e ∈ event, ∃ taskIndex, e = .claimed taskIndex)
    (hidle : slot.prefetch.consumer = .idle →
      slot'.prefetch.consumer = .idle ∨ ∃ k, loader.call = .next k) :
    Consistent { loader with prefetch := some slot' } := by
  have hnext : slot'.nextIndex = slot.nextIndex := by
    rw [hstep.nextIndex_eq]
    cases event with
    | none => rfl
    | some event =>
      obtain ⟨taskIndex, rfl⟩ := hclaims event rfl
      rfl
  have hpriming : slot.prefetch.consumer ≠ .priming → slot'.prefetch.consumer ≠ .priming := by
    intro hne
    cases hstep with
    | of_prefetch hstep => exact hstep.not_priming hne
  constructor
  case counter => exact h.counter
  case idle =>
    rintro hcall _ ⟨⟩
    exact (hidle (h.idle hcall slot hslot)).resolve_right fun ⟨k, hk⟩ => by
      rw [show loader.call = .idle from hcall] at hk
      cases hk
  case iter => exact h.iter
  case next =>
    intro k hcall
    obtain ⟨⟨it, hit⟩, hconsumer⟩ := h.next k hcall
    refine ⟨⟨it, hit.iterator, hit.unfinished, hit.position_lt, some_ne_none _, ?_⟩, ?_⟩
    · rintro htotal _ ⟨⟩
      exact hnext.trans (hit.unlimited htotal slot hslot)
    · rintro _ ⟨⟩
      exact hpriming (hconsumer slot hslot)
  case slot =>
    rintro _ ⟨⟩
    refine ⟨hstep.sound (h.slot slot hslot).1 fun n hn => ?_, (h.slot slot hslot).2⟩
    obtain ⟨taskIndex, hclaimed⟩ := hclaims _ hn
    cases hclaimed
  case usesPrefetch => exact fun it _ _ => some_ne_none _
  case sync =>
    rintro _ c ⟨⟩ hconsumed hlimit
    exact hnext.trans (h.sync slot c hslot hconsumed hlimit)
  case direct => exact h.direct

/-- `iter` returns when the prefetch is idle and, if the iterator uses it, is there. -/
theorem Consistent.pushIterator (h : loader.Consistent)
    (hidle : ∀ slot, loader.prefetch = some slot → slot.prefetch.consumer = .idle)
    (huse : loader.usePersistentPrefetch = true → loader.prefetch ≠ none) :
    loader.pushIterator.Consistent where
  counter := h.counter
  idle _ := hidle
  iter h := by simp [RandomDataLoader.pushIterator] at h
  next _ h := by simp [RandomDataLoader.pushIterator] at h
  slot := h.slot
  usesPrefetch it hit := by
    rcases List.mem_append.1 hit with hit | hit
    · exact h.usesPrefetch it hit
    · rw [List.mem_singleton.1 hit]
      exact huse
  sync := h.sync
  direct hprefetches it hit := by
    rcases List.mem_append.1 hit with hit | hit
    · exact h.direct hprefetches it hit
    · rw [List.mem_singleton.1 hit]
      exact fun huse hpos c => limitReached_succ_of_not_use hprefetches h.counter huse hpos

/-- `next` returns after it has moved the counter on. -/
theorem Consistent.counted (h : loader.Consistent) {prefetch : Option (PrefetchSlot config)}
    {iterators : List RandomIterator}
    (hlt : ∀ c, loader.consumedSteps = some c → c.toNat < usizeMax)
    (hslot : ∀ slot, prefetch = some slot →
      slot.prefetch.consumer = .idle ∧ slot.Sound ∧ config.Prefetches)
    (hnone : prefetch = none → loader.prefetch = none)
    (hsync : ∀ slot c, prefetch = some slot → loader.consumedSteps = some c →
      ¬ config.LimitReached (c.toNat + 1) → slot.nextIndex = c.toNat + 1)
    (hiterators : ∀ it' ∈ iterators, ∃ it ∈ loader.iterators,
      it'.usesPrefetch = it.usesPrefetch ∧ it'.stepsTotal = it.stepsTotal) :
    Consistent { loader with
      consumedSteps := loader.consumedSteps.map (· + 1)
      prefetch := prefetch
      iterators := iterators
      call := .idle } := by
  have hsucc : ∀ c', loader.consumedSteps.map (· + 1) = some c' → ∃ c,
      loader.consumedSteps = some c ∧ c'.toNat = c.toNat + 1 := by
    intro c' hc'
    obtain ⟨c, hc, rfl⟩ := map_eq_some_iff.1 hc'
    exact ⟨c, hc, toNat_succ (hlt c hc)⟩
  constructor
  case counter => exact (isSome_map ..).trans h.counter
  case idle => exact fun _ slot hs => (hslot slot hs).1
  case iter => rintro ⟨⟩
  case next => rintro _ ⟨⟩
  case slot => exact fun slot hs => (hslot slot hs).2
  case usesPrefetch =>
    intro it' hit' huse hno
    obtain ⟨it, hit, heq, -⟩ := hiterators it' hit'
    exact h.usesPrefetch it hit (heq ▸ huse) (hnone hno)
  case sync =>
    intro slot c' hs hc' hlimit
    obtain ⟨c, hc, heq⟩ := hsucc c' hc'
    rw [heq] at hlimit ⊢
    exact hsync slot c hs hc hlimit
  case direct =>
    intro hprefetches it' hit' huse hpos c' hc'
    obtain ⟨c, hc, heq⟩ := hsucc c' hc'
    obtain ⟨it, hit, heq', hsteps⟩ := hiterators it' hit'
    have hlimit := h.direct hprefetches it hit (heq' ▸ huse) (hsteps ▸ hpos) c hc
    exact heq ▸ hlimit.mono (Nat.le_succ _)

theorem Consistent.finishNext (h : loader.Consistent) (prefetch : Option (PrefetchSlot config))
    (hit : loader.iterators[k]? = some it)
    (hlt : ∀ c, loader.consumedSteps = some c → c.toNat < usizeMax)
    (hslot : ∀ slot, prefetch = some slot →
      slot.prefetch.consumer = .idle ∧ slot.Sound ∧ config.Prefetches)
    (hnone : prefetch = none → loader.prefetch = none)
    (hsync : ∀ slot c, prefetch = some slot → loader.consumedSteps = some c →
      ¬ config.LimitReached (c.toNat + 1) → slot.nextIndex = c.toNat + 1) :
    ({ loader with prefetch := prefetch }.finishNext k it batch).2.Consistent := by
  have hcounter : HasCounter { loader with prefetch := prefetch } := h.counter
  by_cases hlimit : config.LimitReached (loader.position it)
  · rw [finishNext_of_limitReached hcounter hlimit]
    exact h.counted hlt hslot hnone hsync fun it' hit' => ⟨it', hit', rfl, rfl⟩
  · rw [finishNext_of_not_limitReached hcounter hlimit]
    refine h.counted hlt hslot hnone hsync fun it' hit' => ?_
    rcases List.mem_or_eq_of_mem_set hit' with hit' | rfl
    · exact ⟨it', hit', rfl, rfl⟩
    · exact ⟨it, List.mem_of_getElem? hit, rfl, rfl⟩

theorem position_of_counter (h : loader.consumedSteps = some c) :
    loader.position it = c.toNat := by
  simp [position, h]

/-- **Regular steps keep the loader consistent.** -/
theorem Consistent.step (h : loader.Consistent) (hstep : Step loader action event loader')
    (hregular : loader.Regular action) : loader'.Consistent := by
  cases hstep with
  | work hslot hstep hclaims hidle => exact h.work hslot hstep hclaims hidle
  | iterDirect hcall huse =>
    exact h.pushIterator (h.idle hcall) fun huse' => by simp [huse] at huse'
  | iterSpawn hcall huse hnone =>
    constructor
    case counter => exact h.counter
    case idle => rintro ⟨⟩
    case iter => exact fun _ => huse
    case next => rintro _ ⟨⟩
    case slot =>
      rintro _ ⟨⟩
      exact ⟨.spawn _, prefetches_of_use huse⟩
    case usesPrefetch => exact fun it _ _ => some_ne_none _
    case sync =>
      rintro _ c ⟨⟩ hconsumed _
      have hconsumed : loader.consumedSteps = some c := hconsumed
      show loader.absoluteStepStart.toNat = c.toNat
      rw [absoluteStepStart, hconsumed, getD_some]
    case direct => exact h.direct
  | @iterPrimed slot hcall hslot hidle =>
    refine h.pushIterator (fun slot' hslot' => ?_) fun _ => by simp [hslot]
    obtain rfl : slot' = slot := some_inj.1 (hslot'.symm.trans hslot)
    exact hidle
  | @iterSeek slot slot' hcall huse hslot hseek =>
    have hforward : slot.nextIndex ≤ loader.absoluteStepStart.toNat := by
      rcases h.counter.cases with ⟨htotal, -⟩ | ⟨limit, c, -, hconsumed⟩
      · rw [hregular htotal huse slot hslot]
        exact Nat.zero_le _
      · rw [h.sync slot c hslot hconsumed (not_limitReached_of_use huse hconsumed),
          absoluteStepStart, hconsumed, getD_some]
    have hsought : Consistent { loader with prefetch := some slot' } := by
      constructor
      case counter => exact h.counter
      case idle =>
        rintro - _ ⟨⟩
        exact hseek.consumer_of_seek
      case iter => exact h.iter
      case next => exact fun k hk => by rw [show loader.call = .next k from hk] at hcall; cases hcall
      case slot =>
        rintro _ ⟨⟩
        refine ⟨hseek.sound (h.slot slot hslot).1 fun n hn => ?_, (h.slot slot hslot).2⟩
        cases hn
        exact hforward
      case usesPrefetch => exact fun it _ _ => some_ne_none _
      case sync =>
        rintro _ c ⟨⟩ hconsumed _
        have hconsumed : loader.consumedSteps = some c := hconsumed
        rw [hseek.nextIndex_eq]
        show loader.absoluteStepStart.toNat = c.toNat
        rw [absoluteStepStart, hconsumed, getD_some]
      case direct => exact h.direct
    refine hsought.pushIterator ?_ fun _ => some_ne_none _
    rintro _ ⟨⟩
    exact hseek.consumer_of_seek
  | nextExhausted => exact h
  | nextNoSlot => exact h
  | @nextDirect k it batch hcall hit hunfinished huse hsample =>
    obtain ⟨hlt, -, -⟩ := hregular it hit hunfinished
    refine h.finishNext loader.prefetch hit (fun c hc => ?_) (fun slot hslot => ?_) id
      fun slot c hslot hc hlimit => ?_
    · rwa [position_of_counter hc] at hlt
    · exact ⟨h.idle hcall slot hslot, h.slot slot hslot⟩
    · exact absurd (h.direct (h.slot slot hslot).2 it (List.mem_of_getElem? hit) huse
        (Nat.zero_lt_of_lt hunfinished) c hc) hlimit
  | @nextStart k it slot hcall hit hunfinished huse hslot =>
    obtain ⟨hlt, -, hunlimited⟩ := hregular it hit hunfinished
    constructor
    case counter => exact h.counter
    case idle => rintro ⟨⟩
    case iter => rintro ⟨⟩
    case next =>
      rintro _ ⟨⟩
      refine ⟨⟨it, hit, hunfinished, hlt, by simp [hslot], hunlimited huse⟩, fun slot hslot => ?_⟩
      rw [h.idle hcall slot hslot]
      simp
    case slot => exact h.slot
    case usesPrefetch => exact h.usesPrefetch
    case sync => exact h.sync
    case direct => exact h.direct
  | @nextReceived k it slot slot' batch hcall hit hslot hreceived =>
    obtain ⟨⟨it', hwaits⟩, -⟩ := h.next k hcall
    obtain rfl : it = it' := some_inj.1 (hit.symm.trans hwaits.iterator)
    have hlt : ∀ c, loader.consumedSteps = some c → c.toNat < usizeMax := fun c hc => by
      have hlt := hwaits.position_lt
      rwa [position_of_counter hc] at hlt
    refine h.finishNext _ hit hlt ?_ (by simp) ?_
    · rintro _ ⟨⟩
      exact ⟨hreceived.consumer_of_received, hreceived.sound (h.slot slot hslot).1 (by simp),
        (h.slot slot hslot).2⟩
    · rintro _ c ⟨⟩ hc hlimit
      have hsync := h.sync slot c hslot hc fun hle => hlimit (hle.mono (Nat.le_succ _))
      rw [hreceived.nextIndex_eq, hsync]
      exact min_eq_left (hlt c hc)
  | @nextNone k slot slot' hcall hslot hnone =>
    constructor
    case counter => exact h.counter
    case idle =>
      rintro - _ ⟨⟩
      exact hnone.consumer_of_received
    case iter => rintro ⟨⟩
    case next => rintro _ ⟨⟩
    case slot =>
      rintro _ ⟨⟩
      exact ⟨hnone.sound (h.slot slot hslot).1 (by simp), (h.slot slot hslot).2⟩
    case usesPrefetch => exact fun it _ _ => some_ne_none _
    case sync =>
      rintro _ c ⟨⟩ hc hlimit
      rw [hnone.nextIndex_eq]
      exact h.sync slot c hslot hc hlimit
    case direct => exact h.direct

end RandomDataLoader

end BurnDragon.Dataset
