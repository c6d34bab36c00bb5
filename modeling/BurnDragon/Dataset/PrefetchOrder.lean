import BurnDragon.Dataset.Prefetch

/-!
# Prefetch delivers every batch once and in order

What one step does to the batches on their way and to the expected index (`Step.inFlight`,
`Step.nextIndex_eq`, `Step.held`), and from that what every run does: a batch that is received was
sampled for the expected index, and as long as the consumer only seeks forward, no batch is lost on
the way and the end is only reported when all steps have been delivered
(`recv_delivers_in_order`).
-/

namespace BurnDragon.Dataset

open Rust Transition List

variable {β : Type*} {config : PrefetchConfig β}

/-! ## The expected index -/

namespace PrefetchEvent

/-- The expected index after an event. -/
def advance (next : ℕ) : PrefetchEvent β → ℕ
  | claimed _ => next
  | seekTo absoluteStep => absoluteStep
  | received (some _) => saturatingAdd next 1
  | received none => next

/-- The expected index after events. -/
def expected (start : ℕ) (events : List (PrefetchEvent β)) : ℕ := events.foldl advance start

/-- Every seek goes forward. -/
def Forward (start : ℕ) (events : List (PrefetchEvent β)) : Prop :=
  ∀ before absoluteStep after, events = before ++ seekTo absoluteStep :: after →
    expected start before ≤ absoluteStep

/-- The batches received. -/
def delivered (events : List (PrefetchEvent β)) : List β :=
  events.filterMap fun event =>
    match event with
    | received (some batch) => some batch
    | _ => none

variable {start : ℕ} {events : List (PrefetchEvent β)} {event : PrefetchEvent β}

theorem expected_concat : expected start (events ++ [event]) = advance (expected start events) event := by
  rw [expected, foldl_append]
  rfl

/-- Without seeks, every batch received moves the expected index on by one. -/
theorem expected_of_no_seek (hstart : start ≤ usizeMax)
    (hseek : ∀ absoluteStep, seekTo absoluteStep ∉ events) :
    expected start events = min (start + (delivered events).length) usizeMax := by
  induction events generalizing start with
  | nil => exact (min_eq_left hstart).symm
  | cons event events ih =>
    have hseek' : ∀ absoluteStep, seekTo absoluteStep ∉ events := fun n hn => hseek n (by simp [hn])
    rw [expected, foldl_cons]
    cases event with
    | claimed taskIndex => exact ih hstart hseek'
    | seekTo absoluteStep => exact absurd (mem_cons_self ..) (hseek absoluteStep)
    | received batch =>
      cases batch with
      | none => exact ih hstart hseek'
      | some batch =>
        refine (ih (saturatingAdd_le_usizeMax _ _) hseek').trans ?_
        have hlength : (delivered (received (some batch) :: events)).length =
            (delivered events).length + 1 := rfl
        rw [hlength, saturatingAdd]
        omega

theorem Forward.of_append {after : List (PrefetchEvent β)} (h : Forward start (events ++ after)) :
    Forward start events :=
  fun before absoluteStep rest heq => h before absoluteStep (rest ++ after) (by simp [heq])

theorem Forward.concat (h : Forward start events)
    (hevent : ∀ absoluteStep, event = seekTo absoluteStep → expected start events ≤ absoluteStep) :
    Forward start (events ++ [event]) := by
  intro before absoluteStep after heq
  rcases eq_nil_or_concat after with rfl | ⟨rest, last, rfl⟩
  · obtain ⟨rfl, hlast⟩ := append_inj' heq rfl
    exact hevent absoluteStep (singleton_inj.1 hlast)
  · rw [concat_eq_append, ← cons_append, ← append_assoc] at heq
    exact h before absoluteStep rest (append_inj' heq rfl).1

/-- The expected index does not fall below the start. -/
theorem Forward.le_expected (h : Forward start events) (hstart : start ≤ usizeMax) :
    start ≤ expected start events := by
  induction events using List.reverseRecOn with
  | nil => exact le_rfl
  | append_singleton events event ih =>
    have hle := ih h.of_append
    rw [expected_concat]
    cases event with
    | claimed taskIndex => exact hle
    | seekTo absoluteStep => exact hle.trans (h events absoluteStep [] rfl)
    | received batch =>
      cases batch with
      | none => exact hle
      | some batch => exact le_min (hle.trans (Nat.le_succ _)) hstart

end PrefetchEvent

open PrefetchEvent

/-- The batch delivered at a position comes after those before it. -/
theorem exists_of_delivered {events : List (PrefetchEvent β)} {k : ℕ} {batch : β}
    (h : (delivered events)[k]? = some batch) : ∃ before after,
      events = before ++ received (some batch) :: after ∧ (delivered before).length = k := by
  induction events generalizing k with
  | nil => simp [delivered] at h
  | cons event events ih =>
    have hskip : delivered (event :: events) = delivered events →
        (∀ before, delivered (event :: before) = delivered before) → ∃ before after,
        event :: events = before ++ received (some batch) :: after ∧
          (delivered before).length = k := by
      intro heq hcons
      obtain ⟨before, after, rfl, hlen⟩ := ih (heq ▸ h)
      exact ⟨event :: before, after, rfl, by rw [hcons, hlen]⟩
    cases event with
    | claimed taskIndex => exact hskip rfl fun _ => rfl
    | seekTo absoluteStep => exact hskip rfl fun _ => rfl
    | received found =>
      cases found with
      | none => exact hskip rfl fun _ => rfl
      | some found =>
        cases k with
        | zero =>
          obtain rfl : found = batch := by simpa [delivered] using h
          exact ⟨[], events, rfl, rfl⟩
        | succ k =>
          obtain ⟨before, after, rfl, hlen⟩ := ih (k := k) (by simpa [delivered] using h)
          exact ⟨received (some found) :: before, after, rfl, congrArg Nat.succ hlen⟩

/-! ## One step -/

namespace RandomPrefetch

variable {prefetch prefetch' : RandomPrefetch config} {event : Option (PrefetchEvent β)}
  {taskIndex : ℕ} {batch : β}

/-- The batch is on its way to the consumer. -/
inductive InFlight (prefetch : RandomPrefetch config) (taskIndex : ℕ) (batch : β) : Prop
  | sending (w : Fin config.workerCount) (h : prefetch.workers w = .sending taskIndex batch)
  | channel (h : (taskIndex, batch) ∈ prefetch.channel)
  | pending (h : prefetch.pending.get? taskIndex = some batch)

/-- The task index is being worked on, or its batch is on its way. -/
inductive Held (prefetch : RandomPrefetch config) (taskIndex : ℕ) : Prop
  | sampling (w : Fin config.workerCount) (h : prefetch.workers w = .sampling taskIndex)
  | inFlight (batch : β) (h : prefetch.InFlight taskIndex batch)

theorem setWorker_self (w : Fin config.workerCount) (worker : Worker β) :
    (prefetch.setWorker w worker).workers w = worker := Function.update_self ..

variable {w w' : Fin config.workerCount}

theorem setWorker_of_ne (worker : Worker β) (h : w' ≠ w) :
    (prefetch.setWorker w worker).workers w' = prefetch.workers w' := Function.update_of_ne h ..

/-- A worker that is sending after another worker has moved on was sending before. -/
theorem sending_of_setWorker {worker : Worker β}
    (h : (prefetch.setWorker w worker).workers w' = .sending taskIndex batch)
    (hworker : worker ≠ .sending taskIndex batch) :
    prefetch.workers w' = .sending taskIndex batch := by
  by_cases hw : w' = w
  · subst hw
    rw [setWorker_self] at h
    exact absurd h hworker
  · rwa [setWorker_of_ne worker hw] at h

/-- The expected index is what the events say. -/
theorem Step.nextIndex_eq (h : Step prefetch event prefetch') :
    prefetch'.nextIndex = event.toList.foldl advance prefetch.nextIndex := by
  cases h <;> rfl

theorem Step.nextIndex_le (h : Step prefetch event prefetch') (hle : prefetch.nextIndex ≤ usizeMax) :
    prefetch'.nextIndex ≤ usizeMax := by
  cases h with
  | seekTo _ hstep => exact hstep
  | recvPending => exact saturatingAdd_le_usizeMax _ _
  | recvExpected => exact saturatingAdd_le_usizeMax _ _
  | _ => exact hle

/-- A batch is on its way in one of three places. -/
theorem InFlight.imp (h : prefetch'.InFlight taskIndex batch)
    (hsending : ∀ w, prefetch'.workers w = .sending taskIndex batch →
      prefetch.InFlight taskIndex batch)
    (hchannel : (taskIndex, batch) ∈ prefetch'.channel → prefetch.InFlight taskIndex batch)
    (hpending : prefetch'.pending.get? taskIndex = some batch →
      prefetch.InFlight taskIndex batch) : prefetch.InFlight taskIndex batch := by
  cases h with
  | sending w h => exact hsending w h
  | channel h => exact hchannel h
  | pending h => exact hpending h

/-- What the consumer takes from the channel was on its way. -/
theorem InFlight.of_channel {rest : List (ℕ × β)} {received : ℕ × β}
    (hchannel : prefetch.channel = received :: rest) (h : (taskIndex, batch) = received ∨
      (taskIndex, batch) ∈ rest) : prefetch.InFlight taskIndex batch :=
  .channel (hchannel ▸ mem_cons.2 h)

/-- A batch on its way was so before, or has just been sampled. -/
theorem Step.inFlight (h : Step prefetch event prefetch')
    (hflight : prefetch'.InFlight taskIndex batch) : prefetch.InFlight taskIndex batch ∨
      config.source.Samples taskIndex batch ∧ ∃ w, prefetch.workers w = .sampling taskIndex := by
  cases h with
  | claim => exact .inl (hflight.imp
      (fun w hw => .sending w (sending_of_setWorker hw (by simp))) (fun h => .channel h)
      fun h => .pending h)
  | exit => exact .inl (hflight.imp
      (fun w hw => .sending w (sending_of_setWorker hw (by simp))) (fun h => .channel h)
      fun h => .pending h)
  | @sample w i b hw hsample =>
    by_cases hsent : (i, b) = (taskIndex, batch)
    · obtain ⟨rfl, rfl⟩ := Prod.mk.inj hsent
      exact .inr ⟨hsample, w, hw⟩
    · refine .inl (hflight.imp (fun w hw => .sending w (sending_of_setWorker hw ?_)) (fun h => .channel h)
        fun h => .pending h)
      simpa using hsent
  | @send w i b hw =>
    refine .inl (hflight.imp (fun w hw => .sending w (sending_of_setWorker hw (by simp)))
      (fun hmem => ?_) fun h => .pending h)
    rcases mem_append.1 hmem with hmem | hmem
    · exact .channel hmem
    · obtain ⟨rfl, rfl⟩ := Prod.mk.inj (mem_singleton.1 hmem)
      exact .sending w hw
  | prime _ _ hchannel =>
    refine .inl (hflight.imp (fun w h => .sending w h) (fun hmem => .of_channel hchannel (.inr hmem))
      fun hget => ?_)
    rcases BTreeMap.get?_insert_eq_some hget with ⟨rfl, rfl⟩ | hget
    · exact .of_channel hchannel (.inl rfl)
    · exact .pending hget
  | seekTo => exact .inl (hflight.imp (fun w h => .sending w h) (fun h => .channel h)
      fun hget => .pending (BTreeMap.get?_of_get?_retainFrom hget))
  | recvPending => exact .inl (hflight.imp (fun w h => .sending w h) (fun h => .channel h)
      fun hget => .pending (BTreeMap.get?_of_get?_remove hget))
  | recvExpected _ hchannel => exact .inl (hflight.imp (fun w h => .sending w h)
      (fun hmem => .of_channel hchannel (.inr hmem)) fun h => .pending h)
  | recvOther _ hchannel =>
    refine .inl (hflight.imp (fun w h => .sending w h) (fun hmem => .of_channel hchannel (.inr hmem))
      fun hget => ?_)
    rcases BTreeMap.get?_insert_eq_some hget with ⟨rfl, rfl⟩ | hget
    · exact .of_channel hchannel (.inl rfl)
    · exact .pending hget
  | primed => exact .inl (hflight.imp (fun w h => .sending w h) (fun h => .channel h) fun h => .pending h)
  | primeDisconnected => exact .inl (hflight.imp (fun w h => .sending w h) (fun h => .channel h) fun h => .pending h)
  | recvWait => exact .inl (hflight.imp (fun w h => .sending w h) (fun h => .channel h) fun h => .pending h)
  | recvDisconnected => exact .inl (hflight.imp (fun w h => .sending w h) (fun h => .channel h) fun h => .pending h)

/-- What is received was on its way with the expected index. -/
theorem Step.received (h : Step prefetch (some (.received (some batch))) prefetch') :
    prefetch.InFlight prefetch.nextIndex batch := by
  cases h with
  | recvPending _ hget => exact .pending hget
  | recvExpected _ hchannel => exact .of_channel hchannel (.inl rfl)

/-- An index is held in one of four places. -/
theorem Held.imp (h : prefetch.Held taskIndex)
    (hsampling : ∀ w, prefetch.workers w = .sampling taskIndex → prefetch'.Held taskIndex)
    (hsending : ∀ w batch, prefetch.workers w = .sending taskIndex batch →
      prefetch'.Held taskIndex)
    (hchannel : ∀ batch, (taskIndex, batch) ∈ prefetch.channel → prefetch'.Held taskIndex)
    (hpending : ∀ batch, prefetch.pending.get? taskIndex = some batch →
      prefetch'.Held taskIndex) : prefetch'.Held taskIndex := by
  cases h with
  | sampling w h => exact hsampling w h
  | inFlight batch h =>
    cases h with
    | sending w h => exact hsending w batch h
    | channel h => exact hchannel batch h
    | pending h => exact hpending batch h

/-- A worker stays where it is when another one moves on. -/
theorem workers_setWorker {old worker worker' : Worker β} (hw : prefetch.workers w = old)
    (hw' : prefetch.workers w' = worker') (hne : worker' ≠ old) :
    (prefetch.setWorker w worker).workers w' = worker' := by
  have hww : w' ≠ w := by
    rintro rfl
    exact hne (hw'.symm.trans hw)
  rw [setWorker_of_ne worker hww, hw']

/-- Receiving a batch keeps what is in the channel and what is pending. -/
theorem Held.receive {rest : List (ℕ × β)} {received : ℕ × β} (h : prefetch.Held taskIndex)
    (hchannel : prefetch.channel = received :: rest) :
    { prefetch with
      channel := rest
      pending := prefetch.pending.insert received.1 received.2 }.Held taskIndex := by
  refine h.imp (fun w h => .sampling w h) (fun w b h => .inFlight b (.sending w h))
    (fun b hmem => ?_) fun b hget => ?_
  · rcases mem_cons.1 (hchannel ▸ hmem) with rfl | hmem
    · exact .inFlight b (.pending (BTreeMap.get?_insert_self ..))
    · exact .inFlight b (.channel hmem)
  · by_cases hindex : taskIndex = received.1
    · exact .inFlight received.2 (.pending (hindex ▸ BTreeMap.get?_insert_self ..))
    · exact .inFlight b (.pending ((BTreeMap.get?_insert_of_ne _ _ hindex).trans hget))

/-- **No step loses an index.** An index that is held stays so until it is no longer to be
expected. -/
theorem Step.held (h : Step prefetch event prefetch') (hheld : prefetch.Held taskIndex)
    (hlt : taskIndex < usizeMax) (hle : prefetch'.nextIndex ≤ taskIndex) :
    prefetch'.Held taskIndex := by
  have hnext : ∀ {next : ℕ}, saturatingAdd next 1 ≤ taskIndex → taskIndex ≠ next := by
    unfold saturatingAdd
    omega
  cases h with
  | claim hw =>
    exact hheld.imp (fun w' hw' => .sampling w' (workers_setWorker hw hw' (by simp)))
      (fun w' b hw' => .inFlight b (.sending w' (workers_setWorker hw hw' (by simp))))
      (fun b h => .inFlight b (.channel h)) fun b h => .inFlight b (.pending h)
  | exit hw =>
    exact hheld.imp (fun w' hw' => .sampling w' (workers_setWorker hw hw' (by simp)))
      (fun w' b hw' => .inFlight b (.sending w' (workers_setWorker hw hw' (by simp))))
      (fun b h => .inFlight b (.channel h)) fun b h => .inFlight b (.pending h)
  | @sample w i batch hw =>
    refine hheld.imp (fun w' hw' => ?_)
      (fun w' b hw' => .inFlight b (.sending w' (workers_setWorker hw hw' (by simp))))
      (fun b h => .inFlight b (.channel h)) fun b h => .inFlight b (.pending h)
    by_cases hi : i = taskIndex
    · exact .inFlight batch (.sending w (by rw [setWorker_self, hi]))
    · exact .sampling w' (workers_setWorker hw hw' (by simpa using Ne.symm hi))
  | @send w i batch hw =>
    refine hheld.imp (fun w' hw' => .sampling w' (workers_setWorker hw hw' (by simp)))
      (fun w' b hw' => ?_) (fun b h => .inFlight b (.channel (mem_append_left _ h)))
      fun b h => .inFlight b (.pending h)
    by_cases hi : i = taskIndex
    · exact .inFlight batch (.channel (by simp [hi]))
    · exact .inFlight b (.sending w' (workers_setWorker hw hw' (by simp [Ne.symm hi])))
  | prime _ _ hchannel => exact hheld.receive hchannel
  | seekTo =>
    exact hheld.imp (fun w h => .sampling w h) (fun w b h => .inFlight b (.sending w h))
      (fun b h => .inFlight b (.channel h)) fun b hget =>
        .inFlight b (.pending ((BTreeMap.get?_retainFrom ..).trans ((if_pos hle).trans hget)))
  | recvPending =>
    exact hheld.imp (fun w h => .sampling w h)
      (fun w b h => .inFlight b (.sending w h)) (fun b h => .inFlight b (.channel h)) fun b hget =>
        .inFlight b (.pending ((BTreeMap.get?_remove ..).trans ((if_neg (hnext hle)).trans hget)))
  | recvExpected _ hchannel =>
    refine hheld.imp (fun w h => .sampling w h) (fun w b h => .inFlight b (.sending w h))
      (fun b hmem => ?_) fun b h => .inFlight b (.pending h)
    rcases mem_cons.1 (hchannel ▸ hmem) with heq | hmem
    · exact absurd (Prod.mk.inj heq).1 (hnext hle)
    · exact .inFlight b (.channel hmem)
  | recvOther _ hchannel => exact hheld.receive hchannel
  | _ =>
    exact hheld.imp (fun w h => .sampling w h) (fun w b h => .inFlight b (.sending w h))
      (fun b h => .inFlight b (.channel h)) fun b h => .inFlight b (.pending h)

/-- A worker in another state than the one that was set had it before. -/
theorem workers_of_setWorker {w' : Fin config.workerCount} {worker worker' : Worker β}
    (h : (prefetch.setWorker w' worker).workers w = worker') (hne : worker ≠ worker') :
    prefetch.workers w = worker' := by
  by_cases hww : w = w'
  · subst hww
    exact absurd ((setWorker_self w worker).symm.trans h) hne
  · rwa [setWorker_of_ne worker hww] at h

/-- A worker that is sampling an index has claimed it before or just now. -/
theorem Step.sampling (h : Step prefetch event prefetch')
    (hw : prefetch'.workers w = .sampling taskIndex) : prefetch.workers w = .sampling taskIndex ∨
      event = some (.claimed taskIndex) ∧ ¬ config.LimitReached taskIndex := by
  cases h with
  | claim hclaim hlimit =>
    by_cases hi : prefetch.nextTask = taskIndex
    · exact .inr ⟨by rw [hi], hi ▸ hlimit⟩
    · exact .inl (workers_of_setWorker hw (by simpa using hi))
  | exit => exact .inl (workers_of_setWorker hw (by simp))
  | sample => exact .inl (workers_of_setWorker hw (by simp))
  | send => exact .inl (workers_of_setWorker hw (by simp))
  | _ => exact .inl hw

/-- A worker has ended before or just now, when no steps were left. -/
theorem Step.exited (h : Step prefetch event prefetch') (hw : prefetch'.workers w = .exited) :
    prefetch.workers w = .exited ∨ config.LimitReached prefetch.nextTask := by
  cases h with
  | claim => exact .inl (workers_of_setWorker hw (by simp))
  | exit _ hlimit => exact .inr hlimit
  | sample => exact .inl (workers_of_setWorker hw (by simp))
  | send => exact .inl (workers_of_setWorker hw (by simp))
  | _ => exact .inl hw

/-! ## Every run -/

/-- What holds of every reachable state: the batches on their way are sampled for their indices, no
index from the limit on is worked on, a waiting consumer does not have the batch it waits for, and
workers only end when there is a limit. -/
structure Sound (prefetch : RandomPrefetch config) : Prop where
  inFlight : ∀ taskIndex batch, prefetch.InFlight taskIndex batch →
    config.source.Samples taskIndex batch ∧ ¬ config.LimitReached taskIndex
  sampling : ∀ w taskIndex, prefetch.workers w = .sampling taskIndex →
    ¬ config.LimitReached taskIndex
  waiting : prefetch.consumer = .receiving → prefetch.pending.get? prefetch.nextIndex = none
  exited : ∀ w, prefetch.workers w = .exited → ∃ limit, config.totalSteps = some limit
  nextIndex_le : prefetch.nextIndex ≤ usizeMax

theorem Sound.spawn : (spawn config).Sound where
  inFlight taskIndex batch h := by
    cases h with
    | sending w h => simp [RandomPrefetch.spawn] at h
    | channel h => simp [RandomPrefetch.spawn] at h
    | pending h => simp [RandomPrefetch.spawn] at h
  sampling w taskIndex h := by simp [RandomPrefetch.spawn] at h
  waiting h := by simp [RandomPrefetch.spawn] at h
  exited w h := by simp [RandomPrefetch.spawn] at h
  nextIndex_le := config.start_le

theorem Step.waiting (h : Step prefetch event prefetch')
    (hwaiting : prefetch.consumer = .receiving → prefetch.pending.get? prefetch.nextIndex = none)
    (hconsumer : prefetch'.consumer = .receiving) :
    prefetch'.pending.get? prefetch'.nextIndex = none := by
  cases h with
  | claim => exact hwaiting hconsumer
  | exit => exact hwaiting hconsumer
  | sample => exact hwaiting hconsumer
  | send => exact hwaiting hconsumer
  | recvWait _ hget => exact hget
  | recvOther _ _ hne => exact (BTreeMap.get?_insert_of_ne _ _ hne.symm).trans (hwaiting hconsumer)
  | prime hpriming => exact absurd (hpriming.symm.trans hconsumer) (by decide)
  | seekTo hidle => exact absurd (hidle.symm.trans hconsumer) (by decide)
  | recvPending hidle => exact absurd (hidle.symm.trans hconsumer) (by decide)
  | primed => simp at hconsumer
  | primeDisconnected => simp at hconsumer
  | recvExpected => simp at hconsumer
  | recvDisconnected => simp at hconsumer

/-- The consumer is only priming from the start on. -/
theorem Step.not_priming (h : Step prefetch event prefetch') (hne : prefetch.consumer ≠ .priming) :
    prefetch'.consumer ≠ .priming := by
  cases h with
  | primed => simp
  | primeDisconnected => simp
  | recvWait => simp
  | recvExpected => simp
  | recvDisconnected => simp
  | _ => exact hne

theorem Step.sound (h : Step prefetch event prefetch') (hsound : prefetch.Sound) :
    prefetch'.Sound where
  inFlight taskIndex batch hflight := by
    rcases h.inFlight hflight with hflight | ⟨hsample, w, hw⟩
    · exact hsound.inFlight taskIndex batch hflight
    · exact ⟨hsample, hsound.sampling w taskIndex hw⟩
  sampling w taskIndex hw := by
    rcases h.sampling hw with hw | ⟨-, hlimit⟩
    · exact hsound.sampling w taskIndex hw
    · exact hlimit
  waiting := h.waiting hsound.waiting
  exited w hw := by
    rcases h.exited hw with hw | ⟨limit, hlimit, -⟩
    · exact hsound.exited w hw
    · exact ⟨limit, hlimit⟩
  nextIndex_le := h.nextIndex_le hsound.nextIndex_le

/-- The runs from `spawn` on. -/
abbrev Runs (config : PrefetchConfig β) (events : List (PrefetchEvent β))
    (prefetch : RandomPrefetch config) : Prop :=
  Run Step (spawn config) events prefetch

namespace Runs

variable {events : List (PrefetchEvent β)}

section

variable (h : Runs config events prefetch)
include h

theorem sound : prefetch.Sound :=
  h.invariant .spawn fun _ _ _ hsound hstep => hstep.sound hsound

theorem nextIndex_eq :
    prefetch.nextIndex = expected config.absoluteStepStart events := by
  refine h.induct (P := fun events p => p.nextIndex = expected config.absoluteStepStart events) rfl
    fun events p event p' _ heq hstep => ?_
  rw [hstep.nextIndex_eq, heq, expected, expected, foldl_append]

/-- With forward seeks, the expected index does not fall. -/
theorem nextIndex_mono (hstep : Step prefetch event prefetch')
    (hforward : Forward config.absoluteStepStart (events ++ event.toList)) :
    prefetch.nextIndex ≤ prefetch'.nextIndex := by
  rw [hstep.nextIndex_eq, h.nextIndex_eq]
  cases event with
  | none => exact le_rfl
  | some event =>
    cases event with
    | claimed taskIndex => exact le_rfl
    | seekTo absoluteStep => exact hforward events absoluteStep [] rfl
    | received batch =>
      cases batch with
      | none => exact le_rfl
      | some batch =>
        exact le_min (Nat.le_succ _) (h.nextIndex_eq ▸ h.sound.nextIndex_le)

/-- **Nothing that was claimed is lost**: with forward seeks, a claimed index that is still to be
expected is being sampled or its batch is on its way. -/
theorem held (hforward : Forward config.absoluteStepStart events) (hlt : taskIndex < usizeMax)
    (hclaimed : claimed taskIndex ∈ events) (hle : prefetch.nextIndex ≤ taskIndex) :
    prefetch.Held taskIndex := by
  refine h.induct (P := fun events p => Forward config.absoluteStepStart events →
    claimed taskIndex ∈ events → p.nextIndex ≤ taskIndex → p.Held taskIndex)
    (fun _ hmem => by simp at hmem) (fun events p event p' hrun ih hstep hforward hmem hle => ?_)
    hforward hclaimed hle
  rcases mem_append.1 hmem with hmem | hmem
  · exact hstep.held (ih hforward.of_append hmem ((nextIndex_mono hrun hstep hforward).trans hle))
      hlt hle
  · obtain rfl : event = some (claimed taskIndex) := by
      cases event <;> simp_all
    cases hstep with
    | @claim w _ _ => exact .sampling w (setWorker_self ..)

end

/-- Every index from the start on that is within the limit has been claimed. -/
def AllClaimed (config : PrefetchConfig β) (events : List (PrefetchEvent β)) : Prop :=
  ∀ taskIndex ≤ usizeMax, config.absoluteStepStart ≤ taskIndex →
    ¬ config.LimitReached taskIndex → claimed taskIndex ∈ events

/-- Every index from the start up to the shared counter has been claimed, and no worker has ended. -/
structure ClaimedUpTo (events : List (PrefetchEvent β)) (prefetch : RandomPrefetch config) :
    Prop where
  exited : ∀ w, prefetch.workers w ≠ .exited
  le_nextTask : config.absoluteStepStart ≤ prefetch.nextTask
  nextTask_le : prefetch.nextTask ≤ usizeMax
  claimed : ∀ taskIndex, config.absoluteStepStart ≤ taskIndex → taskIndex < prefetch.nextTask →
    ¬ config.LimitReached taskIndex → claimed taskIndex ∈ events

/-- The claims cover the indices in order. -/
theorem covered (h : Runs config events prefetch) :
    AllClaimed config events ∨ ClaimedUpTo events prefetch := by
  refine h.induct (P := fun events p => AllClaimed config events ∨ ClaimedUpTo events p)
    (.inr ⟨fun w h => by simp [spawn] at h, le_rfl, config.start_le, fun i hle hlt => ?_⟩)
    fun events p event p' _ ih hstep => ?_
  · exact absurd (hle.trans_lt hlt) (lt_irrefl _)
  rcases ih with hall | hcov
  · exact .inl fun i hi hle hlimit => mem_append_left _ (hall i hi hle hlimit)
  by_cases hlimit : config.LimitReached p.nextTask
  · -- the indices within the limit are all below the counter
    obtain ⟨limit, htotal, hlimit⟩ := hlimit
    refine .inl fun i _ hle hi => mem_append_left _ (hcov.claimed i hle ?_ hi)
    by_contra hge
    exact hi ⟨limit, htotal, hlimit.trans (not_lt.1 hge)⟩
  have hexited : ∀ w, p'.workers w ≠ .exited := fun w hw =>
    (hstep.exited hw).elim (hcov.exited w) hlimit
  have hstay : p'.nextTask = p.nextTask → ClaimedUpTo (events ++ event.toList) p' := fun heq =>
    ⟨hexited, heq ▸ hcov.le_nextTask, heq ▸ hcov.nextTask_le, fun i hle hlt hi =>
      mem_append_left _ (hcov.claimed i hle (heq ▸ hlt) hi)⟩
  cases hstep with
  | claim hw =>
    have hclaimed : ∀ i, config.absoluteStepStart ≤ i → i ≤ p.nextTask → ¬ config.LimitReached i →
        claimed i ∈ events ++ (some (claimed p.nextTask)).toList := by
      intro i hle hi hlimit
      rcases hi.lt_or_eq with hlt | rfl
      · exact mem_append_left _ (hcov.claimed i hle hlt hlimit)
      · simp
    by_cases hmax : p.nextTask = usizeMax
    · exact .inl fun i hi hle => hclaimed i hle (hmax ▸ hi)
    · have hle := hcov.nextTask_le
      have hstart := hcov.le_nextTask
      have hnext : (p.nextTask + 1) % 2 ^ 64 = p.nextTask + 1 := by
        unfold usizeMax at hle hmax
        exact Nat.mod_eq_of_lt (by omega)
      refine .inr ⟨hexited, ?_, ?_, fun i hi hlt => ?_⟩
      · show _ ≤ (p.nextTask + 1) % 2 ^ 64
        omega
      · show (p.nextTask + 1) % 2 ^ 64 ≤ _
        omega
      · have hlt : i < (p.nextTask + 1) % 2 ^ 64 := hlt
        exact hclaimed i hi (by omega)
  | exit _ hreached => exact absurd hreached hlimit
  | _ => exact .inr (hstay rfl)

/-- **The end is only reported when it is reached**: with forward seeks, a consumer that learns that
all workers have ended has received all steps from the expected one on. -/
theorem limitReached (h : Runs config events prefetch)
    (hforward : Forward config.absoluteStepStart events)
    (hreceiving : prefetch.consumer = .receiving) (hchannel : prefetch.channel = [])
    (hexited : ∀ w, prefetch.workers w = .exited) : config.LimitReached prefetch.nextIndex := by
  by_contra hlimit
  have hsound := h.sound
  let w : Fin config.workerCount := ⟨0, Nat.lt_of_lt_of_le Nat.zero_lt_one (Nat.le_max_right ..)⟩
  obtain ⟨limit, htotal⟩ := hsound.exited w (hexited w)
  have hlt : prefetch.nextIndex < usizeMax := by
    have hle := config.total_le limit htotal
    by_contra hge
    exact hlimit ⟨limit, htotal, hle.trans (not_lt.1 hge)⟩
  have hstart : config.absoluteStepStart ≤ prefetch.nextIndex :=
    h.nextIndex_eq ▸ hforward.le_expected config.start_le
  have hall := h.covered.resolve_right fun hcov => hcov.exited w (hexited w)
  have hheld := h.held hforward hlt (hall _ hlt.le hstart hlimit) le_rfl
  cases hheld with
  | sampling w hw => simp [hexited w] at hw
  | inFlight batch hflight =>
    cases hflight with
    | sending w hw => simp [hexited w] at hw
    | channel hmem => simp [hchannel] at hmem
    | pending hget => simp [hsound.waiting hreceiving] at hget

/-- A batch that is received was sampled for the expected index. -/
theorem received (h : Runs config (events ++ [.received (some batch)]) prefetch) :
    config.source.Samples (expected config.absoluteStepStart events) batch ∧
      ¬ config.LimitReached (expected config.absoluteStepStart events) := by
  obtain ⟨before, after, hrun, hstep, -⟩ := h.exists_step
  have hrun : Runs config events before := hrun
  rw [← hrun.nextIndex_eq]
  exact hrun.sound.inFlight _ batch hstep.received

theorem received_none (h : Runs config (events ++ [.received none]) prefetch)
    (hforward : Forward config.absoluteStepStart events) :
    config.LimitReached (expected config.absoluteStepStart events) := by
  obtain ⟨before, after, hrun, hstep, -⟩ := h.exists_step
  have hrun : Runs config events before := hrun
  rw [← hrun.nextIndex_eq]
  cases hstep with
  | recvDisconnected hreceiving hchannel hexited =>
    exact hrun.limitReached hforward hreceiving hchannel hexited

end Runs

end RandomPrefetch

/-! ## Deliveries -/

open RandomPrefetch

/-- The calls of `recv` after these events start at the index: there were none before, or the last one
was `seek_to` the index. -/
def StartsAt (config : PrefetchConfig β) (before : List (PrefetchEvent β)) (n : ℕ) : Prop :=
  before = [] ∧ n = config.absoluteStepStart ∨ ∃ earlier, before = earlier ++ [seekTo n]

/-- **Prefetch delivers every batch once and in order.** In every run with forward seeks, after the
construction or a `seek_to n`, the k-th batch received is one sampled for the step `n + k`, nothing is
received but the steps before the limit, `recv` returns nothing only when the limit is reached, and
every step claimed by a worker that is still to be expected is being sampled or on its way. -/
theorem recv_delivers_in_order {before after : List (PrefetchEvent β)}
    {prefetch : RandomPrefetch config} {n : ℕ}
    (hrun : Runs config (before ++ after) prefetch)
    (hforward : Forward config.absoluteStepStart (before ++ after))
    (hstart : StartsAt config before n) (hseek : ∀ absoluteStep, seekTo absoluteStep ∉ after) :
    (∀ k batch, (delivered after)[k]? = some batch → n + k ≤ usizeMax →
      config.source.Samples (n + k) batch ∧ ¬ config.LimitReached (n + k)) ∧
    (∀ earlier later, after = earlier ++ .received none :: later →
      config.LimitReached (n + (delivered earlier).length)) ∧
    ∀ taskIndex < usizeMax, claimed taskIndex ∈ before ++ after →
      prefetch.nextIndex ≤ taskIndex → prefetch.Held taskIndex := by
  have hbefore : expected config.absoluteStepStart before = n := by
    rcases hstart with ⟨rfl, rfl⟩ | ⟨earlier, rfl⟩
    · rfl
    · exact expected_concat
  have hn : n ≤ usizeMax := by
    obtain ⟨s, hs, -⟩ := hrun.split
    have hs : Runs config before s := hs
    rw [← hbefore, ← hs.nextIndex_eq]
    exact hs.sound.nextIndex_le
  have hexpected : ∀ earlier later, after = earlier ++ later →
      expected config.absoluteStepStart (before ++ earlier) =
        min (n + (delivered earlier).length) usizeMax := by
    rintro earlier later rfl
    rw [expected, List.foldl_append]
    change expected (expected config.absoluteStepStart before) earlier = _
    rw [hbefore]
    exact expected_of_no_seek hn fun m hm => hseek m (List.mem_append_left _ hm)
  have hinitial : ∀ earlier event later, after = earlier ++ event :: later →
      ∃ s, Runs config (before ++ earlier ++ [event]) s := by
    rintro earlier event later rfl
    have hrun : Runs config ((before ++ earlier ++ [event]) ++ later) prefetch := by
      simpa using hrun
    obtain ⟨s, hs, -⟩ := hrun.split
    exact ⟨s, hs⟩
  refine ⟨fun k batch hk hle => ?_, fun earlier later heq => ?_, fun i hi hclaimed hle =>
    hrun.held hforward hi hclaimed hle⟩
  · obtain ⟨earlier, later, heq, rfl⟩ := exists_of_delivered hk
    obtain ⟨s, hs⟩ := hinitial _ _ _ heq
    have h := hs.received
    rwa [hexpected _ _ heq, min_eq_left hle] at h
  · obtain ⟨s, hs⟩ := hinitial _ _ _ heq
    have hforward : Forward config.absoluteStepStart
        ((before ++ earlier) ++ .received none :: later) := by simpa [heq] using hforward
    obtain ⟨limit, htotal, hlimit⟩ := hs.received_none hforward.of_append
    rw [hexpected _ _ heq] at hlimit
    exact ⟨limit, htotal, hlimit.trans (min_le_left _ _)⟩

/-- One worker that samples the index of the step as the batch. -/
def countingConfig : PrefetchConfig ℕ where
  source := {
    split := .train
    batchSize := 1
    blockSize := 1
    stepsPerEpoch := 2
    seed := 0
    sourceSelectionEnabled := false
    scheduleIncludes := fun _ => false
    ruliadPolicyStratifiedDifficultyLevels := 0
    sampleHostBatch := fun request batch => batch = request.absoluteStep }
  absoluteStepStart := 3
  totalSteps := some 8
  depth := 1
  workers := 1
  start_le := by decide
  total_le := by simp [usizeMax]

/-- The worker samples one batch, `prime` keeps it and `recv` hands it out. -/
theorem runs_countingConfig : ∃ prefetch, Runs countingConfig ([] ++ [.claimed 3, .received (some 3)])
    prefetch := by
  let w : Fin countingConfig.workerCount := ⟨0, by decide⟩
  have hclaim : Runs countingConfig [.claimed 3] _ :=
    Run.single (Step.claim (w := w) rfl (by simp [PrefetchConfig.LimitReached, countingConfig, spawn]))
  have hsample := hclaim.tail (Step.sample (w := w) (setWorker_self ..)
    (show countingConfig.source.Samples 3 3 from rfl))
  have hsend := hsample.tail (Step.send (w := w) (setWorker_self ..) (by decide))
  have hprime := hsend.tail (Step.prime rfl ⟨0, rfl, by decide⟩ rfl)
  have hprimed := hprime.tail (Step.primed rfl ⟨1, by decide +kernel, by decide⟩)
  exact ⟨_, hprimed.tail (Step.recvPending rfl rfl)⟩

theorem recv_delivers_in_order_countingConfig :
    countingConfig.source.Samples 3 3 ∧ ¬ countingConfig.LimitReached 3 := by
  obtain ⟨prefetch, hrun⟩ := runs_countingConfig
  have hforward : Forward 3 ([] ++ [.claimed 3, .received (some 3)] : List (PrefetchEvent ℕ)) := by
    intro before absoluteStep after heq
    have hmem : seekTo absoluteStep ∈ ([.claimed 3, .received (some 3)] : List (PrefetchEvent ℕ)) := by
      simp only [List.nil_append] at heq
      simp [heq]
    simp at hmem
  exact (recv_delivers_in_order hrun hforward (.inl ⟨rfl, rfl⟩) (by simp)).1 0 3 rfl (by decide)

end BurnDragon.Dataset
