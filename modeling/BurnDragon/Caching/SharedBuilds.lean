import BurnDragon.Transition.Run

/-!
# Builds that threads share

Threads ask for the value of a key. A lock protects the store of the values and the set of the keys
that are being built. Who finds a key that is neither stored nor being built marks it and builds the
value without the lock; whoever finds the mark waits. When the build has ended, the value is stored
and the mark removed, and the waiting threads are woken; they look again, as the value may be gone.
A build that panics removes its mark as well. A thread can also mark a key for another one that it
starts.

A step of the system is one section under the lock, or what a thread does between two of them
(`Step`), so a run is any interleaving of these. `Sound` collects the invariants, and `Held` counts
the steps of the owners of a mark while it stands: there are fewer than three (`Held.lt_three`).
-/

namespace BurnDragon.Caching

open Transition List

/-! ## The system -/

/-- What a store does in the sections of a lock. -/
structure BuildStore (σ K V : Type*) where
  /-- Look for the value of a key. -/
  find : σ → K → Option V × σ
  /-- Store a value, which may drop others. -/
  Stores : σ → K → V → σ → Prop
  /-- A value can be in memory together with the stored ones. -/
  Room : σ → V → Prop
  /-- Threads start others that build. -/
  Prefetches : Prop

/-- Where a thread is. -/
inductive Phase (K V : Type*)
  | idle
  | looking (key : K)
  | waiting (key : K) (notified : Bool)
  | spawning (key : K)
  | building (key : K)
  | storing (key : K) (value : V)
  | releasing (key : K)

/-- The key that a thread has marked. -/
def Phase.claim {K V : Type*} : Phase K V → Option K
  | .spawning key | .building key | .storing key _ | .releasing key => some key
  | _ => none

/-- The steps in which a thread is rid of its mark. -/
def Phase.remaining {K V : Type*} : Phase K V → ℕ
  | .spawning _ => 3
  | .building _ => 2
  | .storing .. | .releasing _ => 1
  | _ => 0

def Phase.notify {K V : Type*} : Phase K V → Phase K V
  | .waiting key _ => .waiting key true
  | phase => phase

structure System (T σ K V : Type*) where
  store : σ
  building : Finset K
  phase : T → Phase K V

/-- What can be seen of a step. -/
inductive BuildEvent (T K V : Type*)
  | built (thread : T) (key : K) (value : V)
  | returned (thread : T) (key : K) (value : V)
  | panicked (thread : T) (key : K)

variable {T σ K V : Type*} [DecidableEq T] [DecidableEq K]

namespace System

/-- Nothing is stored yet but what the store begins with. -/
def initial (store : σ) : System T σ K V where
  store := store
  building := ∅
  phase _ := .idle

def setPhase (s : System T σ K V) (t : T) (phase : Phase K V) : System T σ K V :=
  { s with phase := Function.update s.phase t phase }

/-- The mark of a key is removed, and all that wait are notified. -/
def release (s : System T σ K V) (t : T) (key : K) : System T σ K V where
  store := s.store
  building := s.building.erase key
  phase u := (Function.update s.phase t .idle u).notify

/-- A step of a thread. -/
inductive Step (build : BuildStore σ K V) (s : System T σ K V) (t : T) :
    Option (BuildEvent T K V) → System T σ K V → Prop
  | ask (key : K) (h : s.phase t = .idle) : Step build s t none (s.setPhase t (.looking key))
  | hit {key : K} {value : V} {store : σ} (h : s.phase t = .looking key)
    (hfind : build.find s.store key = (some value, store)) :
    Step build s t (some (.returned t key value)) { s.setPhase t .idle with store := store }
  | claim {key : K} {store : σ} (h : s.phase t = .looking key)
    (hfind : build.find s.store key = (none, store)) (hkey : key ∉ s.building) :
    Step build s t none
      { s.setPhase t (.building key) with store := store, building := Insert.insert key s.building }
  | wait {key : K} {store : σ} (h : s.phase t = .looking key)
    (hfind : build.find s.store key = (none, store)) (hkey : key ∈ s.building) :
    Step build s t none { s.setPhase t (.waiting key false) with store := store }
  /-- A thread may also wake up without a notification. -/
  | wake {key : K} {notified : Bool} (h : s.phase t = .waiting key notified) :
    Step build s t none (s.setPhase t (.looking key))
  | prefetch (key : K) (hprefetches : build.Prefetches) (h : s.phase t = .idle)
    (hfind : (build.find s.store key).1 = none) (hkey : key ∉ s.building) :
    Step build s t none
      { s.setPhase t (.spawning key) with building := Insert.insert key s.building }
  | spawn {key : K} (started : T) (h : s.phase t = .spawning key)
    (hstarted : s.phase started = .idle) :
    Step build s t none ((s.setPhase t .idle).setPhase started (.building key))
  | spawnFails {key : K} (h : s.phase t = .spawning key) :
    Step build s t none (s.setPhase t (.releasing key))
  | build {key : K} (h : s.phase t = .building key) (value : V) :
    Step build s t (some (.built t key value)) (s.setPhase t (.storing key value))
  | buildPanics {key : K} (h : s.phase t = .building key) :
    Step build s t none (s.setPhase t (.releasing key))
  | store {key : K} {value : V} {store : σ} (h : s.phase t = .storing key value)
    (hroom : build.Room s.store value) (hstores : build.Stores s.store key value store) :
    Step build s t (some (.returned t key value)) { s.release t key with store := store }
  | unwind {key : K} (h : s.phase t = .releasing key) :
    Step build s t (some (.panicked t key)) (s.release t key)

/-- A step of some thread. -/
def Steps (build : BuildStore σ K V) (s : System T σ K V) (e : Option (BuildEvent T K V))
    (s' : System T σ K V) : Prop := ∃ t, Step build s t e s'

variable {build : BuildStore σ K V} {s s' : System T σ K V} {t u : T} {key k : K} {value : V}
  {e : Option (BuildEvent T K V)} {events : List (BuildEvent T K V)}

/-! ## Marks -/

/-- The key that every thread has marked. -/
def claims (s : System T σ K V) (t : T) : Option K := (s.phase t).claim

/-- Every mark belongs to one thread. -/
structure Owned (building : Finset K) (claims : T → Option K) : Prop where
  mem_iff : ∀ key, key ∈ building ↔ ∃ t, claims t = some key
  unique : ∀ t u key, claims t = some key → claims u = some key → t = u

omit [DecidableEq K] in
theorem claim_notify (phase : Phase K V) : phase.notify.claim = phase.claim := by
  cases phase <;> rfl

omit [DecidableEq K] in
theorem claims_setPhase (s : System T σ K V) (t : T) (phase : Phase K V) :
    (s.setPhase t phase).claims = Function.update s.claims t phase.claim := by
  funext u
  change (Function.update s.phase t phase u).claim = _
  rw [Function.update_apply, Function.update_apply]
  exact apply_ite Phase.claim _ _ _

theorem claims_release (s : System T σ K V) (t : T) (key : K) :
    (s.release t key).claims = Function.update s.claims t none := by
  funext u
  change (Function.update s.phase t .idle u).notify.claim = _
  rw [claim_notify, Function.update_apply, Function.update_apply]
  exact apply_ite Phase.claim _ _ _

/-- What a step of a thread does to the marks: nothing, or it sets one, hands its own to another
thread, or removes it. -/
inductive Marks (s : System T σ K V) (t : T) (s' : System T σ K V) : Prop
  | keeps (hbuilding : s'.building = s.building) (hclaims : s'.claims = s.claims)
  | sets (key : K) (hclaim : s.claims t = none) (hkey : key ∉ s.building)
    (hbuilding : s'.building = Insert.insert key s.building)
    (hclaims : s'.claims = Function.update s.claims t (some key))
  | hands (key : K) (started : T) (hclaim : s.claims t = some key)
    (hstarted : s.claims started = none) (hbuilding : s'.building = s.building)
    (hclaims : s'.claims =
      Function.update (Function.update s.claims t none) started (some key))
  | removes (key : K) (hclaim : s.claims t = some key)
    (hbuilding : s'.building = s.building.erase key)
    (hclaims : s'.claims = Function.update s.claims t none)

omit [DecidableEq K] in
/-- A thread whose mark stays the same. -/
theorem claims_setPhase_of_eq {phase : Phase K V} (h : phase.claim = s.claims t) :
    (s.setPhase t phase).claims = s.claims := by
  rw [claims_setPhase, h, Function.update_eq_self]

theorem Step.marks (h : Step build s t e s') : Marks s t s' := by
  cases h with
  | ask key h => exact .keeps rfl (claims_setPhase_of_eq (by rw [claims, h]; rfl))
  | hit h hfind => exact .keeps rfl (claims_setPhase_of_eq (by rw [claims, h]; rfl))
  | claim h hfind hkey =>
    exact .sets _ (by rw [claims, h]; rfl) hkey rfl (claims_setPhase s t _)
  | wait h hfind hkey => exact .keeps rfl (claims_setPhase_of_eq (by rw [claims, h]; rfl))
  | wake h => exact .keeps rfl (claims_setPhase_of_eq (by rw [claims, h]; rfl))
  | prefetch key hprefetches h hfind hkey =>
    exact .sets _ (by rw [claims, h]; rfl) hkey rfl (claims_setPhase s t _)
  | spawn started h hstarted =>
    refine .hands _ _ (by rw [claims, h]; rfl) (by rw [claims, hstarted]; rfl) rfl ?_
    rw [claims_setPhase, claims_setPhase]
    rfl
  | spawnFails h => exact .keeps rfl (claims_setPhase_of_eq (by rw [claims, h]; rfl))
  | build h value => exact .keeps rfl (claims_setPhase_of_eq (by rw [claims, h]; rfl))
  | buildPanics h => exact .keeps rfl (claims_setPhase_of_eq (by rw [claims, h]; rfl))
  | @store key value store h hroom hstores =>
    exact .removes key (by rw [claims, h]; rfl) rfl (claims_release s t key)
  | @unwind key h => exact .removes key (by rw [claims, h]; rfl) rfl (claims_release s t key)

/-! ### Ownership -/

omit [DecidableEq T] [DecidableEq K] in
theorem owned_empty : Owned (∅ : Finset K) fun _ : T => none := by
  refine ⟨fun key => ?_, fun t u key h => nomatch h⟩
  simp

variable {claims : T → Option K} {building : Finset K}

theorem Owned.sets (h : Owned building claims) (hclaim : claims t = none) (hkey : key ∉ building) :
    Owned (Insert.insert key building) (Function.update claims t (some key)) := by
  refine ⟨fun k => ?_, fun u v k hu hv => ?_⟩
  · rw [Finset.mem_insert, h.mem_iff]
    constructor
    · rintro (rfl | ⟨u, hu⟩)
      · exact ⟨t, Function.update_self _ _ _⟩
      · refine ⟨u, ?_⟩
        rwa [Function.update_of_ne]
        rintro rfl
        rw [hclaim] at hu
        cases hu
    · rintro ⟨u, hu⟩
      rw [Function.update_apply] at hu
      split at hu
      · exact .inl (Option.some.inj hu).symm
      · exact .inr ⟨u, hu⟩
  · -- the key was not marked before
    have hnew : ∀ u, claims u ≠ some key := fun u hu => hkey ((h.mem_iff key).mpr ⟨u, hu⟩)
    rw [Function.update_apply] at hu hv
    split at hu
    · next hut =>
      split at hv
      · next hvt => rw [hut, hvt]
      · next hvt => exact absurd (hv.trans hu.symm) (hnew v)
    · next hut =>
      split at hv
      · next hvt => exact absurd (hu.trans hv.symm) (hnew u)
      · next hvt => exact h.unique u v k hu hv

theorem Owned.removes (h : Owned building claims) (hclaim : claims t = some key) :
    Owned (building.erase key) (Function.update claims t none) := by
  refine ⟨fun k => ?_, fun u v k hu hv => ?_⟩
  · rw [Finset.mem_erase, h.mem_iff]
    constructor
    · rintro ⟨hne, u, hu⟩
      refine ⟨u, ?_⟩
      rwa [Function.update_of_ne]
      rintro rfl
      exact hne (Option.some.inj (hu.symm.trans hclaim))
    · rintro ⟨u, hu⟩
      rw [Function.update_apply] at hu
      split at hu
      · cases hu
      · next hut =>
        refine ⟨?_, u, hu⟩
        rintro rfl
        exact hut (h.unique u t k hu hclaim)
  · rw [Function.update_apply] at hu hv
    split at hu
    · cases hu
    · split at hv
      · cases hv
      · exact h.unique u v k hu hv

/-- A mark that is handed over is removed and set again. -/
theorem Owned.hands (h : Owned building claims) (hclaim : claims t = some key)
    (hstarted : claims u = none) :
    Owned building (Function.update (Function.update claims t none) u (some key)) := by
  have hfree : Function.update claims t none u = none := by
    rw [Function.update_apply]
    split
    · rfl
    · exact hstarted
  have hset := (h.removes hclaim).sets hfree (Finset.notMem_erase key building)
  rwa [Finset.insert_erase ((h.mem_iff key).mpr ⟨t, hclaim⟩)] at hset

theorem Marks.owned (hmarks : Marks s t s') (h : Owned s.building s.claims) :
    Owned s'.building s'.claims := by
  cases hmarks with
  | keeps hbuilding hclaims => rwa [hbuilding, hclaims]
  | sets key hclaim hkey hbuilding hclaims =>
    rw [hbuilding, hclaims]
    exact h.sets hclaim hkey
  | hands key started hclaim hstarted hbuilding hclaims =>
    rw [hbuilding, hclaims]
    exact h.hands hclaim hstarted
  | removes key hclaim hbuilding hclaims =>
    rw [hbuilding, hclaims]
    exact h.removes hclaim

/-! ## Phases -/

/-- Another thread stays where it is, unless it is notified or started. -/
theorem Step.phase_of_ne (h : Step build s t e s') (hne : u ≠ t) :
    s'.phase u = s.phase u ∨ s'.phase u = (s.phase u).notify ∨
      s.phase u = .idle ∧ ∃ key, s'.phase u = .building key := by
  cases h with
  | @spawn key started h hstarted =>
    by_cases hu : u = started
    · subst hu
      exact .inr (.inr ⟨hstarted, key, Function.update_self _ _ _⟩)
    · refine .inl ((Function.update_of_ne hu _ _).trans ?_)
      exact Function.update_of_ne hne _ _
  | store h hroom hstores =>
    exact .inr (.inl (congrArg Phase.notify (Function.update_of_ne hne _ _)))
  | unwind h => exact .inr (.inl (congrArg Phase.notify (Function.update_of_ne hne _ _)))
  | _ => exact .inl (Function.update_of_ne hne _ _)

/-- Where a step leads that ends in a store or in a wait. -/
theorem Step.phase_self (h : Step build s t e s') :
    (∀ k value, s'.phase t = .storing k value → e = some (.built t k value)) ∧
      ∀ k, s'.phase t = .waiting k false → k ∈ s'.building := by
  cases h with
  | @spawn key started h hstarted =>
    have hne : t ≠ started := by
      rintro rfl
      rw [h] at hstarted
      cases hstarted
    have hidle : ((s.setPhase t .idle).setPhase started (.building key)).phase t = .idle :=
      (Function.update_of_ne hne _ _).trans (Function.update_self _ _ _)
    rw [hidle]
    exact ⟨nofun, nofun⟩
  | build h value => simp [setPhase]
  | wait h hfind hkey => simpa [setPhase] using hkey
  | _ => simp [setPhase, release, Phase.notify]

/-- The value that a thread stores is one that it has built. -/
theorem Step.storing (h : Step build s t e s') (hu : s'.phase u = .storing k value) :
    s.phase u = .storing k value ∨ e = some (.built u k value) := by
  by_cases hne : u = t
  · subst hne
    exact .inr (h.phase_self.1 k value hu)
  · rcases h.phase_of_ne hne with hsame | hnotified | ⟨-, key, hstarted⟩
    · exact .inl (hsame.symm.trans hu)
    · rw [hu] at hnotified
      cases hphase : s.phase u with
      | storing =>
        rw [hphase] at hnotified
        exact .inl hnotified.symm
      | _ => simp [hphase, Phase.notify] at hnotified
    · rw [hu] at hstarted
      cases hstarted

omit [DecidableEq K] in
theorem notify_ne_waiting (phase : Phase K V) (k : K) : phase.notify ≠ .waiting k false := by
  cases phase <;> simp [Phase.notify]

/-- With a mark that is removed, all are notified. -/
theorem Step.subset_or_notified (h : Step build s t e s') :
    s.building ⊆ s'.building ∨ ∀ u k, s'.phase u ≠ .waiting k false := by
  cases h with
  | claim h hfind hkey => exact .inl (Finset.subset_insert _ _)
  | prefetch key hprefetches h hfind hkey => exact .inl (Finset.subset_insert _ _)
  | store h hroom hstores => exact .inr fun u k => notify_ne_waiting _ k
  | unwind h => exact .inr fun u k => notify_ne_waiting _ k
  | _ => exact .inl fun _ h => h

/-- A thread that nobody notified waits for a mark that is there. -/
theorem Step.waiting (h : Step build s t e s') (hu : s'.phase u = .waiting k false)
    (hawaited : ∀ u k, s.phase u = .waiting k false → k ∈ s.building) : k ∈ s'.building := by
  rcases h.subset_or_notified with hsubset | hnotified
  · by_cases hne : u = t
    · subst hne
      exact h.phase_self.2 k hu
    · rcases h.phase_of_ne hne with hsame | hnotify | ⟨-, key, hstarted⟩
      · exact hsubset (hawaited u k (hsame.symm.trans hu))
      · exact absurd (hnotify.symm.trans hu) (notify_ne_waiting _ k)
      · rw [hu] at hstarted
        cases hstarted
  · exact absurd hu (hnotified u k)

/-! ## Owners -/

/-- A run over which a key is marked, with the number of steps that its owners take. -/
inductive Held (build : BuildStore σ K V) (key : K) (s : System T σ K V) :
    ℕ → System T σ K V → Prop
  | start (hkey : key ∈ s.building) : Held build key s 0 s
  | own {n : ℕ} {s' s'' : System T σ K V} {t : T} {e : Option (BuildEvent T K V)}
    (h : Held build key s n s') (hclaim : s'.claims t = some key) (hstep : Step build s' t e s'')
    (hkey : key ∈ s''.building) : Held build key s (n + 1) s''
  | other {n : ℕ} {s' s'' : System T σ K V} {t : T} {e : Option (BuildEvent T K V)}
    (h : Held build key s n s') (hclaim : s'.claims t ≠ some key) (hstep : Step build s' t e s'')
    (hkey : key ∈ s''.building) : Held build key s n s''

omit [DecidableEq T] [DecidableEq K] in
theorem remaining_pos (h : s.claims t = some key) : 0 < (s.phase t).remaining := by
  rw [claims] at h
  cases hphase : s.phase t <;> simp_all [Phase.claim, Phase.remaining]

omit [DecidableEq T] [DecidableEq K] in
theorem remaining_le (phase : Phase K V) : phase.remaining ≤ 3 := by
  cases phase <;> simp [Phase.remaining]

omit [DecidableEq K] in
theorem phase_setPhase_self (s : System T σ K V) (t : T) (phase : Phase K V) :
    (s.setPhase t phase).phase t = phase :=
  Function.update_self _ _ _

/-- A step of the owner brings the end of the mark nearer. -/
theorem Step.remaining_lt (h : Step build s t e s') (hclaim : s.claims t = some key)
    (hkey : key ∈ s'.building) :
    ∃ u, s'.claims u = some key ∧ (s'.phase u).remaining < (s.phase t).remaining := by
  -- the key that the thread has marked is that of its phase
  have hphase : ∀ {phase : Phase K V}, s.phase t = phase → phase.claim = some key :=
    fun hphase => hphase ▸ hclaim
  cases h with
  | ask key h => cases hphase h
  | hit h hfind => cases hphase h
  | claim h hfind hkey => cases hphase h
  | wait h hfind hkey => cases hphase h
  | wake h => cases hphase h
  | prefetch key hprefetches h hfind hkey => cases hphase h
  | @spawn key' started h hstarted =>
    obtain rfl := Option.some.inj (hphase h)
    refine ⟨started, ?_, ?_⟩
    · rw [claims, phase_setPhase_self]
      rfl
    · rw [phase_setPhase_self, h]
      exact Nat.lt_succ_self 2
  | spawnFails h =>
    have hclaim' := hphase h
    refine ⟨t, ?_, ?_⟩
    · rw [claims, phase_setPhase_self]
      exact hclaim'
    · rw [phase_setPhase_self, h]
      exact Nat.lt_of_succ_lt (Nat.lt_succ_self 2)
  | build h value =>
    have hclaim' := hphase h
    refine ⟨t, ?_, ?_⟩
    · rw [claims, phase_setPhase_self]
      exact hclaim'
    · rw [phase_setPhase_self, h]
      exact Nat.lt_succ_self 1
  | buildPanics h =>
    have hclaim' := hphase h
    refine ⟨t, ?_, ?_⟩
    · rw [claims, phase_setPhase_self]
      exact hclaim'
    · rw [phase_setPhase_self, h]
      exact Nat.lt_succ_self 1
  | store h hroom hstores =>
    obtain rfl := Option.some.inj (hphase h)
    exact absurd hkey (Finset.notMem_erase _ _)
  | unwind h =>
    obtain rfl := Option.some.inj (hphase h)
    exact absurd hkey (Finset.notMem_erase _ _)

theorem Step.remaining_eq (h : Step build s t e s') (hclaim : s.claims t ≠ some key)
    (hu : s.claims u = some key) : s'.claims u = some key ∧ s'.phase u = s.phase u := by
  have hne : u ≠ t := by
    rintro rfl
    exact hclaim hu
  have hphase : s'.phase u = s.phase u := by
    rcases h.phase_of_ne hne with hsame | hnotified | ⟨hidle, -⟩
    · exact hsame
    · rw [claims] at hu
      cases hphase : s.phase u <;> simp_all [Phase.notify, Phase.claim]
    · rw [claims, hidle] at hu
      cases hu
  exact ⟨by rw [claims, hphase]; exact hu, hphase⟩

/-- A mark does not outlive the steps that its owners have left. -/
theorem Held.add_remaining_le {n : ℕ} (h : Held build key s n s')
    (howned : Owned s.building s.claims) :
    Owned s'.building s'.claims ∧ ∃ u, s'.claims u = some key ∧ n + (s'.phase u).remaining ≤ 3 := by
  induction h with
  | start hkey =>
    obtain ⟨u, hu⟩ := (howned.mem_iff key).mp hkey
    exact ⟨howned, u, hu, by simpa using remaining_le _⟩
  | own h hclaim hstep hkey ih =>
    obtain ⟨howned', u, hu, hle⟩ := ih
    obtain rfl := howned'.unique u _ key hu hclaim
    obtain ⟨v, hv, hlt⟩ := hstep.remaining_lt hu hkey
    exact ⟨hstep.marks.owned howned', v, hv, by omega⟩
  | other h hclaim hstep hkey ih =>
    obtain ⟨howned', u, hu, hle⟩ := ih
    obtain ⟨hu', hphase⟩ := hstep.remaining_eq hclaim hu
    exact ⟨hstep.marks.owned howned', u, hu', hphase ▸ hle⟩

/-- **Owners release their marks**: none stands for three of their steps. -/
theorem Held.lt_three {n : ℕ} (h : Held build key s n s') (howned : Owned s.building s.claims) :
    n < 3 := by
  obtain ⟨-, u, hu, hle⟩ := h.add_remaining_le howned
  have hpos := remaining_pos hu
  omega

/-! ## Runs -/

/-- Some thread has built the value for the key. -/
def Built (events : List (BuildEvent T K V)) (key : K) (value : V) : Prop :=
  ∃ t, BuildEvent.built t key value ∈ events

/-- Whoever returns has a value that was built for the key. -/
def Served (events : List (BuildEvent T K V)) : Prop :=
  ∀ before t key value after, events = before ++ .returned t key value :: after →
    Built before key value

/-- What a store keeps: `Inv` holds of it, and it holds the values that were stored. -/
structure Lawful (build : BuildStore σ K V) (Inv : σ → Prop) (Holds : σ → K → V → Prop) : Prop where
  inv_find : ∀ {store key}, Inv store → Inv (build.find store key).2
  holds_find : ∀ {store key value}, (build.find store key).1 = some value → Holds store key value
  holds_of_find : ∀ {store key k value}, Holds (build.find store key).2 k value →
    Holds store k value
  inv_stores : ∀ {store key value store'}, Inv store → build.Room store value →
    build.Stores store key value store' → Inv store'
  holds_of_stores : ∀ {store key value store' k v}, build.Stores store key value store' →
    Holds store' k v → k = key ∧ v = value ∨ Holds store k v
  exists_stores : ∀ {store key value}, Inv store → build.Room store value →
    ∃ store', build.Stores store key value store'

/-- The invariants of a run. -/
structure Sound (Inv : σ → Prop) (Holds : σ → K → V → Prop) (events : List (BuildEvent T K V))
    (s : System T σ K V) : Prop where
  inv : Inv s.store
  owned : Owned s.building s.claims
  stored : ∀ key value, Holds s.store key value → Built events key value
  storing : ∀ t key value, s.phase t = .storing key value → Built events key value
  served : Served events
  waiting : ∀ t key, s.phase t = .waiting key false → key ∈ s.building

variable {Inv : σ → Prop} {Holds : σ → K → V → Prop}

omit [DecidableEq T] [DecidableEq K] in
theorem Built.append (h : Built events key value) (later : List (BuildEvent T K V)) :
    Built (events ++ later) key value := by
  obtain ⟨t, ht⟩ := h
  exact ⟨t, mem_append_left _ ht⟩

omit [DecidableEq T] [DecidableEq K] in
theorem Served.append (h : Served events)
    (he : ∀ t key value, e = some (.returned t key value) → Built events key value) :
    Served (events ++ e.toList) := by
  cases e with
  | none => rwa [Option.toList_none, append_nil]
  | some event =>
    intro before t key value after heq
    rcases eq_nil_or_concat after with rfl | ⟨after, last, rfl⟩
    · obtain ⟨rfl, hlast⟩ := append_inj' heq rfl
      exact he t key value (congrArg some (singleton_inj.mp hlast))
    · rw [concat_eq_append, ← cons_append, ← append_assoc] at heq
      obtain ⟨hevents, -⟩ := append_inj' heq rfl
      exact h before t key value after hevents

section

variable (hlawful : Lawful build Inv Holds)
include hlawful

/-- What a step does to the store. -/
theorem Step.store_cases (h : Step build s t e s') (hinv : Inv s.store) :
    Inv s'.store ∧ ∀ k v, Holds s'.store k v →
      Holds s.store k v ∨ s.phase t = .storing k v := by
  -- a section that looks for a key does not store anything
  have hlook : ∀ {key result store}, build.find s.store key = (result, store) →
      Inv store ∧ ∀ k v, Holds store k v → Holds s.store k v ∨ s.phase t = .storing k v := by
    intro key result store hfind
    obtain rfl : _ = store := congrArg Prod.snd hfind
    exact ⟨hlawful.inv_find hinv, fun k v hk => .inl (hlawful.holds_of_find hk)⟩
  cases h with
  | hit h hfind => exact hlook hfind
  | claim h hfind hkey => exact hlook hfind
  | wait h hfind hkey => exact hlook hfind
  | store h hroom hstores =>
    refine ⟨hlawful.inv_stores hinv hroom hstores, fun k v hk => ?_⟩
    rcases hlawful.holds_of_stores hstores hk with ⟨rfl, rfl⟩ | hbefore
    · exact .inr h
    · exact .inl hbefore
  | _ => exact ⟨hinv, fun k v hk => .inl hk⟩

/-- What a thread returns was stored, or it has built it itself. -/
theorem Step.returned (h : Step build s t (some (.returned u key value)) s') :
    Holds s.store key value ∨ s.phase t = .storing key value := by
  cases h with
  | hit h hfind => exact .inl (hlawful.holds_find (congrArg Prod.fst hfind))
  | store h hroom hstores => exact .inr h

theorem Sound.step (hsound : Sound Inv Holds events s) (h : Step build s t e s') :
    Sound Inv Holds (events ++ e.toList) s' := by
  obtain ⟨hinv, hholds⟩ := h.store_cases hlawful hsound.inv
  refine
    { inv := hinv
      owned := h.marks.owned hsound.owned
      stored := fun k v hk => ?_
      storing := fun u k v hu => ?_
      served := hsound.served.append fun u k v he => ?_
      waiting := fun u k hu => h.waiting hu hsound.waiting }
  · rcases hholds k v hk with hbefore | hstoring
    · exact (hsound.stored k v hbefore).append _
    · exact (hsound.storing t k v hstoring).append _
  · rcases h.storing hu with hbefore | rfl
    · exact (hsound.storing u k v hbefore).append _
    · exact ⟨u, mem_append_right _ mem_cons_self⟩
  · subst he
    rcases h.returned hlawful with hstored | hstoring
    · exact hsound.stored k v hstored
    · exact hsound.storing t k v hstoring

/-- **The invariants hold after every run.** -/
theorem sound {store : σ} (hinv : Inv store) (hempty : ∀ key value, ¬ Holds store key value)
    (h : Run (Steps build) (initial store : System T σ K V) events s) :
    Sound Inv Holds events s := by
  refine h.induct ?_ fun es s e s' _ hsound ⟨t, hstep⟩ => hsound.step hlawful hstep
  exact
    { inv := hinv
      owned := owned_empty
      stored := fun key value hk => absurd hk (hempty key value)
      storing := nofun
      served := fun before t key value after heq => by simp at heq
      waiting := nofun }

/-- An owner can take its next step, as long as what it has built fits into the memory. -/
theorem Sound.exists_step (hsound : Sound Inv Holds events s) (hclaim : s.claims t = some key)
    (hroom : ∀ value, s.phase t = .storing key value → build.Room s.store value) :
    ∃ e s', Step build s t e s' := by
  rw [claims] at hclaim
  cases hphase : s.phase t with
  | spawning key => exact ⟨_, _, .spawnFails hphase⟩
  | building key => exact ⟨_, _, .buildPanics hphase⟩
  | storing key' value =>
    rw [hphase] at hclaim
    obtain rfl := Option.some.inj hclaim
    obtain ⟨store', hstores⟩ : ∃ store', build.Stores s.store key' value store' :=
      hlawful.exists_stores hsound.inv (hroom value hphase)
    exact ⟨_, _, .store hphase (hroom value hphase) hstores⟩
  | releasing key => exact ⟨_, _, .unwind hphase⟩
  | idle => rw [hphase] at hclaim; cases hclaim
  | looking key => rw [hphase] at hclaim; cases hclaim
  | waiting key notified => rw [hphase] at hclaim; cases hclaim

end

/-- What holds of a run of threads that share builds. -/
structure Consistent (build : BuildStore σ K V) (Inv : σ → Prop)
    (events : List (BuildEvent T K V)) (s : System T σ K V) : Prop where
  oneBuild : ∀ t u key, s.claims t = some key → s.claims u = some key → t = u
  /-- What is marked has an owner, and every owner its mark. -/
  owner : ∀ key, key ∈ s.building ↔ ∃ t, s.claims t = some key
  /-- An owner can take its next step, -/
  progress : ∀ t key, s.claims t = some key →
    (∀ value, s.phase t = .storing key value → build.Room s.store value) →
    ∃ e s', Step build s t e s'
  /-- and its mark does not outlive three steps of its owners. -/
  released : ∀ key n s', Held build key s n s' → n < 3
  /-- Whoever returns has a value that was built for the key. -/
  served : Served events
  /-- A thread that nobody notified waits for a mark that is there. -/
  awaited : ∀ t key, s.phase t = .waiting key false → key ∈ s.building
  store : Inv s.store

/-- **Threads share builds consistently.** -/
theorem consistent (hlawful : Lawful build Inv Holds) {store : σ} (hinv : Inv store)
    (hempty : ∀ key value, ¬ Holds store key value)
    (h : Run (Steps build) (initial store : System T σ K V) events s) :
    Consistent build Inv events s := by
  have hsound := sound hlawful hinv hempty h
  exact
    { oneBuild := hsound.owned.unique
      owner := hsound.owned.mem_iff
      progress := fun t key => hsound.exists_step hlawful
      released := fun key n s' hheld => hheld.lt_three hsound.owned
      served := hsound.served
      awaited := hsound.waiting
      store := hsound.inv }

end System

end BurnDragon.Caching
