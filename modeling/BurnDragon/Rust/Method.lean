import Mathlib

/-!
# Methods that may fail

A method on a mutable receiver that returns a `Result` maps the receiver to a result and the
receiver afterwards; an error ends it, and the receiver keeps what was done before.

`Ends m s ok err` says what holds of the receiver after `m` has run on `s`: `ok` with the value that
it returned, or `err` with the message of its error. The rules follow the structure of the method; a
loop is handled by an invariant of the items done (`Ends.forM`).
-/

namespace BurnDragon.Rust

/-- A method on a receiver of type `σ` that returns a `Result<α>`. -/
def Method (σ α : Type) := σ → Except String α × σ

namespace Method

variable {σ α β : Type}

instance : Monad (Method σ) where
  pure a := fun s => (.ok a, s)
  bind m f := fun s =>
    match m s with
    | (.ok a, t) => f a t
    | (.error e, t) => (.error e, t)

/-- `?` on a result that does not involve the receiver. -/
def ofResult (result : Except String α) : Method σ α := fun s => (result, s)

/-- Return an error. -/
def fail (e : String) : Method σ α := fun s => (.error e, s)

/-- Read the receiver. -/
def self : Method σ σ := fun s => (.ok s, s)

/-- Assign to the receiver. -/
def assign (f : σ → σ) : Method σ Unit := fun s => (.ok (), f s)

/-- Replace the receiver, unless that fails. -/
def update (f : σ → Except String σ) : Method σ Unit := fun s =>
  match f s with
  | .ok t => (.ok (), t)
  | .error e => (.error e, s)

/-- An error ends what comes after it too. -/
theorem bind_of_error {m : Method σ α} {s t : σ} {e : String} (h : m s = (.error e, t))
    (f : α → Method σ β) : (m >>= f) s = (.error e, t) := by
  change (match m s with | (.ok a, t) => f a t | (.error e, t) => (.error e, t)) = _
  rw [h]

/-- How a run of the method ends. -/
def Ends (m : Method σ α) (s : σ) (ok : α → σ → Prop) (err : String → σ → Prop) : Prop :=
  match m s with
  | (.ok a, t) => ok a t
  | (.error e, t) => err e t

namespace Ends

variable {m : Method σ α} {f : α → Method σ β} {s : σ} {ok : α → σ → Prop} {ok' : β → σ → Prop}
  {err : String → σ → Prop}

theorem pure {a : α} (h : ok a s) : Ends (pure a) s ok err := h

theorem bind (h : Ends m s (fun a t => Ends (f a) t ok' err) err) : Ends (m >>= f) s ok' err := by
  unfold Ends at h ⊢
  change match (match m s with | (.ok a, t) => f a t | (.error e, t) => (.error e, t)) with
    | (.ok a, t) => ok' a t
    | (.error e, t) => err e t
  generalize m s = run at h ⊢
  obtain ⟨_ | a, t⟩ := run
  · exact h
  · exact h

theorem imp {okWeak : α → σ → Prop} {errWeak : String → σ → Prop} (h : Ends m s ok err)
    (hok : ∀ a t, ok a t → okWeak a t) (herr : ∀ e t, err e t → errWeak e t) :
    Ends m s okWeak errWeak := by
  unfold Ends at h ⊢
  generalize m s = run at h ⊢
  obtain ⟨_ | a, t⟩ := run
  · exact herr _ _ h
  · exact hok _ _ h

theorem ofResult {result : Except String α} (hok : ∀ a, result = .ok a → ok a s)
    (herr : ∀ e, result = .error e → err e s) : Ends (ofResult result) s ok err := by
  cases result with
  | ok a => exact hok a rfl
  | error e => exact herr e rfl

theorem self {ok : σ → σ → Prop} (h : ok s s) : Ends self s ok err := h

theorem assign {f : σ → σ} {ok : Unit → σ → Prop} (h : ok () (f s)) : Ends (assign f) s ok err := h

theorem update {f : σ → Except String σ} {ok : Unit → σ → Prop} (hok : ∀ t, f s = .ok t → ok () t)
    (herr : ∀ e, f s = .error e → err e s) : Ends (update f) s ok err := by
  unfold Ends Method.update
  cases hf : f s with
  | ok t => exact hok t hf
  | error e => exact herr e hf

/-- **A loop over a list.** The invariant speaks of the items that are done; a failing item ends the
loop. -/
theorem forM {items : List β} {body : β → Method σ PUnit} {ok : PUnit → σ → Prop}
    (invariant : List β → σ → Prop) (hstart : invariant [] s)
    (hbody : ∀ done item rest t, items = done ++ item :: rest → invariant done t →
      Ends (body item) t (fun _ u => invariant (done ++ [item]) u) err)
    (hend : ∀ t, invariant items t → ok ⟨⟩ t) : Ends (items.forM body) s ok err := by
  have hloop : ∀ (rest done : List β) (t : σ), items = done ++ rest → invariant done t →
      Ends (rest.forM body) t ok err := by
    intro rest
    induction rest with
    | nil =>
      intro done t hitems ht
      rw [List.append_nil] at hitems
      exact hend t (hitems ▸ ht)
    | cons item rest ih =>
      intro done t hitems ht
      refine bind ((hbody done item rest t hitems ht).imp (fun _ u hu => ?_) fun _ _ h => h)
      exact ih (done ++ [item]) u (by rw [hitems, List.append_assoc, List.singleton_append]) hu
  exact hloop items [] s rfl hstart

/-- A run that ends with an error. -/
theorem of_error {e : String} {t : σ} (h : Ends m s ok err) (hrun : m s = (.error e, t)) :
    err e t := by
  unfold Ends at h
  rwa [hrun] at h

/-- A run that returns a value. -/
theorem of_ok {a : α} {t : σ} (h : Ends m s ok err) (hrun : m s = (.ok a, t)) : ok a t := by
  unfold Ends at h
  rwa [hrun] at h

end Ends

end Method

end BurnDragon.Rust
