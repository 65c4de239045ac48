import Mathlib.Logic.Basic

/-! Computations that may fail and whose state survives the failure: what a
mutable argument holds after an early return is part of the result. A property
of computations that holds of every read and passes through sequencing holds of
whatever is assembled from computations that have it. -/

/-- A computation over the state `σ`; a failure returns the state it left behind. -/
def Fallible (ε σ α : Type) : Type := σ → Except ε α × σ

namespace Fallible
variable {ε σ α β : Type}

def reads (f : σ → Except ε α) : Fallible ε σ α := fun s => (f s, s)

def bind (m : Fallible ε σ α) (f : α → Fallible ε σ β) : Fallible ε σ β := fun s =>
  match m s with
  | (.ok a, s') => f a s'
  | (.error e, s') => (.error e, s')

instance : Monad (Fallible ε σ) where
  pure a := reads fun _ => .ok a
  bind := bind

def throw (e : ε) : Fallible ε σ α := reads fun _ => .error e

def get : Fallible ε σ σ := reads .ok

def modify (f : σ → σ) : Fallible ε σ Unit := fun s => (.ok (), f s)

@[simp] theorem reads_run (f : σ → Except ε α) (s : σ) : reads f s = (f s, s) := rfl

@[simp] theorem pure_run (a : α) (s : σ) : (pure a : Fallible ε σ α) s = (.ok a, s) := rfl

@[simp] theorem throw_run (e : ε) (s : σ) : (throw e : Fallible ε σ α) s = (.error e, s) := rfl

@[simp] theorem get_run (s : σ) : (get : Fallible ε σ σ) s = (.ok s, s) := rfl

@[simp] theorem modify_run (f : σ → σ) (s : σ) :
    (modify f : Fallible ε σ Unit) s = (.ok (), f s) := rfl

theorem bind_run (m : Fallible ε σ α) (f : α → Fallible ε σ β) (s : σ) :
    (m >>= f) s = match m s with
      | (.ok a, s') => f a s'
      | (.error e, s') => (.error e, s') := rfl

theorem bind_ok {m : Fallible ε σ α} {f : α → Fallible ε σ β} {s s' : σ} {a : α}
    (h : m s = (.ok a, s')) : (m >>= f) s = f a s' := by rw [bind_run, h]

theorem bind_error {m : Fallible ε σ α} {f : α → Fallible ε σ β} {s s' : σ} {e : ε}
    (h : m s = (.error e, s')) : (m >>= f) s = (.error e, s') := by rw [bind_run, h]

theorem of_bind_ok {m : Fallible ε σ α} {f : α → Fallible ε σ β} {s s' : σ} {b : β}
    (h : (m >>= f) s = (.ok b, s')) : ∃ a s₁, m s = (.ok a, s₁) ∧ f a s₁ = (.ok b, s') := by
  rw [bind_run] at h
  cases hm : m s with
  | mk r s₁ =>
    rw [hm] at h
    cases r with
    | ok a => exact ⟨a, s₁, rfl, h⟩
    | error e => cases h

structure Closed (P : ∀ {α : Type}, Fallible ε σ α → Prop) : Prop where
  reads : ∀ {α : Type} (f : σ → Except ε α), P (Fallible.reads f)
  bind : ∀ {α β : Type} {m : Fallible ε σ α} {f : α → Fallible ε σ β},
    P m → (∀ a, P (f a)) → P (m >>= f)

theorem Closed.pure {P : ∀ {α : Type}, Fallible ε σ α → Prop} (h : Closed P) (a : α) :
    P (Pure.pure a : Fallible ε σ α) := h.reads _

theorem Closed.throw {P : ∀ {α : Type}, Fallible ε σ α → Prop} (h : Closed P) (e : ε) :
    P (throw e : Fallible ε σ α) := h.reads _

/-- From a state with `I`, success ends in one with `I` and a failure `e` in one with `E e`. -/
def Maintains (I : σ → Prop) (E : ε → σ → Prop) (m : Fallible ε σ α) : Prop :=
  ∀ s, I s → match m s with
    | (.ok _, s') => I s'
    | (.error e, s') => E e s'

section
variable {I : σ → Prop} {E : ε → σ → Prop} {m : Fallible ε σ α} {s s' : σ}

theorem Maintains.ok {a : α} (h : Maintains I E m) (hs : I s) (hm : m s = (.ok a, s')) : I s' := by
  have := h s hs
  rwa [hm] at this

theorem Maintains.error {e : ε} (h : Maintains I E m) (hs : I s) (hm : m s = (.error e, s')) :
    E e s' := by
  have := h s hs
  rwa [hm] at this

theorem Maintains.modify {f : σ → σ} (h : ∀ s, I s → I (f s)) :
    Maintains I E (modify f : Fallible ε σ Unit) := fun s hs => h s hs

theorem closed_maintains (h : ∀ e s, I s → E e s) :
    Closed (fun {α} (m : Fallible ε σ α) => Maintains I E m) where
  reads f s hs := by
    rw [reads_run]
    cases f s with
    | ok a => exact hs
    | error e => exact h e s hs
  bind {α β m f} hm hf s hs := by
    rcases hms : m s with ⟨_ | a, s'⟩
    · rw [bind_error hms]
      exact hm.error hs hms
    · rw [bind_ok hms]
      exact hf a s' (hm.ok hs hms)

end

section
variable {γ : Type}

def Leaves (f : σ → γ) (m : Fallible ε σ α) : Prop := ∀ s, f (m s).2 = f s

theorem closed_leaves (f : σ → γ) : Closed (fun {α} (m : Fallible ε σ α) => Leaves f m) where
  reads _ _ := rfl
  bind {α β m g} hm hg s := by
    rcases hms : m s with ⟨_ | a, s'⟩
    · rw [bind_error hms]
      have := hm s
      rwa [hms] at this
    · rw [bind_ok hms, hg a s']
      have := hm s
      rwa [hms] at this

theorem bind_state {m : Fallible ε σ α} {f : α → Fallible ε σ β}
    (hf : ∀ a, Leaves (fun s => s) (f a)) (s : σ) : ((m >>= f) s).2 = (m s).2 := by
  rcases hm : m s with ⟨_ | a, s'⟩
  · rw [bind_error hm]
  · rw [bind_ok hm]
    exact hf a s'

theorem bind_keeps {m : Fallible ε σ α} {f : α → Fallible ε σ β} {s : σ} (hm : (m s).2 = s)
    (hf : ∀ a, m s = (.ok a, s) → (f a s).2 = s) : ((m >>= f) s).2 = s := by
  obtain ⟨r, hr⟩ : ∃ r, m s = (r, s) := ⟨(m s).1, Prod.ext rfl hm⟩
  cases r with
  | error e => rw [bind_error hr]
  | ok a =>
    rw [bind_ok hr]
    exact hf a hr

end

end Fallible
