import Mathlib.Logic.Function.Basic
import Vejas.Lib.Transition

/-! Any number of threads over one shared state. A step is a step of one thread,
on the shared state and its own local one, or a step of the surroundings on the
shared state. Invariants are proved thread by thread: one about the shared state,
one about a thread, and a relation between any two threads. -/

/-- The steps a thread can take under a choice, and those of the surroundings. -/
structure Pool (σ loc ι ε : Type) where
  act : σ → loc → ι → Option (σ × loc)
  env : σ → ε → Option σ

namespace Pool
variable {σ loc ι ε τ : Type}

structure State (σ loc τ : Type) where
  shared : σ
  locals : τ → loc

inductive Label (ι ε τ : Type)
  | thread (t : τ) (c : ι)
  | env (e : ε)

variable [DecidableEq τ] (P : Pool σ loc ι ε)

def step (s : State σ loc τ) : Label ι ε τ → Option (State σ loc τ)
  | .thread t c => (P.act s.shared (s.locals t) c).map fun r =>
      ⟨r.1, Function.update s.locals t r.2⟩
  | .env e => (P.env s.shared e).map fun r => ⟨r, s.locals⟩

def system (init : State σ loc τ → Prop) : Transition (State σ loc τ) (Label ι ε τ) :=
  .ofStep P.step init

/-- A shared invariant, one of each thread, and a relation between two threads. -/
structure Holds (G : σ → Prop) (L : σ → loc → Prop) (K : loc → loc → Prop) (s : State σ loc τ) :
    Prop where
  shared : G s.shared
  each : ∀ t, L s.shared (s.locals t)
  pair : ∀ t u, t ≠ u → K (s.locals t) (s.locals u)

def ActKeeps (G : σ → Prop) (L : σ → loc → Prop) (K : loc → loc → Prop) (C : σ → loc → ι → Prop) :
    Prop :=
  ∀ s l c s' l', G s → L s l → C s l c → P.act s l c = some (s', l') →
    (G s' ∧ L s' l') ∧ ∀ m, L s m → K l m → L s' m ∧ K l' m

def EnvKeeps (G : σ → Prop) (L : σ → loc → Prop) : Prop :=
  ∀ s e s', G s → P.env s e = some s' → G s' ∧ ∀ m, L s m → L s' m

def Only (C : σ → loc → ι → Prop) (s : State σ loc τ) : Label ι ε τ → Prop
  | .thread t c => C s.shared (s.locals t) c
  | .env _ => True

variable {P} {G : σ → Prop} {L : σ → loc → Prop} {K : loc → loc → Prop} {C : σ → loc → ι → Prop}

theorem Holds.act (hK : ∀ l m, K l m → K m l) (hact : P.ActKeeps G L K C) {s : State σ loc τ}
    (hs : Holds G L K s) {t : τ} {c : ι} {r : σ × loc} (hc : C s.shared (s.locals t) c)
    (hr : P.act s.shared (s.locals t) c = some r) :
    Holds G L K ⟨r.1, Function.update s.locals t r.2⟩ := by
  obtain ⟨⟨hg, hl⟩, hothers⟩ := hact _ _ _ _ _ hs.shared (hs.each t) hc hr
  have hother : ∀ u, u ≠ t → L r.1 (s.locals u) ∧ K r.2 (s.locals u) :=
    fun u hu => hothers _ (hs.each u) (hs.pair t u hu.symm)
  refine ⟨hg, fun u => ?_, fun u v huv => ?_⟩
  · show L r.1 (Function.update s.locals t r.2 u)
    by_cases hu : u = t
    · rw [hu, Function.update_self]
      exact hl
    · rw [Function.update_of_ne hu]
      exact (hother u hu).1
  · show K (Function.update s.locals t r.2 u) (Function.update s.locals t r.2 v)
    by_cases hu : u = t
    · have hv : v ≠ t := fun h => huv (hu.trans h.symm)
      rw [hu, Function.update_self, Function.update_of_ne hv]
      exact (hother v hv).2
    · rw [Function.update_of_ne hu]
      by_cases hv : v = t
      · rw [hv, Function.update_self]
        exact hK _ _ (hother u hu).2
      · rw [Function.update_of_ne hv]
        exact hs.pair u v huv

theorem step_thread {s s' : State σ loc τ} {t : τ} {c : ι} (h : P.step s (.thread t c) = some s') :
    ∃ r, P.act s.shared (s.locals t) c = some r ∧ s' = ⟨r.1, Function.update s.locals t r.2⟩ := by
  obtain ⟨r, hr, rfl⟩ := Option.map_eq_some_iff.mp h
  exact ⟨r, hr, rfl⟩

theorem step_env {s s' : State σ loc τ} {e : ε} (h : P.step s (.env e) = some s') :
    ∃ r, P.env s.shared e = some r ∧ s' = ⟨r, s.locals⟩ := by
  obtain ⟨r, hr, rfl⟩ := Option.map_eq_some_iff.mp h
  exact ⟨r, hr, rfl⟩

def Within (C : σ → loc → ι → Prop) (D : σ → ε → Prop) (s : State σ loc τ) : Label ι ε τ → Prop
  | .thread t c => C s.shared (s.locals t) c
  | .env e => D s.shared e

theorem Holds.within {D : σ → ε → Prop} (hK : ∀ l m, K l m → K m l) (hact : P.ActKeeps G L K C)
    (henv : ∀ s e s', G s → D s e → P.env s e = some s' → G s' ∧ ∀ m, L s m → L s' m)
    {init : State σ loc τ → Prop} (hinit : ∀ s, init s → Holds G L K s)
    {s : State σ loc τ} (hs : (P.system init).ReachableUnder (Within C D) s) : Holds G L K s := by
  refine Transition.ReachableUnder.invariant hinit ?_ hs
  intro s a s' hi hc hstep
  cases a with
  | thread t c =>
    obtain ⟨r, hr, rfl⟩ := step_thread hstep
    exact hi.act hK hact hc hr
  | env e =>
    obtain ⟨r, hr, rfl⟩ := step_env hstep
    obtain ⟨hg, hl⟩ := henv _ _ _ hi.shared hc hr
    exact ⟨hg, fun u => hl _ (hi.each u), hi.pair⟩

theorem Holds.reachable (hK : ∀ l m, K l m → K m l) (hact : P.ActKeeps G L K C)
    (henv : P.EnvKeeps G L) {init : State σ loc τ → Prop} (hinit : ∀ s, init s → Holds G L K s)
    {s : State σ loc τ} (hs : (P.system init).ReachableUnder (Only C) s) : Holds G L K s := by
  refine Holds.within (D := fun _ _ => True) hK hact (fun s e s' hg _ => henv s e s' hg) hinit (hs.mono ?_)
  intro s a h
  cases a with
  | thread t c => exact h
  | env e => trivial

end Pool
