import Mathlib.Logic.Basic

/-! Labelled transition systems, the states their runs reach, and the states
reached by runs whose every step meets a condition on the label and on the
state the step starts from. -/

structure Transition (σ ι : Type) where
  init : σ → Prop
  step : σ → ι → σ → Prop

namespace Transition
variable {σ ι : Type} (T : Transition σ ι)

/-- Reached by a run whose every step meets `C`. -/
inductive ReachableUnder (C : σ → ι → Prop) : σ → Prop
  | init {s} : T.init s → ReachableUnder C s
  | step {s a s'} : ReachableUnder C s → C s a → T.step s a s' → ReachableUnder C s'

def Reachable : σ → Prop := T.ReachableUnder fun _ _ => True

def ofStep (f : σ → ι → Option σ) (init : σ → Prop) : Transition σ ι where
  init := init
  step s a s' := f s a = some s'

def run (f : σ → ι → Option σ) (s : σ) : List ι → Option σ
  | [] => some s
  | a :: as => (f s a).bind fun s' => run f s' as

theorem run_append (f : σ → ι → Option σ) (s : σ) (as bs : List ι) :
    run f s (as ++ bs) = (run f s as).bind fun s' => run f s' bs := by
  induction as generalizing s with
  | nil => rfl
  | cons a as ih =>
    simp only [List.cons_append, run]
    cases f s a with
    | none => rfl
    | some s' => exact ih s'

variable {T}

theorem ReachableUnder.mono {C D : σ → ι → Prop} (h : ∀ s a, C s a → D s a) {s : σ}
    (hs : T.ReachableUnder C s) : T.ReachableUnder D s := by
  induction hs with
  | init hi => exact .init hi
  | step _ hc hstep ih => exact .step ih (h _ _ hc) hstep

theorem ReachableUnder.invariant {C : σ → ι → Prop} {I : σ → Prop}
    (hinit : ∀ s, T.init s → I s)
    (hstep : ∀ s a s', I s → C s a → T.step s a s' → I s')
    {s : σ} (hs : T.ReachableUnder C s) : I s := by
  induction hs with
  | init hi => exact hinit _ hi
  | step _ hc hst ih => exact hstep _ _ _ ih hc hst

theorem Reachable.invariant {I : σ → Prop} (hinit : ∀ s, T.init s → I s)
    (hstep : ∀ s a s', I s → T.step s a s' → I s') {s : σ} (hs : T.Reachable s) : I s :=
  ReachableUnder.invariant hinit (fun s a s' hi _ h => hstep s a s' hi h) hs

def Meets (C : σ → ι → Prop) (f : σ → ι → Option σ) (s : σ) : List ι → Prop
  | [] => True
  | a :: as => C s a ∧ ∀ s', f s a = some s' → Meets C f s' as

instance decidableMeets (C : σ → ι → Prop) (f : σ → ι → Option σ) [∀ s a, Decidable (C s a)] :
    ∀ (s : σ) (as : List ι), Decidable (Meets C f s as)
  | _, [] => inferInstanceAs (Decidable True)
  | s, a :: as =>
    match h : f s a with
    | none => decidable_of_iff (C s a)
        ⟨fun hc => ⟨hc, fun _ hs => absurd (h.symm.trans hs) nofun⟩, And.left⟩
    | some s' =>
      have := decidableMeets C f s' as
      decidable_of_iff (C s a ∧ Meets C f s' as)
        ⟨fun hc => ⟨hc.1, fun _ hs => Option.some.inj (h.symm.trans hs) ▸ hc.2⟩,
          fun hc => ⟨hc.1, hc.2 s' h⟩⟩

theorem ReachableUnder.run {f : σ → ι → Option σ} {init : σ → Prop} {C : σ → ι → Prop} :
    ∀ (as : List ι) {s s' : σ}, (ofStep f init).ReachableUnder C s → Meets C f s as →
      Transition.run f s as = some s' → (ofStep f init).ReachableUnder C s'
  | [], _, _, hs, _, h => by
    cases h
    exact hs
  | _ :: as, _, _, hs, hC, h => by
    obtain ⟨m, hm, hrest⟩ := Option.bind_eq_some_iff.mp h
    exact ReachableUnder.run as (.step hs hC.1 hm) (hC.2 m hm) hrest

theorem meets_of_forall {C : σ → ι → Prop} (f : σ → ι → Option σ) :
    ∀ (as : List ι) (s : σ), (∀ a ∈ as, ∀ s, C s a) → Meets C f s as
  | [], _, _ => trivial
  | a :: as, s, h => ⟨h a List.mem_cons_self s, fun s' _ =>
      meets_of_forall f as s' fun b hb => h b (List.mem_cons_of_mem a hb)⟩

theorem Reachable.run {f : σ → ι → Option σ} {init : σ → Prop} (as : List ι) {s s' : σ}
    (hs : (ofStep f init).Reachable s) (h : Transition.run f s as = some s') :
    (ofStep f init).Reachable s' :=
  ReachableUnder.run as hs (meets_of_forall f as s fun _ _ _ => trivial) h

def Always (I : σ → Prop) (f : σ → ι → Option σ) (s : σ) : List ι → Prop
  | [] => I s
  | a :: as => I s ∧ ∀ s', f s a = some s' → Always I f s' as

/-- Where a step keeps `I` exactly if it meets `C`, a run has `I` throughout exactly if all its steps do. -/
theorem always_iff_meets {f : σ → ι → Option σ} {C : σ → ι → Prop} {I J : σ → Prop}
    (hJ : ∀ s a s', J s → f s a = some s' → J s')
    (hI : ∀ s a s', J s → I s → f s a = some s' → (I s' ↔ C s a)) {as : List ι} {s s' : σ} (hs : J s) (hi : I s)
    (h : Transition.run f s as = some s') : Always I f s as ↔ Meets C f s as := by
  induction as generalizing s with
  | nil => exact iff_of_true hi trivial
  | cons a as ih =>
    obtain ⟨m, hm, hrest⟩ := Option.bind_eq_some_iff.mp h
    have hjm := hJ s a m hs hm
    have hstep := hI s a m hs hi hm
    constructor
    · rintro ⟨-, hall⟩
      have htail := hall m hm
      have him : I m := by
        cases as with
        | nil => exact htail
        | cons b bs => exact htail.1
      refine ⟨hstep.mp him, fun s₁ hs₁ => ?_⟩
      cases Option.some.inj (hm.symm.trans hs₁)
      exact (ih hjm him hrest).mp htail
    · rintro ⟨hc, hall⟩
      refine ⟨hi, fun s₁ hs₁ => ?_⟩
      cases Option.some.inj (hm.symm.trans hs₁)
      exact (ih hjm (hstep.mpr hc) hrest).mpr (hall m hm)

end Transition
