import Vejas.Governance.Overlays

/-! Which version an eviction removes. The get that judges a version and the delete are two
calls on the bucket, so the delete removes whatever is stored by then. It is the version that
was judged as long as nothing is put while a judged version waits for its delete. -/

namespace Vejas.Governance
open Json Rust Vjs
variable {τ : Type}

def Stage.Evicts (v : Version) (baseline : String) : Stage → Prop
  | .evicting b judged _ => judged = v ∧ b = baseline
  | _ => False

/-- Nothing is put while a call stands between the get that found its version stale and the
delete. -/
def Undisturbed (s : Pool.State Slot Stage τ) : Pool.Label Turn Empty τ → Prop
  | .thread _ (.put (.failed _)) => True
  | .thread _ (.put _) => ∀ u v baseline, ¬ (s.locals u).Evicts v baseline
  | _ => True

def Eviction.Sound (ev : Eviction) : Prop := ev.removed = ev.judged ∧ ev.judged.Stale ev.baseline

def Waits (slot : Slot) (stage : Stage) : Prop :=
  ∀ v baseline, stage.Evicts v baseline →
    v.Stale baseline ∧ (slot.stored = none ∨ slot.stored = some v)

structure EvictionInv (s : Pool.State Slot Stage τ) : Prop where
  sound : ∀ ev ∈ s.shared.evictions, ev.Sound
  waits : ∀ t, Waits s.shared (s.locals t)

theorem evict_sound {slot : Slot} {v : Version} {b : String}
    (hsound : ∀ ev ∈ slot.evictions, ev.Sound) (hstale : v.Stale b)
    (hthere : slot.stored = none ∨ slot.stored = some v) :
    (∀ ev ∈ (slot.evict v b).evictions, ev.Sound) ∧ (slot.evict v b).stored = none := by
  unfold Slot.evict
  rcases hthere with hnone | hsome
  · rw [hnone]
    exact ⟨hsound, hnone⟩
  · rw [hsome]
    refine ⟨fun ev hev => ?_, rfl⟩
    rcases List.mem_cons.mp hev with rfl | hev
    · exact ⟨rfl, hstale⟩
    · exact hsound ev hev

variable [DecidableEq τ]

theorem EvictionInv.update {s : Pool.State Slot Stage τ} {slot : Slot} {t : τ} {stage : Stage}
    (hsound : ∀ ev ∈ slot.evictions, ev.Sound) (hown : Waits slot stage)
    (hothers : ∀ u, Waits slot (s.locals u)) :
    EvictionInv ⟨slot, Function.update s.locals t stage⟩ := by
  refine ⟨hsound, ?_⟩
  show ∀ u, Waits slot (Function.update s.locals t stage u)
  exact (Function.forall_update_iff _ _).mpr ⟨hown, fun u _ => hothers u⟩

section
variable [External] {flow : String}

theorem next_waits (slot : Slot) (g : Goal) (b src : String) : Waits slot (g.next flow b src) := by
  intro v baseline h
  cases g with
  | read => exact h.elim
  | promote e =>
    simp only [Goal.next] at h
    cases hset : setLiteral src e.name e.key e.value with
    | ok new =>
      rw [hset] at h
      exact h.elim
    | error f =>
      rw [hset] at h
      exact h.elim

theorem EvictionInv.acts {s : Pool.State Slot Stage τ} (hs : EvictionInv s) {t : τ} {turn : Turn}
    {slot : Slot} {stage : Stage} (hc : Undisturbed s (.thread t turn))
    (h : s.shared.Acts flow (s.locals t) turn slot stage) :
    EvictionInv ⟨slot, Function.update s.locals t stage⟩ := by
  have hput : (∀ u v baseline, ¬ (s.locals u).Evicts v baseline) →
      ∀ text u, Waits (s.shared.put text) (s.locals u) :=
    fun hfree _ u v b hu => absurd hu (hfree u v b)
  have hthere := hs.waits t
  generalize s.locals t = before at h hthere
  cases h with
  | call b g => exact .update hs.sound (fun _ _ => False.elim) hs.waits
  | publish source parent actor now => exact .update hs.sound (fun _ _ => False.elim) hs.waits
  | got b g ok => exact .update hs.sound (next_waits _ g b _) hs.waits
  | kept b v g => exact .update hs.sound (next_waits _ g b b) hs.waits
  | failed text m e => exact .update hs.sound (fun _ _ => False.elim) hs.waits
  | put text e => exact .update hs.sound (fun _ _ => False.elim) (hput hc text)
  | lost text m e => exact .update hs.sound (fun _ _ => False.elim) (hput hc text)
  | judged b g hv hstale =>
    refine .update hs.sound ?_ hs.waits
    rintro v' b' ⟨rfl, rfl⟩
    exact ⟨hstale, .inr hv⟩
  | deleted b v g =>
    obtain ⟨hstale, hstill⟩ := hthere v b ⟨rfl, rfl⟩
    obtain ⟨hsound, hgone⟩ := evict_sound hs.sound hstale hstill
    refine .update hsound (next_waits _ g b b) fun u v' b' hu => ?_
    exact ⟨(hs.waits u v' b' hu).1, .inl hgone⟩

/-- Where nothing is put between the get that judges a version and the delete, every version an
eviction removes is the one it judged, and that one was stale against the call's baseline. -/
theorem evictions_remove_the_judged {s : Pool.State Slot Stage τ}
    (h : ((overlays flow).system atRest).ReachableUnder Undisturbed s) :
    ∀ ev ∈ s.shared.evictions, ev.removed = ev.judged ∧ ev.judged.Stale ev.baseline := by
  have hinv : EvictionInv s := by
    refine Transition.ReachableUnder.invariant ?_ ?_ h
    · rintro s ⟨hnone, hidle⟩
      refine ⟨fun ev hev => ?_, fun t v b ht => ?_⟩
      · rw [hnone] at hev
        cases hev
      · rw [hidle t] at ht
        exact ht.elim
    · intro s a s' hs hc hstep
      cases a with
      | thread t turn =>
        obtain ⟨⟨slot, stage⟩, hact, rfl⟩ := Pool.step_thread hstep
        exact hs.acts hc (Slot.acts_of_act hact)
      | env e => cases e
  exact hinv.sound

end

def leftover : Pool.State Slot Stage Nat :=
  ⟨⟨some ⟨1, @Value.render ascii
    (versionRecord "flow:a" (minFlow "7") (hashContent (minFlow "5")) "ana" 1)⟩, 1, []⟩, fun _ => .idle⟩

def evictRun : List (Pool.Label Turn Empty Nat) :=
  [.thread 0 (.call (minFlow "10") .read), .thread 0 (.get true), .thread 0 (.delete true)]

theorem evictions_remove_the_judged_leftover :
    ∃ s, Transition.run (@overlays ascii "flow:a").step leftover evictRun = some s ∧
      s.shared.evictions.map (·.removed.revision) = [1] ∧
      ∀ ev ∈ s.shared.evictions, ev.removed = ev.judged ∧ ev.judged.Stale ev.baseline := by
  have hrun : (Transition.run (@overlays ascii "flow:a").step leftover evictRun).map
      (fun s => s.shared.evictions.map (·.removed.revision)) = some [1] := by decide +kernel
  obtain ⟨s, hs, hone⟩ := Option.map_eq_some_iff.mp hrun
  have hcalm : Transition.Meets Undisturbed (@overlays ascii "flow:a").step leftover evictRun :=
    ⟨trivial, fun _ _ => ⟨trivial, fun _ _ => ⟨trivial, fun _ _ => trivial⟩⟩⟩
  have hreach : ((@overlays ascii "flow:a").system atRest).ReachableUnder Undisturbed s :=
    Transition.ReachableUnder.run evictRun (.init ⟨rfl, fun _ => rfl⟩) hcalm hs
  exact ⟨s, hs, hone, @evictions_remove_the_judged Nat _ ascii "flow:a" s hreach⟩

def crossedEvict : List (Pool.Label Turn Empty Nat) :=
  [.thread 0 (.call (minFlow "10") .read), .thread 0 (.get true),
   .thread 1 (.call (minFlow "10") (.promote ⟨"MIN", "-", .ofNat 30, "eve", 2⟩)),
   .thread 1 (.get true), .thread 1 (.delete true), .thread 1 (.put .ok), .thread 0 (.delete true)]

/-- The first instance deletes the version just promoted, forked from its own baseline; it had
judged the one before. -/
theorem eviction_removes_a_fresh_version :
    ∃ s : Pool.State Slot Stage Nat,
      ((@overlays ascii "flow:a").system atRest).Reachable s ∧ s.shared.stored = none ∧
      ∃ ev ∈ s.shared.evictions, ev.removed ≠ ev.judged ∧
        (fromStr ev.removed.text).map (forkedFrom · (minFlow "10")) = some true := by
  have hrun : (Transition.run (@overlays ascii "flow:a").step leftover crossedEvict).map
      (fun s => (s.shared.stored, s.shared.evictions.map fun ev =>
        (ev.removed.revision, ev.judged.revision,
          (fromStr ev.removed.text).map (forkedFrom · (minFlow "10"))))) =
      some (none, [(2, 1, some true), (1, 1, some false)]) := by decide +kernel
  obtain ⟨s, hs, hend⟩ := Option.map_eq_some_iff.mp hrun
  obtain ⟨hnone, hevs⟩ := Prod.mk.inj hend
  have hreach : ((@overlays ascii "flow:a").system atRest).Reachable s :=
    Transition.Reachable.run crossedEvict (.init ⟨rfl, fun _ => rfl⟩) hs
  refine ⟨s, hreach, hnone, ?_⟩
  cases hlist : s.shared.evictions with
  | nil =>
    rw [hlist] at hevs
    cases hevs
  | cons ev rest =>
    rw [hlist] at hevs
    obtain ⟨hfirst, -⟩ := List.cons.inj hevs
    obtain ⟨hrem, hrest⟩ := Prod.mk.inj hfirst
    obtain ⟨hjudged, hfork⟩ := Prod.mk.inj hrest
    refine ⟨ev, List.mem_cons_self, fun hsame => ?_, hfork⟩
    have h21 : (2 : Nat) = 1 := hrem.symm.trans ((congrArg Version.revision hsame).trans hjudged)
    exact absurd h21 (by decide)

end Vejas.Governance
