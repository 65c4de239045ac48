import Mathlib.Order.Nat
import Vejas.Lib.Pool

/-! The lease of a singleton source: instances that stand by, lead, renew and
release over one key of the lease bucket, which may age its value out at any time.
Renewal is fenced by the revision; the release at the end of a tenure is not. -/

namespace Vejas.Cluster

/-- The key: its value if it has one, the revision of its latest entry, and the
sequence of the stream behind it. `guards` records which instances have a guard. -/
structure Key (τ : Type) where
  value : Option τ
  revision : Option Nat
  seq : Nat
  guards : List τ

namespace Key
variable {τ : Type}

def empty : Key τ := ⟨none, none, 0, []⟩

def write (k : Key τ) (id : τ) : Key τ :=
  { k with value := some id, revision := some (k.seq + 1), seq := k.seq + 1 }

def delete (k : Key τ) : Key τ :=
  { k with value := none, revision := some (k.seq + 1), seq := k.seq + 1 }

def guardedBy (k : Key τ) (id : τ) : Key τ := { k with guards := id :: k.guards }

def ageOut (k : Key τ) : Key τ := { k with value := none, revision := none }

end Key

structure Renewer where
  revision : Nat
  stop : Bool

inductive Phase
  | standby
  | leading
  | releasing
  deriving DecidableEq

/-- An instance: where its supervisor is, the flag its driver runs on, and its
renewal threads, of which one may outlive its guard by an update. -/
structure Instance (τ : Type) where
  me : τ
  phase : Phase
  running : Bool
  renewers : List Renewer

def Instance.start {τ : Type} (me : τ) : Instance τ := ⟨me, .standby, true, []⟩

inductive Answer
  | ok
  | error
  | lost

inductive Move
  | create (a : Answer)
  | renew (n : Nat) (a : Answer)
  | stopRenewer (n : Nat)
  | drop
  | release (a : Answer)
  | crash

section
variable {τ : Type} [DecidableEq τ]

def create (k : Key τ) (i : Instance τ) (a : Answer) : Option (Key τ × Instance τ) :=
  if i.phase ≠ .standby then none
  else match a, k.value with
    | .error, _ => some (k, i)
    | .ok, none => some ((k.write i.me).guardedBy i.me,
        { i with
          phase := .leading
          running := true
          renewers := i.renewers ++ [⟨k.seq + 1, false⟩] })
    | .lost, none => some (k.write i.me, i)
    | _, some _ => none

def renew (k : Key τ) (i : Instance τ) (n : Nat) (a : Answer) : Option (Key τ × Instance τ) :=
  match i.renewers[n]? with
  | none => none
  | some r =>
    -- an error ends the thread and clears the driver's flag
    let ended := { i with running := false, renewers := i.renewers.eraseIdx n }
    match a with
    | .error => some (k, ended)
    -- the update is a compare-and-set on the revision
    | .ok =>
      if k.revision = some r.revision then
        some (k.write i.me, { i with renewers := i.renewers.set n { r with revision := k.seq + 1 } })
      else none
    | .lost => if k.revision = some r.revision then some (k.write i.me, ended) else none

def release (k : Key τ) (i : Instance τ) (a : Answer) : Option (Key τ × Instance τ) :=
  if i.phase ≠ .releasing then none
  else
    -- `LeaseGuard::drop` deletes whatever revision it finds, and only logs the result
    let k' := { k with guards := k.guards.filter (· ≠ i.me) }
    let i' := { i with phase := .standby }
    match a with
    | .error => some (k', i')
    | _ => some (k'.delete, i')

def Instance.act (k : Key τ) (i : Instance τ) : Move → Option (Key τ × Instance τ)
  | .create a => create k i a
  | .renew n a => renew k i n a
  | .stopRenewer n =>
    if ((i.renewers[n]?).map (·.stop)).getD false then
      some (k, { i with renewers := i.renewers.eraseIdx n })
    else none
  | .drop =>
    if i.phase ≠ .leading then none
    else some (k, { i with
      phase := .releasing
      renewers := i.renewers.map fun r => { r with stop := true } })
  | .release a => release k i a
  | .crash => some ({ k with guards := k.guards.filter (· ≠ i.me) },
      { i with phase := .standby, renewers := [] })

def lease : Pool (Key τ) (Instance τ) Move Unit where
  act := fun k i => i.act k
  env := fun k _ => some k.ageOut

def standingBy (s : Pool.State (Key τ) (Instance τ) τ) : Prop :=
  s.shared = .empty ∧ ∀ t, s.locals t = .start t

def Holder (k : Key τ) (j : τ) : Prop := k.value = some j ∧ j ∈ k.guards

/-- A create goes through only when no other instance still has a guard. -/
def NoOverlap (k : Key τ) (i : Instance τ) : Move → Prop
  | .create .ok => ∀ j ∈ k.guards, j = i.me
  | _ => True

def OneGuard (k : Key τ) : Prop := ∀ i ∈ k.guards, ∀ j ∈ k.guards, i = j

structure InstanceInv (k : Key τ) (i : Instance τ) : Prop where
  guard : i.phase ≠ .standby → i.me ∈ k.guards
  renewer_le : ∀ r ∈ i.renewers, r.revision ≤ k.seq
  fenced : ∀ r ∈ i.renewers, k.revision = some r.revision → k.value = some i.me

def Distinct (i j : Instance τ) : Prop := i.me ≠ j.me

structure Key.Advances (k k' : Key τ) : Prop where
  seq_le : k.seq ≤ k'.seq
  entry : (k'.value = k.value ∧ k'.revision = k.revision) ∨ k'.revision = none ∨
    ∃ r, k'.revision = some r ∧ k.seq < r

omit [DecidableEq τ] in
theorem InstanceInv.advances {k k' : Key τ} {i : Instance τ} (h : InstanceInv k i)
    (hm : k.Advances k') (hg : i.me ∈ k.guards → i.me ∈ k'.guards) : InstanceInv k' i := by
  refine ⟨fun hp => hg (h.guard hp), fun r hr => (h.renewer_le r hr).trans hm.seq_le,
    fun r hr hrev => ?_⟩
  rcases hm.entry with ⟨hv, hrev'⟩ | hnone | ⟨s, hs, hlt⟩
  · rw [hv]
    exact h.fenced r hr (hrev' ▸ hrev)
  · rw [hnone] at hrev
    cases hrev
  · rw [hs] at hrev
    cases hrev
    exact absurd (h.renewer_le r hr) (not_le_of_gt hlt)

omit [DecidableEq τ] in
theorem Key.Advances.refl (k : Key τ) : k.Advances k := ⟨le_rfl, .inl ⟨rfl, rfl⟩⟩

omit [DecidableEq τ] in
theorem Key.Advances.next {k k' : Key τ} (hseq : k'.seq = k.seq + 1)
    (hrev : k'.revision = some (k.seq + 1)) : k.Advances k' :=
  ⟨hseq ▸ Nat.le_succ _, .inr (.inr ⟨k.seq + 1, hrev, Nat.lt_succ_self _⟩)⟩

def Key.unguard (k : Key τ) (id : τ) : Key τ := { k with guards := k.guards.filter (· ≠ id) }

inductive Effect (k : Key τ) (i : Instance τ) (m : Move) : Key τ → Instance τ → Prop
  | stays {i'} : i'.me = i.me → (i'.phase ≠ .standby → i.phase ≠ .standby) →
      (∀ r' ∈ i'.renewers, ∃ r ∈ i.renewers, r'.revision = r.revision) → Effect k i m k i'
  | created {i'} : i'.me = i.me → k.value = none → m = .create .ok →
      i'.renewers = i.renewers ++ [⟨k.seq + 1, false⟩] →
      Effect k i m ((k.write i.me).guardedBy i.me) i'
  | createdUnseen : k.value = none → Effect k i m (k.write i.me) i
  | renewed {i' r} : i'.me = i.me → r ∈ i.renewers → k.revision = some r.revision →
      i'.phase = i.phase → (∀ r' ∈ i'.renewers, r'.revision = k.seq + 1 ∨ r' ∈ i.renewers) →
      Effect k i m (k.write i.me) i'
  | released {i'} : i'.me = i.me → i.phase = .releasing → i'.phase = .standby →
      i'.renewers = i.renewers → Effect k i m (k.unguard i.me).delete i'
  | left {i'} : i'.me = i.me → i'.phase = .standby → (∀ r ∈ i'.renewers, r ∈ i.renewers) →
      Effect k i m (k.unguard i.me) i'

theorem act_effect {k k' : Key τ} {i i' : Instance τ} {m : Move}
    (h : i.act k m = some (k', i')) : Effect k i m k' i' := by
  cases m with
  | create a =>
    simp only [Instance.act, create] at h
    split at h
    · cases h
    next hp =>
      split at h
      next =>
        cases h
        exact .stays rfl id fun r hr => ⟨r, hr, rfl⟩
      next hv =>
        cases h
        exact .created rfl hv rfl rfl
      next hv =>
        cases h
        exact .createdUnseen hv
      · cases h
  | renew n a =>
    simp only [Instance.act, renew] at h
    split at h
    · cases h
    next r hr =>
      have hmem : r ∈ i.renewers := List.mem_of_getElem? hr
      have herase : ∀ r' ∈ i.renewers.eraseIdx n, r' ∈ i.renewers :=
        fun r' h' => List.mem_of_mem_eraseIdx h'
      cases a with
      | error =>
        cases h
        exact .stays rfl id fun r' h' => ⟨r', herase r' h', rfl⟩
      | ok =>
        dsimp only at h
        split at h
        next hrev =>
          cases h
          refine .renewed rfl hmem hrev rfl fun r' h' => ?_
          rcases List.mem_or_eq_of_mem_set h' with h' | rfl
          · exact .inr h'
          · exact .inl rfl
        · cases h
      | lost =>
        dsimp only at h
        split at h
        next hrev =>
          cases h
          exact .renewed rfl hmem hrev rfl fun r' h' => .inr (herase r' h')
        · cases h
  | stopRenewer n =>
    simp only [Instance.act] at h
    split at h
    · cases h
      exact .stays rfl id fun r' h' => ⟨r', List.mem_of_mem_eraseIdx h', rfl⟩
    · cases h
  | drop =>
    simp only [Instance.act] at h
    split at h
    · cases h
    next hp =>
      cases h
      refine .stays rfl (fun _ => ?_) fun r' h' => ?_
      · rw [not_not.mp hp]
        decide
      · obtain ⟨r, hr, rfl⟩ := List.mem_map.mp h'
        exact ⟨r, hr, rfl⟩
  | release a =>
    simp only [Instance.act, release] at h
    split at h
    · cases h
    next hp =>
      cases a with
      | error =>
        cases h
        exact .left rfl rfl fun _ hr => hr
      | ok =>
        cases h
        exact .released rfl (not_not.mp hp) rfl rfl
      | lost =>
        cases h
        exact .released rfl (not_not.mp hp) rfl rfl
  | crash =>
    cases h
    exact .left rfl rfl nofun

theorem mem_unguard {k : Key τ} {id j : τ} (h : j ∈ k.guards) (hne : j ≠ id) :
    j ∈ (k.unguard id).guards := by simp [Key.unguard, h, hne]

theorem OneGuard.unguard {k : Key τ} (h : OneGuard k) (id : τ) : OneGuard (k.unguard id) :=
  fun i hi j hj => h i (List.mem_filter.mp hi).1 j (List.mem_filter.mp hj).1

theorem Effect.oneGuard {k k' : Key τ} {i i' : Instance τ} {m : Move} (h : Effect k i m k' i')
    (hc : NoOverlap k i m) (hg : OneGuard k) : OneGuard k' := by
  cases h with
  | stays => exact hg
  | createdUnseen => exact hg
  | renewed => exact hg
  | released => exact hg.unguard i.me
  | left => exact hg.unguard i.me
  | created _ _ hm _ =>
    subst hm
    have hme : ∀ j ∈ i.me :: k.guards, j = i.me := by
      intro j hj
      rcases List.mem_cons.mp hj with hj | hj
      · exact hj
      · exact hc j hj
    intro j hj l hl
    rw [hme j hj, hme l hl]

theorem Effect.own {k k' : Key τ} {i i' : Instance τ} {m : Move} (h : Effect k i m k' i')
    (hi : InstanceInv k i) : InstanceInv k' i' := by
  cases h with
  | stays hme hp hr =>
    refine ⟨fun h => hme ▸ hi.guard (hp h), fun r hr' => ?_, fun r hr' hrev => ?_⟩
    · obtain ⟨r₀, hmem, heq⟩ := hr r hr'
      exact heq ▸ hi.renewer_le r₀ hmem
    · obtain ⟨r₀, hmem, heq⟩ := hr r hr'
      rw [hme]
      exact hi.fenced r₀ hmem (heq ▸ hrev)
  | created hme _ _ hr =>
    refine ⟨fun _ => hme ▸ List.mem_cons_self, fun r hr' => ?_, fun _ _ _ => congrArg some hme.symm⟩
    rw [hr] at hr'
    rcases List.mem_append.mp hr' with hr' | hr'
    · exact (hi.renewer_le r hr').trans (Nat.le_succ _)
    · rw [List.mem_singleton.mp hr']
      exact le_rfl
  | createdUnseen => exact hi.advances (.next rfl rfl) id
  | renewed hme hmem hrev hp hr =>
    refine ⟨fun h => hme ▸ hi.guard (hp ▸ h), fun r hr' => ?_, fun _ _ _ => congrArg some hme.symm⟩
    rcases hr r hr' with h | h
    · exact h.le
    · exact (hi.renewer_le r h).trans (Nat.le_succ _)
  | released hme _ hp hr =>
    refine ⟨fun h => absurd hp h, fun r hr' => ?_, fun r hr' hrev => ?_⟩
    · exact (hi.renewer_le r (hr ▸ hr')).trans (Nat.le_succ _)
    · have hle := hi.renewer_le r (hr ▸ hr')
      have heq : k.seq + 1 = r.revision := Option.some.inj hrev
      omega
  | left hme hp hr =>
    refine ⟨fun h => absurd hp h, fun r hr' => hi.renewer_le r (hr r hr'), fun r hr' hrev => ?_⟩
    rw [hme]
    exact hi.fenced r (hr r hr') hrev

theorem Effect.other {k k' : Key τ} {i i' d : Instance τ} {m : Move} (h : Effect k i m k' i')
    (hd : InstanceInv k d) (hne : i.me ≠ d.me) : InstanceInv k' d ∧ i'.me ≠ d.me := by
  cases h with
  | stays hme _ _ => exact ⟨hd, hme ▸ hne⟩
  | created hme _ _ _ =>
    exact ⟨hd.advances (.next rfl rfl) (List.mem_cons_of_mem _), hme ▸ hne⟩
  | createdUnseen => exact ⟨hd.advances (.next rfl rfl) id, hne⟩
  | renewed hme _ _ _ _ => exact ⟨hd.advances (.next rfl rfl) id, hme ▸ hne⟩
  | released hme _ _ _ =>
    exact ⟨hd.advances (.next rfl rfl) fun h => mem_unguard h hne.symm, hme ▸ hne⟩
  | left hme _ _ =>
    exact ⟨hd.advances ⟨le_rfl, .inl ⟨rfl, rfl⟩⟩ fun h => mem_unguard h hne.symm, hme ▸ hne⟩

theorem Effect.me {k k' : Key τ} {i i' : Instance τ} {m : Move} (h : Effect k i m k' i') :
    i'.me = i.me := by
  cases h with
  | createdUnseen => rfl
  | stays hme | created hme | renewed hme | released hme | left hme => exact hme

theorem Effect.value {k k' : Key τ} {i i' : Instance τ} {m : Move} (h : Effect k i m k' i')
    (hi : InstanceInv k i) {j : τ} (hj : k.value = some j) (hne : j ≠ i.me) :
    k'.value = some j ∨ i.phase = .releasing := by
  -- only a release takes the value of another instance away
  cases h with
  | stays => exact .inl hj
  | left => exact .inl hj
  | released _ hp => exact .inr hp
  | created _ hv => cases hj.symm.trans hv
  | createdUnseen hv => cases hj.symm.trans hv
  | renewed _ hmem hrev =>
    have hv := hi.fenced _ hmem hrev
    exact absurd (Option.some.inj (hj.symm.trans hv)) hne

theorem Effect.guards {k k' : Key τ} {i i' : Instance τ} {m : Move} (h : Effect k i m k' i') {j : τ}
    (hj : j ∈ k.guards) (hne : j ≠ i.me) : j ∈ k'.guards := by
  cases h with
  | stays => exact hj
  | createdUnseen => exact hj
  | renewed => exact hj
  | created => exact List.mem_cons_of_mem _ hj
  | released => exact mem_unguard hj hne
  | left => exact mem_unguard hj hne

theorem leases_hold {s : Pool.State (Key τ) (Instance τ) τ}
    (h : (lease.system standingBy).ReachableUnder (Pool.Only NoOverlap) s) :
    Pool.Holds OneGuard InstanceInv Distinct s := by
  refine Pool.Holds.reachable (fun _ _ h => h.symm) ?_ ?_ ?_ h
  · intro k i m k' i' hg hi hc hstep
    have he := act_effect hstep
    exact ⟨⟨he.oneGuard hc hg, he.own hi⟩, fun d hd hne => he.other hd hne⟩
  · rintro k _ _ hg ⟨⟩
    exact ⟨hg, fun d hd => hd.advances ⟨le_rfl, .inr (.inl rfl)⟩ id⟩
  · rintro s ⟨hs, hl⟩
    refine ⟨?_, fun t => ?_, fun t u htu => ?_⟩
    · rw [hs]
      exact nofun
    · rw [hl t]
      exact ⟨fun h => absurd rfl h, nofun, nofun⟩
    · rw [hl t, hl u]
      exact htu

theorem me_of_reachable {C : Key τ → Instance τ → Move → Prop}
    {s : Pool.State (Key τ) (Instance τ) τ}
    (h : (lease.system standingBy).ReachableUnder (Pool.Only C) s) (t : τ) :
    (s.locals t).me = t := by
  refine Transition.ReachableUnder.invariant (I := fun s => ∀ t, (s.locals t).me = t) ?_ ?_ h t
  · rintro s ⟨_, hl⟩ t
    rw [hl t]
    rfl
  · intro s a s' hme _ hstep t
    cases a with
    | env =>
      obtain ⟨_, _, rfl⟩ := Pool.step_env hstep
      exact hme t
    | thread u m =>
      obtain ⟨r, hr, rfl⟩ := Pool.step_thread hstep
      show (Function.update s.locals u r.2 t).me = t
      by_cases hu : t = u
      · rw [hu, Function.update_self, (act_effect hr).me]
        exact hme u
      · rw [Function.update_of_ne hu]
        exact hme t

/-- In a run in which no create goes through while another instance still has a guard,
no step of an instance takes the lease from another that wrote it and still holds it. -/
theorem lease_kept {s s' : Pool.State (Key τ) (Instance τ) τ}
    (h : (lease.system standingBy).ReachableUnder (Pool.Only NoOverlap) s) {t j : τ} {m : Move}
    (hstep : lease.step s (.thread t m) = some s') (hne : j ≠ t) (hj : Holder s.shared j) :
    Holder s'.shared j := by
  have hinv := leases_hold h
  have hme : j ≠ (s.locals t).me := by
    rw [me_of_reachable h t]
    exact hne
  obtain ⟨r, hr, rfl⟩ := Pool.step_thread hstep
  have he := act_effect hr
  refine ⟨?_, he.guards hj.2 hme⟩
  rcases he.value (hinv.each t) hj.1 hme with hv | hrel
  · exact hv
  · -- a releasing instance has the only guard, so it is the holder itself
    have hguard := (hinv.each t).guard (by rw [hrel]; decide)
    exact absurd (hinv.shared _ hj.2 _ hguard) hme

end

def standbyState : Pool.State (Key Nat) (Instance Nat) Nat := ⟨.empty, .start⟩

def handover : List (Pool.Label Move Unit Nat) :=
  [.thread 0 (.create .ok), .thread 0 .drop, .thread 0 (.release .ok), .thread 1 (.create .ok)]

theorem lease_kept_handover : ∃ s s' : Pool.State (Key Nat) (Instance Nat) Nat,
    Transition.run lease.step standbyState handover = some s ∧ Holder s.shared 1 ∧
      lease.step s (.thread 0 (.renew 0 .error)) = some s' ∧ Holder s'.shared 1 := by
  have hmeets : Transition.Meets (Pool.Only NoOverlap) lease.step standbyState handover := by
    refine ⟨fun j hj => absurd hj List.not_mem_nil, ?_⟩
    rintro _ ⟨⟩
    refine ⟨trivial, ?_⟩
    rintro _ ⟨⟩
    refine ⟨trivial, ?_⟩
    rintro _ ⟨⟩
    exact ⟨fun j hj => absurd hj List.not_mem_nil, fun _ _ => trivial⟩
  have hstart : (lease.system standingBy).ReachableUnder (Pool.Only NoOverlap) standbyState := .init ⟨rfl, fun _ => rfl⟩
  have hreach := Transition.ReachableUnder.run handover hstart hmeets rfl
  have hlate := lease_kept (t := 0) (j := 1) (m := .renew 0 .error) hreach rfl (by decide) ⟨rfl, by decide⟩
  exact ⟨_, _, rfl, ⟨rfl, by decide⟩, rfl, hlate⟩

def stalledLeader : List (Pool.Label Move Unit Nat) :=
  [.thread 0 (.create .ok), .env (), .thread 1 (.create .ok), .thread 0 (.renew 0 .error),
   .thread 0 .drop]

/-- Then the delete removes the lease of `1`, which still leads, and `2` can create it. -/
theorem release_takes_lease :
    ∃ s s' s'' : Pool.State (Key Nat) (Instance Nat) Nat,
      (lease.system standingBy).Reachable s ∧ Holder s.shared 1 ∧
      lease.step s (.thread 0 (.release .ok)) = some s' ∧ ¬ Holder s'.shared 1 ∧
      lease.step s' (.thread 2 (.create .ok)) = some s'' ∧
      1 ∈ s''.shared.guards ∧ 2 ∈ s''.shared.guards := by
  refine ⟨_, _, _, Transition.Reachable.run stalledLeader (s := standbyState) (.init ⟨rfl, fun _ => rfl⟩)
    rfl, ⟨rfl, by decide⟩, rfl, ?_, rfl, by decide, by decide⟩
  rintro ⟨hv, _⟩
  cases hv

end Vejas.Cluster
