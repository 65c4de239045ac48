import Vejas.Lib.Pool
import Vejas.Runtime.Units

/-! The registry of supervised units under threads that reload the project and restart units. Every
section under the registry's lock is one step: stopping the registered handle of a name, and
registering a new one, are two. -/

namespace Vejas.Runtime.Supervision

structure Handle where
  spec : Spec
  stop : Bool

/-- Every handle made so far, and the one registered under each name. -/
structure Fleet where
  handles : List Handle
  registry : String → Option Nat

namespace Fleet

def empty : Fleet := ⟨[], fun _ => none⟩

def find? (f : Fleet) (name : String) : Option Handle := (f.registry name).bind (f.handles[·]?)

def stopWhere (f : Fleet) (p : Nat → Handle → Bool) : Fleet :=
  { f with handles := f.handles.mapIdx fun i h => if p i h then { h with stop := true } else h }

def registers (f : Fleet) (i : Nat) (h : Handle) : Bool := f.registry h.spec.name == some i

def stopNamed (f : Fleet) (name : String) : Fleet := f.stopWhere fun i _ => f.registry name == some i

def insert (f : Fleet) (spec : Spec) : Fleet where
  handles := f.handles ++ [⟨spec, false⟩]
  registry n := if n = spec.name then some f.handles.length else f.registry n

def Live (f : Fleet) (i : Nat) (h : Handle) : Prop := f.handles[i]? = some h ∧ h.stop = false

structure Supervised (f : Fleet) : Prop where
  one : ∀ i h j k, f.Live i h → f.Live j k → h.spec.name = k.spec.name → i = j
  registered : ∀ i h, f.Live i h → f.registry h.spec.name = some i

end Fleet

def wantedOf (specs : List Spec) : List Spec :=
  specs.foldl (fun wanted s => wanted.filter (·.name != s.name) ++ [s]) []

/-- `reload` in its loop: the registry as it was read, the names still to come and the counts. -/
structure Reload where
  current : String → Option (Bool × Nat)
  remaining : List Spec
  total : Nat
  started : Nat
  stopped : Nat

inductive Caller
  | restartUnit
  | reload (r : Reload)

inductive Outcome
  | restarted (done : Bool)
  | reloaded (total started stopped : Nat)

/-- Where a thread is, between two sections under the lock. -/
inductive Task
  | idle (last : Option Outcome)
  | restarting (spec : Spec)
  | scanned (wanted : List Spec)
  | comparing (r : Reload)
  | starting (spec : Spec) (caller : Caller)

inductive Choice
  | restartUnit (specs : List Spec) (name : String)
  | reload (specs : List Spec)
  | next (place : Nat)

def unwanted (f : Fleet) (wanted : List Spec) (i : Nat) (h : Handle) : Bool :=
  f.registers i h && !wanted.any (·.name == h.spec.name) && !h.stop

def readCurrent (f : Fleet) (wanted : List Spec) : Fleet × Reload :=
  let f' := f.stopWhere (unwanted f wanted)
  (f', { current := fun n => (f'.find? n).map fun h => (h.stop, h.spec.mtime)
         remaining := wanted
         total := wanted.length
         started := 0
         stopped := (f.handles.zipIdx.filter fun h => unwanted f wanted h.2 h.1).length })

def compare (f : Fleet) (r : Reload) (spec : Spec) : Fleet × Task :=
  match r.current spec.name with
  | none => (f, .starting spec (.reload r))
  | some (true, _) => (f, .starting spec (.reload r))
  | some (false, mtime) =>
    if mtime ≠ spec.mtime then
      (f.stopNamed spec.name, .starting spec (.reload { r with stopped := r.stopped + 1 }))
    else (f, .comparing r)

def Caller.resume : Caller → Task
  | restartUnit => .idle (some (.restarted true))
  | reload r => .comparing { r with started := r.started + 1 }

def act (f : Fleet) : Task → Choice → Option (Fleet × Task)
  | .idle _, .restartUnit specs name =>
    match specs.find? (·.name == name) with
    | none => some (f, .idle (some (.restarted false)))
    | some spec => some (f, .restarting spec)
  | .idle _, .reload specs => some (f, .scanned (wantedOf specs))
  | .restarting spec, .next _ => some (f.stopNamed spec.name, .starting spec .restartUnit)
  | .scanned wanted, .next _ =>
    let (f', r) := readCurrent f wanted
    some (f', .comparing r)
  | .comparing r, .next place =>
    match r.remaining[place]? with
    | some spec => some (compare f { r with remaining := r.remaining.eraseIdx place } spec)
    | none =>
      if r.remaining.isEmpty then some (f, .idle (some (.reloaded r.total r.started r.stopped)))
      else none
  | .starting spec caller, .next _ => some (f.insert spec, caller.resume)
  | _, _ => none

def shutdown (f : Fleet) (_ : Unit) : Option Fleet := some (f.stopWhere f.registers)

def pool : Pool Fleet Task Choice Unit := ⟨act, shutdown⟩

/-- The handle a new one replaces in the registry has been stopped. -/
def Vacant (f : Fleet) (task : Task) (_ : Choice) : Prop :=
  match task with
  | .starting spec _ => (f.find? spec.name).all (·.stop) = true
  | _ => True

namespace Fleet
variable {f : Fleet}

def Wf (f : Fleet) : Prop := ∀ n i, f.registry n = some i → ∃ h, f.handles[i]? = some h ∧ h.spec.name = n

theorem getElem?_stopWhere (p : Nat → Handle → Bool) (i : Nat) : (f.stopWhere p).handles[i]? =
    f.handles[i]?.map fun h => if p i h then { h with stop := true } else h :=
  List.getElem?_mapIdx

theorem Wf.stopWhere (h : f.Wf) (p : Nat → Handle → Bool) : (f.stopWhere p).Wf := by
  intro n i hi
  obtain ⟨k, hk, hname⟩ := h n i hi
  rw [getElem?_stopWhere, hk, Option.map_some]
  refine ⟨_, rfl, ?_⟩
  split <;> exact hname

theorem Wf.insert (h : f.Wf) (spec : Spec) : (f.insert spec).Wf := by
  intro n i hi
  unfold Fleet.insert at hi ⊢
  dsimp only at hi ⊢
  split at hi
  next hn =>
    cases hi
    exact ⟨⟨spec, false⟩, List.getElem?_concat_length, hn.symm⟩
  next =>
    obtain ⟨k, hk, hname⟩ := h n i hi
    exact ⟨k, by rw [List.getElem?_append_left (List.getElem?_eq_some_iff.mp hk).1, hk], hname⟩

theorem live_of_stopWhere {p : Nat → Handle → Bool} {i : Nat} {h : Handle} (hl : (f.stopWhere p).Live i h) : f.Live i h := by
  obtain ⟨hget, hstop⟩ := hl
  rw [getElem?_stopWhere] at hget
  obtain ⟨k, hk, heq⟩ := Option.map_eq_some_iff.mp hget
  split at heq
  · rw [← heq] at hstop
    cases hstop
  · exact ⟨by rw [hk, heq], hstop⟩

theorem Supervised.stopWhere (h : f.Supervised) (p : Nat → Handle → Bool) : (f.stopWhere p).Supervised where
  one i a j b ha hb := h.one i a j b (live_of_stopWhere ha) (live_of_stopWhere hb)
  registered i a ha := h.registered i a (live_of_stopWhere ha)

theorem live_insert_iff {spec : Spec} {i : Nat} {h : Handle} :
    (f.insert spec).Live i h ↔ f.Live i h ∨ i = f.handles.length ∧ h = ⟨spec, false⟩ := by
  unfold Live Fleet.insert
  dsimp only
  rcases Nat.lt_trichotomy i f.handles.length with hlt | rfl | hgt
  · rw [List.getElem?_append_left hlt]
    exact ⟨.inl, fun hor => hor.resolve_right fun heq => Nat.ne_of_lt hlt heq.1⟩
  · rw [List.getElem?_concat_length, List.getElem?_eq_none (Nat.le_refl _)]
    constructor
    · rintro ⟨heq, -⟩
      exact .inr ⟨rfl, (Option.some.inj heq).symm⟩
    · rintro (⟨hnone, -⟩ | ⟨-, rfl⟩)
      · cases hnone
      · exact ⟨rfl, rfl⟩
  · rw [List.getElem?_eq_none (by rw [List.length_append]; exact hgt), List.getElem?_eq_none (Nat.le_of_lt hgt)]
    constructor
    · rintro ⟨hnone, -⟩
      cases hnone
    · rintro (⟨hnone, -⟩ | ⟨heq, -⟩)
      · cases hnone
      · exact absurd heq (Nat.ne_of_gt hgt)

theorem supervised_of_registered (h : ∀ i k, f.Live i k → f.registry k.spec.name = some i) : f.Supervised where
  one i a j b ha hb hname := by
    have hi := h i a ha
    rw [hname, h j b hb] at hi
    exact (Option.some.inj hi).symm
  registered := h

theorem supervised_insert_iff (hwf : f.Wf) (h : f.Supervised) (spec : Spec) :
    (f.insert spec).Supervised ↔ (f.find? spec.name).all (·.stop) = true := by
  constructor
  · intro hnew
    cases hreg : f.registry spec.name with
    | none => rw [find?, hreg]; rfl
    | some i =>
      obtain ⟨k, hk, hname⟩ := hwf _ _ hreg
      rw [find?, hreg, Option.bind_some, hk, Option.all_some, ← Bool.not_eq_false]
      intro hstop
      have hlive := hnew.registered i k (live_insert_iff.mpr (.inl ⟨hk, hstop⟩))
      unfold Fleet.insert at hlive
      dsimp only at hlive
      rw [if_pos hname] at hlive
      exact Nat.ne_of_lt (List.getElem?_eq_some_iff.mp hk).1 (Option.some.inj hlive).symm
  · intro hvacant
    refine supervised_of_registered fun i k hlive => ?_
    unfold Fleet.insert
    dsimp only
    rcases live_insert_iff.mp hlive with hold | ⟨rfl, rfl⟩
    · have hreg := h.registered i k hold
      split
      next hname =>
        rw [← hname, find?, hreg, Option.bind_some, hold.1, Option.all_some, hold.2] at hvacant
        cases hvacant
      · exact hreg
    · rw [if_pos rfl]

end Fleet

theorem act_cases {f f' : Fleet} {task task' : Task} {c : Choice} (h : act f task c = some (f', task')) :
    (∃ spec caller, task = .starting spec caller ∧ f' = f.insert spec) ∨
      (∀ spec caller, task ≠ .starting spec caller) ∧ (f' = f ∨ ∃ p, f' = f.stopWhere p) := by
  cases task with
  | starting spec caller =>
    cases c with
    | next place =>
      cases h
      exact .inl ⟨spec, caller, rfl, rfl⟩
    | restartUnit specs name => cases h
    | reload specs => cases h
  | idle last =>
    refine .inr ⟨fun _ _ heq => (by cases heq), .inl ?_⟩
    cases c with
    | next place => cases h
    | restartUnit specs name =>
      rw [act] at h
      split at h
      · cases h; rfl
      · cases h; rfl
    | reload specs => cases h; rfl
  | restarting spec =>
    refine .inr ⟨fun _ _ heq => (by cases heq), .inr ?_⟩
    cases c with
    | next place => cases h; exact ⟨_, rfl⟩
    | restartUnit specs name => cases h
    | reload specs => cases h
  | scanned wanted =>
    refine .inr ⟨fun _ _ heq => (by cases heq), .inr ?_⟩
    cases c with
    | next place => cases h; exact ⟨_, rfl⟩
    | restartUnit specs name => cases h
    | reload specs => cases h
  | comparing r =>
    refine .inr ⟨fun _ _ heq => (by cases heq), ?_⟩
    cases c with
    | next place =>
      rw [act] at h
      split at h
      next spec hspec =>
        unfold compare at h
        split at h
        · cases h; exact .inl rfl
        · cases h; exact .inl rfl
        · split at h
          · cases h; exact .inr ⟨_, rfl⟩
          · cases h; exact .inl rfl
      next =>
        split at h
        · cases h; exact .inl rfl
        · cases h
    | restartUnit specs name => cases h
    | reload specs => cases h

section
variable {τ : Type} [DecidableEq τ]

def start : Pool.State Fleet Task τ := ⟨.empty, fun _ => .idle none⟩

theorem wf_step {s s' : Pool.State Fleet Task τ} {a : Pool.Label Choice Unit τ} (h : s.shared.Wf)
    (hstep : pool.step s a = some s') : s'.shared.Wf := by
  cases a with
  | thread t c =>
    obtain ⟨⟨f', task'⟩, hact, rfl⟩ := Pool.step_thread hstep
    rcases act_cases hact with ⟨spec, caller, -, rfl⟩ | ⟨-, rfl | ⟨p, rfl⟩⟩
    · exact h.insert spec
    · exact h
    · exact h.stopWhere p
  | env e =>
    obtain ⟨f', henv, rfl⟩ := Pool.step_env hstep
    cases henv
    exact h.stopWhere _

theorem supervised_step_iff {s s' : Pool.State Fleet Task τ} {a : Pool.Label Choice Unit τ} (hwf : s.shared.Wf)
    (h : s.shared.Supervised) (hstep : pool.step s a = some s') :
    s'.shared.Supervised ↔ Pool.Only Vacant s a := by
  cases a with
  | thread t c =>
    obtain ⟨⟨f', task'⟩, hact, rfl⟩ := Pool.step_thread hstep
    rcases act_cases hact with ⟨spec, caller, htask, rfl⟩ | ⟨hother, hf⟩
    · unfold Pool.Only Vacant
      dsimp only
      rw [htask]
      exact Fleet.supervised_insert_iff hwf h spec
    · have hvacant : Vacant s.shared (s.locals t) c := by
        unfold Vacant
        split
        next spec caller htask => exact absurd htask (hother spec caller)
        · trivial
      refine iff_of_true ?_ hvacant
      rcases hf with rfl | ⟨p, rfl⟩
      · exact h
      · exact h.stopWhere p
  | env e =>
    obtain ⟨f', henv, rfl⟩ := Pool.step_env hstep
    cases henv
    exact iff_of_true (h.stopWhere _) trivial

/-- In a run of any threads, no unit is ever orphaned exactly if every handle that was registered
replaced one that had been stopped. -/
theorem never_orphaned_iff (as : List (Pool.Label Choice Unit τ)) {s : Pool.State Fleet Task τ}
    (h : Transition.run pool.step start as = some s) :
    Transition.Always (fun s => s.shared.Supervised) pool.step start as ↔
      Transition.Meets (Pool.Only Vacant) pool.step start as := by
  refine Transition.always_iff_meets (J := fun s => s.shared.Wf) (fun s a s' => wf_step) (fun s a s' => supervised_step_iff) ?_ ?_ h
  · intro n i hi
    cases hi
  · refine Fleet.supervised_of_registered fun i k hlive => ?_
    cases hlive.1

end

instance decidableVacant (f : Fleet) (task : Task) (c : Choice) : Decidable (Vacant f task c) :=
  match task with
  | .starting _ _ => inferInstanceAs (Decidable (_ = true))
  | .idle _ => .isTrue trivial
  | .restarting _ => .isTrue trivial
  | .scanned _ => .isTrue trivial
  | .comparing _ => .isTrue trivial

instance decidableOnlyVacant {τ : Type} (s : Pool.State Fleet Task τ) (a : Pool.Label Choice Unit τ) :
    Decidable (Pool.Only Vacant s a) :=
  match a with
  | .thread t c => decidableVacant s.shared (s.locals t) c
  | .env _ => .isTrue trivial

def orders : Spec := ⟨"flow:orders", 1, [], "default", .flow⟩

def inTurn : List (Pool.Label Choice Unit Bool) :=
  [.thread true (.reload [orders]), .thread true (.next 0), .thread true (.next 0), .thread true (.next 0),
    .thread true (.next 0), .thread false (.restartUnit [orders] "flow:orders"), .thread false (.next 0),
    .thread false (.next 0)]

theorem never_orphaned_in_turn : (Transition.run pool.step start inTurn).isSome = true ∧
    Transition.Always (fun s => s.shared.Supervised) pool.step start inTurn := by
  obtain ⟨s, hs⟩ := Option.isSome_iff_exists.mp (show (Transition.run pool.step start inTurn).isSome = true from rfl)
  exact ⟨rfl, (never_orphaned_iff inTurn hs).mpr (by decide +kernel)⟩

def atOnce : List (Pool.Label Choice Unit Bool) :=
  [.thread true (.restartUnit [orders] "flow:orders"), .thread false (.restartUnit [orders] "flow:orders"),
    .thread true (.next 0), .thread false (.next 0), .thread true (.next 0), .thread false (.next 0)]

theorem restarts_at_once_orphan : ∃ s, Transition.run pool.step start atOnce = some s ∧ ¬ s.shared.Supervised := by
  refine ⟨_, rfl, fun h => ?_⟩
  have hfirst := h.registered 0 ⟨orders, false⟩ ⟨rfl, rfl⟩
  exact absurd (Option.some.inj hfirst) (by decide)

end Vejas.Runtime.Supervision
