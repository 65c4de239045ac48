import Mathlib.Order.Nat
import Vejas.Lib.Pool

/-! Decisions on one proposal by any number of clients and instances. `decide_proposal` and
`reconcile_and_list` are cut at their calls on the bucket: each reads the status, works, reads
the record again and puts it back with another status, whatever it then holds. -/

namespace Vejas.Governance

inductive Verdict
  | approved
  | rejected
  | expired
  deriving DecidableEq

inductive Status
  | pending
  | decided (v : Verdict)
  deriving DecidableEq

/-- The record in the bucket. `puts` are the statuses put so far, newest first, `applied` the
runs of `apply_approved`, and `busy` the calls that read `pending` and are still running. -/
structure Queue where
  status : Status
  puts : List Verdict
  applied : Nat
  busy : Nat
  deriving DecidableEq

inductive Call
  | approve
  | reject
  | list
  deriving DecidableEq

/-- Where a call is; `fetching` and `putting` are the two halves of `set_status`. -/
inductive Pc
  | idle
  | reading (c : Call)
  | checking (c : Call)
  | applying
  | fetching (v : Verdict)
  | putting (v : Verdict)
  deriving DecidableEq

inductive Check
  | same
  | moved
  | error

inductive Move
  | begin (c : Call)
  | read (ok : Bool)
  | check (found : Check)
  | applied (ok : Bool)
  | fetch (ok : Bool)
  | put (stored : Bool)
  | crash

def Pc.inside : Pc → Bool
  | idle => false
  | reading _ => false
  | _ => true

def Pc.committed : Pc → Bool
  | applying => true
  | fetching v => v == .approved
  | putting v => v == .approved
  | _ => false

namespace Queue

def fresh : Queue := ⟨.pending, [], 0, 0⟩

def enter (q : Queue) : Queue := { q with busy := q.busy + 1 }

def leave (q : Queue) : Queue := { q with busy := q.busy - 1 }

def apply (q : Queue) : Queue := { q with applied := q.applied + 1 }

def record (q : Queue) (v : Verdict) : Queue :=
  { q with status := .decided v, puts := v :: q.puts }

def act (q : Queue) : Pc → Move → Option (Queue × Pc)
  | .idle, .begin c => some (q, .reading c)
  | .reading c, .read ok =>
    if ok = false ∨ q.status ≠ .pending then some (q, .idle)
    else match c with
      | .reject => some (q.enter, .fetching .rejected)
      | c => some (q.enter, .checking c)
  | .checking c, .check found =>
    match found, c with
    | .moved, _ => some (q, .fetching .expired)
    | .same, .approve => some (q.apply, .applying)
    | _, _ => some (q.leave, .idle)
  | .applying, .applied ok => if ok then some (q, .fetching .approved) else some (q.leave, .idle)
  | .fetching v, .fetch ok => if ok then some (q, .putting v) else some (q.leave, .idle)
  | .putting v, .put stored => some ((if stored then q.record v else q).leave, .idle)
  | .idle, .crash => none
  | .reading _, .crash => some (q, .idle)
  | _, .crash => some (q.leave, .idle)
  | _, _ => none

end Queue

def decisions : Pool Queue Pc Move Empty where
  act := Queue.act
  env _ := nofun

variable {τ : Type}

def submitted (s : Pool.State Queue Pc τ) : Prop := s.shared = .fresh ∧ ∀ t, s.locals t = .idle

/-- A call reads `pending` only while no other that did is running; and once
`apply_approved` has started, it returns `Ok` and the new status is stored. -/
def Orderly (q : Queue) (pc : Pc) : Move → Prop
  | .read true => q.status = .pending → q.busy = 0
  | .applied ok => ok = true
  | .fetch ok => pc.committed = true → ok = true
  | .put stored => pc.committed = true → stored = true
  | .crash => pc.committed = false
  | _ => True

def Rest (q : Queue) : Prop :=
  match q.status with
  | .pending => q.puts = [] ∧ q.applied = 0
  | .decided v => q.puts = [v] ∧ q.applied = if v = .approved then 1 else 0

def Engaged (q : Queue) : Prop := q.status = .pending ∧ q.puts = [] ∧ q.applied ≤ 1

def QueueInv (q : Queue) : Prop := q.busy = 0 ∧ Rest q ∨ q.busy = 1 ∧ Engaged q

def CallInv (q : Queue) (pc : Pc) : Prop :=
  pc.inside = true → q.busy = 1 ∧ q.applied = if pc.committed then 1 else 0

def Apart (pc pc' : Pc) : Prop := ¬ (pc.inside = true ∧ pc'.inside = true)

theorem rest_of_uncommitted {q : Queue} (h : Engaged q) (h0 : q.applied = 0) : Rest q := by
  unfold Rest
  rw [h.1]
  exact ⟨h.2.1, h0⟩

theorem QueueInv.engaged {q : Queue} (h : QueueInv q) (hb : q.busy = 1) : Engaged q := by
  rcases h with ⟨h0, -⟩ | ⟨-, he⟩
  · rw [hb] at h0
    cases h0
  · exact he

structure StepKeeps (q : Queue) (pc : Pc) (q' : Queue) (pc' : Pc) : Prop where
  shared : QueueInv q'
  own : CallInv q' pc'
  others : ∀ other, CallInv q other → Apart pc other → CallInv q' other ∧ Apart pc' other

section
variable {q : Queue} {pc pc' : Pc}

theorem StepKeeps.outside (hq : QueueInv q) (hout : pc'.inside = false) : StepKeeps q pc q pc' := by
  refine ⟨hq, fun hin => ?_, fun other ho _ => ⟨ho, fun hboth => ?_⟩⟩
  · rw [hout] at hin
    cases hin
  · rw [hout] at hboth
    cases hboth.1

theorem StepKeeps.within (hq : QueueInv q) (hc : CallInv q pc) (hin : pc.inside = true)
    (hsame : pc'.committed = pc.committed) : StepKeeps q pc q pc' := by
  refine ⟨hq, fun _ => ?_, fun other ho hapart => ⟨ho, fun hboth => hapart ⟨hin, hboth.2⟩⟩⟩
  rw [hsame]
  exact hc hin

theorem StepKeeps.enter (hq : QueueInv q) (hst : q.status = .pending) (hb : q.busy = 0)
    (hnew : pc'.committed = false) : StepKeeps q pc q.enter pc' := by
  have hrest : Rest q := by
    rcases hq with ⟨-, hr⟩ | ⟨h1, -⟩
    · exact hr
    · rw [hb] at h1
      cases h1
  unfold Rest at hrest
  rw [hst] at hrest
  obtain ⟨hputs, happ⟩ := hrest
  have hone : q.enter.busy = 1 := congrArg (· + 1) hb
  refine ⟨.inr ⟨hone, hst, hputs, ?_⟩, fun _ => ⟨hone, ?_⟩, fun other ho _ => ?_⟩
  · show q.applied ≤ 1
    rw [happ]
    exact Nat.zero_le _
  · rw [hnew]
    exact happ
  · -- nobody else was inside, so the relation to the others is free
    have hout : other.inside ≠ true := by
      intro hin
      have h1 := (ho hin).1
      rw [hb] at h1
      cases h1
    exact ⟨fun hin => absurd hin hout, fun hboth => hout hboth.2⟩

theorem StepKeeps.leave (hq : QueueInv q) (hc : CallInv q pc) (hin : pc.inside = true)
    (hun : pc.committed = false) : StepKeeps q pc q.leave .idle := by
  obtain ⟨hb, happ⟩ := hc hin
  rw [hun] at happ
  have hzero : q.leave.busy = 0 := by
    show q.busy - 1 = 0
    rw [hb]
  have hrest : Rest q := rest_of_uncommitted (hq.engaged hb) happ
  refine ⟨.inl ⟨hzero, hrest⟩, nofun, fun other _ hapart => ⟨fun ho => ?_, fun hboth => by cases hboth.1⟩⟩
  exact absurd ⟨hin, ho⟩ hapart

theorem StepKeeps.apply (hq : QueueInv q) {c : Call} (hc : CallInv q (.checking c)) :
    StepKeeps q (.checking c) q.apply .applying := by
  obtain ⟨hb, happ⟩ := hc rfl
  have happ0 : q.applied = 0 := happ
  obtain ⟨hst, hputs, -⟩ := hq.engaged hb
  have hone : q.apply.applied = 1 := congrArg (· + 1) happ0
  refine ⟨.inr ⟨hb, hst, hputs, Nat.le_of_eq hone⟩, fun _ => ⟨hb, hone⟩, fun other _ hapart => ?_⟩
  exact ⟨fun ho => absurd ⟨rfl, ho⟩ hapart, fun hboth => hapart ⟨rfl, hboth.2⟩⟩

theorem StepKeeps.record (hq : QueueInv q) {v : Verdict} (hc : CallInv q (.putting v)) :
    StepKeeps q (.putting v) (q.record v).leave .idle := by
  obtain ⟨hb, happ⟩ := hc rfl
  obtain ⟨-, hputs, -⟩ := hq.engaged hb
  have hzero : (q.record v).leave.busy = 0 := by
    show q.busy - 1 = 0
    rw [hb]
  have hrest : Rest (q.record v).leave := by
    refine ⟨?_, ?_⟩
    · show v :: q.puts = [v]
      rw [hputs]
    · show q.applied = _
      rw [happ]
      simp [Pc.committed]
  refine ⟨.inl ⟨hzero, hrest⟩, nofun, fun other _ hapart => ⟨fun ho => ?_, fun hboth => by cases hboth.1⟩⟩
  exact absurd ⟨rfl, ho⟩ hapart

theorem act_keeps {q' : Queue} {m : Move} (hq : QueueInv q) (hc : CallInv q pc)
    (ho : Orderly q pc m) (h : q.act pc m = some (q', pc')) : StepKeeps q pc q' pc' := by
  cases pc with
  | idle =>
    cases m with
    | begin c =>
      cases h
      exact .outside hq rfl
    | _ => cases h
  | reading c =>
    cases m with
    | read ok =>
      simp only [Queue.act] at h
      split at h
      · cases h
        exact .outside hq rfl
      next hread =>
        obtain ⟨hok, hst⟩ := not_or.mp hread
        have hpend : q.status = .pending := not_not.mp hst
        have htrue : ok = true := by
          cases ok with
          | false => exact absurd rfl hok
          | true => rfl
        rw [htrue] at ho
        cases c with
        | approve | reject | list =>
          cases h
          exact .enter hq hpend (ho hpend) rfl
    | crash =>
      cases h
      exact .outside hq rfl
    | _ => cases h
  | checking c =>
    cases m with
    | check found =>
      cases found with
      | moved =>
        cases h
        exact .within hq hc rfl rfl
      | error =>
        cases h
        exact .leave hq hc rfl rfl
      | same =>
        cases c with
        | approve =>
          cases h
          exact .apply hq hc
        | reject | list =>
          cases h
          exact .leave hq hc rfl rfl
    | crash =>
      cases h
      exact .leave hq hc rfl rfl
    | _ => cases h
  | applying =>
    cases m with
    | applied ok =>
      have hok : ok = true := ho
      rw [hok] at h
      cases h
      exact .within hq hc rfl rfl
    | crash => cases ho
    | _ => cases h
  | fetching v =>
    cases m with
    | fetch ok =>
      cases ok with
      | true =>
        cases h
        exact .within hq hc rfl rfl
      | false =>
        cases h
        refine .leave hq hc rfl ?_
        exact Bool.eq_false_iff.mpr fun hcom => by cases ho hcom
    | crash =>
      cases h
      exact .leave hq hc rfl ho
    | _ => cases h
  | putting v =>
    cases m with
    | put stored =>
      cases stored with
      | true =>
        cases h
        exact .record hq hc
      | false =>
        cases h
        refine .leave hq hc rfl ?_
        exact Bool.eq_false_iff.mpr fun hcom => by cases ho hcom
    | crash =>
      cases h
      exact .leave hq hc rfl ho
    | _ => cases h

end

theorem act_effect {q q' : Queue} {pc pc' : Pc} {m : Move} (h : q.act pc m = some (q', pc')) :
    (pc'.inside = true ∨ pc.inside = false ∧ q'.busy = q.busy ∨ q'.busy = q.busy - 1) ∧
    (pc.inside = false → q'.status = q.status) := by
  -- one branch of `act` after the other; only the put of a call inside touches the status
  unfold Queue.act at h
  split at h
  · cases h
    exact ⟨.inr (.inl ⟨rfl, rfl⟩), fun _ => rfl⟩
  · split at h
    · cases h
      exact ⟨.inr (.inl ⟨rfl, rfl⟩), fun _ => rfl⟩
    · split at h
      · cases h
        exact ⟨.inl rfl, fun _ => rfl⟩
      · cases h
        exact ⟨.inl rfl, fun _ => rfl⟩
  · split at h
    · cases h
      exact ⟨.inl rfl, nofun⟩
    · cases h
      exact ⟨.inl rfl, nofun⟩
    · cases h
      exact ⟨.inr (.inr rfl), nofun⟩
  · split at h
    · cases h
      exact ⟨.inl rfl, nofun⟩
    · cases h
      exact ⟨.inr (.inr rfl), nofun⟩
  · split at h
    · cases h
      exact ⟨.inl rfl, nofun⟩
    · cases h
      exact ⟨.inr (.inr rfl), nofun⟩
  next stored =>
    cases h
    refine ⟨.inr (.inr ?_), nofun⟩
    cases stored <;> rfl
  · cases h
  · cases h
    exact ⟨.inr (.inl ⟨rfl, rfl⟩), fun _ => rfl⟩
  · cases h
    exact ⟨.inr (.inr rfl), fun _ => rfl⟩
  · cases h

section
variable [DecidableEq τ]

theorem decisions_hold {s : Pool.State Queue Pc τ}
    (h : (decisions.system submitted).ReachableUnder (Pool.Only Orderly) s) :
    Pool.Holds QueueInv CallInv Apart s := by
  refine Pool.Holds.reachable (fun l m h hboth => h ⟨hboth.2, hboth.1⟩) ?_ ?_ ?_ h
  · intro q pc m q' pc' hq hc ho hstep
    have hk := act_keeps hq hc ho hstep
    exact ⟨⟨hk.shared, hk.own⟩, hk.others⟩
  · intro q e
    exact nomatch e
  · rintro s ⟨hs, hl⟩
    refine ⟨?_, fun t => ?_, fun t u _ => ?_⟩
    · rw [hs]
      exact .inl ⟨rfl, rfl, rfl⟩
    · rw [hl t]
      exact nofun
    · rw [hl t]
      exact fun hboth => by cases hboth.1

theorem inside_of_busy {s : Pool.State Queue Pc τ}
    (h : (decisions.system submitted).ReachableUnder (Pool.Only Orderly) s) :
    s.shared.busy = 1 → ∃ t, (s.locals t).inside = true := by
  induction h with
  | init hi =>
    rw [hi.1]
    exact nofun
  | @step s l s' hs hc hstep ih =>
    cases l with
    | env e => exact nomatch e
    | thread t m =>
      obtain ⟨r, hr, rfl⟩ := Pool.step_thread hstep
      intro hb
      rcases (act_effect hr).1 with hin | ⟨hout, hsame⟩ | hless
      · refine ⟨t, ?_⟩
        show (Function.update s.locals t r.2 t).inside = true
        rw [Function.update_self]
        exact hin
      · obtain ⟨u, hu⟩ := ih (hsame.symm.trans hb)
        have hne : u ≠ t := by
          rintro rfl
          rw [hout] at hu
          cases hu
        refine ⟨u, ?_⟩
        show (Function.update s.locals t r.2 u).inside = true
        rw [Function.update_of_ne hne]
        exact hu
      · -- at most one call was at it, so none is left
        have hle : s.shared.busy ≤ 1 := by
          rcases (decisions_hold hs).shared with ⟨h0, -⟩ | ⟨h1, -⟩ <;> omega
        have hb' : r.1.busy = 1 := hb
        omega

/-- In an orderly run, whoever calls and however often: at most one status is ever put, and a
status other than `pending` stays; `apply_approved` runs at most once; and when no call is at
it any more, it has run only if the status is `approved`. -/
theorem decided_once {s : Pool.State Queue Pc τ}
    (h : (decisions.system submitted).ReachableUnder (Pool.Only Orderly) s) :
    s.shared.puts.length ≤ 1 ∧ s.shared.applied ≤ 1 ∧
    (0 < s.shared.applied → (∀ t, (s.locals t).inside = false) →
      s.shared.status = .decided .approved) ∧
    ∀ l s', decisions.step s l = some s' → s.shared.status ≠ .pending →
      s'.shared.status = s.shared.status := by
  have hinv := decisions_hold h
  have hq := hinv.shared
  refine ⟨?_, ?_, fun happ hout => ?_, fun l s' hstep hst => ?_⟩
  · rcases hq with ⟨-, hrest⟩ | ⟨-, -, hputs, -⟩
    · unfold Rest at hrest
      split at hrest
      · rw [hrest.1]
        exact Nat.zero_le _
      · rw [hrest.1]
        exact Nat.le_refl _
    · rw [hputs]
      exact Nat.zero_le _
  · rcases hq with ⟨-, hrest⟩ | ⟨-, -, -, happ⟩
    · unfold Rest at hrest
      split at hrest
      · rw [hrest.2]
        exact Nat.zero_le _
      · rw [hrest.2]
        split <;> decide
    · exact happ
  · rcases hq with ⟨-, hrest⟩ | ⟨hb, -⟩
    · unfold Rest at hrest
      split at hrest
      · rw [hrest.2] at happ
        exact absurd happ (Nat.lt_irrefl _)
      next v hv =>
        rw [hrest.2] at happ
        split at happ
        next happroved => rw [hv, happroved]
        · exact absurd happ (Nat.lt_irrefl _)
    · obtain ⟨t, ht⟩ := inside_of_busy h hb
      rw [hout t] at ht
      cases ht
  · cases l with
    | env e => exact nomatch e
    | thread t m =>
      obtain ⟨r, hr, rfl⟩ := Pool.step_thread hstep
      refine (act_effect hr).2 ?_
      refine Bool.eq_false_iff.mpr fun hin => ?_
      exact hst (hq.engaged (hinv.each t hin).1).1

end

def approval : List (Pool.Label Move Empty Nat) :=
  [.thread 0 (.begin .approve), .thread 0 (.read true), .thread 0 (.check .same),
   .thread 0 (.applied true), .thread 0 (.fetch true), .thread 0 (.put true)]

def pendingState : Pool.State Queue Pc Nat := ⟨.fresh, fun _ => .idle⟩

theorem decided_once_approval :
    ∃ s, Transition.run decisions.step pendingState approval = some s ∧
      s.shared.status = .decided .approved ∧ s.shared.applied = 1 ∧ s.shared.puts.length ≤ 1 := by
  have hshared : (Transition.run decisions.step pendingState approval).map (·.shared) =
      some ⟨.decided .approved, [.approved], 1, 0⟩ := by decide
  obtain ⟨s, hs, hq⟩ := Option.map_eq_some_iff.mp hshared
  have horderly : Transition.Meets (Pool.Only Orderly) decisions.step pendingState approval := by
    refine ⟨trivial, fun s₁ h₁ => ⟨?_, fun _ _ => ⟨trivial, fun _ _ => ⟨rfl, fun _ _ =>
      ⟨fun _ => rfl, fun _ _ => ⟨fun _ => rfl, fun _ _ => trivial⟩⟩⟩⟩⟩⟩
    cases h₁
    exact fun _ => rfl
  have hreach : (decisions.system submitted).ReachableUnder (Pool.Only Orderly) s :=
    Transition.ReachableUnder.run approval (.init ⟨rfl, fun _ => rfl⟩) horderly hs
  refine ⟨s, hs, ?_, ?_, (decided_once hreach).1⟩
  · rw [hq]
  · rw [hq]

def crossed : List (Pool.Label Move Empty Nat) :=
  [.thread 0 (.begin .approve), .thread 0 (.read true), .thread 0 (.check .same),
   .thread 1 (.begin .reject), .thread 1 (.read true), .thread 1 (.fetch true),
   .thread 1 (.put true), .thread 0 (.applied true), .thread 0 (.fetch true), .thread 0 (.put true)]

def doubled : List (Pool.Label Move Empty Nat) :=
  [.thread 0 (.begin .approve), .thread 0 (.read true), .thread 1 (.begin .approve),
   .thread 1 (.read true), .thread 2 (.begin .reject), .thread 2 (.read true),
   .thread 0 (.check .same), .thread 1 (.check .same), .thread 0 (.applied true),
   .thread 1 (.applied true), .thread 0 (.fetch true), .thread 0 (.put true),
   .thread 1 (.fetch true), .thread 1 (.put true), .thread 2 (.fetch true), .thread 2 (.put true)]

theorem decisions_not_linear :
    (∃ s, (decisions.system submitted).Reachable s ∧
      Transition.run decisions.step pendingState crossed = some s ∧
      s.shared.puts = [.approved, .rejected]) ∧
    ∃ s, (decisions.system submitted).Reachable s ∧
      Transition.run decisions.step pendingState doubled = some s ∧
      s.shared.applied = 2 ∧ s.shared.status = .decided .rejected := by
  have hinit : (decisions.system submitted).Reachable pendingState := .init ⟨rfl, fun _ => rfl⟩
  have hcrossed : (Transition.run decisions.step pendingState crossed).map (·.shared.puts) =
      some [.approved, .rejected] := by decide
  have hdoubled : (Transition.run decisions.step pendingState doubled).map
      (fun s => (s.shared.applied, s.shared.status)) = some (2, .decided .rejected) := by decide
  obtain ⟨s, hs, hputs⟩ := Option.map_eq_some_iff.mp hcrossed
  obtain ⟨s', hs', hend⟩ := Option.map_eq_some_iff.mp hdoubled
  obtain ⟨happ, hst⟩ := Prod.mk.inj hend
  exact ⟨⟨s, Transition.Reachable.run crossed hinit hs, hs, hputs⟩,
    s', Transition.Reachable.run doubled hinit hs', hs', happ, hst⟩

end Vejas.Governance
