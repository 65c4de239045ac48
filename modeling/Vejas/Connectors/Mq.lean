import Mathlib.Data.List.Range
import Vejas.Bus.Link
import Vejas.Connectors.Wire
import Vejas.Lib.Ledger
import Vejas.Lib.Transition
import Vejas.Lib.UnitOfWork

/-! The IBM MQ connector: a source that gets under syncpoint, publishes to the bus and then
commits, and a sink that puts under syncpoint, commits and then acks. Every call may fail and a
stop may come between any two; the broker has one unit of work. -/

namespace Vejas.Mq
open Rust Json Bus Vjs Connectors

structure MqMessage where
  body : Payload
  correlid : Payload
  deriving DecidableEq

structure MqError where
  op : String
  compCode : Int
  reason : Int

def MqError.text (e : MqError) : String :=
  "MQ " ++ e.op ++ " failed: CompCode=" ++ toString e.compCode ++ " Reason=" ++ toString e.reason

structure Queued where
  number : Nat
  msg : MqMessage
  deriving DecidableEq

inductive SourcePc
  | top
  | getting
  | publishing (m : Queued)
  | committing (m : Queued)
  | backingOut (m : Queued)
  | backoff (slept limit : Nat)
  | returned (r : Except String Unit)

/-- A run of `run_source`. `arrived` is what came to the queue, `confirmed` the messages whose
publish returned, `bus` those that reached the bus, all oldest first. -/
structure Source where
  broker : UnitOfWork Queued
  pc : SourcePc
  fails : Nat
  arrived : List Queued
  confirmed : List Queued
  bus : List Queued

inductive Got
  | message
  | idle
  | failed (e : MqError)

inductive SourceEvent
  | arrive (msg : MqMessage)
  | alive (b : Bool)
  | get (r : Got)
  | published
  | publishFailed (reached : Bool)
  | commit (r : Except MqError Unit)
  | backout (r : Except MqError Unit)

def u32Max : Nat := 2 ^ 32 - 1

def backoffMs (fails : Nat) : Nat := min (50 * 2 ^ min fails 7) 5000

namespace Source

def start : Source := ⟨.fresh, .top, 0, [], [], []⟩

def step (s : Source) : SourceEvent → Option Source
  | .arrive msg =>
    let m : Queued := ⟨s.arrived.length, msg⟩
    some { s with broker := s.broker.arrive m, arrived := s.arrived ++ [m] }
  | .alive b =>
    match s.pc with
    | .top => some { s with pc := if b then .getting else .returned (.ok ()) }
    | .backoff slept limit =>
      -- short ticks, so that a stop is noticed
      some { s with pc := if slept < limit ∧ b then .backoff (slept + 50) limit else .top }
    | _ => none
  | .get r =>
    match s.pc with
    | .getting =>
      match r with
      | .failed e => some { s with pc := .returned (.error ("get: " ++ e.text)) }
      | .idle => some { s with pc := .top }
      | .message => s.broker.get.map fun (m, broker) => { s with broker, pc := .publishing m }
    | _ => none
  | .published =>
    match s.pc with
    | .publishing m =>
      some { s with pc := .committing m, confirmed := s.confirmed ++ [m], bus := s.bus ++ [m] }
    | _ => none
  | .publishFailed reached =>
    -- the message may be on the bus though its confirmation was lost
    match s.pc with
    | .publishing m =>
      some { s with pc := .backingOut m, bus := if reached then s.bus ++ [m] else s.bus }
    | _ => none
  | .commit r =>
    match s.pc with
    | .committing _ =>
      match r with
      | .ok () => some { s with broker := s.broker.commit, pc := .top, fails := 0 }
      | .error e => some { s with pc := .returned (.error ("commit after publish: " ++ e.text)) }
    | _ => none
  | .backout r =>
    match s.pc with
    | .backingOut _ =>
      match r with
      | .ok () =>
        let fails := min (s.fails + 1) u32Max
        some { s with broker := s.broker.backout, pc := .backoff 0 (backoffMs fails), fails }
      | .error e => some { s with pc := .returned (.error ("backout: " ++ e.text)) }
    | _ => none

def system : Transition Source SourceEvent := .ofStep step (· = start)

def Holds (s : Source) : Prop :=
  match s.pc with
  | .top => s.broker.held = []
  | .getting => s.broker.held = []
  | .publishing m => s.broker.held = [m]
  | .committing m => s.broker.held = [m] ∧ s.confirmed.getLast? = some m ∧ m ∈ s.bus
  | .backingOut m => s.broker.held = [m]
  | .backoff _ _ => s.broker.held = []
  | .returned _ => True

structure Inv (s : Source) : Prop where
  holds : s.Holds
  staged : s.broker.staged = []
  stock : s.broker.stock = s.arrived
  numbers : ∀ (i : Nat) (m : Queued), s.arrived[i]? = some m → m.number = i
  firsts : ∃ k, s.bus.eraseDups = s.arrived.take k ∧ s.broker.removed.length ≤ k ∧
    k ≤ s.broker.removed.length + 1

end Source

theorem eraseDups_concat {α : Type} [BEq α] [LawfulBEq α] (as : List α) (a : α) :
    (as ++ [a]).eraseDups = if a ∈ as then as.eraseDups else as.eraseDups ++ [a] := by
  rw [List.eraseDups_append]
  by_cases h : a ∈ as
  · simp [List.removeAll, h]
  · simp [List.removeAll, h, List.eraseDups_cons]

namespace Source
variable {s : Source}

theorem inv_start : start.Inv where
  holds := rfl
  staged := rfl
  stock := rfl
  numbers i m h := by cases h
  firsts := ⟨0, rfl, Nat.le_refl _, Nat.le_succ _⟩

theorem Inv.held_next (h : s.Inv) {m : Queued} (hm : s.broker.held = [m]) :
    s.arrived[s.broker.removed.length]? = some m := by
  rw [← h.stock]
  simp [UnitOfWork.stock, hm]

theorem Inv.firsts_held (h : s.Inv) {m : Queued} (hm : s.broker.held = [m]) (hbus : m ∈ s.bus) :
    s.bus.eraseDups = s.arrived.take (s.broker.removed.length + 1) := by
  obtain ⟨k, hfirsts, hle, hge⟩ := h.firsts
  have hk : k = s.broker.removed.length + 1 := by
    by_contra hne
    have hsame : k = s.broker.removed.length := by omega
    have hmem : m ∈ s.arrived.take k := by
      rw [← hfirsts]
      exact List.mem_eraseDups.mpr hbus
    obtain ⟨i, hi⟩ := List.getElem?_of_mem hmem
    have hlt : i < k := by
      by_contra hnot
      rw [List.getElem?_eq_none (by simp; omega)] at hi
      cases hi
    rw [List.getElem?_take_of_lt hlt] at hi
    have hnumber := h.numbers _ _ hi
    rw [h.numbers _ _ (h.held_next hm)] at hnumber
    omega
  rw [hfirsts, hk]

theorem Inv.firsts_concat (h : s.Inv) {m : Queued} (hm : s.broker.held = [m]) :
    ∃ k, (s.bus ++ [m]).eraseDups = s.arrived.take k ∧ s.broker.removed.length ≤ k ∧
      k ≤ s.broker.removed.length + 1 := by
  obtain ⟨k, hfirsts, hle, hge⟩ := h.firsts
  have hnext := h.held_next hm
  rw [eraseDups_concat]
  by_cases hmem : m ∈ s.bus
  · rw [if_pos hmem]
    exact ⟨k, hfirsts, hle, hge⟩
  · rw [if_neg hmem, hfirsts]
    have hk : k = s.broker.removed.length := by
      by_contra hne
      have hsucc : k = s.broker.removed.length + 1 := by omega
      apply hmem
      rw [← List.mem_eraseDups, hfirsts, hsucc]
      exact List.mem_of_getElem? (by rw [List.getElem?_take_of_lt (Nat.lt_succ_self _)]; exact hnext)
    refine ⟨k + 1, ?_, by omega, by omega⟩
    rw [List.take_add_one, hk, hnext]
    rfl

theorem Inv.arrive (h : s.Inv) (msg : MqMessage) :
    Inv { s with
      broker := s.broker.arrive ⟨s.arrived.length, msg⟩
      arrived := s.arrived ++ [⟨s.arrived.length, msg⟩] } where
  holds := by
    have := h.holds
    unfold Holds at this ⊢
    exact this
  staged := h.staged
  stock := by rw [UnitOfWork.stock_arrive, h.stock]
  numbers i m hm := by
    rw [List.getElem?_append] at hm
    split at hm
    · exact h.numbers i m hm
    next hge =>
      have hlast : i - s.arrived.length = 0 := by
        by_contra hne
        rw [List.getElem?_eq_none (by simp; omega)] at hm
        cases hm
      rw [hlast] at hm
      cases hm
      show s.arrived.length = i
      omega
  firsts := by
    obtain ⟨k, hfirsts, hle, hge⟩ := h.firsts
    by_cases hk : k ≤ s.arrived.length
    · refine ⟨k, ?_, hle, hge⟩
      rw [List.take_append_of_le_length hk]
      exact hfirsts
    · -- the bus is not ahead of what came
      have hlen : s.broker.removed.length ≤ s.arrived.length := by
        rw [← h.stock]
        simp [UnitOfWork.stock]
      refine ⟨s.arrived.length, ?_, hlen, ?_⟩
      · rw [List.take_append_of_le_length (Nat.le_refl _), hfirsts, List.take_of_length_le (by omega),
          List.take_length]
      · show s.arrived.length ≤ s.broker.removed.length + 1
        omega

theorem inv_step {s' : Source} {a : SourceEvent} (h : s.Inv) (hs : s.step a = some s') : s'.Inv := by
  have hholds := h.holds
  unfold Holds at hholds
  cases a with
  | arrive msg =>
    cases hs
    exact h.arrive msg
  | alive b =>
    unfold step at hs
    cases hpc : s.pc with
    | top =>
      rw [hpc] at hs hholds
      cases hs
      refine { h with holds := ?_ }
      cases b with
      | true => exact hholds
      | false => exact trivial
    | backoff slept limit =>
      rw [hpc] at hs hholds
      cases hs
      refine { h with holds := ?_ }
      unfold Holds
      by_cases hmore : slept < limit ∧ b = true
      · simp only [if_pos hmore]
        exact hholds
      · simp only [if_neg hmore]
        exact hholds
    | _ =>
      rw [hpc] at hs
      cases hs
  | get r =>
    unfold step at hs
    cases hpc : s.pc with
    | getting =>
      rw [hpc] at hs hholds
      cases r with
      | failed e =>
        cases hs
        exact { h with holds := trivial }
      | idle =>
        cases hs
        exact { h with holds := hholds }
      | message =>
        obtain ⟨⟨m, broker⟩, hget, rfl⟩ := Option.map_eq_some_iff.mp hs
        obtain ⟨hheld, hstaged, hremoved⟩ := UnitOfWork.get_held hget
        refine ⟨?_, ?_, ?_, h.numbers, ?_⟩
        · show broker.held = [m]
          rw [hheld, hholds]
          rfl
        · exact hstaged.trans h.staged
        · exact (UnitOfWork.stock_get hget).trans h.stock
        · show ∃ k, _ ∧ broker.removed.length ≤ k ∧ k ≤ broker.removed.length + 1
          rw [hremoved]
          exact h.firsts
    | _ =>
      rw [hpc] at hs
      cases hs
  | published =>
    unfold step at hs
    cases hpc : s.pc with
    | publishing m =>
      rw [hpc] at hs hholds
      cases hs
      refine { h with holds := ?_, firsts := h.firsts_concat hholds }
      exact ⟨hholds, by simp, by simp⟩
    | _ =>
      rw [hpc] at hs
      cases hs
  | publishFailed reached =>
    unfold step at hs
    cases hpc : s.pc with
    | publishing m =>
      rw [hpc] at hs hholds
      cases hs
      cases reached with
      | true => exact { h with holds := hholds, firsts := h.firsts_concat hholds }
      | false => exact { h with holds := hholds }
    | _ =>
      rw [hpc] at hs
      cases hs
  | commit r =>
    unfold step at hs
    cases hpc : s.pc with
    | committing m =>
      rw [hpc] at hs hholds
      cases r with
      | error e =>
        cases hs
        exact { h with holds := trivial }
      | ok u =>
        cases hs
        obtain ⟨hheld, -, hbus⟩ := hholds
        refine ⟨rfl, rfl, (UnitOfWork.stock_commit _).trans h.stock, h.numbers, ?_⟩
        have hlen : s.broker.commit.removed.length = s.broker.removed.length + 1 := by
          simp [UnitOfWork.commit, hheld]
        refine ⟨_, h.firsts_held hheld hbus, ?_, ?_⟩
        · rw [hlen]
        · rw [hlen]
          omega
    | _ =>
      rw [hpc] at hs
      cases hs
  | backout r =>
    unfold step at hs
    cases hpc : s.pc with
    | backingOut m =>
      rw [hpc] at hs hholds
      cases r with
      | error e =>
        cases hs
        exact { h with holds := trivial }
      | ok u =>
        cases hs
        exact ⟨rfl, rfl, (UnitOfWork.stock_backout _).trans h.stock, h.numbers, h.firsts⟩
    | _ =>
      rw [hpc] at hs
      cases hs

theorem inv_reachable (h : system.Reachable s) : s.Inv := by
  refine Transition.Reachable.invariant (I := Inv) ?_ (fun _ _ _ hi hs => inv_step hi hs) h
  rintro _ rfl
  exact inv_start

theorem Inv.removed_prefix (h : s.Inv) : s.broker.removed <+: s.bus.eraseDups := by
  obtain ⟨k, hfirsts, hle, -⟩ := h.firsts
  have hremoved : s.arrived.take s.broker.removed.length = s.broker.removed := by
    rw [← h.stock]
    simp [UnitOfWork.stock]
  rw [hfirsts, ← hremoved]
  exact List.take_prefix_take_left hle

end Source

def fnv (seed : UInt64) (key : Payload) : UInt64 :=
  key.foldl (fun h b => (h ^^^ b.toUInt64) * 0x100000001b3) seed

def bigEndian (h : UInt64) : Payload :=
  (List.range 8).map fun i => (h >>> (8 * (7 - i)).toUInt64).toUInt8

def correlidFromKey (key : String) : Payload :=
  [0xcbf29ce484222325, 0x100000001b3, 0x9e3779b97f4a7c15].flatMap fun seed =>
    bigEndian (fnv seed (bytesOf key))

structure Delivered where
  seq : Nat
  data : Payload
  deriving DecidableEq

section
variable [External]

def dedupKey (body : Payload) (field : String) : Option String := do
  let v ← (← fromSlice body).get field
  match v with
  | .string s => some s
  | other => some other.render

def outgoing (dedupField : Option String) (m : Delivered) : MqMessage where
  body := m.data
  correlid := (dedupField.bind fun f => (dedupKey m.data f).map correlidFromKey).getD
    (List.replicate 24 0)

end

inductive SinkPc
  | top
  | pulling
  | inRound
  | putting (m : Delivered)
  | committing (m : Delivered)
  | acking (m : Delivered)
  | backingOut
  | returned (r : Except String Unit)

inductive SinkAct
  | put (m : Delivered) (ok : Bool)
  | commit (unit : List MqMessage) (ok : Bool)
  | backout (ok : Bool)
  | ack (m : Delivered)

/-- A run of `run_sink`, with what it did, newest first. -/
structure Sink where
  broker : UnitOfWork MqMessage
  pc : SinkPc
  log : List SinkAct

inductive SinkEvent
  | alive (b : Bool)
  | round (r : Except String Unit)
  | next (m : Option Delivered) (alive : Bool)
  | put (ok staged : Bool)
  | commit (ok : Bool)
  | ack
  | backout (ok : Bool)

namespace Sink

def start : Sink := ⟨.fresh, .top, []⟩

def step (out : Delivered → MqMessage) (s : Sink) : SinkEvent → Option Sink
  | .alive b =>
    match s.pc with
    | .top => some { s with pc := if b then .pulling else .returned (.ok ()) }
    | _ => none
  | .round r =>
    match s.pc with
    | .pulling =>
      match r with
      | .ok () => some { s with pc := .inRound }
      | .error e => some { s with pc := .returned (.error e) }
    | _ => none
  | .next m alive =>
    match s.pc with
    | .inRound =>
      match m with
      | none => some { s with pc := .top }
      -- stopped mid-batch: left un-acked, it redelivers
      | some m => some { s with pc := if alive then .putting m else .returned (.ok ()) }
    | _ => none
  | .put ok staged =>
    match s.pc with
    | .putting m =>
      some { s with
        broker := if ok || staged then s.broker.put (out m) else s.broker
        pc := if ok then .committing m else .backingOut
        log := .put m ok :: s.log }
    | _ => none
  | .commit ok =>
    match s.pc with
    | .committing m =>
      some { s with
        broker := if ok then s.broker.commit else s.broker
        pc := if ok then .acking m else .backingOut
        log := .commit s.broker.staged ok :: s.log }
    | _ => none
  | .ack =>
    match s.pc with
    | .acking m => some { s with pc := .inRound, log := .ack m :: s.log }
    | _ => none
  | .backout ok =>
    match s.pc with
    | .backingOut =>
      some { s with
        broker := if ok then s.broker.backout else s.broker
        pc := .inRound
        log := .backout ok :: s.log }
    | _ => none

def system (out : Delivered → MqMessage) : Transition Sink SinkEvent := .ofStep (step out) (· = start)

/-- An ack is due right after a commit that returned, of a unit of work with the message in it. -/
def due (out : Delivered → MqMessage) (log : List SinkAct) : SinkAct → Prop
  | .ack m => ∃ unit rest, log = .commit unit true :: .put m true :: rest ∧ out m ∈ unit
  | _ => True

def Holds (out : Delivered → MqMessage) (s : Sink) : Prop :=
  match s.pc with
  | .committing m => (∃ rest, s.log = .put m true :: rest) ∧ out m ∈ s.broker.staged
  | .acking m => due out s.log (.ack m)
  | _ => True

variable {out : Delivered → MqMessage} {s s' : Sink}

theorem inv_step {a : SinkEvent} (h : Ledger.Earned (due out) s.log ∧ s.Holds out)
    (hs : s.step out a = some s') : Ledger.Earned (due out) s'.log ∧ s'.Holds out := by
  obtain ⟨hlog, hholds⟩ := h
  unfold Holds at hholds
  unfold step at hs
  cases a with
  | alive b =>
    cases hpc : s.pc with
    | top =>
      rw [hpc] at hs
      cases hs
      cases b <;> exact ⟨hlog, trivial⟩
    | _ =>
      rw [hpc] at hs
      cases hs
  | round r =>
    cases hpc : s.pc with
    | pulling =>
      rw [hpc] at hs
      cases r <;> cases hs <;> exact ⟨hlog, trivial⟩
    | _ =>
      rw [hpc] at hs
      cases hs
  | next m alive =>
    cases hpc : s.pc with
    | inRound =>
      rw [hpc] at hs
      cases m with
      | none =>
        cases hs
        exact ⟨hlog, trivial⟩
      | some m =>
        cases hs
        cases alive <;> exact ⟨hlog, trivial⟩
    | _ =>
      rw [hpc] at hs
      cases hs
  | put ok staged =>
    cases hpc : s.pc with
    | putting m =>
      rw [hpc] at hs
      cases hs
      cases ok with
      | true => exact ⟨⟨trivial, hlog⟩, ⟨_, rfl⟩, by simp [UnitOfWork.put]⟩
      | false => exact ⟨⟨trivial, hlog⟩, trivial⟩
    | _ =>
      rw [hpc] at hs
      cases hs
  | commit ok =>
    cases hpc : s.pc with
    | committing m =>
      rw [hpc] at hs hholds
      cases hs
      cases ok with
      | true =>
        obtain ⟨⟨rest, hput⟩, hmem⟩ := hholds
        refine ⟨⟨trivial, hlog⟩, _, rest, ?_, hmem⟩
        show _ :: s.log = _
        rw [hput]
      | false => exact ⟨⟨trivial, hlog⟩, trivial⟩
    | _ =>
      rw [hpc] at hs
      cases hs
  | ack =>
    cases hpc : s.pc with
    | acking m =>
      rw [hpc] at hs hholds
      cases hs
      exact ⟨⟨hholds, hlog⟩, trivial⟩
    | _ =>
      rw [hpc] at hs
      cases hs
  | backout ok =>
    cases hpc : s.pc with
    | backingOut =>
      rw [hpc] at hs
      cases hs
      exact ⟨⟨trivial, hlog⟩, trivial⟩
    | _ =>
      rw [hpc] at hs
      cases hs

theorem earned_reachable (h : (system out).Reachable s) : Ledger.Earned (due out) s.log := by
  have hinv : Ledger.Earned (due out) s.log ∧ s.Holds out := by
    refine Transition.Reachable.invariant (I := fun s => Ledger.Earned (due out) s.log ∧ s.Holds out)
      ?_ (fun _ _ _ hi hs => inv_step hi hs) h
    rintro _ rfl
    exact ⟨trivial, trivial⟩
  exact hinv.1

end Sink

/-- In every run of the source: no get over an open unit of work, every commit is of one message
whose publish returned, and what left the queue is the first part of it and reached the bus, whose
first occurrences follow the queue. In every run of the sink: an ack comes right after a commit that
returned and whose unit of work had the put of that message. -/
theorem units_of_work_follow_the_bus [External] (dedupField : Option String) :
    (∀ s, Source.system.Reachable s →
      (s.pc = .getting → s.broker.Empty) ∧
      (∀ m, s.pc = .committing m →
        s.broker.held = [m] ∧ s.broker.staged = [] ∧ s.confirmed.getLast? = some m) ∧
      s.broker.removed <+: s.bus.eraseDups ∧ s.bus.eraseDups <+: s.arrived) ∧
    ∀ s, (Sink.system (outgoing dedupField)).Reachable s →
      ∀ m newer older, s.log = newer ++ .ack m :: older →
        ∃ unit rest, older = .commit unit true :: .put m true :: rest ∧
          ∃ x ∈ unit, x.body = m.data := by
  refine ⟨fun s hs => ?_, fun s hs m newer older hlog => ?_⟩
  · have hinv := Source.inv_reachable hs
    have hholds := hinv.holds
    unfold Source.Holds at hholds
    refine ⟨fun hpc => ?_, fun m hpc => ?_, hinv.removed_prefix, ?_⟩
    · rw [hpc] at hholds
      exact ⟨hholds, hinv.staged⟩
    · rw [hpc] at hholds
      exact ⟨hholds.1, hinv.staged, hholds.2.1⟩
    · obtain ⟨k, hfirsts, -, -⟩ := hinv.firsts
      rw [hfirsts]
      exact List.take_prefix _ _
  · obtain ⟨unit, rest, hbelow, hmem⟩ := (Sink.earned_reachable hs).due_below hlog
    exact ⟨unit, rest, hbelow, _, hmem, rfl⟩

def sourceRun : List SourceEvent :=
  [.arrive ⟨[1], []⟩, .arrive ⟨[2], []⟩, .alive true, .get .message, .publishFailed true,
    .backout (.ok ()), .alive false, .alive true, .get .message, .published, .commit (.ok ())]

def sinkRun : List SinkEvent :=
  [.alive true, .round (.ok ()), .next (some ⟨1, [7]⟩) true, .put true true, .commit false,
    .backout false, .next (some ⟨2, [8]⟩) true, .put true true, .commit true, .ack]

theorem units_of_work_follow_the_bus_run :
    (∃ s, Transition.run Source.step Source.start sourceRun = some s ∧
      s.broker.removed = [⟨0, ⟨[1], []⟩⟩] ∧ s.broker.removed <+: s.bus.eraseDups) ∧
    ∃ s, Transition.run (Sink.step (@outgoing ascii none)) Sink.start sinkRun = some s ∧
      ∃ unit rest, s.log.tail = .commit unit true :: .put ⟨2, [8]⟩ true :: rest ∧
        ∃ x ∈ unit, x.body = [8] := by
  obtain ⟨hsource, hsink⟩ := @units_of_work_follow_the_bus ascii none
  refine ⟨⟨_, rfl, rfl, ?_⟩, ⟨_, rfl, ?_⟩⟩
  · exact (hsource _ (Transition.Reachable.run sourceRun (.init rfl) rfl)).2.2.1
  · exact hsink _ (Transition.Reachable.run sinkRun (.init rfl) rfl) ⟨2, [8]⟩ [] _ rfl

end Vejas.Mq
