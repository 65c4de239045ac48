import Vejas.Connectors.Mq

/-! The MQ source over the MQI itself: what `MQGET` makes of its buffer, and what is committed
after the publish. -/

namespace Vejas.Mq
open Rust Bus Vjs Connectors

def MQCC_OK : Int := 0
def MQCC_WARNING : Int := 1
def MQCC_FAILED : Int := 2
def MQRC_NONE : Int := 0
def MQRC_NO_MSG_AVAILABLE : Int := 2033
def MQRC_TRUNCATED_MSG_ACCEPTED : Int := 2079
def MQRC_TRUNCATED_MSG_FAILED : Int := 2080

def MQGMO_WAIT : Nat := 0x00000001
def MQGMO_SYNCPOINT : Nat := 0x00000002
def MQGMO_ACCEPT_TRUNCATED_MSG : Nat := 0x00000040
def MQGMO_FAIL_IF_QUIESCING : Nat := 0x00002000

def getUnderSyncpoint : Nat := MQGMO_SYNCPOINT ||| MQGMO_WAIT ||| MQGMO_FAIL_IF_QUIESCING

def readBufLen : Nat := 4 * 1024 * 1024

/-- What a call of `MQGET` leaves behind: the codes, the bytes it wrote to the buffer, the length
of the message and its `CorrelId`. -/
structure MqgetReply where
  compCode : Int
  reason : Int
  written : Payload
  dataLen : Nat
  correlid : Payload

def mqget (options bufferLen : Nat) (u : UnitOfWork Queued) : MqgetReply × UnitOfWork Queued :=
  match u.queue with
  | [] => (⟨MQCC_FAILED, MQRC_NO_MSG_AVAILABLE, [], 0, []⟩, u)
  | m :: rest =>
    let body := m.msg.body
    let held := { u with queue := rest, held := u.held ++ [m] }
    if body.length ≤ bufferLen then (⟨MQCC_OK, MQRC_NONE, body, body.length, m.msg.correlid⟩, held)
    else if options &&& MQGMO_ACCEPT_TRUNCATED_MSG ≠ 0 then
      (⟨MQCC_WARNING, MQRC_TRUNCATED_MSG_ACCEPTED, body.take bufferLen, body.length, m.msg.correlid⟩, held)
    else
      -- the message stays on the queue
      (⟨MQCC_WARNING, MQRC_TRUNCATED_MSG_FAILED, body.take bufferLen, body.length, m.msg.correlid⟩, u)

def getSyncpoint (r : MqgetReply) : Except MqError (Option MqMessage) :=
  if r.compCode = MQCC_FAILED then
    if r.reason = MQRC_NO_MSG_AVAILABLE then .ok none
    else .error ⟨"MQGET", r.compCode, r.reason⟩
  else .ok (some ⟨r.written.take (min r.dataLen readBufLen), r.correlid⟩)

inductive RelayPc
  | top
  | getting
  | publishing (number : Nat) (msg : MqMessage)
  | committing
  | backingOut
  | backoff (slept limit : Nat)
  | returned (r : Except String Unit)

inductive RelayAct
  | published (number : Nat) (body : Payload)
  | committed (ms : List Queued)
  deriving DecidableEq

/-- A run of `run_source` over an `MqiQueue`. The log is newest first. -/
structure Relay where
  broker : UnitOfWork Queued
  pc : RelayPc
  fails : Nat
  arrived : List Queued
  log : List RelayAct

inductive GetFate
  | served
  | failed (reason : Int)

inductive CommitFate
  | ok
  | backedOut
  | failed (reason : Int)

inductive RelayEvent
  | arrive (msg : MqMessage)
  | alive (b : Bool)
  | get (f : GetFate)
  | publish (ok : Bool)
  | commit (f : CommitFate)
  | backout (r : Except Int Unit)

namespace Relay

def start : Relay := ⟨.fresh, .top, 0, [], []⟩

def got (s : Relay) (r : MqgetReply) (broker : UnitOfWork Queued) : Option Relay :=
  match getSyncpoint r with
  | .error e => some { s with broker, pc := .returned (.error ("get: " ++ e.text)) }
  | .ok none => some { s with broker, pc := .top }
  | .ok (some msg) => s.broker.queue.head?.map fun m => { s with broker, pc := .publishing m.number msg }

def step (s : Relay) : RelayEvent → Option Relay
  | .arrive msg =>
    let m : Queued := ⟨s.arrived.length, msg⟩
    some { s with broker := s.broker.arrive m, arrived := s.arrived ++ [m] }
  | .alive b =>
    match s.pc with
    | .top => some { s with pc := if b then .getting else .returned (.ok ()) }
    | .backoff slept limit => some { s with pc := if slept < limit ∧ b then .backoff (slept + 50) limit else .top }
    | _ => none
  | .get f =>
    match s.pc with
    | .getting =>
      match f with
      | .failed reason => s.got ⟨MQCC_FAILED, reason, [], 0, []⟩ s.broker
      | .served =>
        let (r, broker) := mqget getUnderSyncpoint readBufLen s.broker
        s.got r broker
    | _ => none
  | .publish ok =>
    match s.pc with
    | .publishing n msg =>
      some { s with pc := if ok then .committing else .backingOut, log := .published n msg.body :: s.log }
    | _ => none
  | .commit f =>
    match s.pc with
    | .committing =>
      match f with
      | .ok => some { s with
          broker := s.broker.commit
          pc := .top
          fails := 0
          log := .committed s.broker.held :: s.log }
      | .backedOut => some { s with broker := s.broker.backout, pc := .top, fails := 0 }
      | .failed reason =>
        let e : MqError := ⟨"MQCMIT", MQCC_FAILED, reason⟩
        some { s with pc := .returned (.error ("commit after publish: " ++ e.text)) }
    | _ => none
  | .backout r =>
    match s.pc with
    | .backingOut =>
      match r with
      | .ok () =>
        let fails := min (s.fails + 1) u32Max
        some { s with broker := s.broker.backout, pc := .backoff 0 (backoffMs fails), fails }
      | .error reason =>
        let e : MqError := ⟨"MQBACK", MQCC_FAILED, reason⟩
        some { s with pc := .returned (.error ("backout: " ++ e.text)) }
    | _ => none

def system : Transition Relay RelayEvent := .ofStep step (· = start)

def Fits : Relay → RelayEvent → Prop
  | _, .arrive msg => msg.body.length ≤ readBufLen
  | _, _ => True

instance (s : Relay) : ∀ a : RelayEvent, Decidable (s.Fits a)
  | .arrive msg => inferInstanceAs (Decidable (msg.body.length ≤ readBufLen))
  | .alive _ | .get _ | .publish _ | .commit _ | .backout _ => inferInstanceAs (Decidable True)

def isCommit : RelayAct → Bool
  | .committed _ => true
  | .published .. => false

end Relay

/-- What is published is the whole of a message, the next commit removes that message and nothing
else, and it is not published again after a commit. The log is oldest first. -/
structure Faithful (arrived : List Queued) (log : List RelayAct) : Prop where
  whole : ∀ {n body}, .published n body ∈ log → ∃ m, arrived[n]? = some m ∧ body = m.msg.body
  removes : ∀ {before mid after n body ms}, log = before ++ .published n body :: (mid ++ .committed ms :: after) →
    (∀ a ∈ mid, Relay.isCommit a = false) → ∃ m, ms = [m] ∧ arrived[n]? = some m ∧ body = m.msg.body
  once : ∀ {before mid after n body ms}, log = before ++ .published n body :: (mid ++ .committed ms :: after) →
    ∀ again, .published n again ∉ after

inductive Tidy (arrived : List Queued) : Nat → List RelayAct → Prop
  | nil : Tidy arrived 0 []
  | published {k : Nat} {log : List RelayAct} {m : Queued} (h : Tidy arrived k log) (hm : arrived[k]? = some m) :
      Tidy arrived k (.published k m.msg.body :: log)
  | committed {k : Nat} {log : List RelayAct} {m : Queued} (h : Tidy arrived k log) (hm : arrived[k]? = some m) :
      Tidy arrived (k + 1) (.committed [m] :: log)

namespace Tidy
variable {arrived : List Queued} {k : Nat} {log : List RelayAct}

theorem arrive (h : Tidy arrived k log) (more : List Queued) : Tidy (arrived ++ more) k log := by
  have hget : ∀ {i : Nat} {m : Queued}, arrived[i]? = some m → (arrived ++ more)[i]? = some m := by
    intro i m hm
    obtain ⟨hi, -⟩ := List.getElem?_eq_some_iff.mp hm
    rwa [List.getElem?_append_left hi]
  induction h with
  | nil => exact .nil
  | published _ hm ih => exact .published ih (hget hm)
  | committed _ hm ih => exact .committed ih (hget hm)

theorem published_le (h : Tidy arrived k log) {n : Nat} {body : Payload} (hn : .published n body ∈ log) :
    n ≤ k ∧ ∃ m, arrived[n]? = some m ∧ body = m.msg.body := by
  induction h with
  | nil => cases hn
  | @published k _ m _ hm ih =>
    rcases List.mem_cons.mp hn with heq | hn
    · obtain ⟨rfl, rfl⟩ := RelayAct.published.inj heq
      exact ⟨Nat.le_refl _, m, hm, rfl⟩
    · exact ih hn
  | committed _ _ ih =>
    rcases List.mem_cons.mp hn with heq | hn
    · cases heq
    · obtain ⟨hle, hm⟩ := ih hn
      exact ⟨Nat.le_succ_of_le hle, hm⟩

theorem suffix {after before : List RelayAct} (h : Tidy arrived k (after ++ before)) :
    ∃ j ≤ k, Tidy arrived j before ∧ (∀ n body, .published n body ∈ after → j ≤ n) ∧
      ((∀ a ∈ after, Relay.isCommit a = false) → j = k) := by
  induction after generalizing k with
  | nil => exact ⟨k, Nat.le_refl _, h, by simp, fun _ => rfl⟩
  | cons a after ih =>
    cases h with
    | @published _ _ m h hm =>
      obtain ⟨j, hle, htidy, hge, hsame⟩ := ih h
      refine ⟨j, hle, htidy, fun n body hmem => ?_, fun hno => hsame fun a ha => hno a (List.mem_cons_of_mem _ ha)⟩
      rcases List.mem_cons.mp hmem with heq | hmem
      · rw [(RelayAct.published.inj heq).1]
        exact hle
      · exact hge n body hmem
    | @committed k _ m h hm =>
      obtain ⟨j, hle, htidy, hge, -⟩ := ih h
      refine ⟨j, Nat.le_succ_of_le hle, htidy, fun n body hmem => ?_, fun hno => ?_⟩
      · rcases List.mem_cons.mp hmem with heq | hmem
        · cases heq
        · exact hge n body hmem
      · exact absurd (hno _ (List.mem_cons_self ..)) (by simp [Relay.isCommit])

theorem faithful (h : Tidy arrived k log) : Faithful arrived log.reverse where
  whole hmem := (h.published_le (List.mem_reverse.mp hmem)).2
  removes := by
    intro before mid after n body ms heq hmid
    have hlog : log = after.reverse ++ (.committed ms :: (mid.reverse ++ .published n body :: before.reverse)) := by
      have hrev := congrArg List.reverse heq
      simpa using hrev
    rw [hlog] at h
    obtain ⟨j, -, hj, -, -⟩ := h.suffix
    cases hj with
    | @committed i _ m hi hm =>
      obtain ⟨i', hle, hi', -, hsame⟩ := hi.suffix
      obtain rfl := hsame fun a ha => hmid a (List.mem_reverse.mp ha)
      cases hi' with
      | @published _ _ m' _ hm' =>
        obtain rfl := Option.some.inj (hm.symm.trans hm')
        exact ⟨m, rfl, hm, rfl⟩
  once := by
    intro before mid after n body ms heq again hagain
    have hlog : log = after.reverse ++ (.committed ms :: (mid.reverse ++ .published n body :: before.reverse)) := by
      have hrev := congrArg List.reverse heq
      simpa using hrev
    rw [hlog] at h
    obtain ⟨j, -, hj, hge, -⟩ := h.suffix
    have hjn := hge n again (List.mem_reverse.mpr hagain)
    cases hj with
    | committed hi _ =>
      have hle := (hi.published_le (List.mem_append_right _ (List.mem_cons_self ..))).1
      omega

end Tidy

theorem mqget_empty {u : UnitOfWork Queued} (h : u.queue = []) :
    mqget getUnderSyncpoint readBufLen u = (⟨MQCC_FAILED, MQRC_NO_MSG_AVAILABLE, [], 0, []⟩, u) := by
  unfold mqget
  rw [h]

theorem mqget_fits {u : UnitOfWork Queued} {m : Queued} {rest : List Queued} (h : u.queue = m :: rest)
    (hm : m.msg.body.length ≤ readBufLen) :
    ∃ r, mqget getUnderSyncpoint readBufLen u = (r, { u with queue := rest, held := u.held ++ [m] }) ∧
      getSyncpoint r = .ok (some m.msg) := by
  unfold mqget
  rw [h]
  dsimp only
  rw [if_pos hm]
  refine ⟨_, rfl, ?_⟩
  simp [getSyncpoint, MQCC_OK, MQCC_FAILED, Nat.min_eq_left hm]

theorem mqget_over {u : UnitOfWork Queued} {m : Queued} {rest : List Queued} (h : u.queue = m :: rest)
    (hm : readBufLen < m.msg.body.length) :
    ∃ r, mqget getUnderSyncpoint readBufLen u = (r, u) ∧
      getSyncpoint r = .ok (some ⟨m.msg.body.take readBufLen, m.msg.correlid⟩) := by
  have hoption : getUnderSyncpoint &&& MQGMO_ACCEPT_TRUNCATED_MSG = 0 := by decide
  unfold mqget
  rw [h]
  dsimp only
  rw [if_neg (Nat.not_le.mpr hm), hoption, if_neg (fun hne => hne rfl)]
  refine ⟨_, rfl, ?_⟩
  simp [getSyncpoint, MQCC_WARNING, MQCC_FAILED, Nat.min_eq_right (Nat.le_of_lt hm), List.take_take]

namespace Relay

def Holds (s : Relay) : Prop :=
  match s.pc with
  | .top => s.broker.held = []
  | .getting => s.broker.held = []
  | .publishing n msg => ∃ m, s.broker.held = [m] ∧ n = m.number ∧ msg = m.msg
  | .committing => ∃ m, s.broker.held = [m]
  | .backingOut => ∃ m, s.broker.held = [m]
  | .backoff _ _ => s.broker.held = []
  | .returned _ => True

structure Inv (s : Relay) : Prop where
  holds : s.Holds
  stock : s.broker.stock = s.arrived
  numbers : ∀ (i : Nat) (m : Queued), s.arrived[i]? = some m → m.number = i
  fits : ∀ m ∈ s.arrived, m.msg.body.length ≤ readBufLen
  tidy : Tidy s.arrived s.broker.removed.length s.log

variable {s s' : Relay}

theorem inv_start : start.Inv where
  holds := rfl
  stock := rfl
  numbers i m h := by cases h
  fits m h := by cases h
  tidy := .nil

theorem Inv.held_next (h : s.Inv) {m : Queued} (hm : s.broker.held = [m]) :
    s.arrived[s.broker.removed.length]? = some m := by
  rw [← h.stock]
  simp [UnitOfWork.stock, hm]

theorem Inv.arrive (h : s.Inv) {msg : MqMessage} (hfits : msg.body.length ≤ readBufLen) :
    Inv { s with
      broker := s.broker.arrive ⟨s.arrived.length, msg⟩
      arrived := s.arrived ++ [⟨s.arrived.length, msg⟩] } where
  holds := by
    have := h.holds
    unfold Holds at this ⊢
    exact this
  stock := by rw [UnitOfWork.stock_arrive, h.stock]
  numbers i m hm := by
    rcases Nat.lt_or_ge i s.arrived.length with hlt | hge
    · rw [List.getElem?_append_left hlt] at hm
      exact h.numbers i m hm
    · obtain ⟨hi, -⟩ := List.getElem?_eq_some_iff.mp hm
      rw [List.length_append, List.length_singleton] at hi
      have heq : i = s.arrived.length := by omega
      rw [heq, List.getElem?_concat_length] at hm
      rw [← Option.some.inj hm, heq]
  fits m hm := by
    rcases List.mem_append.mp hm with hm | hm
    · exact h.fits m hm
    · rw [List.mem_singleton.mp hm]
      exact hfits
  tidy := h.tidy.arrive _

theorem Inv.elsewhere (h : s.Inv) {pc : RelayPc} {fails : Nat} (hpc : Holds { s with pc, fails }) :
    Inv { s with pc, fails } where
  holds := hpc
  stock := h.stock
  numbers := h.numbers
  fits := h.fits
  tidy := h.tidy

theorem Inv.backout (h : s.Inv) {pc : RelayPc} {fails : Nat}
    (hpc : Holds { s with broker := s.broker.backout, pc, fails }) :
    Inv { s with broker := s.broker.backout, pc, fails } where
  holds := hpc
  stock := (UnitOfWork.stock_backout _).trans h.stock
  numbers := h.numbers
  fits := h.fits
  tidy := h.tidy

theorem Inv.get (h : s.Inv) (hheld : s.broker.held = []) {f : GetFate}
    (hs : (match f with
      | .failed reason => s.got ⟨MQCC_FAILED, reason, [], 0, []⟩ s.broker
      | .served =>
        let (r, broker) := mqget getUnderSyncpoint readBufLen s.broker
        s.got r broker) = some s') : s'.Inv := by
  -- no message, or an error
  have hfailed : ∀ {reason : Int}, s.got ⟨MQCC_FAILED, reason, [], 0, []⟩ s.broker = some s' → s'.Inv := by
    intro reason hgot
    unfold got getSyncpoint at hgot
    dsimp only at hgot
    rw [if_pos rfl] at hgot
    by_cases hnone : reason = MQRC_NO_MSG_AVAILABLE
    · rw [if_pos hnone] at hgot
      cases hgot
      exact h.elsewhere hheld
    · rw [if_neg hnone] at hgot
      cases hgot
      exact h.elsewhere trivial
  cases f with
  | failed reason => exact hfailed hs
  | served =>
    cases hq : s.broker.queue with
    | nil =>
      simp only [mqget_empty hq] at hs
      exact hfailed hs
    | cons m rest =>
      have hmem : m ∈ s.arrived := by
        rw [← h.stock]
        simp [UnitOfWork.stock, hq]
      obtain ⟨r, hrun, hgot⟩ := mqget_fits hq (h.fits m hmem)
      simp only [hrun, got, hgot, hq, List.head?_cons, Option.map_some] at hs
      cases hs
      exact {
        holds := ⟨m, by simp [hheld], rfl, rfl⟩
        stock := by
          rw [← h.stock]
          simp [UnitOfWork.stock, hq]
        numbers := h.numbers
        fits := h.fits
        tidy := h.tidy }

theorem inv_step {a : RelayEvent} (h : s.Inv) (hc : s.Fits a) (hs : s.step a = some s') : s'.Inv := by
  have hholds := h.holds
  unfold Holds at hholds
  cases a with
  | arrive msg =>
    cases hs
    exact h.arrive hc
  | alive b =>
    simp only [step] at hs
    split at hs
    next hpc =>
      rw [hpc] at hholds
      cases hs
      cases b with
      | true => exact h.elsewhere hholds
      | false => exact h.elsewhere trivial
    next slept limit hpc =>
      rw [hpc] at hholds
      cases hs
      apply h.elsewhere
      by_cases hmore : slept < limit ∧ b = true
      · rw [if_pos hmore]
        exact hholds
      · rw [if_neg hmore]
        exact hholds
    next => cases hs
  | get f =>
    simp only [step] at hs
    split at hs
    next hpc =>
      rw [hpc] at hholds
      exact h.get hholds hs
    next => cases hs
  | publish ok =>
    simp only [step] at hs
    split at hs
    next n msg hpc =>
      rw [hpc] at hholds
      obtain ⟨m, hm, rfl, rfl⟩ := hholds
      have hnext := h.held_next hm
      have hnumber := h.numbers _ _ hnext
      cases hs
      refine ⟨?_, h.stock, h.numbers, h.fits, ?_⟩
      · cases ok <;> exact ⟨m, hm⟩
      · rw [hnumber]
        exact .published h.tidy hnext
    next => cases hs
  | commit f =>
    simp only [step] at hs
    split at hs
    next hpc =>
      rw [hpc] at hholds
      obtain ⟨m, hm⟩ := hholds
      cases f with
      | ok =>
        cases hs
        refine ⟨rfl, (UnitOfWork.stock_commit _).trans h.stock, h.numbers, h.fits, ?_⟩
        have hlen : s.broker.commit.removed.length = s.broker.removed.length + 1 := by
          simp [UnitOfWork.commit, hm]
        rw [hlen, hm]
        exact .committed h.tidy (h.held_next hm)
      | backedOut =>
        cases hs
        exact h.backout rfl
      | failed reason =>
        cases hs
        exact h.elsewhere trivial
    next => cases hs
  | backout r =>
    simp only [step] at hs
    split at hs
    next hpc =>
      cases r with
      | ok _ =>
        cases hs
        exact h.backout rfl
      | error reason =>
        cases hs
        exact h.elsewhere trivial
    next => cases hs

end Relay

/-- Where every message that comes fits the buffer, the source publishes whole messages, once for
each commit. -/
theorem publishes_whole_messages {s : Relay} (h : Relay.system.ReachableUnder Relay.Fits s) :
    Faithful s.arrived s.log.reverse := by
  have hinv : s.Inv := h.invariant (fun _ hs => hs ▸ Relay.inv_start) fun _ _ _ hs hc hstep =>
    Relay.inv_step hs hc hstep
  exact hinv.tidy.faithful

def wholeRun : List RelayEvent :=
  [.arrive ⟨[1, 2], []⟩, .arrive ⟨[3], []⟩, .alive true, .get .served, .publish false, .backout (.ok ()), .alive false,
   .alive true, .get .served, .publish true, .commit .ok]

theorem publishes_whole_messages_run :
    ∃ s, Transition.run Relay.step Relay.start wholeRun = some s ∧
      s.log.reverse = [.published 0 [1, 2], .published 0 [1, 2], .committed [⟨0, ⟨[1, 2], []⟩⟩]] ∧
      Faithful s.arrived s.log.reverse := by
  have hrun : (Transition.run Relay.step Relay.start wholeRun).map (·.log.reverse) =
      some [.published 0 [1, 2], .published 0 [1, 2], .committed [⟨0, ⟨[1, 2], []⟩⟩]] := by decide
  obtain ⟨s, hs, hlog⟩ := Option.map_eq_some_iff.mp hrun
  have hfits : Transition.Meets Relay.Fits Relay.step Relay.start wholeRun := by decide
  exact ⟨s, hs, hlog, publishes_whole_messages (Transition.ReachableUnder.run wholeRun (.init rfl) hfits hs)⟩

theorem oversized_turn {s : Relay} {m : Queued} {rest : List Queued} (hpc : s.pc = .top) (hq : s.broker.queue = m :: rest)
    (hheld : s.broker.held = []) (hm : readBufLen < m.msg.body.length) :
    ∃ s', Transition.run Relay.step s [.alive true, .get .served, .publish true, .commit .ok] = some s' ∧
      s'.pc = .top ∧ s'.broker.queue = m :: rest ∧ s'.broker.held = [] ∧ s'.arrived = s.arrived ∧
      s'.log = .committed [] :: .published m.number (m.msg.body.take readBufLen) :: s.log := by
  obtain ⟨r, hrun, hgot⟩ := mqget_over hq hm
  refine ⟨{ s with
    broker := s.broker.commit
    pc := .top
    fails := 0
    log := .committed [] :: .published m.number (m.msg.body.take readBufLen) :: s.log }, ?_, rfl, hq, rfl, rfl, rfl⟩
  simp [Transition.run, Relay.step, hpc, hrun, Relay.got, hgot, hq, hheld]

/-- A message that does not fit is published cut short, and again after a commit that removed
nothing. -/
theorem oversized_cut {body : Payload} (h : readBufLen < body.length) :
    ∃ s, Relay.system.Reachable s ∧ s.broker.queue = [⟨0, ⟨body, []⟩⟩] ∧ s.arrived = [⟨0, ⟨body, []⟩⟩] ∧
      s.log.reverse = [.published 0 (body.take readBufLen), .committed [],
        .published 0 (body.take readBufLen), .committed []] := by
  have hstep : Relay.start.step (.arrive ⟨body, []⟩) = some { Relay.start with
      broker := Relay.start.broker.arrive ⟨0, ⟨body, []⟩⟩
      arrived := [⟨0, ⟨body, []⟩⟩] } := rfl
  have harrive := Transition.ReachableUnder.step (T := Relay.system) (C := fun _ _ => True) (.init rfl) trivial hstep
  have hlong : readBufLen < (Queued.mk 0 ⟨body, []⟩).msg.body.length := h
  obtain ⟨s₁, hs₁, hpc₁, hq₁, hheld₁, harr₁, hlog₁⟩ := oversized_turn (s := { Relay.start with
    broker := Relay.start.broker.arrive ⟨0, ⟨body, []⟩⟩
    arrived := [⟨0, ⟨body, []⟩⟩] }) rfl rfl rfl hlong
  obtain ⟨s₂, hs₂, -, hq₂, -, harr₂, hlog₂⟩ := oversized_turn hpc₁ hq₁ hheld₁ hlong
  have hreach : Relay.system.Reachable s₂ := Transition.Reachable.run _ (Transition.Reachable.run _ harrive hs₁) hs₂
  refine ⟨s₂, hreach, hq₂, harr₂.trans harr₁, ?_⟩
  rw [hlog₂, hlog₁]
  rfl

theorem oversized_message_published_cut :
    (∃ s cut, Relay.system.Reachable s ∧ cut.length = readBufLen ∧ s.broker.queue = s.arrived ∧
      s.arrived = [⟨0, ⟨List.replicate (readBufLen + 1) 0, []⟩⟩] ∧
      s.log.reverse = [.published 0 cut, .committed [], .published 0 cut, .committed []]) ∧
    ¬ ∀ s, Relay.system.Reachable s → Faithful s.arrived s.log.reverse := by
  have hlong : readBufLen < (List.replicate (readBufLen + 1) (0 : UInt8)).length := by
    rw [List.length_replicate]
    exact Nat.lt_succ_self _
  obtain ⟨s, hreach, hq, harr, hlog⟩ := oversized_cut hlong
  have hcut : ((List.replicate (readBufLen + 1) (0 : UInt8)).take readBufLen).length = readBufLen := by
    rw [List.length_take, Nat.min_eq_left (Nat.le_of_lt hlong)]
  refine ⟨⟨s, _, hreach, hcut, hq.trans harr.symm, harr, hlog⟩, fun hall => ?_⟩
  obtain ⟨m, hm, hbody⟩ := (hall s hreach).whole (hlog ▸ List.mem_cons_self ..)
  rw [harr] at hm
  cases hm
  have hlen := congrArg List.length hbody
  rw [hcut, List.length_replicate] at hlen
  omega

end Vejas.Mq
