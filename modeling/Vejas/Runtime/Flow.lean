import Mathlib.Order.Nat
import Vejas.Bus.Link
import Vejas.Lib.Ledger
import Vejas.Vjs.Eval

/-! The consume loop of a flow's supervisor: rounds of deliveries run through the
interpreter, emits held in a batch, one confirm per round, and then the acks. Its
ledger records what was run, dead-lettered, confirmed and acked. -/

namespace Vejas.Runtime
open Json Rust Vjs Bus

structure Delivery where
  seq : Nat
  delivered : Nat
  subject : String
  data : Payload
  deriving DecidableEq

def maxDeliveries : Nat := 5

inductive Act
  | deliver (m : Delivery)
  | ran (m : Delivery) (batch : Nat) (emits : List Msg)
  | dlq (m : Delivery) (ok : Bool)
  | confirm (batch : Nat) (held : List Msg) (ok : Bool)
  | abandon (batch : Nat)
  /-- given to `ack_all`; its ack may still not leave -/
  | handed (m : Delivery) (batch : Nat)
  | ack (m : Delivery) (batch : Option Nat)
  | nak (m : Delivery)
  | snapshot (seq : Nat)
  deriving DecidableEq

inductive Stage
  | down
  | idle
  | inRound
  deriving DecidableEq

/-- A flow under supervision; `batch` numbers its batches, over restarts too. -/
structure Flow where
  prog : Program
  engine : Engine
  held : List Msg
  toAck : List Delivery
  batch : Nat
  stage : Stage
  log : List Act

namespace Flow

def note (s : Flow) (a : Act) : Flow := { s with log := a :: s.log }

/-- Publish to the DLQ, then ack; nak if the DLQ did not take it. -/
def deadLetter (s : Flow) (m : Delivery) (ok : Bool) : Flow :=
  (s.note (.dlq m ok)).note (if ok then .ack m none else .nak m)

def abandon (s : Flow) : Flow := { s with stage := .down }.note (.abandon s.batch)

def failed (s : Flow) (m : Delivery) (dlqOk : Bool) : Flow :=
  -- the poison guard: a failed run is left un-acked until its deliveries run out
  if maxDeliveries ≤ m.delivered then s.deadLetter m dlqOk else s

end Flow

section
variable [External]

def emitMsg (e : Emit) : Msg := ⟨e.1, bytesOf e.2.render⟩

def holdAll (limit : List Msg → Nat) : List Msg → List Emit → Except String Unit × List Msg
  | held, [] => (.ok (), held)
  | held, (subj, payload) :: es =>
    match hold (limit held) held subj (bytesOf payload.render) with
    | .ok held => holdAll limit held es
    | .error e => (.error ("publish " ++ subj ++ ": " ++ e), held)

def Flow.message (decode : Payload → Except String Value) (s : Flow) (m : Delivery)
    (files : String → Option String) (limit : List Msg → Nat) (dlqOk : Bool) : Flow :=
  match decode m.data with
  | .error _ => s.deadLetter m dlqOk
  | .ok event =>
    match run s.prog event { s.engine with files } with
    | (.error .panic, engine) => { s with engine }.abandon
    | (.error _, engine) => { s with engine }.failed m dlqOk
    | (.ok ctx, engine) =>
      match holdAll limit s.held ctx.emits with
      | (.ok (), held) =>
        { s with engine, held, toAck := s.toAck ++ [m] }.note
          (.ran m s.batch (ctx.emits.map emitMsg))
      | (.error _, held) => { s with engine, held }.failed m dlqOk

def Flow.ackAll (s : Flow) (acks : Nat) : List Act :=
  -- `ack_all`: `acks` of them leave before one fails
  (s.toAck.take acks).map (.ack · (some s.batch))

def Flow.endRound (s : Flow) (confirmed : Bool) (acks : Nat) : Flow :=
  let acked := if confirmed then s.ackAll acks else []
  { s with
    held := []
    toAck := []
    batch := s.batch + 1
    stage := .idle
    log := acked.reverse ++ .confirm s.batch s.held confirmed :: s.log }

inductive FlowEvent
  | start (prog : Program) (engine : Engine)
  | begin
  | message (m : Delivery) (files : String → Option String) (limit : List Msg → Nat) (dlqOk : Bool)
  | endRound (confirmed : Bool) (acks : Nat)
  | stop

/-- A step of the loop. An attempt begins with a new engine and a new batch; a stop, an
error of the pull or a panic ends it. -/
def Flow.step (decode : Payload → Except String Value) (s : Flow) : FlowEvent → Option Flow
  | .start prog engine =>
    if s.stage ≠ .down then none
    else some { s with
      prog, engine, held := [], toAck := [], batch := s.batch + 1, stage := .idle }
  | .begin =>
    if s.stage ≠ .idle then none
    else some { s with engine := s.engine.invalidate, toAck := [], stage := .inRound }
  | .message m files limit dlqOk =>
    if s.stage ≠ .inRound then none else some (s.message decode m files limit dlqOk)
  | .endRound confirmed acks =>
    if s.stage ≠ .inRound || (s.held.isEmpty && !confirmed) then none
    else some (s.endRound confirmed acks)
  | .stop => if s.stage = .down then none else some s.abandon

/-- What a step of the loop does. -/
inductive Flow.Turns (decode : Payload → Except String Value) (s : Flow) : FlowEvent → Flow → Prop
  | start {prog : Program} {engine : Engine} (hst : s.stage = .down) :
      Turns decode s (.start prog engine)
        { s with prog, engine, held := [], toAck := [], batch := s.batch + 1, stage := .idle }
  | begin (hst : s.stage = .idle) :
      Turns decode s .begin { s with engine := s.engine.invalidate, toAck := [], stage := .inRound }
  | message {m : Delivery} {files : String → Option String} {limit : List Msg → Nat} {dlqOk : Bool}
      (hst : s.stage = .inRound) :
      Turns decode s (.message m files limit dlqOk) (s.message decode m files limit dlqOk)
  | endRound {confirmed : Bool} {acks : Nat} (hst : s.stage = .inRound) :
      Turns decode s (.endRound confirmed acks) (s.endRound confirmed acks)
  | stop (hst : s.stage ≠ .down) : Turns decode s .stop s.abandon

theorem turns_of_step {decode : Payload → Except String Value} {s s' : Flow} {e : FlowEvent}
    (h : s.step decode e = some s') : s.Turns decode e s' := by
  cases e with
  | start prog engine =>
    simp only [Flow.step] at h
    split at h
    · cases h
    next hst =>
      cases h
      exact .start (not_not.mp hst)
  | begin =>
    simp only [Flow.step] at h
    split at h
    · cases h
    next hst =>
      cases h
      exact .begin (not_not.mp hst)
  | message m files limit dlqOk =>
    simp only [Flow.step] at h
    split at h
    · cases h
    next hst =>
      cases h
      exact .message (not_not.mp hst)
  | endRound confirmed acks =>
    simp only [Flow.step] at h
    split at h
    · cases h
    next hst =>
      cases h
      have hin : s.stage = .inRound ∧ (s.held = [] → confirmed = true) := by simpa using hst
      exact .endRound hin.1
  | stop =>
    simp only [Flow.step] at h
    split at h
    · cases h
    next hst =>
      cases h
      exact .stop hst

omit [External] in
theorem mem_acked {s : Flow} {confirmed : Bool} {acks : Nat} {a : Act}
    (h : a ∈ (if confirmed then s.ackAll acks else []).reverse) :
    ∃ m ∈ s.toAck, confirmed = true ∧ a = .ack m (some s.batch) := by
  rw [List.mem_reverse] at h
  cases confirmed with
  | false => cases h
  | true =>
    obtain ⟨m, hm, rfl⟩ := List.mem_map.mp h
    exact ⟨m, List.mem_of_mem_take hm, rfl, rfl⟩

def flowSystem (decode : Payload → Except String Value) : Transition Flow FlowEvent :=
  .ofStep (Flow.step decode) fun s => s.log = [] ∧ s.toAck = [] ∧ s.stage = .down

end

end Vejas.Runtime
