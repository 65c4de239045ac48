import Mathlib.Data.Finset.Basic
import Vejas.Lib.Feed
import Vejas.Runtime.Flow

/-! The consume loop of a detect unit, with the durable consumer it pulls and the snapshots
it stores. A snapshot stands for a stream sequence; an attempt that finds one of its own
resumes the consumer after it. What the embedded engine answers to an event is an input
here, and so is the fate of every call on the bus. -/

namespace Vejas.Runtime
open Rust Bus

def matchTokens : List String → List String → Bool
  | [], [] => true
  | ">" :: _, _ :: _ => true
  | "*" :: p, _ :: s => matchTokens p s
  | a :: p, b :: s => a == b && matchTokens p s
  | _, _ => false

def subjectMatches (pattern subject : String) : Bool :=
  matchTokens (split pattern ".") (split subject ".")

structure DetectEmit where
  topic : Option String
  stream : String
  payload : Payload

inductive Fed
  | emits (es : List (DetectEmit × Nat))
  | notAnEvent
  | failed

structure DetectUnit where
  version : String
  sources : List (String × String)
  subjRoot : String
  stem : String
  snapshotEveryAcks : Nat

structure Snapshot where
  version : String
  seq : Nat

inductive DetectStage
  | down
  | top
  | inBatch
  | barrierDone
  deriving DecidableEq

/-- The stored snapshot, the durable consumer (its start sequence, what it gave and its
position), and the attempt that is running. -/
structure Detect where
  snapshot : Option Snapshot
  startSeq : Nat
  given : List Nat
  high : Nat
  unit : DetectUnit
  store : Bool
  stage : DetectStage
  rx : List Delivery
  batch : List Delivery
  toAck : List Delivery
  held : List Msg
  round : Nat
  ackedMax : Nat
  retrying : Finset Nat
  acksSince : Nat
  log : List Act

/-- The fate of a put: stored, stored with the answer lost, or not stored. -/
inductive Put
  | ok
  | lost
  | failed
  deriving DecidableEq

def DetectUnit.emitSubject (u : DetectUnit) (e : DetectEmit) : String :=
  e.topic.getD (u.subjRoot ++ ".detect." ++ u.stem ++ "." ++ e.stream)

def DetectUnit.emitMsg (u : DetectUnit) (e : DetectEmit) : Msg := ⟨u.emitSubject e, e.payload⟩

def deliveredSeqs (log : List Act) : List Nat :=
  log.filterMap fun
    | .deliver m => some m.seq
    | _ => none

namespace Detect

def snapshotUnit (s : Detect) (seq : Nat) (put : Put) : Detect :=
  if put = .failed then s
  else { s with snapshot := some ⟨s.unit.version, seq⟩, log := .snapshot seq :: s.log }

def ownSnapshot (s : Detect) (unit : DetectUnit) (store : Bool) : Option Snapshot :=
  -- the snapshot an attempt restores: one of this version of the program
  if store then s.snapshot.filter (·.version == unit.version) else none

/-- An attempt, up to its loop. With a snapshot of its own it deletes the durable and
creates it after the snapshot; a delete that did not go through is not noticed, and the
create succeeds if the durable was asked for the same start. Without one it keeps the
durable and takes a first snapshot at the ack floor. -/
def start (s : Detect) (unit : DetectUnit) (store deleted : Bool) (floor : Nat) (put : Put) :
    Option Detect :=
  let fresh := { s with
    unit, store, stage := .top, rx := [], batch := [], toAck := [], held := []
    round := s.round + 1, ackedMax := 0, retrying := ∅, acksSince := 0 }
  match s.ownSnapshot unit store with
  | some snap =>
    if deleted then some { fresh with startSeq := snap.seq + 1, given := [], high := snap.seq }
    else if s.startSeq = snap.seq + 1 then some fresh
    else none
  | none =>
    if s.startSeq ≠ 0 ∨ s.high < floor then none
    else if store then some (fresh.snapshotUnit floor put)
    else some fresh

def deliver (s : Detect) (m : Delivery) : Option Detect :=
  let given := { s with rx := s.rx ++ [m], log := .deliver m :: s.log }
  if s.stage = .down then none
  else if m.seq ∈ s.given then some given
  else if s.high < m.seq ∧ ∀ q ∈ deliveredSeqs s.log, s.high < q → m.seq ≤ q then
    some { given with given := m.seq :: s.given, high := m.seq }
  else none

def deadLetter (s : Detect) (m : Delivery) (ok : Bool) : Detect :=
  -- publish before ack; nak if the DLQ did not take it
  if ok then
    { s with retrying := s.retrying.erase m.seq, log := .ack m none :: .dlq m true :: s.log }
  else
    { s with retrying := insert m.seq s.retrying, log := .nak m :: .dlq m false :: s.log }

section
variable [External]

def publishAll (u : DetectUnit) : List Msg → List (DetectEmit × Nat) → Bool × List Msg
  | held, [] => (true, held)
  | held, (e, limit) :: es =>
    match hold limit held (u.emitSubject e) e.payload with
    | .ok held => publishAll u held es
    | .error _ => (false, (publishAll u held es).2)

def message (s : Detect) (m : Delivery) (fed : Fed) (dlqOk : Bool) : Detect :=
  match fed with
  | .notAnEvent => s.deadLetter m dlqOk
  | .emits es =>
    match publishAll s.unit s.held es with
    | (true, held) =>
      { s with
        held
        toAck := s.toAck ++ [m]
        log := .ran m s.round (es.map fun e => s.unit.emitMsg e.1) :: s.log }
    -- a refused emit: neither to be acked nor kept in mind
    | (false, held) => { s with held }
  | .failed =>
    if maxDeliveries ≤ m.delivered then s.deadLetter m dlqOk
    else { s with retrying := insert m.seq s.retrying }

end

/-- The barrier. What waited behind one that holds is given to `ack_all`, which stops at an ack
that does not leave: `acks` of them do. -/
def endBatch (s : Detect) (confirmed : Bool) (acks : Nat) : Detect :=
  let done := { s with held := [], toAck := [], round := s.round + 1, stage := .barrierDone }
  if confirmed then
    { done with
      retrying := s.retrying.filter (· ∉ s.toAck.map (·.seq))
      ackedMax := s.toAck.foldl (fun n m => max n m.seq) s.ackedMax
      acksSince := s.acksSince + s.toAck.length
      log := ((s.toAck.take acks).map (.ack · (some s.round))).reverse ++
        ((s.toAck.map (.handed · s.round)).reverse ++ .confirm s.round s.held true :: s.log) }
  -- what waited is left for redelivery, and not kept in mind
  else { done with log := .confirm s.round s.held false :: s.log }

def cadence (s : Detect) (elapsed : Bool) (put : Put) : Detect :=
  let top := { s with stage := .top }
  if s.store && decide (0 < s.acksSince) && decide (s.retrying = ∅) &&
      (decide (s.unit.snapshotEveryAcks ≤ s.acksSince) || elapsed) then
    let stored := top.snapshotUnit s.ackedMax put
    if put = .ok then { stored with acksSince := 0 } else stored
  else top

def stop (s : Detect) (put : Put) : Detect :=
  let down := { s with stage := .down }
  if s.store && decide (0 < s.acksSince) && decide (s.retrying = ∅) then
    down.snapshotUnit s.ackedMax put
  else down

end Detect

inductive DetectEvent
  | start (unit : DetectUnit) (store deleted : Bool) (floor : Nat) (put : Put)
  | deliver (m : Delivery)
  | receive
  | message (fed : Fed) (dlqOk : Bool)
  | endBatch (confirmed : Bool) (acks : Nat)
  | cadence (elapsed : Bool) (put : Put)
  | stop (put : Put)
  | crash

/-- A step of the unit. A batch is what has arrived, 256 at most; a stop in the middle of
one, an error and a panic leave it like a crash. -/
def Detect.step [External] (s : Detect) : DetectEvent → Option Detect
  | .start unit store deleted floor put =>
    if s.stage ≠ .down then none else s.start unit store deleted floor put
  | .deliver m => s.deliver m
  | .receive =>
    if s.stage ≠ .top ∨ s.rx = [] then none
    else some { s with batch := s.rx.take 256, rx := s.rx.drop 256, toAck := [], stage := .inBatch }
  | .message fed dlqOk =>
    if s.stage ≠ .inBatch then none
    else match s.batch with
      | [] => none
      | m :: batch =>
        if s.unit.sources.any fun (topic, _) => subjectMatches topic m.subject then
          some ({ s with batch }.message m fed dlqOk)
        else some { s with stage := .down }
  | .endBatch confirmed acks =>
    if s.stage ≠ .inBatch ∨ s.batch ≠ [] ∨ s.held = [] ∧ confirmed = false then none
    else some (s.endBatch confirmed acks)
  | .cadence elapsed put =>
    if s.stage ≠ .barrierDone then none else some (s.cadence elapsed put)
  | .stop put => if s.stage ≠ .top then none else some (s.stop put)
  | .crash => if s.stage = .down then none else some { s with stage := .down }

end Vejas.Runtime
