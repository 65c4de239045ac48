import Vejas.Lib.Pool
import Vejas.Rust.Str

/-! One bus connection and the batches published on it. `Batch::confirm` is cut
into the steps between which other threads, the server and a reconnect can run. -/

namespace Vejas.Bus
open Rust

abbrev Payload := List UInt8

structure Msg where
  subject : String
  payload : Payload
  deriving DecidableEq

def sendableSubject (subject : String) : Bool :=
  !subject.toList.isEmpty &&
    !subject.toList.any fun c => c == ' ' || c == '\t' || c == '\r' || c == '\n'

def hold [External] (limit : Nat) (held : List Msg) (subject : String) (payload : Payload) :
    Except String (List Msg) :=
  if !sendableSubject subject then .error ("invalid subject " ++ debugStr subject)
  else if limit < payload.length then
    .error (toString payload.length ++ " bytes is over the server's limit of " ++ toString limit)
  else .ok (held ++ [⟨subject, payload⟩])

theorem hold_eq_ok [External] {limit : Nat} {held held' : List Msg} {subject : String}
    {payload : Payload} : hold limit held subject payload = .ok held' ↔
      sendableSubject subject = true ∧ payload.length ≤ limit ∧ held' = held ++ [⟨subject, payload⟩] := by
  unfold hold
  cases hsub : sendableSubject subject with
  | false => simp
  | true =>
    by_cases hlim : limit < payload.length
    · have hnot : ¬ payload.length ≤ limit := Nat.not_le_of_lt hlim
      simp [hlim, hnot]
    · have hle : payload.length ≤ limit := Nat.le_of_not_lt hlim
      simp [hlim, hle, eq_comm]

inductive Body
  | publish (m : Msg)
  | echo (id : Nat)
  deriving DecidableEq

structure Packet where
  stamp : Nat
  body : Body
  deriving DecidableEq

/-- The connection `epoch` names, the packets written on it and not yet read, those
the server has read, the echoes on their way back, and the barrier's waiters. -/
structure Link where
  epoch : Nat
  up : Bool
  wire : List Packet
  log : List Packet
  echoes : List Nat
  nextId : Nat
  waiting : List Nat
  fired : List Nat
  written : Nat

namespace Link

def opened : Link := ⟨1, true, [], [], [], 0, [], [], 0⟩

def write (k : Link) (b : Body) : Link :=
  { k with wire := k.wire ++ [⟨k.written, b⟩], written := k.written + 1 }

inductive Event
  | read
  | deliver
  | disconnect
  | reconnect (wire : List Packet) (echoes : List Nat)

def answer (p : Packet) (echoes : List Nat) : List Nat :=
  match p.body with
  | .publish _ => echoes
  | .echo id => echoes ++ [id]

/-- The server reads in order and sends an echo back; the echo task fires the waiter
it finds; a reconnect loses any part of what was under way and moves the epoch. -/
def event (k : Link) : Event → Option Link
  | .read =>
    match k.wire with
    | [] => none
    | p :: w => some { k with wire := w, log := k.log ++ [p], echoes := answer p k.echoes }
  | .deliver =>
    match k.echoes with
    | [] => none
    | id :: es =>
      if id ∈ k.waiting then
        some { k with
          echoes := es, waiting := k.waiting.filter (· != id), fired := id :: k.fired }
      else some { k with echoes := es }
  | .disconnect => some { k with up := false }
  | .reconnect wire echoes =>
    if wire.isSublist k.wire && echoes.isSublist k.echoes then
      some { k with epoch := k.epoch + 1, up := true, wire, echoes }
    else none

end Link

inductive Pc
  | idle
  | checkUp
  | readEpoch
  | sending (epoch : Nat)
  | fetchId (epoch : Nat)
  | register (epoch id : Nat)
  | ask (epoch id : Nat)
  | listen (epoch id : Nat)
  | unregister (id : Nat)
  | recheck (epoch : Nat)
  | returned (ok : Bool)
  deriving DecidableEq

/-- A thread with its batch. `asked`, `sent` and `barrier` record what its last
`confirm` was called with, handed over, and waited on. -/
structure Caller where
  held : List Msg
  pc : Pc
  asked : List Msg
  sent : List Packet
  barrier : Option Nat

def Caller.start : Caller := ⟨[], .idle, [], [], none⟩

inductive Choice
  | hold (limit : Nat) (subject : String) (payload : Payload)
  | send (m : Msg)
  | confirm
  | go
  | fail

def Caller.go (k : Link) (c : Caller) : Option (Link × Caller) :=
  match c.pc with
  | .idle => none
  | .checkUp =>
    some (k, if k.up then { c with pc := .readEpoch } else { c with pc := .returned false, held := [] })
  | .readEpoch => some (k, { c with pc := .sending k.epoch })
  | .sending e =>
    match c.held with
    | [] => some (k, { c with pc := .fetchId e })
    | m :: rest => some (k.write (.publish m),
        { c with held := rest, sent := c.sent ++ [⟨k.written, .publish m⟩] })
  | .fetchId e => some ({ k with nextId := k.nextId + 1 },
      { c with pc := .register e k.nextId, barrier := some k.nextId })
  | .register e id => some ({ k with waiting := id :: k.waiting }, { c with pc := .ask e id })
  | .ask e id => some (k.write (.echo id), { c with pc := .listen e id })
  | .listen e id => if id ∈ k.fired then some (k, { c with pc := .recheck e }) else none
  | .unregister id =>
    some ({ k with waiting := k.waiting.filter (· != id) }, { c with pc := .returned false })
  | .recheck e => some (k, { c with pc := .returned (k.epoch == e) })
  | .returned _ => some (k, { c with pc := .idle })

def Caller.fail (k : Link) (c : Caller) : Option (Link × Caller) :=
  -- a publish that is refused or times out, or an echo that does not come in time
  match c.pc with
  | .sending _ =>
    if c.held.isEmpty then none else some (k, { c with pc := .returned false, held := [] })
  | .ask _ id => some (k, { c with pc := .unregister id })
  | .listen _ id => some (k, { c with pc := .unregister id })
  | _ => none

def Caller.call (k : Link) (c : Caller) : Option (Link × Caller) :=
  if c.pc ≠ .idle then none
  else if c.held.isEmpty then
    some (k, { c with pc := .returned true, asked := [], sent := [], barrier := none })
  else some (k, { c with pc := .checkUp, asked := c.held, sent := [], barrier := none })

def Caller.act [External] (k : Link) (c : Caller) : Choice → Option (Link × Caller)
  | .hold limit subject payload =>
    if c.pc ≠ .idle then none
    else match Bus.hold limit c.held subject payload with
      | .ok held => some (k, { c with held })
      | .error _ => some (k, c)
  | .send m => if c.pc ≠ .idle then none else some (k.write (.publish m), c)
  | .confirm => c.call k
  | .go => c.go k
  | .fail => c.fail k

def link [External] : Pool Link Caller Choice Link.Event where
  act := fun k c => c.act k
  env := Link.event

def freshLink {τ : Type} (s : Pool.State Link Caller τ) : Prop :=
  s.shared = .opened ∧ ∀ t, s.locals t = .start

end Vejas.Bus
