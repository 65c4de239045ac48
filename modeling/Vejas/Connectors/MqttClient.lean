import Mathlib.Data.List.GetD
import Vejas.Connectors.Wire

/-! The MQTT 3.1.1 client, QoS 0 and 1: how it writes packets and how it reads them. -/

namespace Vejas.Mqtt
open Rust Vjs

def CONNECT : UInt8 := 1
def CONNACK : UInt8 := 2
def PUBLISH : UInt8 := 3
def PUBACK : UInt8 := 4
def SUBSCRIBE : UInt8 := 8
def SUBACK : UInt8 := 9
def PINGREQ : UInt8 := 12
def PINGRESP : UInt8 := 13
def DISCONNECT : UInt8 := 14

inductive Packet
  | connAck (sessionPresent : Bool) (code : UInt8)
  | publish (topic : String) (payload : Bytes) (qos : UInt8) (pid : UInt16)
  | pubAck (pid : UInt16)
  | subAck (pid : UInt16) (code : UInt8)
  | pingResp
  | other (ptype : UInt8)
  deriving DecidableEq

def beBytes (n : Nat) : Bytes := [(n / 256 % 256).toUInt8, (n % 256).toUInt8]

def putStr (s : String) : Bytes := beBytes (bytesOf s).length ++ bytesOf s

def putRemainingLen (n : Nat) : Bytes :=
  if n / 128 = 0 then [(n % 128).toUInt8] else ((n % 128).toUInt8 ||| 0x80) :: putRemainingLen (n / 128)
termination_by n
decreasing_by omega

def frame (packetType flags : UInt8) (body : Bytes) : Bytes :=
  (packetType <<< 4 ||| (flags &&& 0x0f)) :: putRemainingLen body.length ++ body

/-- What the socket gives next: a byte, nothing within the read timeout, or a fault. After the
last of them the broker has closed the connection. -/
inductive Arrival
  | byte (b : UInt8)
  | idle
  | fault (e : String)
  deriving DecidableEq

abbrev Inbound := List Arrival

def arrive (b : Bytes) : Inbound := b.map .byte

def readExact : Nat → Inbound → Except String (Bytes × Inbound)
  | 0, s => .ok ([], s)
  | _ + 1, [] => .error "failed to fill whole buffer"
  | _ + 1, .idle :: _ => .error "Resource temporarily unavailable (os error 11)"
  | _ + 1, .fault e :: _ => .error e
  | n + 1, .byte b :: s => do
    let (bs, s) ← readExact n s
    pure (b :: bs, s)

def readRemainingLenGo : Nat → Nat → Nat → Inbound → Except String (Nat × Inbound)
  | 0, _, _, _ => .error "malformed remaining length"
  | left + 1, mult, value, s => do
    let (byte, s) ← readExact 1 s
    let b := byte.headD 0
    let value := value + (b &&& 0x7f).toNat * mult
    if b &&& 0x80 = 0 then pure (value, s) else readRemainingLenGo left (mult * 128) value s

def readRemainingLen (s : Inbound) : Except String (Nat × Inbound) := readRemainingLenGo 4 1 0 s

def beAt (body : Bytes) (i : Nat) : Nat := (body.getD i 0).toNat * 256 + (body.getD (i + 1) 0).toNat

def getRange (body : Bytes) (i j : Nat) : Bytes :=
  if i ≤ j ∧ j ≤ body.length then (body.drop i).take (j - i) else []

def parsePublish (b1 : UInt8) (body : Bytes) : Packet :=
  let qos := (b1 >>> 1) &&& 0x03
  let tlen := beAt body 0
  let topic := textOf (getRange body 2 (2 + tlen))
  let i := 2 + tlen
  if 0 < qos then .publish topic (body.drop (i + 2)) qos (beAt body i).toUInt16
  else .publish topic (body.drop i) qos 0

def parse (b1 : UInt8) (body : Bytes) : Packet :=
  let ptype := b1 >>> 4
  if ptype = CONNACK then .connAck (body.headD 0 &&& 1 == 1) (body.getD 1 0xff)
  else if ptype = PUBACK then .pubAck (beAt body 0).toUInt16
  else if ptype = SUBACK then .subAck (beAt body 0).toUInt16 (body.getD 2 0x80)
  else if ptype = PINGRESP then .pingResp
  else if ptype = PUBLISH then parsePublish b1 body
  else .other ptype

def readRest (b1 : UInt8) (s : Inbound) : Except String (Packet × Inbound) := do
  let (remaining, s) ← readRemainingLen s
  let (body, s) ← readExact remaining s
  pure (parse b1 body, s)

/-- `read_packet`: nothing within the timeout is no packet, but a timeout inside one is an error. -/
def readPacket : Inbound → Except String (Option Packet × Inbound)
  | [] => .error "connection closed by broker"
  | .idle :: s => .ok (none, s)
  | .fault e :: _ => .error e
  | .byte b1 :: s => (readRest b1 s).map fun r => (some r.1, r.2)

def readPacketBlocking : Inbound → Except String (Packet × Inbound)
  | [] => .error "connection closed by broker"
  | .idle :: s => readPacketBlocking s
  | .fault e :: _ => .error e
  | .byte b1 :: s => readRest b1 s

structure Client where
  nextPid : UInt16
  sent : Bytes

namespace Client

def new : Client := ⟨1, []⟩

def pid (c : Client) : UInt16 × Client := (c.nextPid, { c with nextPid := max (c.nextPid + 1) 1 })

def send (c : Client) (wrote : Except String Unit) (bytes : Bytes) : Except String Unit × Client :=
  match wrote with
  | .ok () => (.ok (), { c with sent := c.sent ++ bytes })
  | .error e => (.error e, c)

def publishBody (topic : String) (payload : Bytes) (pid : Option UInt16) : Bytes :=
  putStr topic ++ ((pid.map fun p => beBytes p.toNat).getD [] ++ payload)

def publish (c : Client) (wrote : Except String Unit) (topic : String) (payload : Bytes) (qos : UInt8) :
    Except String (Option UInt16) × Client :=
  let (pid, c) := if 0 < qos then (some c.pid.1, c.pid.2) else (none, c)
  let (r, c) := c.send wrote (frame PUBLISH ((qos &&& 0x03) <<< 1) (publishBody topic payload pid))
  (r.map fun _ => pid, c)

def sendConnect (c : Client) (wrote : Except String Unit) (keepalive : Nat) (clientId : String) (cleanSession : Bool)
    (user pass : Option String) : Except String Unit × Client :=
  let flags : UInt8 := (if cleanSession then 0x02 else 0) ||| (if user.isSome then 0x80 else 0) |||
    (if pass.isSome then 0x40 else 0)
  -- protocol level 4 is 3.1.1
  let body := putStr "MQTT" ++ [4, flags] ++ beBytes keepalive ++ putStr clientId ++
    (user.map putStr).getD [] ++ (pass.map putStr).getD []
  c.send wrote (frame CONNECT 0 body)

def sendSubscribe (c : Client) (wrote : Except String Unit) (topic : String) (qos : UInt8) :
    Except String Unit × Client :=
  let (pid, c) := c.pid
  c.send wrote (frame SUBSCRIBE 0x02 (beBytes pid.toNat ++ putStr topic ++ [qos]))

def puback (c : Client) (wrote : Except String Unit) (pid : UInt16) : Except String Unit × Client :=
  c.send wrote (frame PUBACK 0 (beBytes pid.toNat))

def pingreq (c : Client) (wrote : Except String Unit) : Except String Unit × Client :=
  c.send wrote (frame PINGREQ 0 [])

def disconnect (c : Client) (wrote : Except String Unit) : Client := (c.send wrote (frame DISCONNECT 0 [])).2

end Client

theorem readExact_arrive (bs : Bytes) (s : Inbound) : readExact bs.length (arrive bs ++ s) = .ok (bs, s) := by
  induction bs with
  | nil => rfl
  | cons b bs ih =>
    change (readExact bs.length (arrive bs ++ s) >>= fun r => pure (b :: r.1, r.2)) = .ok (b :: bs, s)
    rw [ih]
    rfl

theorem last_byte : ∀ k, k < 128 → (k.toUInt8 &&& 0x80 = 0 ∧ (k.toUInt8 &&& 0x7f).toNat = k) := by decide

theorem more_byte : ∀ k, k < 128 →
    ((k.toUInt8 ||| 0x80) &&& 0x80 ≠ 0 ∧ ((k.toUInt8 ||| 0x80) &&& 0x7f).toNat = k) := by decide

theorem readRemainingLenGo_byte (left mult value : Nat) (b : UInt8) (s : Inbound) :
    readRemainingLenGo (left + 1) mult value (.byte b :: s) =
      if b &&& 0x80 = 0 then .ok (value + (b &&& 0x7f).toNat * mult, s)
      else readRemainingLenGo left (mult * 128) (value + (b &&& 0x7f).toNat * mult) s := rfl

theorem readRemainingLenGo_put (left n mult value : Nat) (s : Inbound) :
    readRemainingLenGo (left + 1) mult value (arrive (putRemainingLen n) ++ s) =
      if n < 128 ^ (left + 1) then .ok (value + n * mult, s) else .error "malformed remaining length" := by
  induction left generalizing n mult value with
  | zero =>
    rw [putRemainingLen]
    split
    next hlast =>
      obtain ⟨hstop, hbits⟩ := last_byte (n % 128) (Nat.mod_lt _ (by decide))
      change readRemainingLenGo 1 mult value (.byte (n % 128).toUInt8 :: s) = _
      rw [readRemainingLenGo_byte, if_pos hstop, hbits, if_pos (by omega), Nat.mod_eq_of_lt (by omega)]
    next hmore =>
      obtain ⟨hgo, -⟩ := more_byte (n % 128) (Nat.mod_lt _ (by decide))
      change readRemainingLenGo 1 mult value (.byte ((n % 128).toUInt8 ||| 0x80) :: (arrive _ ++ s)) = _
      rw [readRemainingLenGo_byte, if_neg hgo, if_neg (by omega)]
      rfl
  | succ left ih =>
    have hpow : (128 : Nat) ^ (left + 1 + 1) = 128 ^ (left + 1) * 128 := Nat.pow_succ ..
    rw [putRemainingLen]
    split
    next hlast =>
      have hpos : 0 < 128 ^ (left + 1) := Nat.pow_pos (by decide)
      obtain ⟨hstop, hbits⟩ := last_byte (n % 128) (Nat.mod_lt _ (by decide))
      change readRemainingLenGo (left + 2) mult value (.byte (n % 128).toUInt8 :: s) = _
      rw [readRemainingLenGo_byte, if_pos hstop, hbits, if_pos (by omega), Nat.mod_eq_of_lt (by omega)]
    next hmore =>
      obtain ⟨hgo, hbits⟩ := more_byte (n % 128) (Nat.mod_lt _ (by decide))
      have hsum : value + n % 128 * mult + n / 128 * (mult * 128) = value + n * mult := by
        calc value + n % 128 * mult + n / 128 * (mult * 128)
            = value + (n % 128 + 128 * (n / 128)) * mult := by
              rw [Nat.add_mul, ← Nat.add_assoc, Nat.mul_comm mult 128, ← Nat.mul_assoc, Nat.mul_comm (n / 128) 128]
          _ = value + n * mult := by rw [Nat.mod_add_div]
      change readRemainingLenGo (left + 2) mult value
        (.byte ((n % 128).toUInt8 ||| 0x80) :: (arrive (putRemainingLen (n / 128)) ++ s)) = _
      rw [readRemainingLenGo_byte, if_neg hgo, hbits, ih, hsum, hpow]
      exact if_congr (Nat.div_lt_iff_lt_mul (by decide)) rfl rfl

theorem readRemainingLen_put (n : Nat) (s : Inbound) :
    readRemainingLen (arrive (putRemainingLen n) ++ s) =
      if n < 2 ^ 28 then .ok (n, s) else .error "malformed remaining length" := by
  have hpow : (128 : Nat) ^ (3 + 1) = 2 ^ 28 := by decide
  unfold readRemainingLen
  rw [readRemainingLenGo_put 3 n 1 0 s, Nat.zero_add, Nat.mul_one, hpow]

theorem readPacket_frame (packetType flags : UInt8) (body : Bytes) (s : Inbound) :
    readPacket (arrive (frame packetType flags body) ++ s) =
      if body.length < 2 ^ 28 then .ok (some (parse (packetType <<< 4 ||| (flags &&& 0x0f)) body), s)
      else .error "malformed remaining length" := by
  have hframe : arrive (frame packetType flags body) ++ s =
      .byte (packetType <<< 4 ||| (flags &&& 0x0f)) :: (arrive (putRemainingLen body.length) ++ (arrive body ++ s)) := by
    unfold frame arrive
    rw [List.cons_append, List.map_cons, List.map_append, List.cons_append, List.append_assoc]
  rw [hframe, readPacket, readRest, readRemainingLen_put]
  by_cases hlen : body.length < 2 ^ 28
  · rw [if_pos hlen, if_pos hlen]
    change (readExact body.length (arrive body ++ s) >>= _).map _ = _
    rw [readExact_arrive]
    rfl
  · rw [if_neg hlen, if_neg hlen]
    rfl

theorem length_beBytes (n : Nat) : (beBytes n).length = 2 := rfl

theorem beAt_beBytes (n : Nat) (rest : Bytes) : beAt (beBytes n ++ rest) 0 = n % 65536 := by
  change (n / 256 % 256).toUInt8.toNat * 256 + (n % 256).toUInt8.toNat = n % 65536
  rw [Nat.toUInt8_eq, Nat.toUInt8_eq, UInt8.toNat_ofNat', UInt8.toNat_ofNat']
  omega

theorem beAt_append (front rest : Bytes) : beAt (front ++ rest) front.length = beAt rest 0 := by
  unfold beAt
  rw [List.getD_append_right _ _ _ _ (Nat.le_refl _), List.getD_append_right _ _ _ _ (Nat.le_add_right _ 1),
    Nat.sub_self, Nat.add_sub_cancel_left]

theorem toUInt16_beAt (p : UInt16) (front rest : Bytes) :
    (beAt (front ++ (beBytes p.toNat ++ rest)) front.length).toUInt16 = p := by
  rw [beAt_append, beAt_beBytes, Nat.mod_eq_of_lt p.toNat_lt]
  exact UInt16.ofNat_toNat

def ReadsBack (before after : Client) (topic : String) (payload : Bytes) (qos : UInt8) (pid : Option UInt16) : Prop :=
  ∃ bytes, after.sent = before.sent ++ bytes ∧
    readPacket (arrive bytes) = .ok (some (.publish topic payload qos (pid.getD 0)), [])

/-- Every publish that returns is read back by the other side, and nothing is left over. -/
def PublishReadsBack (c : Client) (topic : String) (payload : Bytes) (qos : UInt8) : Prop :=
  ∀ wrote pid, (c.publish wrote topic payload qos).1 = .ok pid →
    ReadsBack c (c.publish wrote topic payload qos).2 topic payload qos pid

theorem getRange_putStr (topic : String) (rest : Bytes) :
    getRange (putStr topic ++ rest) 2 (2 + (bytesOf topic).length) = bytesOf topic := by
  have hdrop : (putStr topic ++ rest).drop 2 = bytesOf topic ++ rest := rfl
  unfold getRange
  rw [if_pos, hdrop, Nat.add_sub_cancel_left, List.take_left]
  rw [List.length_append, putStr, List.length_append, length_beBytes]
  omega

theorem drop_putStr (topic : String) (rest : Bytes) :
    (putStr topic ++ rest).drop (2 + (bytesOf topic).length) = rest := by
  have hlen : (putStr topic).length = 2 + (bytesOf topic).length := by
    rw [putStr, List.length_append, length_beBytes]
  rw [← hlen, List.drop_left]

theorem parse_publish (qos : UInt8) (h : qos = 0 ∨ qos = 1) (body : Bytes) :
    parse (PUBLISH <<< 4 ||| ((qos &&& 0x03) <<< 1 &&& 0x0f)) body =
      parsePublish (PUBLISH <<< 4 ||| ((qos &&& 0x03) <<< 1 &&& 0x0f)) body := by
  rcases h with rfl | rfl
  · rfl
  · rfl

theorem beAt_putStr (topic : String) (rest : Bytes) : beAt (putStr topic ++ rest) 0 = (bytesOf topic).length % 65536 := by
  rw [putStr, List.append_assoc, beAt_beBytes]

theorem length_putStr (topic : String) : (putStr topic).length = 2 + (bytesOf topic).length := by
  rw [putStr, List.length_append, length_beBytes]

def pidFor (c : Client) (qos : UInt8) : Option UInt16 := if 0 < qos then some c.nextPid else none

theorem publishReadsBack_iff_read (c : Client) (topic : String) (payload : Bytes) (qos : UInt8) :
    PublishReadsBack c topic payload qos ↔
      readPacket (arrive (frame PUBLISH ((qos &&& 0x03) <<< 1) (Client.publishBody topic payload (pidFor c qos)))) =
        .ok (some (.publish topic payload qos ((pidFor c qos).getD 0)), []) := by
  have hrun : ∀ wrote, (c.publish wrote topic payload qos).1 = wrote.map (fun _ => pidFor c qos) ∧
      (wrote = .ok () → (c.publish wrote topic payload qos).2.sent =
        c.sent ++ frame PUBLISH ((qos &&& 0x03) <<< 1) (Client.publishBody topic payload (pidFor c qos))) := by
    intro wrote
    unfold Client.publish pidFor
    by_cases hqos : 0 < qos
    · rw [if_pos hqos, if_pos hqos]
      cases wrote with
      | ok u => exact ⟨rfl, fun _ => rfl⟩
      | error e => exact ⟨rfl, fun h => by cases h⟩
    · rw [if_neg hqos, if_neg hqos]
      cases wrote with
      | ok u => exact ⟨rfl, fun _ => rfl⟩
      | error e => exact ⟨rfl, fun h => by cases h⟩
  constructor
  · intro h
    obtain ⟨hr, hsent⟩ := hrun (.ok ())
    obtain ⟨bytes, hbytes, hread⟩ := h (.ok ()) (pidFor c qos) hr
    rw [hsent rfl] at hbytes
    rw [List.append_cancel_left hbytes]
    exact hread
  · intro hread wrote pid hok
    obtain ⟨hr, hsent⟩ := hrun wrote
    cases wrote with
    | ok u =>
      cases hr.symm.trans hok
      exact ⟨_, hsent rfl, hread⟩
    | error e => cases hr.symm.trans hok

theorem length_drop_putStr (topic : String) (rest : Bytes) {more : Nat} (hmore : more ≤ rest.length) :
    ((putStr topic ++ rest).drop (2 + (bytesOf topic).length % 65536 + more)).length =
      (bytesOf topic).length / 65536 * 65536 + (rest.length - more) := by
  rw [List.length_drop, List.length_append, length_putStr]
  omega

theorem read_publish_zero_iff (topic : String) (payload : Bytes) :
    readPacket (arrive (frame PUBLISH (((0 : UInt8) &&& 0x03) <<< 1) (putStr topic ++ payload))) =
        .ok (some (.publish topic payload 0 0), []) ↔
      (bytesOf topic).length < 65536 ∧ 2 + (bytesOf topic).length + payload.length < 2 ^ 28 := by
  have hparse : parse (PUBLISH <<< 4 ||| (((0 : UInt8) &&& 0x03) <<< 1 &&& 0x0f)) (putStr topic ++ payload) =
      .publish (textOf (getRange (putStr topic ++ payload) 2 (2 + (bytesOf topic).length % 65536)))
        ((putStr topic ++ payload).drop (2 + (bytesOf topic).length % 65536)) 0 0 := by
    rw [parse_publish 0 (.inl rfl), ← beAt_putStr topic payload]
    rfl
  rw [← List.append_nil (arrive _), readPacket_frame, List.length_append, length_putStr, hparse]
  constructor
  · intro h
    split at h
    next hlen =>
      injection h with h
      injection h with h
      injection h with h
      injection h with htopic hpayload
      have hcut := length_drop_putStr topic payload (Nat.zero_le _)
      rw [Nat.add_zero, hpayload] at hcut
      exact ⟨by omega, hlen⟩
    next => cases h
  · rintro ⟨htopic, hlen⟩
    rw [if_pos hlen, Nat.mod_eq_of_lt htopic, getRange_putStr, drop_putStr, textOf_bytesOf]

theorem read_publish_one_iff (topic : String) (pid : UInt16) (payload : Bytes) :
    readPacket (arrive (frame PUBLISH (((1 : UInt8) &&& 0x03) <<< 1) (putStr topic ++ (beBytes pid.toNat ++ payload)))) =
        .ok (some (.publish topic payload 1 pid), []) ↔
      (bytesOf topic).length < 65536 ∧ 2 + (bytesOf topic).length + 2 + payload.length < 2 ^ 28 := by
  have hparse : parse (PUBLISH <<< 4 ||| (((1 : UInt8) &&& 0x03) <<< 1 &&& 0x0f))
        (putStr topic ++ (beBytes pid.toNat ++ payload)) =
      .publish (textOf (getRange (putStr topic ++ (beBytes pid.toNat ++ payload)) 2 (2 + (bytesOf topic).length % 65536)))
        ((putStr topic ++ (beBytes pid.toNat ++ payload)).drop (2 + (bytesOf topic).length % 65536 + 2)) 1
        (beAt (putStr topic ++ (beBytes pid.toNat ++ payload)) (2 + (bytesOf topic).length % 65536)).toUInt16 := by
    rw [parse_publish 1 (.inr rfl), ← beAt_putStr topic (beBytes pid.toNat ++ payload)]
    rfl
  have hrest : (beBytes pid.toNat ++ payload).length = 2 + payload.length := by
    rw [List.length_append, length_beBytes]
  rw [← List.append_nil (arrive _), readPacket_frame, List.length_append, length_putStr, hrest, hparse, ← Nat.add_assoc]
  constructor
  · intro h
    split at h
    next hlen =>
      injection h with h
      injection h with h
      injection h with h
      injection h with htopic hpayload
      have hcut := length_drop_putStr topic (beBytes pid.toNat ++ payload) (Nat.le.intro hrest.symm)
      rw [hpayload, hrest] at hcut
      exact ⟨by omega, hlen⟩
    next => cases h
  · rintro ⟨htopic, hlen⟩
    have hpid := toUInt16_beAt pid (putStr topic) payload
    rw [length_putStr] at hpid
    have hdrop : (putStr topic ++ (beBytes pid.toNat ++ payload)).drop (2 + (bytesOf topic).length + 2) = payload := by
      rw [← List.drop_drop, drop_putStr]
      rfl
    rw [if_pos hlen, Nat.mod_eq_of_lt htopic, getRange_putStr, hdrop, hpid, textOf_bytesOf]

inductive Request
  | publish (topic : String) (payload : Bytes) (qos : UInt8)
  | subscribe (topic : String) (qos : UInt8)
  | puback (pid : UInt16)
  | pingreq

def Client.request (c : Client) (wrote : Except String Unit) : Request → Option UInt16 × Client
  | .publish topic payload qos => (pidFor c qos, (c.publish wrote topic payload qos).2)
  | .subscribe topic qos => (some c.nextPid, (c.sendSubscribe wrote topic qos).2)
  | .puback pid => (none, (c.puback wrote pid).2)
  | .pingreq => (none, (c.pingreq wrote).2)

def Client.handedOut (c : Client) : List (Request × Except String Unit) → List UInt16
  | [] => []
  | (r, wrote) :: rs => (c.request wrote r).1.toList ++ (c.request wrote r).2.handedOut rs

@[simp] theorem send_nextPid (c : Client) (wrote : Except String Unit) (bytes : Bytes) :
    (c.send wrote bytes).2.nextPid = c.nextPid := by
  cases wrote with
  | ok u => rfl
  | error e => rfl

theorem pid_nextPid_ne_zero (c : Client) : c.pid.2.nextPid ≠ 0 := by
  change (if c.nextPid + 1 ≤ 1 then 1 else c.nextPid + 1) ≠ 0
  split
  · decide
  next hlt =>
    intro hzero
    rw [hzero] at hlt
    exact hlt (by decide)

theorem publish_nextPid (c : Client) (wrote : Except String Unit) (topic : String) (payload : Bytes) (qos : UInt8) :
    (c.publish wrote topic payload qos).2.nextPid = if 0 < qos then c.pid.2.nextPid else c.nextPid := by
  unfold Client.publish
  by_cases hqos : 0 < qos
  · rw [if_pos hqos, if_pos hqos]
    exact send_nextPid ..
  · rw [if_neg hqos, if_neg hqos]
    exact send_nextPid ..

theorem request_nextPid {c : Client} (h : c.nextPid ≠ 0) (r : Request) (wrote : Except String Unit) :
    (c.request wrote r).2.nextPid ≠ 0 := by
  cases r with
  | publish topic payload qos =>
    change (c.publish wrote topic payload qos).2.nextPid ≠ 0
    rw [publish_nextPid]
    split
    · exact pid_nextPid_ne_zero c
    · exact h
  | subscribe topic qos => exact (send_nextPid ..).trans_ne (pid_nextPid_ne_zero c)
  | puback pid => exact (send_nextPid ..).trans_ne h
  | pingreq => exact (send_nextPid ..).trans_ne h

theorem request_pid {c : Client} (h : c.nextPid ≠ 0) (r : Request) (wrote : Except String Unit) :
    0 ∉ (c.request wrote r).1.toList := by
  have hnext : 0 ∉ (some c.nextPid).toList := fun hmem => h (List.mem_singleton.mp hmem).symm
  cases r with
  | publish topic payload qos =>
    change 0 ∉ (pidFor c qos).toList
    unfold pidFor
    split
    · exact hnext
    · exact List.not_mem_nil
  | subscribe topic qos => exact hnext
  | puback pid => exact List.not_mem_nil
  | pingreq => exact List.not_mem_nil

theorem handedOut_ne_zero {c : Client} (h : c.nextPid ≠ 0) (rs : List (Request × Except String Unit)) :
    0 ∉ c.handedOut rs := by
  induction rs generalizing c with
  | nil => exact List.not_mem_nil
  | cons r rs ih =>
    intro hmem
    rcases List.mem_append.mp hmem with hmem | hmem
    · exact request_pid h r.1 r.2 hmem
    · exact ih (request_nextPid h r.1 r.2) hmem

theorem publishReadsBack_iff (c : Client) (topic : String) (payload : Bytes) {qos : UInt8} (hqos : qos = 0 ∨ qos = 1) :
    PublishReadsBack c topic payload qos ↔
      (bytesOf topic).length < 65536 ∧
        2 + (bytesOf topic).length + (if 0 < qos then 2 else 0) + payload.length < 2 ^ 28 := by
  rw [publishReadsBack_iff_read]
  rcases hqos with rfl | rfl
  · exact read_publish_zero_iff topic payload
  · exact read_publish_one_iff topic c.nextPid payload

/-- A publish is read back as it was made exactly when its topic fits in 16 bits of length and its
packet in 28; and no identifier that is handed out is 0. -/
theorem publish_reads_back_iff (c : Client) (topic : String) (payload : Bytes) {qos : UInt8} (hqos : qos = 0 ∨ qos = 1) :
    (PublishReadsBack c topic payload qos ∧ ∀ requests, 0 ∉ Client.new.handedOut requests) ↔
      (bytesOf topic).length < 65536 ∧
        2 + (bytesOf topic).length + (if 0 < qos then 2 else 0) + payload.length < 2 ^ 28 := by
  have hids : ∀ requests, 0 ∉ Client.new.handedOut requests := handedOut_ne_zero (by decide)
  rw [and_iff_left hids]
  exact publishReadsBack_iff c topic payload hqos

theorem publish_reads_back_greeting :
    ((1 : UInt8) = 0 ∨ (1 : UInt8) = 1) ∧ PublishReadsBack ⟨65535, []⟩ "t/1" (bytesOf "hi") 1 :=
  ⟨.inr rfl, ((publish_reads_back_iff ⟨65535, []⟩ "t/1" (bytesOf "hi") (.inr rfl)).mpr (by decide)).1⟩

def topicOf (n : Nat) : String := String.ofList (List.replicate n 'a')

theorem length_topicOf (n : Nat) : (bytesOf (topicOf n)).length = n := by
  rw [topicOf, bytesOf_ofList]
  induction n with
  | zero => rfl
  | succ n ih =>
    rw [List.replicate_succ, utf8_cons, List.length_append, ih, Nat.add_comm]
    rfl

/-- The length of this topic is written as 0. -/
theorem publish_long_topic_misread : ¬ PublishReadsBack .new (topicOf 65536) [] 1 := by
  intro hread
  have hshort := ((publishReadsBack_iff .new (topicOf 65536) [] (.inr rfl)).mp hread).1
  rw [length_topicOf] at hshort
  exact Nat.lt_irrefl _ hshort

end Vejas.Mqtt
