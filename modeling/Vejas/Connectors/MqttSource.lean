import Vejas.Connectors.MqttClient

/-! The MQTT source: it connects with a persistent session, subscribes, and publishes each message
to the bus before it acks it. A broker that resumes a session may send what is pending before it
answers the subscription. -/

namespace Vejas.Mqtt
open Rust Vjs

structure Config where
  clientId : String
  topic : String
  subject : String
  qos : UInt8
  keepalive : Nat
  user : Option String
  pass : Option String

/-- What comes of the calls of one attempt: the two requests of the handshake, and for each turn of
the loop the publish on the bus, the write to the broker and whether a ping is due. -/
structure Outcomes where
  connected : Except String Unit
  subscribed : Except String Unit
  bus : Nat → Except String Unit
  wrote : Nat → Except String Unit
  due : Nat → Bool

structure Outcomes.Good (o : Outcomes) : Prop where
  connected : o.connected = .ok ()
  subscribed : o.subscribed = .ok ()
  bus : ∀ n, o.bus n = .ok ()
  wrote : ∀ n, o.wrote n = .ok ()

section
variable [External]

def Packet.debug : Packet → String
  | .connAck present code =>
    "ConnAck \x7b session_present: " ++ toString present ++ ", code: " ++ toString code ++ " \x7d"
  | .publish topic payload qos pid =>
    "Publish \x7b topic: " ++ debugStr topic ++ ", payload: " ++ toString payload ++ ", qos: " ++ toString qos ++
      ", pid: " ++ toString pid ++ " \x7d"
  | .pubAck pid => "PubAck \x7b pid: " ++ toString pid ++ " \x7d"
  | .subAck pid code => "SubAck \x7b pid: " ++ toString pid ++ ", code: " ++ toString code ++ " \x7d"
  | .pingResp => "PingResp"
  | .other ptype => "Other(" ++ toString ptype ++ ")"

def hexByte (b : UInt8) : String :=
  if b < 16 then "0" ++ hexDigits b.toNat else hexDigits b.toNat

def awaitConnAck (s : Inbound) : Except String Inbound := do
  match ← readPacketBlocking s with
  | (.connAck _ code, s) =>
    if code = 0 then pure s else .error ("CONNACK refused (code " ++ toString code ++ ")")
  | (other, _) => .error ("expected CONNACK, got " ++ other.debug)

def awaitSubAck (s : Inbound) : Except String Inbound := do
  match ← readPacketBlocking s with
  | (.subAck _ code, s) => if code ≤ 2 then pure s else .error ("SUBACK failure (0x" ++ hexByte code ++ ")")
  | (other, _) => .error ("expected SUBACK, got " ++ other.debug)

def handshake (cfg : Config) (o : Outcomes) (s : Inbound) : Except String (Client × Inbound) := do
  let (sent, c) := Client.new.sendConnect o.connected (max cfg.keepalive 1) cfg.clientId false cfg.user cfg.pass
  sent
  let s ← awaitConnAck s
  let (sent, c) := c.sendSubscribe o.subscribed cfg.topic cfg.qos
  sent
  let s ← awaitSubAck s
  pure (c, s)

end

inductive Effect
  | published (subject : String) (payload : Bytes)
  | acked (pid : UInt16)
  deriving DecidableEq

def listen (cfg : Config) (o : Outcomes) : Nat → Client → Inbound → Except String Unit × List Effect
  | 0, _, _ => (.ok (), [])
  | n + 1, c, s =>
    match readPacket s with
    | .error e => (.error e, [])
    | .ok (some (.publish _ payload qos pid), s) =>
      match o.bus n with
      | .error e => (.error ("bus publish: " ++ e), [])
      | .ok () =>
        if 0 < qos then
          match c.puback (o.wrote n) pid with
          | (.error e, _) => (.error e, [.published cfg.subject payload])
          | (.ok (), c) =>
            let (r, log) := listen cfg o n c s
            (r, .published cfg.subject payload :: .acked pid :: log)
        else
          let (r, log) := listen cfg o n c s
          (r, .published cfg.subject payload :: log)
    | .ok (some _, s) => listen cfg o n c s
    | .ok (none, s) =>
      if o.due n then
        match c.pingreq (o.wrote n) with
        | (.error e, _) => (.error e, [])
        | (.ok (), c) => listen cfg o n c s
      else listen cfg o n c s

def attempt [External] (cfg : Config) (o : Outcomes) (n : Nat) (s : Inbound) : Except String Unit × List Effect :=
  match handshake cfg o s with
  | .error e => (.error e, [])
  | .ok (c, s) => listen cfg o n c s

def runSource [External] (cfg : Config) : List (Outcomes × Nat × Inbound) → List Effect
  | [] => []
  | (o, n, s) :: rest =>
    match attempt cfg o n s with
    | (.ok (), log) => log
    | (.error _, log) => log ++ runSource cfg rest

inductive Serves : Inbound → List Packet → Inbound → Prop
  | nil (s : Inbound) : Serves s [] s
  | idle {s rest : Inbound} {ps : List Packet} (h : Serves s ps rest) : Serves (.idle :: s) ps rest
  | packet {s s' rest : Inbound} {b1 : UInt8} {p : Packet} {ps : List Packet} (hread : readRest b1 s = .ok (p, s'))
      (h : Serves s' ps rest) : Serves (.byte b1 :: s) (p :: ps) rest

def Packet.isPublish : Packet → Bool
  | .publish .. => true
  | _ => false

/-- The broker takes the connection, sends what the session has pending and grants the
subscription. -/
structure Resumption (s : Inbound) (pending : List Packet) (rest : Inbound) : Prop where
  serves : ∃ present pid code, code ≤ 2 ∧ Serves s (.connAck present 0 :: (pending ++ [.subAck pid code])) rest
  publishes : ∀ p ∈ pending, p.isPublish = true

def Delivered (cfg : Config) (log : List Effect) : Packet → Prop
  | .publish _ payload qos pid =>
    .published cfg.subject payload ∈ log ∧
      (0 < qos → ∃ before after, log = before ++ after ∧ .published cfg.subject payload ∈ before ∧ .acked pid ∈ after)
  | _ => True

/-- With no call failing, the handshake succeeds, every pending message is delivered given turns
enough, and no number of connections to this session fails one after the other. -/
structure Resumes [External] (cfg : Config) (s : Inbound) (pending : List Packet) : Prop where
  handshakes : ∀ o : Outcomes, o.Good → ∃ r, handshake cfg o s = .ok r
  delivers : ∀ o : Outcomes, o.Good → ∃ least, ∀ n, least ≤ n → ∀ p ∈ pending, Delivered cfg (attempt cfg o n s).2 p
  settles : ∀ conns : Nat → Outcomes, (∀ k, (conns k).Good) → ∃ k r, handshake cfg (conns k) s = .ok r

theorem Serves.blocking {s rest : Inbound} {p : Packet} {ps : List Packet} (h : Serves s (p :: ps) rest) :
    ∃ s', readPacketBlocking s = .ok (p, s') ∧ Serves s' ps rest := by
  generalize hqs : p :: ps = qs at h
  induction h with
  | nil s => cases hqs
  | idle h ih => exact ih hqs
  | packet hread h ih =>
    cases hqs
    exact ⟨_, hread, h⟩

section
variable [External] {cfg : Config} {o : Outcomes} {s rest : Inbound} {pending : List Packet}

theorem awaitConnAck_serves {present : Bool} {ps : List Packet} (h : Serves s (.connAck present 0 :: ps) rest) :
    ∃ s', awaitConnAck s = .ok s' ∧ Serves s' ps rest := by
  obtain ⟨s', hread, hrest⟩ := h.blocking
  refine ⟨s', ?_, hrest⟩
  unfold awaitConnAck
  rw [hread]
  rfl

theorem awaitSubAck_serves {pid : UInt16} {code : UInt8} {ps : List Packet} (hcode : code ≤ 2)
    (h : Serves s (.subAck pid code :: ps) rest) : ∃ s', awaitSubAck s = .ok s' ∧ Serves s' ps rest := by
  obtain ⟨s', hread, hrest⟩ := h.blocking
  refine ⟨s', ?_, hrest⟩
  unfold awaitSubAck
  rw [hread]
  exact if_pos hcode

theorem awaitSubAck_publish {p : Packet} {ps : List Packet} (hp : p.isPublish = true) (h : Serves s (p :: ps) rest) :
    awaitSubAck s = .error ("expected SUBACK, got " ++ p.debug) := by
  obtain ⟨s', hread, -⟩ := h.blocking
  unfold awaitSubAck
  rw [hread]
  cases p with
  | publish topic payload qos pid => rfl
  | _ => cases hp

theorem handshake_good (hgood : o.Good) :
    ∃ c, handshake cfg o s = (awaitConnAck s >>= fun s => awaitSubAck s >>= fun s => pure (c, s)) := by
  unfold handshake Client.sendConnect Client.sendSubscribe Client.send
  rw [hgood.connected, hgood.subscribed]
  exact ⟨_, rfl⟩

theorem handshake_of_none_pending (hgood : o.Good) {present : Bool} {pid : UInt16} {code : UInt8} (hcode : code ≤ 2)
    {later : List Packet} (h : Serves s (.connAck present 0 :: .subAck pid code :: later) rest) :
    ∃ c s', handshake cfg o s = .ok (c, s') ∧ Serves s' later rest := by
  obtain ⟨c, hrun⟩ := @handshake_good _ cfg o s hgood
  obtain ⟨s₁, hconn, hserves⟩ := awaitConnAck_serves h
  obtain ⟨s₂, hsub, hserves⟩ := awaitSubAck_serves hcode hserves
  refine ⟨c, s₂, ?_, hserves⟩
  rw [hrun, hconn]
  change (awaitSubAck s₁ >>= _) = _
  rw [hsub]
  rfl

theorem handshake_of_pending (hgood : o.Good) {p : Packet} (h : Resumption s (p :: pending) rest) :
    handshake cfg o s = .error ("expected SUBACK, got " ++ p.debug) := by
  obtain ⟨present, pid, code, -, hserves⟩ := h.serves
  obtain ⟨c, hrun⟩ := @handshake_good _ cfg o s hgood
  obtain ⟨s₁, hconn, hserves⟩ := awaitConnAck_serves hserves
  have hsub := awaitSubAck_publish (h.publishes p (List.mem_cons_self ..)) hserves
  rw [hrun, hconn]
  change (awaitSubAck s₁ >>= _) = _
  rw [hsub]
  rfl

/-- While it has a message pending, the session is never taken up: whatever the number of
connections, nothing is published and nothing acked. -/
theorem runSource_of_pending {p : Packet} (h : Resumption s (p :: pending) rest)
    (conns : List (Outcomes × Nat × Inbound)) (hconns : ∀ c ∈ conns, c.1.Good ∧ c.2.2 = s) : runSource cfg conns = [] := by
  induction conns with
  | nil => rfl
  | cons conn conns ih =>
    obtain ⟨o, n, s'⟩ := conn
    obtain ⟨hgood, rfl⟩ := hconns _ (List.mem_cons_self ..)
    have hfail : attempt cfg o n s' = (.error ("expected SUBACK, got " ++ p.debug), []) := by
      unfold attempt
      rw [handshake_of_pending hgood h]
    unfold runSource
    rw [hfail]
    exact ih fun c hc => hconns c (List.mem_cons_of_mem _ hc)

end

def effects (cfg : Config) : Packet → List Effect
  | .publish _ payload qos pid => .published cfg.subject payload :: if 0 < qos then [.acked pid] else []
  | _ => []

theorem listen_serves {cfg : Config} {o : Outcomes} (hgood : o.Good) {s rest : Inbound} {ps : List Packet}
    (h : Serves s ps rest) : ∃ turns, ∀ n c, ∃ c',
      listen cfg o (n + turns) c s = ((listen cfg o n c' rest).1, ps.flatMap (effects cfg) ++ (listen cfg o n c' rest).2) := by
  induction h with
  | nil s => exact ⟨0, fun n c => ⟨c, rfl⟩⟩
  | @idle s rest ps h ih =>
    obtain ⟨turns, ih⟩ := ih
    refine ⟨turns + 1, fun n c => ?_⟩
    rw [← Nat.add_assoc, listen]
    dsimp only [readPacket]
    split
    · rw [hgood.wrote]
      exact ih n _
    · exact ih n c
  | @packet s s' rest b1 p ps hread h ih =>
    obtain ⟨turns, ih⟩ := ih
    refine ⟨turns + 1, fun n c => ?_⟩
    have hnext : readPacket (.byte b1 :: s) = .ok (some p, s') := by
      rw [readPacket, hread]
      rfl
    rw [← Nat.add_assoc, listen, hnext]
    cases p with
    | publish topic payload qos pid =>
      dsimp only
      rw [hgood.bus]
      dsimp only
      by_cases hqos : 0 < qos
      · rw [if_pos hqos, hgood.wrote]
        obtain ⟨c', hlisten⟩ := ih n { c with sent := c.sent ++ frame PUBACK 0 (beBytes pid.toNat) }
        refine ⟨c', ?_⟩
        dsimp only [Client.puback, Client.send]
        rw [hlisten, List.flatMap_cons, effects, if_pos hqos]
        rfl
      · rw [if_neg hqos]
        obtain ⟨c', hlisten⟩ := ih n c
        refine ⟨c', ?_⟩
        rw [hlisten, List.flatMap_cons, effects, if_neg hqos]
        rfl
    | connAck present code => exact ih n c
    | pubAck pid => exact ih n c
    | subAck pid code => exact ih n c
    | pingResp => exact ih n c
    | other ptype => exact ih n c

theorem attempt_delivers [External] {cfg : Config} {o : Outcomes} (hgood : o.Good) {s rest : Inbound} {present : Bool}
    {pid : UInt16} {code : UInt8} (hcode : code ≤ 2) {later : List Packet}
    (h : Serves s (.connAck present 0 :: .subAck pid code :: later) rest) :
    ∃ turns, ∀ n, ∃ log, (attempt cfg o (n + turns) s).2 = later.flatMap (effects cfg) ++ log := by
  obtain ⟨c, s', hshake, hlater⟩ := @handshake_of_none_pending _ cfg o s rest hgood present pid code hcode later h
  obtain ⟨turns, hlisten⟩ := @listen_serves cfg o hgood s' rest later hlater
  refine ⟨turns, fun n => ?_⟩
  obtain ⟨c', hrun⟩ := hlisten n c
  refine ⟨(listen cfg o n c' rest).2, ?_⟩
  unfold attempt
  rw [hshake]
  exact congrArg Prod.snd hrun

def allDone : Outcomes := ⟨.ok (), .ok (), fun _ => .ok (), fun _ => .ok (), fun _ => false⟩

theorem allDone_good : allDone.Good := ⟨rfl, rfl, fun _ => rfl, fun _ => rfl⟩

/-- A session is resumed exactly when it has nothing pending. -/
theorem resumes_iff_none_pending [External] (cfg : Config) {s rest : Inbound} {pending : List Packet}
    (h : Resumption s pending rest) : Resumes cfg s pending ↔ pending = [] := by
  cases pending with
  | nil =>
    obtain ⟨present, pid, code, hcode, hserves⟩ := h.serves
    have hshake : ∀ o : Outcomes, o.Good → ∃ r, handshake cfg o s = .ok r := by
      intro o ho
      obtain ⟨c, s', hr, -⟩ := @handshake_of_none_pending _ cfg o s rest ho present pid code hcode [] hserves
      exact ⟨_, hr⟩
    refine iff_of_true ⟨hshake, fun o _ => ⟨0, fun n _ p hp => by cases hp⟩, fun conns hconns => ?_⟩ rfl
    obtain ⟨r, hr⟩ := hshake (conns 0) (hconns 0)
    exact ⟨0, r, hr⟩
  | cons p pending =>
    refine iff_of_false (fun hres => ?_) (List.cons_ne_nil _ _)
    obtain ⟨r, hr⟩ := hres.handshakes _ allDone_good
    cases (handshake_of_pending allDone_good h).symm.trans hr

def plainConfig : Config := ⟨"vejas-in", "t/#", "vx.in", 1, 30, none, none⟩

def freshSession : Inbound := arrive [0x20, 2, 0, 0] ++ .idle :: arrive [0x90, 3, 0, 1, 1]

def pendingSession : Inbound :=
  arrive [0x20, 2, 1, 0] ++ arrive [0x32, 6, 0, 1, 97, 0, 7, 120] ++ arrive [0x90, 3, 0, 1, 1]

theorem freshSession_resumption : Resumption freshSession [] [] where
  serves := ⟨false, 1, 1, by decide, .packet rfl (.idle (.packet rfl (.nil [])))⟩
  publishes p hp := by cases hp

theorem pendingSession_resumption : Resumption pendingSession [.publish "a" [120] 1 7] [] where
  serves := ⟨true, 1, 1, by decide, .packet rfl (.packet rfl (.packet rfl (.nil [])))⟩
  publishes p hp := by
    rw [List.mem_singleton.mp hp]
    rfl

theorem resumes_fresh_session : Resumption freshSession [] [] ∧ @Resumes ascii plainConfig freshSession [] :=
  ⟨freshSession_resumption, (@resumes_iff_none_pending ascii plainConfig _ _ _ freshSession_resumption).mpr rfl⟩

/-- The message comes before the answer to the subscription, and the attempt ends. -/
theorem pending_session_not_resumed :
    Resumption pendingSession [.publish "a" [120] 1 7] [] ∧
      ¬ @Resumes ascii plainConfig pendingSession [.publish "a" [120] 1 7] := by
  refine ⟨pendingSession_resumption, fun hres => ?_⟩
  obtain ⟨r, hr⟩ := @Resumes.handshakes ascii _ _ _ hres _ allDone_good
  cases (@handshake_of_pending ascii plainConfig _ _ _ _ allDone_good _ pendingSession_resumption).symm.trans hr

end Vejas.Mqtt
