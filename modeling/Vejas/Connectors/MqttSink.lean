import Vejas.Connectors.MqttClient
import Vejas.Lib.Transition

/-! The MQTT sink, with the broker at the other end of its sessions. A message is answered for only
once the broker has taken it; a session in which anything goes wrong is dropped with all that
was under way in it. -/

namespace Vejas.MqttOut
open Rust Vjs Mqtt

/-- A session: the client, the writes that the broker has still to read, and its PUBACKs on their way. -/
structure Session where
  client : Client
  wire : List Bytes
  acks : List UInt16

/-- `waiting` is the message in hand with the identifier whose PUBACK is waited for; `adrift` are the
writes of dropped sessions, which the broker may still come to read. -/
structure Sink where
  session : Option Session
  waiting : Option (Bytes × UInt16)
  adrift : List Bytes
  taken : List (String × Bytes)
  done : List Bytes

inductive Reading
  | puback
  | other
  | timeout
  | fault

inductive Event
  | call (data : Bytes) (connected wrote : Except String Unit)
  | read (r : Reading)
  | broker
  | late

namespace Sink

def dropSession (s : Sink) : Sink :=
  { s with session := none, waiting := none, adrift := s.adrift ++ (s.session.map (·.wire)).getD [] }

def publish (topic : String) (qos : UInt8) (s : Sink) (l : Session) (data : Bytes) (wrote : Except String Unit) : Sink :=
  match l.client.publish wrote topic data qos with
  | (.error _, _) => dropSession { s with session := some l }
  | (.ok none, c) => { s with session := some { l with client := c }, done := s.done ++ [data] }
  | (.ok (some want), c) =>
    { s with session := some { l with client := c, wire := l.wire ++ [c.sent.drop l.client.sent.length] }, waiting := some (data, want) }

def await (s : Sink) (l : Session) (data : Bytes) (want : UInt16) : Reading → Option Sink
  | .puback =>
    match l.acks with
    | [] => none
    | pid :: acks =>
      if pid = want then some { s with session := some { l with acks }, waiting := none, done := s.done ++ [data] }
      else some { s with session := some { l with acks } }
  | .other => some s
  | .timeout | .fault => some s.dropSession

end Sink

def understood (bytes : Bytes) : Option (String × Bytes × UInt16) :=
  match readPacket (arrive bytes) with
  | .ok (some (.publish topic payload _ pid), []) => some (topic, payload, pid)
  | _ => none

def step (topic : String) (qos : UInt8) (s : Sink) : Event → Option Sink
  | .call data connected wrote =>
    match s.waiting, s.session, connected with
    | some _, _, _ => none
    | none, some l, _ => some (s.publish topic qos l data wrote)
    | none, none, .ok () => some (s.publish topic qos ⟨.new, [], []⟩ data wrote)
    | none, none, .error _ => some s
  | .read r =>
    match s.waiting, s.session with
    | some (data, want), some l => s.await l data want r
    | _, _ => none
  | .broker =>
    match s.session with
    | none => none
    | some l =>
      match l.wire with
      | [] => none
      | bytes :: wire =>
        match understood bytes with
        | none => some { s with session := some { l with wire } }
        | some (t, payload, pid) =>
          some { s with session := some { l with wire, acks := l.acks ++ [pid] }, taken := s.taken ++ [(t, payload)] }
  | .late =>
    match s.adrift with
    | [] => none
    | bytes :: adrift =>
      match understood bytes with
      | none => some { s with adrift }
      | some (t, payload, _) => some { s with adrift, taken := s.taken ++ [(t, payload)] }

def opened (s : Sink) : Prop := s.session = none ∧ s.waiting = none ∧ s.done = []

def system (topic : String) (qos : UInt8) : Transition Sink Event := .ofStep (step topic qos) opened

def packet (topic : String) (data : Bytes) (pid : UInt16) : Bytes :=
  frame PUBLISH (((1 : UInt8) &&& 0x03) <<< 1) (putStr topic ++ (beBytes pid.toNat ++ data))

def Carries (topic : String) (data : Bytes) (want : UInt16) (bytes : Bytes) : Prop :=
  ∀ r, understood bytes = some r → r = (topic, data, want)

section
variable {topic : String}

theorem carries_packet (htopic : (bytesOf topic).length < 65536) (data : Bytes) (pid : UInt16) :
    Carries topic data pid (packet topic data pid) := by
  intro r h
  unfold understood packet at h
  by_cases hlen : 2 + (bytesOf topic).length + 2 + data.length < 2 ^ 28
  · rw [(read_publish_one_iff topic pid data).mpr ⟨htopic, hlen⟩] at h
    cases h
    rfl
  · have hbody : (putStr topic ++ (beBytes pid.toNat ++ data)).length = 2 + (bytesOf topic).length + 2 + data.length := by
      rw [List.length_append, List.length_append, length_putStr, length_beBytes, Nat.add_assoc, Nat.add_assoc, Nat.add_assoc]
    rw [← List.append_nil (arrive _), readPacket_frame, hbody, if_neg hlen] at h
    cases h

inductive Owed (topic : String) (s : Sink) (l : Session) (data : Bytes) (want : UInt16) : Prop
  | unread (bytes : Bytes) : l.wire = [bytes] → l.acks = [] → Carries topic data want bytes → Owed topic s l data want
  | unreadable : l.wire = [] → l.acks = [] → Owed topic s l data want
  | answered : l.wire = [] → l.acks = [want] → ((s.done ++ [data]).map fun d => (topic, d)).Sublist s.taken → Owed topic s l data want

structure Sound (topic : String) (s : Sink) : Prop where
  order : (s.done.map fun d => (topic, d)).Sublist s.taken
  alone : s.session = none → s.waiting = none
  idle : ∀ l, s.session = some l → s.waiting = none → l.wire = [] ∧ l.acks = []
  busy : ∀ l data want, s.session = some l → s.waiting = some (data, want) → Owed topic s l data want

variable {s s' : Sink} {l : Session}

theorem Sound.dropSession (h : Sound topic s) : Sound topic s.dropSession where
  order := h.order
  alone _ := rfl
  idle _ hl := by cases hl
  busy _ _ _ hl := by cases hl

theorem Owed.taken {data : Bytes} {want : UInt16} (h : Owed topic s l data want) (hdone : s'.done = s.done)
    (htaken : s.taken.Sublist s'.taken) : Owed topic s' l data want := by
  cases h with
  | unread bytes hwire hacks hcarries => exact .unread bytes hwire hacks hcarries
  | unreadable hwire hacks => exact .unreadable hwire hacks
  | answered hwire hacks hsub =>
    refine .answered hwire hacks ?_
    rw [hdone]
    exact hsub.trans htaken

theorem Sound.publish (htopic : (bytesOf topic).length < 65536) (h : Sound topic s) (hwire : l.wire = []) (hacks : l.acks = [])
    (data : Bytes) (wrote : Except String Unit) : Sound topic (s.publish topic 1 l data wrote) := by
  cases wrote with
  | error e =>
    have hadrift : Sound topic { s with session := none, waiting := none, adrift := s.adrift ++ l.wire } :=
      ⟨h.order, fun _ => rfl, fun _ hl => (by cases hl), fun _ _ _ hl => (by cases hl)⟩
    exact hadrift
  | ok u =>
    have hsent : (l.client.sent ++ packet topic data l.client.nextPid).drop l.client.sent.length = packet topic data l.client.nextPid :=
      List.drop_left
    refine ⟨h.order, fun hl => (by cases hl), fun _ _ hw => (by cases hw), ?_⟩
    rintro _ _ _ ⟨⟩ ⟨⟩
    refine .unread (packet topic data l.client.nextPid) ?_ hacks (carries_packet htopic data l.client.nextPid)
    show l.wire ++ [(l.client.sent ++ packet topic data l.client.nextPid).drop l.client.sent.length] = _
    rw [hwire, hsent, List.nil_append]

theorem Sound.await (h : Sound topic s) (hl : s.session = some l) {data : Bytes} {want : UInt16} (hw : s.waiting = some (data, want))
    {r : Reading} (hs : s.await l data want r = some s') : Sound topic s' := by
  cases r with
  | other =>
    cases hs
    exact h
  | timeout =>
    cases hs
    exact h.dropSession
  | fault =>
    cases hs
    exact h.dropSession
  | puback =>
    unfold Sink.await at hs
    dsimp only at hs
    cases h.busy l data want hl hw with
    | unread bytes hwire hacks hcarries =>
      rw [hacks] at hs
      cases hs
    | unreadable hwire hacks =>
      rw [hacks] at hs
      cases hs
    | answered hwire hacks hsub =>
      rw [hacks] at hs
      dsimp only at hs
      rw [if_pos rfl] at hs
      cases hs
      refine ⟨hsub, fun hn => (by cases hn), ?_, fun _ _ _ _ hn => (by cases hn)⟩
      rintro _ ⟨⟩ -
      exact ⟨hwire, rfl⟩

theorem Sound.broker (h : Sound topic s) (hl : s.session = some l) {bytes : Bytes} {wire : List Bytes} (hwire : l.wire = bytes :: wire) :
    (understood bytes = none → Sound topic { s with session := some { l with wire } }) ∧
    ∀ t payload pid, understood bytes = some (t, payload, pid) →
      Sound topic { s with session := some { l with wire, acks := l.acks ++ [pid] }, taken := s.taken ++ [(t, payload)] } := by
  cases hwaiting : s.waiting with
  | none =>
    have hidle := (h.idle l hl hwaiting).1
    rw [hwire] at hidle
    cases hidle
  | some entry =>
    obtain ⟨data, want⟩ := entry
    cases h.busy l data want hl hwaiting with
    | unreadable hempty _ =>
      rw [hwire] at hempty
      cases hempty
    | answered hempty _ _ =>
      rw [hwire] at hempty
      cases hempty
    | unread bytes' hone hacks hcarries =>
      rw [hwire] at hone
      cases hone
      constructor
      · intro _
        refine ⟨h.order, fun hn => (by cases hn), fun _ _ hn => (by cases hn), ?_⟩
        rintro _ data' want' ⟨⟩ -
        exact .unreadable rfl hacks
      · intro t payload pid hread
        cases hcarries _ hread
        have hsub : ((s.done ++ [data]).map fun d => (topic, d)).Sublist (s.taken ++ [(topic, data)]) := by
          rw [List.map_append]
          exact h.order.append (List.Sublist.refl _)
        refine ⟨h.order.trans (List.sublist_append_left _ _), fun hn => (by cases hn), fun _ _ hn => (by cases hn), ?_⟩
        rintro _ _ _ ⟨⟩ ⟨⟩
        refine .answered rfl ?_ hsub
        show l.acks ++ [want] = [want]
        rw [hacks, List.nil_append]

theorem Sound.takes (h : Sound topic s) {taken : List (String × Bytes)} {adrift : List Bytes} (htaken : s.taken.Sublist taken) :
    Sound topic { s with adrift, taken } where
  order := h.order.trans htaken
  alone := h.alone
  idle := h.idle
  busy l data want hl hw := (h.busy l data want hl hw).taken rfl htaken

theorem Sound.step (htopic : (bytesOf topic).length < 65536) (h : Sound topic s) {e : Event} (hs : MqttOut.step topic 1 s e = some s') :
    Sound topic s' := by
  cases e with
  | call data connected wrote =>
    unfold MqttOut.step at hs
    dsimp only at hs
    split at hs
    next => cases hs
    next l hwaiting hsession =>
      cases hs
      obtain ⟨hwire, hacks⟩ := h.idle l hsession hwaiting
      exact h.publish htopic hwire hacks data wrote
    next =>
      cases hs
      exact h.publish htopic rfl rfl data wrote
    next =>
      cases hs
      exact h
  | read r =>
    unfold MqttOut.step at hs
    dsimp only at hs
    split at hs
    next data want l hwaiting hsession => exact h.await hsession hwaiting hs
    next => cases hs
  | broker =>
    unfold MqttOut.step at hs
    dsimp only at hs
    split at hs
    next => cases hs
    next l hsession =>
      split at hs
      next => cases hs
      next bytes wire hwire =>
        split at hs
        next hnone =>
          cases hs
          exact (h.broker hsession hwire).1 hnone
        next t payload pid hread =>
          cases hs
          exact (h.broker hsession hwire).2 t payload pid hread
  | late =>
    unfold MqttOut.step at hs
    dsimp only at hs
    split at hs
    next => cases hs
    next bytes adrift _ =>
      split at hs
      next =>
        cases hs
        exact h.takes (List.Sublist.refl _)
      next t payload pid _ =>
        cases hs
        exact h.takes (List.sublist_append_left _ _)

theorem sound_reachable (htopic : (bytesOf topic).length < 65536) (h : (system topic 1).Reachable s) : Sound topic s := by
  apply h.invariant
  · rintro s ⟨hsession, hwaiting, hdone⟩
    refine ⟨?_, fun _ => hwaiting, fun l hl => ?_, fun l _ _ hl => ?_⟩
    · rw [hdone]
      exact List.nil_sublist _
    · rw [hsession] at hl
      cases hl
    · rw [hsession] at hl
      cases hl
  · intro s e s' hs hstep
    exact hs.step htopic hstep

/-- At QoS 1, what the handler has answered for the broker has taken, in that order and as often;
whatever the sessions, the timeouts and the writes that fail. -/
theorem done_taken (htopic : (bytesOf topic).length < 65536) (h : (system topic 1).Reachable s) :
    (s.done.map fun d => (topic, d)).Sublist s.taken := (sound_reachable htopic h).order

end

theorem step_broker {topic : String} {qos : UInt8} {s : Sink} {l : Session} {bytes payload : Bytes} {wire : List Bytes} {t : String}
    {pid : UInt16} (hl : s.session = some l) (hwire : l.wire = bytes :: wire) (hread : understood bytes = some (t, payload, pid)) :
    step topic qos s .broker =
      some { s with session := some { l with wire, acks := l.acks ++ [pid] }, taken := s.taken ++ [(t, payload)] } := by
  unfold step
  rw [hl]
  dsimp only
  rw [hwire]
  dsimp only
  rw [hread]

def unopened : Sink := ⟨none, none, [], [], []⟩

def greeting : List Event := [.call (bytesOf "hi") (.ok ()) (.ok ()), .broker, .read .puback]

theorem run_greeting : ∃ s, Transition.run (step "t/1" 1) unopened greeting = some s ∧ s.done = [bytesOf "hi"] := by
  have hread : understood (packet "t/1" (bytesOf "hi") 1) = some ("t/1", bytesOf "hi", 1) := by
    unfold understood packet
    rw [(read_publish_one_iff "t/1" 1 (bytesOf "hi")).mpr (by decide)]
  have hcall : step "t/1" 1 unopened (.call (bytesOf "hi") (.ok ()) (.ok ())) =
      some (unopened.publish "t/1" 1 ⟨.new, [], []⟩ (bytesOf "hi") (.ok ())) := rfl
  have hbroker : ∃ s, step "t/1" 1 (unopened.publish "t/1" 1 ⟨.new, [], []⟩ (bytesOf "hi") (.ok ())) .broker = some s ∧
      ∃ l, s.session = some l ∧ l.acks = [1] ∧ s.waiting = some (bytesOf "hi", 1) ∧ s.done = [] :=
    ⟨_, step_broker rfl rfl hread, _, rfl, rfl, rfl, rfl⟩
  obtain ⟨s, hs, l, hl, hacks, hwaiting, hdone⟩ := hbroker
  have hack : ∃ s', step "t/1" 1 s (.read .puback) = some s' ∧ s'.done = [bytesOf "hi"] := by
    unfold step
    rw [hwaiting, hl]
    unfold Sink.await
    dsimp only
    rw [hacks, hdone]
    exact ⟨_, rfl, rfl⟩
  obtain ⟨s', hs', hdone'⟩ := hack
  refine ⟨s', ?_, hdone'⟩
  unfold greeting Transition.run
  rw [hcall, Option.bind_some]
  unfold Transition.run
  rw [hs, Option.bind_some]
  unfold Transition.run
  rw [hs', Option.bind_some]
  rfl

theorem done_taken_greeting : ∃ s, (system "t/1" 1).Reachable s ∧ s.done = [bytesOf "hi"] ∧
    (s.done.map fun d => ("t/1", d)).Sublist s.taken := by
  obtain ⟨s, hrun, hdone⟩ := run_greeting
  have hreach : (system "t/1" 1).Reachable s := Transition.Reachable.run greeting (.init ⟨rfl, rfl, rfl⟩) hrun
  exact ⟨s, hreach, hdone, done_taken (by decide) hreach⟩

end Vejas.MqttOut
