import Vejas.Connectors.Wire
import Vejas.Http.Pages
import Vejas.Json.Reading

/-! Dead letters: the envelope a poison message is parked in, and its replay. -/

namespace Vejas.Runtime
open Rust Json Vjs Http Connectors

def deathEnvelope (unit subject : String) (attempts : Int64) (lastError : String) (payload : Bytes)
    (version : String) (now : Nat) : Value := .obj [
  ("original_subject", .string subject), ("unit", .string unit), ("attempts", .number (.ofI64 attempts)),
  ("first_seen", .ofNat now), ("dead_at", .ofNat now), ("last_error", .string lastError),
  ("version", .string version), ("payload", .string (textOf payload))]

inductive Consumer
  | flow
  | detect
  | sink (filter : String)

structure Poison where
  consumer : Consumer
  unit : String
  subject : String
  payload : Bytes
  attempts : Int64
  lastError : String
  version : String
  now : Nat

namespace Poison

/-- The subject `to_dlq` is called with: a sink names its filter, the others the message's own. -/
def named (p : Poison) : String :=
  match p.consumer with
  | .sink filter => filter
  | _ => p.subject

def ranUnder (p : Poison) : String :=
  match p.consumer with
  | .sink _ => ""
  | _ => p.version

def envelope (p : Poison) : Value :=
  deathEnvelope p.unit p.named p.attempts p.lastError p.payload p.ranUnder p.now

end Poison

structure Target where
  seq : Nat
  subject : String
  payload : Bytes
  deriving DecidableEq

def takeTarget (env : Value) : Target where
  seq := ((env.index "seq").asU64).getD 0
  subject := ((env.index "original_subject").asStr).getD ""
  payload := bytesOf (((env.index "payload").asStr).getD "")

/-- The letters of `dlq_replay`: one by its number, or those of a unit, or all. `none` where the
call fails before it publishes anything. -/
def replayTargets (dlq : DlqStream) (seq : Option Nat) (unit : Option String) : Option (List Target) :=
  match dlq.connect with
  | .error _ => none
  | .ok () =>
    match seq with
    | some s =>
      match deadLetter dlq s with
      | [] => none
      | envs => some (envs.map takeTarget)
    | none =>
      match dlqList dlq 100000 with
      | .error _ => none
      | .ok envs =>
        let wanted := envs.filter fun env =>
          match unit with
          | some u => (env.index "unit").asStr == some u
          | none => true
        some (wanted.map takeTarget)

def replayPublishes (dlq : DlqStream) (seq : Option Nat) (unit : Option String) : List Target :=
  ((replayTargets dlq seq unit).getD []).filter fun t => t.subject != "" && t.seq != 0

def Numbered (dlq : DlqStream) : Prop := ∀ k m, dlq.message k = some m → m.1 = k ∧ k < 2 ^ 64

theorem exact_ofI64 (depth : Nat) (n : Int64) : Exact depth (.number (.ofI64 n)) := by
  unfold Number.ofI64
  split
  next h => exact .negInt _ n h
  next => exact .posInt _ _

theorem Poison.exact (p : Poison) : Exact 1 p.envelope := by
  refine .obj fun f hf => ?_
  simp only [List.mem_cons, List.not_mem_nil, or_false] at hf
  rcases hf with rfl | rfl | rfl | rfl | rfl | rfl | rfl | rfl
  · exact .string _ _
  · exact .string _ _
  · exact exact_ofI64 _ _
  · exact .posInt _ _
  · exact .posInt _ _
  · exact .string _ _
  · exact .string _ _
  · exact .string _ _

theorem Poison.reads [External] (p : Poison) : fromStr p.envelope.render = some p.envelope :=
  fromStr_render p.exact (by decide)

theorem deadLetter_envelope [External] {dlq : DlqStream} {seq : Nat} {p : Poison}
    (h : dlq.message seq = some (seq, p.envelope.render)) :
    ∃ env, deadLetter dlq seq = [env] ∧ takeTarget env = ⟨seq % 2 ^ 64, p.named, bytesOf (textOf p.payload)⟩ := by
  unfold deadLetter
  rw [h, Option.bind_some, p.reads]
  refine ⟨_, rfl, ?_⟩
  simp [takeTarget, Value.index, Value.get, Value.asObject, Map.get?_insert, Value.asStr, Value.ofNat,
    Value.asU64, Map.ofEntries, Map.extend]

theorem takeTarget_seq {dlq : DlqStream} (hn : Numbered dlq) {k : Nat} {env : Value}
    (h : env ∈ deadLetter dlq k) : (takeTarget env).seq = k ∨ (takeTarget env).seq = 0 := by
  unfold deadLetter at h
  split at h
  next sequence o hm =>
    left
    obtain ⟨m, hm, hv⟩ := Option.bind_eq_some_iff.mp hm
    obtain ⟨v, -, hv⟩ := Option.map_eq_some_iff.mp hv
    obtain ⟨hk, hlt⟩ := hn k m hm
    have hs : sequence = k := (congrArg Prod.fst hv).symm.trans hk
    rw [List.mem_singleton.mp h, hs]
    simp [takeTarget, Value.index, Value.get, Value.asObject, Map.get?_insert, Value.ofNat, Value.asU64]
    omega
  next v hobj _ =>
    right
    rw [List.mem_singleton.mp h]
    cases v with
    | object o => exact absurd rfl (hobj _)
    | _ => rfl
  next => cases h

theorem mem_dlqFrom {dlq : DlqStream} {first limit seq : Nat} {out : List Value} {env : Value}
    (h : env ∈ dlqFrom dlq first limit seq out) : env ∈ out ∨ ∃ k, env ∈ deadLetter dlq k := by
  induction seq generalizing out with
  | zero => exact (List.mem_append.mp h).imp id fun h => ⟨0, h⟩
  | succ seq ih =>
    rw [dlqFrom] at h
    have hstep : env ∈ out ++ deadLetter dlq (seq + 1) → env ∈ out ∨ ∃ k, env ∈ deadLetter dlq k :=
      fun h => (List.mem_append.mp h).imp id fun h => ⟨seq + 1, h⟩
    split at h
    next => exact hstep h
    next => exact (ih h).elim hstep .inr

theorem mem_dlqList {dlq : DlqStream} {limit : Nat} {envs : List Value} (h : dlqList dlq limit = .ok envs)
    {env : Value} (hm : env ∈ envs) : ∃ k, env ∈ deadLetter dlq k := by
  unfold dlqList at h
  cases hc : dlq.connect with
  | error e => rw [hc] at h; cases h
  | ok u =>
    cases hs : dlq.state with
    | error e => rw [hc, hs] at h; cases h
    | ok at_ =>
      rw [hc, hs] at h
      simp only [bind, Except.bind, pure, Except.pure] at h
      split at h
      next => cases h; cases hm
      next => cases h; exact (mem_dlqFrom hm).elim (fun h => nomatch h) id

theorem mem_replayTargets {dlq : DlqStream} {seq : Option Nat} {unit : Option String} {ts : List Target}
    (h : replayTargets dlq seq unit = some ts) {t : Target} (ht : t ∈ ts) :
    ∃ k, ∃ env ∈ deadLetter dlq k, t = takeTarget env := by
  unfold replayTargets at h
  split at h
  next => cases h
  next =>
    split at h
    next s =>
      split at h
      next => cases h
      next envs _ =>
        cases h
        obtain ⟨env, hm, rfl⟩ := List.mem_map.mp ht
        exact ⟨s, env, hm, rfl⟩
    next =>
      split at h
      next => cases h
      next envs hl =>
        cases h
        obtain ⟨env, hm, rfl⟩ := List.mem_map.mp ht
        obtain ⟨k, hk⟩ := mem_dlqList hl (List.mem_filter.mp hm).1
        exact ⟨k, env, hk, rfl⟩

theorem mem_replayPublishes {dlq : DlqStream} (hn : Numbered dlq) {seq : Option Nat} {unit : Option String}
    {t : Target} (h : t ∈ replayPublishes dlq seq unit) : ∃ env ∈ deadLetter dlq t.seq, t = takeTarget env := by
  unfold replayPublishes at h
  obtain ⟨hm, hp⟩ := List.mem_filter.mp h
  cases hr : replayTargets dlq seq unit with
  | none => rw [hr] at hm; cases hm
  | some ts =>
    rw [hr] at hm
    obtain ⟨k, env, hk, rfl⟩ := mem_replayTargets hr hm
    simp only [Bool.and_eq_true, bne_iff_ne, ne_eq] at hp
    have hs := (takeTarget_seq hn hk).resolve_right hp.2
    exact ⟨env, hs ▸ hk, rfl⟩

structure Parked [External] (dlq : DlqStream) (seq : Nat) (p : Poison) : Prop where
  connects : dlq.connect = .ok ()
  numbered : Numbered dlq
  seq_ne : seq ≠ 0
  subject_ne : p.subject ≠ ""
  stored : dlq.message seq = some (seq, p.envelope.render)

/-- A replay by number publishes the message as it was delivered, and whatever replay takes the letter
publishes nothing else for it. -/
def Faithful (dlq : DlqStream) (seq : Nat) (p : Poison) : Prop :=
  (∀ unit, replayPublishes dlq (some seq) unit = [⟨seq, p.subject, p.payload⟩]) ∧
    ∀ sel unit, ∀ t ∈ replayPublishes dlq sel unit, t.seq = seq → t = ⟨seq, p.subject, p.payload⟩

namespace Parked
variable [External] {dlq : DlqStream} {seq : Nat} {p : Poison}

theorem letter (h : Parked dlq seq p) :
    ∃ env, deadLetter dlq seq = [env] ∧ takeTarget env = ⟨seq, p.named, bytesOf (textOf p.payload)⟩ := by
  have hlt := (h.numbered seq _ h.stored).2
  simpa only [Nat.mod_eq_of_lt hlt] using deadLetter_envelope h.stored

theorem publishes (h : Parked dlq seq p) (unit : Option String) :
    replayPublishes dlq (some seq) unit =
      if p.named = "" then [] else [⟨seq, p.named, bytesOf (textOf p.payload)⟩] := by
  obtain ⟨env, hd, ht⟩ := h.letter
  unfold replayPublishes replayTargets
  simp only [h.connects, hd, List.map_cons, List.map_nil, Option.getD_some, ht]
  by_cases hs : p.named = ""
  · simp [hs]
  · simp [hs, h.seq_ne]

theorem target (h : Parked dlq seq p) {sel : Option Nat} {unit : Option String} {t : Target}
    (ht : t ∈ replayPublishes dlq sel unit) (hs : t.seq = seq) :
    t = ⟨seq, p.named, bytesOf (textOf p.payload)⟩ := by
  obtain ⟨env, hm, rfl⟩ := mem_replayPublishes h.numbered ht
  obtain ⟨env', hd, ht'⟩ := h.letter
  rw [hs, hd] at hm
  rw [List.mem_singleton.mp hm, ht']

end Parked

theorem Poison.named_eq_iff (p : Poison) :
    p.named = p.subject ↔ ∀ filter, p.consumer = .sink filter → filter = p.subject := by
  unfold Poison.named
  cases hc : p.consumer with
  | sink filter =>
    constructor
    · intro h f hf
      cases hf
      exact h
    · intro h
      exact h filter rfl
  | flow => simp
  | detect => simp

/-- A dead letter replays faithfully exactly when its payload is text and, where a sink gave it up, the
sink's filter is the subject itself. -/
theorem faithful_iff [External] {dlq : DlqStream} {seq : Nat} {p : Poison} (h : Parked dlq seq p) :
    Faithful dlq seq p ↔
      isUtf8 p.payload = true ∧ ∀ filter, p.consumer = .sink filter → filter = p.subject := by
  rw [← p.named_eq_iff]
  constructor
  · intro ⟨hp, _⟩
    have hpub := hp none
    rw [h.publishes] at hpub
    split at hpub
    next => cases hpub
    next =>
      have ht := List.cons.inj hpub |>.1
      exact ⟨beq_iff_eq.mpr (congrArg Target.payload ht), congrArg Target.subject ht⟩
  · intro ⟨hu, hn⟩
    have htext : bytesOf (textOf p.payload) = p.payload := beq_iff_eq.mp hu
    constructor
    · intro unit
      rw [h.publishes, if_neg (hn ▸ h.subject_ne), hn, htext]
    · intro sel unit t ht hs
      rw [h.target ht hs, hn, htext]

section
variable [External]

def oneLetter (p : Poison) : DlqStream where
  connect := .ok ()
  state := .ok (1, 1, 1)
  message k := if k = 1 then some (1, p.envelope.render) else none

theorem parked_oneLetter {p : Poison} (hs : p.subject ≠ "") : Parked (oneLetter p) 1 p where
  connects := rfl
  numbered k m h := by
    simp only [oneLetter, Option.ite_none_right_eq_some, Option.some.injEq] at h
    obtain ⟨rfl, rfl⟩ := h
    exact ⟨rfl, by decide⟩
  seq_ne := by decide
  subject_ne := hs
  stored := rfl

end

def poison (consumer : Consumer) : Poison where
  consumer := consumer
  unit := "orders_out"
  subject := "vx.orders.eu"
  payload := bytesOf "not json"
  attempts := 5
  lastError := "refused"
  version := ""
  now := 1700000000

theorem faithful_iff_flow : @Parked ascii (@oneLetter ascii (poison .flow)) 1 (poison .flow) ∧
    Faithful (@oneLetter ascii (poison .flow)) 1 (poison .flow) := by
  have hp := @parked_oneLetter ascii (poison .flow) (by decide)
  refine ⟨hp, (@faithful_iff ascii _ _ _ hp).mpr ⟨isUtf8_bytesOf _, ?_⟩⟩
  intro filter hf
  cases hf

/-- A letter of a sink on `vx.orders.*` goes back to the subject `vx.orders.*`. -/
theorem sink_letter_loses_subject :
    ¬ ∀ (dlq : DlqStream) (seq : Nat) (p : Poison), @Parked ascii dlq seq p → Faithful dlq seq p := by
  intro hall
  have hp := @parked_oneLetter ascii (poison (.sink "vx.orders.*")) (by decide)
  have hpub := (hall _ _ _ hp).1 none
  rw [@Parked.publishes ascii _ _ _ hp] at hpub
  have ht := congrArg Target.subject (List.cons.inj hpub).1
  exact absurd ht (by decide)

end Vejas.Runtime
