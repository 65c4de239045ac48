import Mathlib.Data.List.Nodup
import Vejas.Lib.Pool
import Vejas.Runtime.DeadLetters
import Vejas.Runtime.Flow

/-! The loop every sink shares: a durable hands out messages, as often as it takes, to any number
of instances; each is given to the handler, acked if the handler takes it, and parked in the DLQ
once its deliveries are used up. -/

namespace Vejas.Sink
open Rust Json Vjs Governance Vejas.Runtime

/-- A message the durable is owed an ack for: how often it was delivered, and whether the answer to
the last delivery is still waited for. -/
structure Pending where
  seq : Nat
  data : Bytes
  deliveries : Nat
  out : Bool
  deriving DecidableEq

structure Call where
  seq : Nat
  delivered : Nat
  data : Bytes
  result : Except String (Option String)

/-- The stream and the bodies in the DLQ, and what was done: the messages published and the calls of the handler. -/
structure Store where
  last : Nat
  pending : List Pending
  letters : List Value
  published : List (Nat × Bytes)
  calls : List Call

inductive Hand
  | empty
  | given (m : Pending)
  | handled (m : Pending)
  | refused (m : Pending) (e : String)
  | parked (m : Pending)
  | unparked (m : Pending)

structure Config where
  name : String
  subject : String

inductive Move
  | take (seq : Nat)
  | handle (result : Except String (Option String))
  | park (fate : Fate) (now : Nat)
  | ack (arrives : Bool)
  | nak (arrives : Bool)
  -- stopped, or crashed: what is in hand stays un-acked
  | stop

inductive Outside
  | publish (data : Bytes)
  | expire (seq : Nat)

def Config.letter (cfg : Config) (m : Pending) (e : String) (now : Nat) : Value :=
  deathEnvelope cfg.name cfg.subject (.ofNat m.deliveries) e m.data "" now

namespace Pending

def deliver (m : Pending) : Pending := { m with deliveries := m.deliveries + 1, out := true }

def release (m : Pending) : Pending := { m with out := false }

end Pending

namespace Store

def onSeq (s : Store) (seq : Nat) (f : Pending → Pending) : Store :=
  { s with pending := s.pending.map fun p => if p.seq = seq then f p else p }

def acked (s : Store) (seq : Nat) : Store := { s with pending := s.pending.filter (·.seq ≠ seq) }

def called (s : Store) (c : Call) : Store := { s with calls := c :: s.calls }

def park (s : Store) (l : Value) : Store := { s with letters := l :: s.letters }

end Store

def act (cfg : Config) (s : Store) : Hand → Move → Option (Store × Hand)
  | .empty, .take seq =>
    match s.pending.find? fun p => p.seq = seq && !p.out with
    | none => none
    | some p => some (s.onSeq seq Pending.deliver, .given p.deliver)
  | .given m, .handle (.ok response) => some (s.called ⟨m.seq, m.deliveries, m.data, .ok response⟩, .handled m)
  | .given m, .handle (.error e) => some (s.called ⟨m.seq, m.deliveries, m.data, .error e⟩, .refused m e)
  | .refused m e, .park fate now =>
    if m.deliveries < maxDeliveries then none
    else match fate with
      | .ok => some (s.park (cfg.letter m e now), .parked m)
      | .failed _ => some (s, .unparked m)
      | .lost _ => some (s.park (cfg.letter m e now), .unparked m)
  | .handled m, .ack arrives | .parked m, .ack arrives => some (if arrives then s.acked m.seq else s, .empty)
  | .unparked m, .nak arrives => some (if arrives then s.onSeq m.seq Pending.release else s, .empty)
  | .refused m _, .nak arrives =>
    if maxDeliveries ≤ m.deliveries then none
    else some (if arrives then s.onSeq m.seq Pending.release else s, .empty)
  | _, .stop => some (s, .empty)
  | _, _ => none

def outside (s : Store) : Outside → Option Store
  | .publish data => some { s with
      last := s.last + 1
      pending := s.pending ++ [⟨s.last + 1, data, 0, false⟩]
      published := (s.last + 1, data) :: s.published }
  | .expire seq => some (s.onSeq seq Pending.release)

def sink (cfg : Config) : Pool Store Hand Move Outside := ⟨act cfg, outside⟩

variable {τ : Type} [DecidableEq τ]

def unused : Store := ⟨0, [], [], [], []⟩

def started (s : Pool.State Store Hand τ) : Prop := s.shared = unused ∧ ∀ t, s.locals t = .empty

def system (cfg : Config) : Transition (Pool.State Store Hand τ) (Pool.Label Move Outside τ) :=
  (sink cfg).system started

/-- The letter was written at this call, and holds the text of the message. -/
def Buried (cfg : Config) (c : Call) (l : Value) : Prop :=
  maxDeliveries ≤ c.delivered ∧ ∃ e now, c.result = .error e ∧
    l = deathEnvelope cfg.name cfg.subject (.ofNat c.delivered) e c.data "" now

def Handled (s : Store) (seq : Nat) (data : Bytes) : Prop :=
  ∃ c ∈ s.calls, c.seq = seq ∧ c.data = data ∧ ∃ response, c.result = .ok response

def DeadLettered (cfg : Config) (s : Store) (seq : Nat) (data : Bytes) : Prop :=
  ∃ l ∈ s.letters, ∃ c ∈ s.calls, c.seq = seq ∧ c.data = data ∧ Buried cfg c l

inductive Effect (cfg : Config) (s : Store) : Hand → Store → Hand → Prop
  | taken {p : Pending} : p ∈ s.pending → p.out = false →
      Effect cfg s .empty (s.onSeq p.seq Pending.deliver) (.given p.deliver)
  | called {m : Pending} {r : Except String (Option String)} {l : Hand} :
      (∀ x, r = .ok x → l = .handled m) → (∀ e, r = .error e → l = .refused m e) →
      Effect cfg s (.given m) (s.called ⟨m.seq, m.deliveries, m.data, r⟩) l
  | parked {m : Pending} {e : String} {now : Nat} {l : Hand} : maxDeliveries ≤ m.deliveries →
      l = .parked m ∨ l = .unparked m → Effect cfg s (.refused m e) (s.park (cfg.letter m e now)) l
  | unparked {m : Pending} {e : String} : maxDeliveries ≤ m.deliveries → Effect cfg s (.refused m e) s (.unparked m)
  | acked {m : Pending} {l : Hand} : l = .handled m ∨ l = .parked m → Effect cfg s l (s.acked m.seq) .empty
  | released {m : Pending} {l : Hand} : l = .unparked m ∨ (∃ e, l = .refused m e ∧ m.deliveries < maxDeliveries) →
      Effect cfg s l (s.onSeq m.seq Pending.release) .empty
  | left {l : Hand} : Effect cfg s l s .empty

theorem act_effect {cfg : Config} {s s' : Store} {l l' : Hand} {c : Move} (h : act cfg s l c = some (s', l')) :
    Effect cfg s l s' l' := by
  unfold act at h
  split at h
  next seq =>
    split at h
    · cases h
    next p hp =>
      cases h
      have hmem := List.mem_of_find?_eq_some hp
      have hseq := List.find?_some hp
      rw [Bool.and_eq_true, decide_eq_true_eq, Bool.not_eq_true'] at hseq
      rw [← hseq.1]
      exact .taken hmem hseq.2
  next =>
    cases h
    exact .called (fun _ _ => rfl) fun _ h => by cases h
  next =>
    cases h
    exact .called (fun _ h => by cases h) fun _ h => by rw [Except.error.inj h]
  next m e fate now =>
    split at h
    · cases h
    next hge =>
      have hmax : maxDeliveries ≤ m.deliveries := Nat.le_of_not_lt hge
      cases fate with
      | ok =>
        cases h
        exact .parked hmax (.inl rfl)
      | failed e =>
        cases h
        exact .unparked hmax
      | lost e =>
        cases h
        exact .parked hmax (.inr rfl)
  next m arrives =>
    cases arrives with
    | true =>
      cases h
      exact .acked (.inl rfl)
    | false =>
      cases h
      exact .left
  next m arrives =>
    cases arrives with
    | true =>
      cases h
      exact .acked (.inr rfl)
    | false =>
      cases h
      exact .left
  next m arrives =>
    cases arrives with
    | true =>
      cases h
      exact .released (.inl rfl)
    | false =>
      cases h
      exact .left
  next m e arrives =>
    split at h
    · cases h
    next hlt =>
      cases arrives with
      | true =>
        cases h
        exact .released (.inr ⟨e, rfl, Nat.lt_of_not_le hlt⟩)
      | false =>
        cases h
        exact .left
  next =>
    cases h
    exact .left
  next => cases h

/-- Where a message that was published is: the durable still owes it an ack, or the handler took it,
or a letter holds it. -/
def Kept (cfg : Config) (s : Store) (seq : Nat) (data : Bytes) : Prop :=
  (∃ p ∈ s.pending, p.seq = seq) ∨ Handled s seq data ∨ DeadLettered cfg s seq data

structure Sound (cfg : Config) (s : Store) : Prop where
  numbered : (s.published.map (·.1)).Nodup ∧ ∀ p ∈ s.published, p.1 ≤ s.last
  owed : ∀ p ∈ s.pending, (p.seq, p.data) ∈ s.published
  once : (s.pending.map (·.seq)).Nodup
  kept : ∀ p ∈ s.published, Kept cfg s p.1 p.2
  letters : ∀ l ∈ s.letters, ∃ c ∈ s.calls, Buried cfg c l
  calls : (s.calls.map fun c => (c.seq, c.delivered)).Nodup
  made : ∀ c ∈ s.calls, (c.seq, c.data) ∈ s.published ∧
    ∀ p ∈ s.pending, p.seq = c.seq → c.delivered ≤ p.deliveries

def Vouched (cfg : Config) (s : Store) (m : Pending) : Hand → Prop
  | .empty => True
  | .given _ => ∀ c ∈ s.calls, ¬ (c.seq = m.seq ∧ c.delivered = m.deliveries)
  | .handled _ => Handled s m.seq m.data
  | .refused _ e => ∃ c ∈ s.calls, c.seq = m.seq ∧ c.delivered = m.deliveries ∧ c.data = m.data ∧ c.result = .error e
  | .parked _ => DeadLettered cfg s m.seq m.data
  | .unparked _ => True

def Hand.message : Hand → Option Pending
  | .empty => none
  | .given m | .handled m | .refused m _ | .parked m | .unparked m => some m

structure Held (cfg : Config) (s : Store) (l : Hand) (m : Pending) : Prop where
  published : (m.seq, m.data) ∈ s.published
  delivered : ∀ p ∈ s.pending, p.seq = m.seq → m.deliveries ≤ p.deliveries
  vouched : Vouched cfg s m l

def HandSound (cfg : Config) (s : Store) (l : Hand) : Prop := ∀ m, l.message = some m → Held cfg s l m

def Apart (l k : Hand) : Prop :=
  ∀ m n, l.message = some m → k.message = some n → m.seq = n.seq → m.deliveries ≠ n.deliveries

theorem Apart.symm {l k : Hand} (h : Apart l k) : Apart k l := fun m n hm hn hseq => (h n m hn hm hseq.symm).symm

variable {cfg : Config} {s s' : Store} {l l' : Hand}

structure Grows (s s' : Store) : Prop where
  published : s'.published = s.published ∧ s'.last = s.last
  letters : s.letters ⊆ s'.letters
  calls : s.calls ⊆ s'.calls
  pending : ∀ p' ∈ s'.pending, ∃ p ∈ s.pending, p'.seq = p.seq ∧ p'.data = p.data ∧ p.deliveries ≤ p'.deliveries

theorem Handled.mono {seq : Nat} {data : Bytes} (h : Handled s seq data) (hsub : s.calls ⊆ s'.calls) :
    Handled s' seq data := by
  obtain ⟨c, hc, hrest⟩ := h
  exact ⟨c, hsub hc, hrest⟩

theorem DeadLettered.mono {seq : Nat} {data : Bytes} (h : DeadLettered cfg s seq data) (hletters : s.letters ⊆ s'.letters)
    (hcalls : s.calls ⊆ s'.calls) : DeadLettered cfg s' seq data := by
  obtain ⟨l, hl, c, hc, hrest⟩ := h
  exact ⟨l, hletters hl, c, hcalls hc, hrest⟩

def Steady (f : Pending → Pending) : Prop := ∀ p, (f p).seq = p.seq ∧ (f p).data = p.data ∧ p.deliveries ≤ (f p).deliveries

theorem steady_deliver : Steady Pending.deliver := fun _ => ⟨rfl, rfl, Nat.le_succ _⟩

theorem steady_release : Steady Pending.release := fun _ => ⟨rfl, rfl, Nat.le_refl _⟩

theorem mem_onSeq {seq : Nat} {f : Pending → Pending} {p' : Pending} (h : p' ∈ (s.onSeq seq f).pending) :
    ∃ p ∈ s.pending, p' = if p.seq = seq then f p else p := by
  obtain ⟨p, hp, heq⟩ := List.mem_map.mp h
  exact ⟨p, hp, heq.symm⟩

theorem grows_onSeq (seq : Nat) {f : Pending → Pending} (hf : Steady f) : Grows s (s.onSeq seq f) := by
  refine ⟨⟨rfl, rfl⟩, List.Subset.refl _, List.Subset.refl _, fun p' hp' => ?_⟩
  obtain ⟨p, hp, heq⟩ := mem_onSeq hp'
  refine ⟨p, hp, ?_⟩
  split at heq
  · rw [heq]
    exact hf p
  · rw [heq]
    exact ⟨rfl, rfl, Nat.le_refl _⟩

theorem map_seq_onSeq {seq : Nat} {f : Pending → Pending} (hf : Steady f) :
    (s.onSeq seq f).pending.map (·.seq) = s.pending.map (·.seq) := by
  unfold Store.onSeq
  rw [List.map_map]
  refine List.map_congr_left fun p _ => ?_
  show (if p.seq = seq then f p else p).seq = p.seq
  split
  · exact (hf p).1
  · rfl

theorem seqs_onSeq {seq : Nat} {f : Pending → Pending} (hf : Steady f) {q : Nat} :
    (∃ p ∈ (s.onSeq seq f).pending, p.seq = q) ↔ ∃ p ∈ s.pending, p.seq = q := by
  rw [← List.mem_map, map_seq_onSeq hf, List.mem_map]

theorem Effect.grows (h : Effect cfg s l s' l') : Grows s s' := by
  have hsame : ∀ p ∈ s.pending, ∃ q ∈ s.pending, p.seq = q.seq ∧ p.data = q.data ∧ q.deliveries ≤ p.deliveries :=
    fun p hp => ⟨p, hp, rfl, rfl, Nat.le_refl _⟩
  cases h with
  | taken => exact grows_onSeq _ steady_deliver
  | released => exact grows_onSeq _ steady_release
  | called => exact ⟨⟨rfl, rfl⟩, List.Subset.refl _, List.subset_cons_self _ _, hsame⟩
  | parked => exact ⟨⟨rfl, rfl⟩, List.subset_cons_self _ _, List.Subset.refl _, hsame⟩
  | unparked => exact ⟨⟨rfl, rfl⟩, List.Subset.refl _, List.Subset.refl _, hsame⟩
  | left => exact ⟨⟨rfl, rfl⟩, List.Subset.refl _, List.Subset.refl _, hsame⟩
  | acked =>
    exact ⟨⟨rfl, rfl⟩, List.Subset.refl _, List.Subset.refl _, fun p hp => hsame p (List.mem_filter.mp hp).1⟩

theorem Effect.new_call (h : Effect cfg s l s' l') {c : Call} (hc : c ∈ s'.calls) :
    c ∈ s.calls ∨ ∃ m, l = .given m ∧ c.seq = m.seq ∧ c.delivered = m.deliveries ∧ c.data = m.data := by
  cases h with
  | called =>
    rcases List.mem_cons.mp hc with rfl | hc
    · exact .inr ⟨_, rfl, rfl, rfl, rfl⟩
    · exact .inl hc
  | _ => exact .inl hc

theorem Held.grows {k : Hand} {m : Pending} (h : Held cfg s k m) (hg : Grows s s')
    (hnew : ∀ c ∈ s'.calls, c ∈ s.calls ∨ ¬ (c.seq = m.seq ∧ c.delivered = m.deliveries)) : Held cfg s' k m := by
  refine ⟨hg.published.1 ▸ h.published, fun p' hp' hseq => ?_, ?_⟩
  · obtain ⟨p, hp, hs, -, hle⟩ := hg.pending p' hp'
    exact (h.delivered p hp (hs ▸ hseq)).trans hle
  · have hv := h.vouched
    cases k with
    | empty => trivial
    | unparked => trivial
    | given x =>
      intro c hc
      exact (hnew c hc).elim (hv c) id
    | handled x => exact Handled.mono hv hg.calls
    | parked x => exact DeadLettered.mono hv hg.letters hg.calls
    | refused x e =>
      obtain ⟨c, hc, hrest⟩ := hv
      exact ⟨c, hg.calls hc, hrest⟩

theorem Effect.others (h : Effect cfg s l s' l') (hl : HandSound cfg s l) {k : Hand} (hk : HandSound cfg s k)
    (hap : Apart l k) : HandSound cfg s' k ∧ Apart l' k := by
  constructor
  · intro m hm
    refine (hk m hm).grows h.grows fun c hc => ?_
    rcases h.new_call hc with hc | ⟨x, rfl, hseq, hdel, -⟩
    · exact .inl hc
    · refine .inr fun hsame => hap x m rfl hm (hseq.symm.trans hsame.1) (hdel.symm.trans hsame.2)
  · intro m n hm hn hseq
    cases h with
    | taken hp hout =>
      cases hm
      have hle := (hk n hn).delivered _ hp hseq
      exact Nat.ne_of_gt (Nat.lt_succ_of_le hle)
    | @called x r l' hok herr =>
      have hx : m = x := by
        cases r with
        | ok y =>
          rw [hok y rfl] at hm
          exact (Option.some.inj hm).symm
        | error e =>
          rw [herr e rfl] at hm
          exact (Option.some.inj hm).symm
      exact hap m n (by rw [hx]; rfl) hn hseq
    | @parked x e now l' hmax hl' =>
      have hx : m = x := by
        rcases hl' with rfl | rfl <;> exact (Option.some.inj hm).symm
      exact hap m n (by rw [hx]; rfl) hn hseq
    | unparked =>
      cases hm
      exact hap _ n rfl hn hseq
    | acked => cases hm
    | released => cases hm
    | left => cases hm

theorem Sound.data_eq (h : Sound cfg s) {seq : Nat} {a b : Bytes} (ha : (seq, a) ∈ s.published)
    (hb : (seq, b) ∈ s.published) : a = b :=
  congrArg Prod.snd (List.inj_on_of_nodup_map h.numbered.1 ha hb rfl)

theorem Kept.grows {seq : Nat} {data : Bytes} (h : Kept cfg s seq data) (hg : Grows s s')
    (hpending : (∃ p ∈ s.pending, p.seq = seq) → ∃ p ∈ s'.pending, p.seq = seq) : Kept cfg s' seq data := by
  rcases h with hp | hh | hd
  · exact .inl (hpending hp)
  · exact .inr (.inl (hh.mono hg.calls))
  · exact .inr (.inr (hd.mono hg.letters hg.calls))

theorem Effect.once (h : Effect cfg s l s' l') (hs : (s.pending.map (·.seq)).Nodup) : (s'.pending.map (·.seq)).Nodup := by
  cases h with
  | taken =>
    rw [map_seq_onSeq steady_deliver]
    exact hs
  | released =>
    rw [map_seq_onSeq steady_release]
    exact hs
  | called => exact hs
  | parked => exact hs
  | unparked => exact hs
  | left => exact hs
  | acked => exact hs.sublist (List.filter_sublist.map _)

theorem Effect.kept (h : Effect cfg s l s' l') (hs : Sound cfg s) (hl : HandSound cfg s l) {p : Nat × Bytes}
    (hp : p ∈ s.published) : Kept cfg s' p.1 p.2 := by
  have hold := hs.kept p hp
  have hg := h.grows
  cases h with
  | taken => exact hold.grows hg (seqs_onSeq steady_deliver).mpr
  | released => exact hold.grows hg (seqs_onSeq steady_release).mpr
  | called => exact hold.grows hg id
  | parked => exact hold.grows hg id
  | unparked => exact hold.grows hg id
  | left => exact hold.grows hg id
  | @acked m l hk =>
    have hm : l.message = some m := by
      rcases hk with rfl | rfl <;> rfl
    obtain ⟨hpub, -, hv⟩ := hl m hm
    by_cases hseq : p.1 = m.seq
    · have hdata : p.2 = m.data := hs.data_eq (hseq ▸ hp) hpub
      rw [hseq, hdata]
      rcases hk with rfl | rfl
      · exact .inr (.inl hv)
      · exact .inr (.inr hv)
    · refine hold.grows hg fun ⟨q, hq, hqs⟩ => ⟨q, List.mem_filter.mpr ⟨hq, ?_⟩, hqs⟩
      simpa [hqs] using hseq

theorem Effect.sound (h : Effect cfg s l s' l') (hs : Sound cfg s) (hl : HandSound cfg s l) : Sound cfg s' := by
  have hg := h.grows
  have hkept := fun p hp => h.kept hs hl (p := p) hp
  have hcall : ∀ c ∈ s'.calls, c ∈ s.calls ∨ ∃ m, l = .given m ∧ c.seq = m.seq ∧ c.delivered = m.deliveries ∧ c.data = m.data :=
    fun c hc => h.new_call hc
  refine ⟨?_, fun p' hp' => ?_, h.once hs.once, ?_, ?_, ?_, fun c hc => ?_⟩
  · rw [hg.published.1, hg.published.2]
    exact hs.numbered
  · obtain ⟨p, hp, hseq, hdata, -⟩ := hg.pending p' hp'
    rw [hseq, hdata, hg.published.1]
    exact hs.owed p hp
  · rw [hg.published.1]
    exact hkept
  · intro x hx
    have hold : x ∈ s.letters → ∃ c ∈ s'.calls, Buried cfg c x := fun hx => by
      obtain ⟨c, hc, hb⟩ := hs.letters x hx
      exact ⟨c, hg.calls hc, hb⟩
    cases h with
    | @parked m e now l' hmax =>
      rcases List.mem_cons.mp hx with rfl | hx
      · obtain ⟨c, hc, hseq, hdel, hdata, hres⟩ := (hl m rfl).vouched
        refine ⟨c, hc, hdel ▸ hmax, e, now, hres, ?_⟩
        rw [hdel, hdata]
        rfl
      · exact hold hx
    | taken => exact hold hx
    | called => exact hold hx
    | unparked => exact hold hx
    | acked => exact hold hx
    | released => exact hold hx
    | left => exact hold hx
  · cases h with
    | @called m r l' =>
      refine List.nodup_cons.mpr ⟨fun hin => ?_, hs.calls⟩
      obtain ⟨c, hc, heq⟩ := List.mem_map.mp hin
      exact (hl m rfl).vouched c hc ⟨congrArg Prod.fst heq, congrArg Prod.snd heq⟩
    | taken => exact hs.calls
    | parked => exact hs.calls
    | unparked => exact hs.calls
    | acked => exact hs.calls
    | released => exact hs.calls
    | left => exact hs.calls
  · have hmade : (c.seq, c.data) ∈ s.published ∧ ∀ p ∈ s.pending, p.seq = c.seq → c.delivered ≤ p.deliveries := by
      rcases hcall c hc with hc | ⟨m, rfl, hseq, hdel, hdata⟩
      · exact hs.made c hc
      · have hm := hl m rfl
        rw [hseq, hdel, hdata]
        exact ⟨hm.published, hm.delivered⟩
    refine ⟨hg.published.1 ▸ hmade.1, fun p' hp' hseq => ?_⟩
    obtain ⟨p, hp, hs', -, hle⟩ := hg.pending p' hp'
    exact (hmade.2 p hp (hs' ▸ hseq)).trans hle

theorem Effect.own (h : Effect cfg s l s' l') (hs : Sound cfg s) (hl : HandSound cfg s l) : HandSound cfg s' l' := by
  intro m hm
  cases h with
  | @taken p hp hout =>
    cases hm
    refine ⟨hs.owed p hp, fun p' hp' hseq => ?_, fun c hc hsame => ?_⟩
    · obtain ⟨q, hq, heq⟩ := mem_onSeq hp'
      have hqp : q.seq = p.seq := by
        split at heq
        next h => exact h
        next => exact heq ▸ hseq
      rw [heq, if_pos hqp, List.inj_on_of_nodup_map hs.once hq hp hqp]
    · have hle := (hs.made c hc).2 p hp hsame.1.symm
      rw [hsame.2] at hle
      exact absurd hle (Nat.not_succ_le_self _)
  | @called x r l' hok herr =>
    obtain ⟨hpub, hdel, -⟩ := hl x rfl
    cases r with
    | ok y =>
      obtain rfl := hok y rfl
      cases hm
      exact ⟨hpub, hdel, _, List.mem_cons_self, rfl, rfl, y, rfl⟩
    | error e =>
      obtain rfl := herr e rfl
      cases hm
      exact ⟨hpub, hdel, _, List.mem_cons_self, rfl, rfl, rfl, rfl⟩
  | @parked x e now l' hmax hl' =>
    obtain ⟨hpub, hdel, c, hc, hseq, hcdel, hdata, hres⟩ := hl x rfl
    rcases hl' with rfl | rfl
    · cases hm
      refine ⟨hpub, hdel, _, List.mem_cons_self, c, hc, hseq, hdata, hcdel ▸ hmax, e, now, hres, ?_⟩
      rw [hcdel, hdata]
      rfl
    · cases hm
      exact ⟨hpub, hdel, trivial⟩
  | unparked =>
    cases hm
    obtain ⟨hpub, hdel, -⟩ := hl _ rfl
    exact ⟨hpub, hdel, trivial⟩
  | acked => cases hm
  | released => cases hm
  | left => cases hm

theorem fresh_seq (hs : Sound cfg s) {q : Nat} {d : Bytes} (h : (q, d) ∈ s.published) : q ≠ s.last + 1 :=
  Nat.ne_of_lt (Nat.lt_succ_of_le (hs.numbered.2 _ h))

theorem release_grows (seq : Nat) : Grows s (s.onSeq seq Pending.release) := grows_onSeq seq steady_release

theorem Sound.release (hs : Sound cfg s) (seq : Nat) : Sound cfg (s.onSeq seq Pending.release) := by
  have hg := release_grows (s := s) seq
  refine ⟨hs.numbered, fun p' hp' => ?_, ?_, fun p hp => ?_, hs.letters, hs.calls, fun c hc => ⟨(hs.made c hc).1, ?_⟩⟩
  · obtain ⟨p, hp, hq, hd, -⟩ := hg.pending p' hp'
    rw [hq, hd]
    exact hs.owed p hp
  · rw [map_seq_onSeq steady_release]
    exact hs.once
  · exact (hs.kept p hp).grows hg (seqs_onSeq steady_release).mpr
  · intro p' hp' hseq
    obtain ⟨p, hp, hq, -, hle⟩ := hg.pending p' hp'
    exact ((hs.made c hc).2 p hp (hq ▸ hseq)).trans hle

theorem Sound.publish (hs : Sound cfg s) (data : Bytes) {s' : Store} (h : outside s (.publish data) = some s') :
    Sound cfg s' := by
  cases h
  have hnew : ∀ q, (∃ p ∈ s.pending, p.seq = q) → q ≠ s.last + 1 := fun q ⟨p, hp, hq⟩ => hq ▸ fresh_seq hs (hs.owed p hp)
  refine ⟨⟨?_, fun p hp => ?_⟩, fun p hp => ?_, ?_, fun p hp => ?_, hs.letters, hs.calls, fun c hc => ?_⟩
  · refine List.nodup_cons.mpr ⟨fun hin => ?_, hs.numbered.1⟩
    obtain ⟨p, hp, hq⟩ := List.mem_map.mp hin
    exact fresh_seq hs (d := p.2) hp hq
  · rcases List.mem_cons.mp hp with rfl | hp
    · exact Nat.le_refl _
    · exact (hs.numbered.2 p hp).trans (Nat.le_succ _)
  · rcases List.mem_append.mp hp with hp | hp
    · exact List.mem_cons_of_mem _ (hs.owed p hp)
    · rw [List.mem_singleton.mp hp]
      exact List.mem_cons_self
  · show ((s.pending ++ [(⟨s.last + 1, data, 0, false⟩ : Pending)]).map (·.seq)).Nodup
    rw [List.map_append, List.nodup_append]
    refine ⟨hs.once, List.nodup_singleton _, fun q hq r hr => ?_⟩
    rw [List.mem_singleton.mp hr]
    exact hnew q (List.mem_map.mp hq)
  · rcases List.mem_cons.mp hp with rfl | hp
    · exact .inl ⟨_, List.mem_append_right _ List.mem_cons_self, rfl⟩
    · rcases hs.kept p hp with ⟨q, hq, hseq⟩ | hrest
      · exact .inl ⟨q, List.mem_append_left _ hq, hseq⟩
      · exact .inr hrest
  · obtain ⟨hpub, hdel⟩ := hs.made c hc
    refine ⟨List.mem_cons_of_mem _ hpub, fun p hp hseq => ?_⟩
    rcases List.mem_append.mp hp with hp | hp
    · exact hdel p hp hseq
    · rw [List.mem_singleton.mp hp] at hseq
      exact absurd hseq.symm (fresh_seq hs hpub)

theorem HandSound.publish (hs : Sound cfg s) {data : Bytes} (h : outside s (.publish data) = some s') {k : Hand}
    (hk : HandSound cfg s k) : HandSound cfg s' k := by
  cases h
  intro m hm
  obtain ⟨hpub, hdel, hv⟩ := hk m hm
  refine ⟨List.mem_cons_of_mem _ hpub, fun p hp hseq => ?_, ?_⟩
  · rcases List.mem_append.mp hp with hp | hp
    · exact hdel p hp hseq
    · rw [List.mem_singleton.mp hp] at hseq
      exact absurd hseq.symm (fresh_seq hs hpub)
  · cases k <;> exact hv

theorem outside_keeps {e : Outside} (hs : Sound cfg s) (h : outside s e = some s') :
    Sound cfg s' ∧ ∀ k, HandSound cfg s k → HandSound cfg s' k := by
  cases e with
  | publish data => exact ⟨hs.publish data h, fun k hk => hk.publish hs h⟩
  | expire seq =>
    cases h
    refine ⟨hs.release seq, fun k hk m hm => ?_⟩
    exact (hk m hm).grows (release_grows seq) fun c hc => .inl hc

theorem sound_unused : Sound cfg unused where
  numbered := ⟨List.nodup_nil, fun _ h => by cases h⟩
  owed := fun _ h => by cases h
  once := List.nodup_nil
  kept := fun _ h => by cases h
  letters := fun _ h => by cases h
  calls := List.nodup_nil
  made := fun _ h => by cases h

theorem holds {p : Pool.State Store Hand τ} (h : (system cfg).Reachable p) :
    Pool.Holds (Sound cfg) (HandSound cfg) Apart p := by
  refine Pool.Holds.reachable (C := fun _ _ _ => True) (fun _ _ => Apart.symm) ?_ ?_ ?_ (h.mono ?_)
  · intro s l c s' l' hs hl _ h
    have he := act_effect h
    exact ⟨⟨he.sound hs hl, he.own hs hl⟩, fun k hk hap => he.others hl hk hap⟩
  · intro s e s' hs h
    exact outside_keeps hs h
  · intro p hp
    obtain ⟨hs, hl⟩ := hp
    refine ⟨hs ▸ sound_unused, fun t m hm => ?_, fun t u _ m n hm => ?_⟩
    · rw [hl t] at hm
      cases hm
    · rw [hl t] at hm
      cases hm
  · intro s a _
    cases a <;> trivial

/-- What was published waits for an ack, or the handler took its bytes, or a letter holds their text; a
letter was written at a failing call of its message, its deliveries used up; and no delivery is
handed to the handler twice. -/
theorem nothing_lost {p : Pool.State Store Hand τ} (h : (system cfg).Reachable p) :
    (∀ m ∈ p.shared.published, (∃ q ∈ p.shared.pending, q.seq = m.1 ∧ q.data = m.2) ∨
      Handled p.shared m.1 m.2 ∨ DeadLettered cfg p.shared m.1 m.2) ∧
    (∀ l ∈ p.shared.letters, ∃ c ∈ p.shared.calls, (c.seq, c.data) ∈ p.shared.published ∧ Buried cfg c l) ∧
    (p.shared.calls.map fun c => (c.seq, c.delivered)).Nodup := by
  have hs := (holds h).shared
  refine ⟨fun m hm => ?_, fun l hl => ?_, hs.calls⟩
  · rcases hs.kept m hm with ⟨q, hq, hseq⟩ | hrest
    · exact .inl ⟨q, hq, hseq, hs.data_eq (hseq ▸ hs.owed q hq) hm⟩
    · exact .inr hrest
  · obtain ⟨c, hc, hb⟩ := hs.letters l hl
    exact ⟨c, hc, (hs.made c hc).1, hb⟩

def Parks (_ : Store) (_ : Hand) : Move → Prop
  | .park fate _ => fate = .ok
  | _ => True

/-- No ack wait runs out. -/
def InTime (_ : Store) : Outside → Prop
  | .publish _ => True
  | .expire _ => False

structure Bounded (s : Store) : Prop where
  pending : ∀ p ∈ s.pending, p.deliveries ≤ maxDeliveries ∧ (p.out = false → p.deliveries < maxDeliveries)
  calls : ∀ c ∈ s.calls, 0 < c.delivered ∧ c.delivered ≤ maxDeliveries

def Current (s : Store) (l : Hand) : Prop :=
  ∀ m, l.message = some m → l ≠ .unparked m ∧ (0 < m.deliveries ∧ m.deliveries ≤ maxDeliveries) ∧
    ∀ p ∈ s.pending, p.seq = m.seq → p.deliveries = m.deliveries ∧ p.out = true

def Sole (l k : Hand) : Prop := ∀ m n, l.message = some m → k.message = some n → m.seq ≠ n.seq

theorem Sole.symm (h : Sole l l') : Sole l' l := fun m n hm hn hseq => h n m hn hm hseq.symm

theorem Sole.apart (h : Sole l l') : Apart l l' := fun m n hm hn hseq => absurd hseq (h m n hm hn)

theorem act_unparked {m : Pending} {c : Move} (hc : Parks s l c) (h : act cfg s l c = some (s', l')) : l' ≠ .unparked m := by
  rintro rfl
  unfold act at h
  split at h
  next => split at h <;> cases h
  next => cases h
  next => cases h
  next =>
    split at h
    · cases h
    · rw [show _ = Fate.ok from hc] at h
      cases h
  next => cases h
  next => cases h
  next => cases h
  next => split at h <;> cases h
  next => cases h
  next => cases h

theorem Effect.message (h : Effect cfg s l s' l') {m : Pending} (hm : l'.message = some m) :
    l.message = some m ∨ ∃ p ∈ s.pending, p.out = false ∧ m = p.deliver ∧ s' = s.onSeq p.seq Pending.deliver := by
  cases h with
  | @taken p hp hout =>
    cases hm
    exact .inr ⟨p, hp, hout, rfl, rfl⟩
  | @called x r l' hok herr =>
    left
    cases r with
    | ok y => rw [← hm, hok y rfl]; rfl
    | error e => rw [← hm, herr e rfl]; rfl
  | @parked x e now l' hmax hl' =>
    left
    rcases hl' with rfl | rfl <;> exact hm
  | unparked => exact .inl hm
  | acked => cases hm
  | released => cases hm
  | left => cases hm

theorem Effect.still (h : Effect cfg s l s' l') {m n : Pending} (hl : l.message = some m) (hl' : l'.message = some n) :
    s'.pending = s.pending := by
  cases h with
  | taken => cases hl
  | called => rfl
  | parked => rfl
  | unparked => rfl
  | acked => cases hl'
  | released => cases hl'
  | left => cases hl'

theorem mem_delivered (hs : Sound cfg s) {p p' : Pending} (hp : p ∈ s.pending)
    (hp' : p' ∈ (s.onSeq p.seq Pending.deliver).pending) : p' = p.deliver ∨ (p' ∈ s.pending ∧ p'.seq ≠ p.seq) := by
  obtain ⟨q, hq, heq⟩ := mem_onSeq hp'
  by_cases hseq : q.seq = p.seq
  · rw [if_pos hseq] at heq
    rw [heq, List.inj_on_of_nodup_map hs.once hq hp hseq]
    exact .inl rfl
  · rw [if_neg hseq] at heq
    rw [heq]
    exact .inr ⟨hq, hseq⟩

theorem Effect.pending (h : Effect cfg s l s' l') (hs : Sound cfg s) (hl : Current s l) {p' : Pending}
    (hp' : p' ∈ s'.pending) :
    p' ∈ s.pending ∨ (∃ p ∈ s.pending, p.out = false ∧ p' = p.deliver ∧ l'.message = some p') ∨
      ∃ m p, l.message = some m ∧ m.deliveries < maxDeliveries ∧ p ∈ s.pending ∧ p.seq = m.seq ∧ p' = p.release := by
  cases h with
  | @taken p hp hout =>
    rcases mem_delivered hs hp hp' with rfl | h
    · exact .inr (.inl ⟨p, hp, hout, rfl, rfl⟩)
    · exact .inl h.1
  | @released m l hk =>
    obtain ⟨p, hp, heq⟩ := mem_onSeq hp'
    by_cases hseq : p.seq = m.seq
    · rw [if_pos hseq] at heq
      rcases hk with rfl | ⟨e, rfl, hlt⟩
      · exact absurd rfl (hl m rfl).1
      · exact .inr (.inr ⟨m, p, rfl, hlt, hp, hseq, heq⟩)
    · rw [if_neg hseq] at heq
      exact .inl (heq ▸ hp)
  | acked => exact .inl (List.mem_filter.mp hp').1
  | called => exact .inl hp'
  | parked => exact .inl hp'
  | unparked => exact .inl hp'
  | left => exact .inl hp'

theorem Effect.bounded (h : Effect cfg s l s' l') (hs : Sound cfg s) (hb : Bounded s) (hl : Current s l) : Bounded s' := by
  refine ⟨fun p' hp' => ?_, fun c hc => ?_⟩
  · rcases h.pending hs hl hp' with hp' | ⟨p, hp, hout, rfl, -⟩ | ⟨m, p, hm, hlt, hp, hseq, rfl⟩
    · exact hb.pending p' hp'
    · exact ⟨(hb.pending p hp).2 hout, fun h => by cases h⟩
    · have hdel : p.deliveries = m.deliveries := ((hl m hm).2.2 p hp hseq).1
      have hbound : p.release.deliveries < maxDeliveries := hdel ▸ hlt
      exact ⟨Nat.le_of_lt hbound, fun _ => hbound⟩
  · rcases h.new_call hc with hc | ⟨m, rfl, -, hdel, -⟩
    · exact hb.calls c hc
    · rw [hdel]
      exact (hl m rfl).2.1

theorem Effect.current (h : Effect cfg s l s' l') (hs : Sound cfg s) (hb : Bounded s) (hl : Current s l)
    (hparks : ∀ m, l' ≠ .unparked m) : Current s' l' := by
  intro m hm
  refine ⟨hparks m, ?_⟩
  rcases h.message hm with hold | ⟨p, hp, hout, rfl, rfl⟩
  · rw [h.still hold hm]
    exact (hl m hold).2
  · refine ⟨⟨Nat.succ_pos _, (hb.pending p hp).2 hout⟩, fun p' hp' hseq => ?_⟩
    rcases mem_delivered hs hp hp' with rfl | h
    · exact ⟨rfl, rfl⟩
    · exact absurd hseq h.2

theorem Effect.sole (h : Effect cfg s l s' l') {k : Hand} (hk : Current s k) (hap : Sole l k) : Sole l' k := by
  intro m n hm hn hseq
  rcases h.message hm with hold | ⟨p, hp, hout, rfl, -⟩
  · exact hap m n hold hn hseq
  · have hheld : p.out = true := ((hk n hn).2.2 p hp hseq).2
    rw [hout] at hheld
    cases hheld

theorem Effect.current_other (h : Effect cfg s l s' l') (hs : Sound cfg s) (hl : Current s l) {k : Hand}
    (hk : Current s k) (hap : Sole l k) : Current s' k := by
  intro n hn
  obtain ⟨hne, hpos, hcur⟩ := hk n hn
  refine ⟨hne, hpos, fun p' hp' hseq => ?_⟩
  rcases h.pending hs hl hp' with hp' | ⟨p, hp, hout, rfl, hm⟩ | ⟨m, p, hm, hlt, hp, hpm, rfl⟩
  · exact hcur p' hp' hseq
  · exact absurd hseq (h.sole hk hap _ n hm hn)
  · exact absurd (hpm.symm.trans hseq) (hap m n hm hn)

theorem bounded_publish (hs : Sound cfg s) {data : Bytes} (h : outside s (.publish data) = some s') (hb : Bounded s) :
    Bounded s' ∧ ∀ k, HandSound cfg s k → Current s k → Current s' k := by
  cases h
  refine ⟨⟨fun p hp => ?_, hb.calls⟩, fun k hk hc n hn => ?_⟩
  · rcases List.mem_append.mp hp with hp | hp
    · exact hb.pending p hp
    · rw [List.mem_singleton.mp hp]
      exact ⟨Nat.zero_le _, fun _ => Nat.zero_lt_succ _⟩
  · obtain ⟨hne, hpos, hcur⟩ := hc n hn
    refine ⟨hne, hpos, fun p hp hseq => ?_⟩
    rcases List.mem_append.mp hp with hp | hp
    · exact hcur p hp hseq
    · rw [List.mem_singleton.mp hp] at hseq
      exact absurd hseq.symm (fresh_seq hs (hk n hn).published)

theorem bounded_unused : Bounded unused where
  pending := fun _ h => by cases h
  calls := fun _ h => by cases h

theorem holds_in_time {p : Pool.State Store Hand τ} (h : (system cfg).ReachableUnder (Pool.Within Parks InTime) p) :
    Pool.Holds (fun s => Sound cfg s ∧ Bounded s) (fun s l => HandSound cfg s l ∧ Current s l) Sole p := by
  refine Pool.Holds.within (fun _ _ => Sole.symm) ?_ ?_ ?_ h
  · intro s l c s' l' ⟨hs, hb⟩ ⟨hl, hcur⟩ hc h
    have he := act_effect h
    have hparks : ∀ m, l' ≠ .unparked m := fun m => act_unparked hc h
    refine ⟨⟨⟨he.sound hs hl, he.bounded hs hb hcur⟩, he.own hs hl, he.current hs hb hcur hparks⟩, ?_⟩
    intro k ⟨hk, hkcur⟩ hap
    exact ⟨⟨(he.others hl hk hap.apart).1, he.current_other hs hcur hkcur hap⟩, he.sole hkcur hap⟩
  · intro s e s' ⟨hs, hb⟩ he h
    cases e with
    | expire seq => exact absurd he id
    | publish data =>
      obtain ⟨hb', hcur'⟩ := bounded_publish hs h hb
      exact ⟨⟨hs.publish data h, hb'⟩, fun k ⟨hk, hcur⟩ => ⟨hk.publish hs h, hcur' k hk hcur⟩⟩
  · intro p hp
    obtain ⟨hs, hl⟩ := hp
    refine ⟨hs ▸ ⟨sound_unused, bounded_unused⟩, fun t => ⟨fun m hm => ?_, fun m hm => ?_⟩, fun t u _ m n hm => ?_⟩
    all_goals
      rw [hl t] at hm
      cases hm

theorem length_le_of_nodup {xs : List Nat} {n : Nat} (hnodup : xs.Nodup) (h : ∀ x ∈ xs, 0 < x ∧ x ≤ n) : xs.length ≤ n := by
  have hsub : xs ⊆ (List.range n).map (· + 1) := fun x hx => by
    obtain ⟨hpos, hle⟩ := h x hx
    exact List.mem_map.mpr ⟨x - 1, List.mem_range.mpr (by omega), Nat.sub_add_cancel hpos⟩
  simpa using hnodup.length_le_of_subset hsub

/-- As long as no ack wait runs out and the DLQ takes what it is given, the handler is tried on a
message at most `MAX_DELIVERIES` times, by all the instances together. -/
theorem tried_at_most {p : Pool.State Store Hand τ} (h : (system cfg).ReachableUnder (Pool.Within Parks InTime) p)
    (seq : Nat) : (p.shared.calls.filter (·.seq = seq)).length ≤ maxDeliveries := by
  obtain ⟨hs, hb⟩ := (holds_in_time h).shared
  have hone : ((p.shared.calls.filter (·.seq = seq)).map (·.delivered)).Nodup := by
    have hsub := hs.calls.sublist (List.filter_sublist (p := (·.seq = seq)).map _)
    refine List.Nodup.of_map (fun d => (seq, d)) ?_
    rw [List.map_map]
    rwa [List.map_congr_left fun c hc => ?_] at hsub
    rw [of_decide_eq_true (List.mem_filter.mp hc).2]
    rfl
  rw [← List.length_map (·.delivered)]
  refine length_le_of_nodup hone fun d hd => ?_
  obtain ⟨c, hc, rfl⟩ := List.mem_map.mp hd
  exact hb.calls c (List.mem_filter.mp hc).1

instance decidableParks (s : Store) (l : Hand) (c : Move) : Decidable (Parks s l c) :=
  match c with
  | .park .ok _ => .isTrue rfl
  | .park (.failed _) _ => .isFalse fun h => by cases h
  | .park (.lost _) _ => .isFalse fun h => by cases h
  | .take _ => .isTrue trivial
  | .handle _ => .isTrue trivial
  | .ack _ => .isTrue trivial
  | .nak _ => .isTrue trivial
  | .stop => .isTrue trivial

instance decidableInTime (s : Store) (e : Outside) : Decidable (InTime s e) :=
  match e with
  | .publish _ => .isTrue trivial
  | .expire _ => .isFalse id

instance decidableWithin (s : Pool.State Store Hand τ) (a : Pool.Label Move Outside τ) :
    Decidable (Pool.Within Parks InTime s a) :=
  match a with
  | .thread t c => decidableParks s.shared (s.locals t) c
  | .env e => decidableInTime s.shared e

def slackOut : Config := ⟨"sink:slack", "vejas.alerts"⟩

def begun : Pool.State Store Hand Bool := ⟨unused, fun _ => .empty⟩

def refusal (t : Bool) : List (Pool.Label Move Outside Bool) := [.thread t (.take 1), .thread t (.handle (.error "slack -> 500"))]

def poisoned : List (Pool.Label Move Outside Bool) :=
  .env (.publish [104, 105]) :: (refusal true ++ .thread true (.nak true) :: refusal false ++ .thread false (.nak true) ::
    refusal true ++ .thread true (.nak true) :: refusal true ++ .thread true (.nak true) ::
    refusal false ++ [.thread false (.park .ok 1700000000), .thread false (.ack true)])

theorem nothing_lost_poisoned : ∃ s, Transition.run (sink slackOut).step begun poisoned = some s ∧
    (Handled s.shared 1 [104, 105] ∨ DeadLettered slackOut s.shared 1 [104, 105]) := by
  refine ⟨_, rfl, ?_⟩
  have hreach : (system slackOut).Reachable _ :=
    Transition.Reachable.run (f := (sink slackOut).step) poisoned (s := begun) (.init ⟨rfl, fun _ => rfl⟩) rfl
  refine ((nothing_lost hreach).1 (1, [104, 105]) List.mem_cons_self).resolve_left ?_
  rintro ⟨q, hq, -⟩
  cases hq

theorem tried_at_most_poisoned : ∃ s, Transition.run (sink slackOut).step begun poisoned = some s ∧
    (s.shared.calls.filter (·.seq = 1)).length ≤ maxDeliveries := by
  refine ⟨_, rfl, ?_⟩
  have hmeets : Transition.Meets (Pool.Within Parks InTime) (sink slackOut).step begun poisoned := by decide
  have hreach : (system slackOut).ReachableUnder (Pool.Within Parks InTime) _ :=
    Transition.ReachableUnder.run poisoned (.init ⟨rfl, fun _ => rfl⟩) hmeets rfl
  exact tried_at_most hreach 1

end Vejas.Sink
