import Mathlib.Order.Nat
import Vejas.Bus.Link

/-! The publish-before-ack barrier is sound: `confirm` answers `Ok` only after the
server has read every publish of the batch, whatever the other threads, the server
and the reconnects do in between. -/

namespace Vejas.Bus
open Rust

theorem event_cases {k k' : Link} {ev : Link.Event} (h : k.event ev = some k') :
    (∃ p w, k.wire = p :: w ∧
      k' = { k with wire := w, log := k.log ++ [p], echoes := Link.answer p k.echoes }) ∨
    (∃ id es, k.echoes = id :: es ∧ k' = { k with
      echoes := es, waiting := k.waiting.filter (· != id), fired := id :: k.fired }) ∨
    (∃ id es, k.echoes = id :: es ∧ k' = { k with echoes := es }) ∨
    k' = { k with up := false } ∨
    ∃ wire echoes, wire.Sublist k.wire ∧ echoes.Sublist k.echoes ∧
      k' = { k with epoch := k.epoch + 1, up := true, wire, echoes } := by
  cases ev with
  | read =>
    simp only [Link.event] at h
    split at h
    · cases h
    next p w hw => exact .inl ⟨p, w, hw, by simpa using h.symm⟩
  | deliver =>
    simp only [Link.event] at h
    split at h
    · cases h
    next id es he =>
      split at h
      · exact .inr (.inl ⟨id, es, he, by simpa using h.symm⟩)
      · exact .inr (.inr (.inl ⟨id, es, he, by simpa using h.symm⟩))
  | disconnect => exact .inr (.inr (.inr (.inl (by simpa [Link.event] using h.symm))))
  | reconnect wire echoes =>
    simp only [Link.event] at h
    split at h
    next hs =>
      rw [Bool.and_eq_true, List.isSublist_iff_sublist, List.isSublist_iff_sublist] at hs
      exact .inr (.inr (.inr (.inr ⟨wire, echoes, hs.1, hs.2, by simpa using h.symm⟩)))
    · cases h

def Unasked (k : Link) (id : Nat) : Prop := ∀ p ∈ k.log ++ k.wire, p.body ≠ .echo id

def Vouches (k : Link) (sent : List Packet) (id : Nat) : Prop :=
  (∀ p ∈ sent, p ∈ k.log) ∨
    (∀ p ∈ k.log, p.body ≠ .echo id) ∧ ∃ w q w', k.wire = w ++ q :: w' ∧ q.body = .echo id ∧
      (∀ p ∈ w, p.body ≠ .echo id) ∧ ∀ p ∈ sent, p ∈ k.log ++ w

structure LinkInv (k : Link) : Prop where
  asked_lt : ∀ p ∈ k.log ++ k.wire, ∀ id, p.body = .echo id → id < k.nextId
  heard_read : ∀ id, id ∈ k.echoes ∨ id ∈ k.fired → ∃ p ∈ k.log, p.body = .echo id
  fired_gone : ∀ id ∈ k.fired, id ∉ k.waiting

def Caller.Accounts (c : Caller) : Prop :=
  c.sent.map (·.body) ++ c.held.map .publish = c.asked.map .publish

def Caller.Tracks (k : Link) (c : Caller) (epoch : Nat) : Prop :=
  epoch ≤ k.epoch ∧ (epoch = k.epoch → ∀ p ∈ c.sent, p ∈ k.log ++ k.wire)

def Caller.At (k : Link) (c : Caller) : Pc → Prop
  | .idle => ∀ id, c.barrier = some id → id ∉ k.waiting
  | .checkUp => c.barrier = none ∧ c.sent = [] ∧ c.Accounts
  | .readEpoch => c.barrier = none ∧ c.sent = [] ∧ c.Accounts
  | .sending e => c.barrier = none ∧ c.Accounts ∧ c.Tracks k e
  | .fetchId e => c.barrier = none ∧ c.held = [] ∧ c.Accounts ∧ c.Tracks k e
  | .register e id => c.barrier = some id ∧ c.held = [] ∧ c.Accounts ∧ c.Tracks k e ∧ Unasked k id
  | .ask e id => c.barrier = some id ∧ c.held = [] ∧ c.Accounts ∧ c.Tracks k e ∧ Unasked k id
  | .listen e id => c.barrier = some id ∧ c.held = [] ∧ c.Accounts ∧ e ≤ k.epoch ∧
      (e = k.epoch → Vouches k c.sent id)
  | .unregister id => c.barrier = some id ∧ c.held = []
  | .recheck e => (∀ id, c.barrier = some id → id ∉ k.waiting) ∧ c.held = [] ∧ c.Accounts ∧
      e ≤ k.epoch ∧ (e = k.epoch → ∀ p ∈ c.sent, p ∈ k.log)
  | .returned ok => (∀ id, c.barrier = some id → id ∉ k.waiting) ∧ c.held = [] ∧
      (ok = true → c.Accounts ∧ ∀ p ∈ c.sent, p ∈ k.log)

structure CallerInv (k : Link) (c : Caller) : Prop where
  barrier_lt : ∀ id, c.barrier = some id → id < k.nextId
  at_pc : c.At k c.pc

def Apart (c d : Caller) : Prop := ∀ id, c.barrier = some id → d.barrier ≠ some id

theorem Apart.symm (c d : Caller) (h : Apart c d) : Apart d c := fun id hd hc => h id hc hd

structure Link.Grows (k k' : Link) (own : Option Nat) : Prop where
  epoch_le : k.epoch ≤ k'.epoch
  nextId_le : k.nextId ≤ k'.nextId
  log_kept : ∀ p ∈ k.log, p ∈ k'.log
  sent_kept : k'.epoch = k.epoch → ∀ p ∈ k.log ++ k.wire, p ∈ k'.log ++ k'.wire
  unasked_kept : ∀ id, own = some id → Unasked k id → Unasked k' id
  waiting_kept : ∀ id, own = some id → id ∉ k.waiting → id ∉ k'.waiting
  vouches_kept : ∀ id sent, own = some id → k'.epoch = k.epoch → Vouches k sent id →
    Vouches k' sent id

theorem Caller.Tracks.grows {k k' : Link} {c : Caller} {e : Nat} (hg : k.Grows k' c.barrier)
    (h : c.Tracks k e) : c.Tracks k' e := by
  refine ⟨h.1.trans hg.epoch_le, fun he p hp => ?_⟩
  have hsame : k'.epoch = k.epoch := by
    have := h.1
    have := hg.epoch_le
    omega
  exact hg.sent_kept hsame p (h.2 (by omega) p hp)

theorem CallerInv.grows {k k' : Link} {c : Caller} (hg : k.Grows k' c.barrier)
    (h : CallerInv k c) : CallerInv k' c := by
  obtain ⟨hlt, hat⟩ := h
  have hwait : (∀ id, c.barrier = some id → id ∉ k.waiting) →
      ∀ id, c.barrier = some id → id ∉ k'.waiting :=
    fun hw id hid => hg.waiting_kept id hid (hw id hid)
  have hsame : ∀ {e}, e ≤ k.epoch → e = k'.epoch → k'.epoch = k.epoch ∧ e = k.epoch := by
    intro e hle he
    have := hg.epoch_le
    omega
  refine ⟨fun id hid => lt_of_lt_of_le (hlt id hid) hg.nextId_le, ?_⟩
  cases hpc : c.pc <;> rw [hpc] at hat
  case idle => exact hwait hat
  case checkUp => exact hat
  case readEpoch => exact hat
  case sending e => exact ⟨hat.1, hat.2.1, hat.2.2.grows hg⟩
  case fetchId e => exact ⟨hat.1, hat.2.1, hat.2.2.1, hat.2.2.2.grows hg⟩
  case register e id =>
    obtain ⟨hb, hh, ha, ht, hu⟩ := hat
    exact ⟨hb, hh, ha, ht.grows hg, hg.unasked_kept id hb hu⟩
  case ask e id =>
    obtain ⟨hb, hh, ha, ht, hu⟩ := hat
    exact ⟨hb, hh, ha, ht.grows hg, hg.unasked_kept id hb hu⟩
  case listen e id =>
    obtain ⟨hb, hh, ha, hle, hv⟩ := hat
    refine ⟨hb, hh, ha, hle.trans hg.epoch_le, fun he => ?_⟩
    obtain ⟨hs, he⟩ := hsame hle he
    exact hg.vouches_kept id _ hb hs (hv he)
  case unregister id => exact hat
  case recheck e =>
    obtain ⟨hw, hh, ha, hle, hr⟩ := hat
    refine ⟨hwait hw, hh, ha, hle.trans hg.epoch_le, fun he p hp => ?_⟩
    exact hg.log_kept p (hr (hsame hle he).2 p hp)
  case returned ok =>
    obtain ⟨hw, hh, hok⟩ := hat
    exact ⟨hwait hw, hh, fun h => ⟨(hok h).1, fun p hp => hg.log_kept p ((hok h).2 p hp)⟩⟩

theorem Link.Grows.refl (k : Link) (own : Option Nat) : k.Grows k own :=
  ⟨le_rfl, le_rfl, fun _ h => h, fun _ _ h => h, fun _ _ h => h, fun _ _ h => h,
    fun _ _ _ _ h => h⟩

theorem Link.Grows.of_same {k k' : Link} {own : Option Nat} (he : k'.epoch = k.epoch)
    (hl : k'.log = k.log) (hw : k'.wire = k.wire) (hn : k.nextId ≤ k'.nextId)
    (hwait : ∀ id, own = some id → id ∉ k.waiting → id ∉ k'.waiting) : k.Grows k' own := by
  refine ⟨he.ge, hn, fun p h => hl ▸ h, fun _ p h => by rwa [hl, hw], ?_, hwait, ?_⟩
  · intro id _ hu
    rwa [Unasked, hl, hw]
  · intro id sent _ _ hv
    rwa [Vouches, hl, hw]

theorem mem_write {k : Link} {b : Body} {p : Packet} :
    p ∈ (k.write b).log ++ (k.write b).wire ↔ p ∈ k.log ++ k.wire ∨ p = ⟨k.written, b⟩ := by
  simp [Link.write, or_assoc]

theorem Link.Grows.write (k : Link) (b : Body) {own : Option Nat}
    (hb : ∀ id, own = some id → b ≠ .echo id) : k.Grows (k.write b) own := by
  refine ⟨le_rfl, le_rfl, fun _ h => h, fun _ p h => mem_write.mpr (.inl h), ?_,
    fun _ _ h => h, ?_⟩
  · intro id hid hu p hp
    rcases mem_write.mp hp with hp | rfl
    · exact hu p hp
    · exact hb id hid
  · intro id sent hid _ hv
    rcases hv with hv | ⟨hlog, w, q, w', hw, hq, hpre, hsent⟩
    · exact .inl hv
    · refine .inr ⟨hlog, w, q, w' ++ [⟨k.written, b⟩], ?_, hq, hpre, hsent⟩
      simp [Link.write, hw]

theorem vouches_read {k k' : Link} {p : Packet} {w : List Packet} (hwire : k.wire = p :: w)
    (hlog : k'.log = k.log ++ [p]) (hw : k'.wire = w) {id : Nat} {sent : List Packet}
    (hv : Vouches k sent id) : Vouches k' sent id := by
  rcases hv with hv | ⟨hunread, pre, q, post, hsplit, hq, hpre, hsent⟩
  · exact .inl fun x hx => by simp [hlog, hv x hx]
  · rw [hwire] at hsplit
    cases pre with
    | nil =>
      -- the question itself is read: everything it stood behind already was
      refine .inl fun x hx => ?_
      have hx := hsent x hx
      rw [List.append_nil] at hx
      rw [hlog]
      exact List.mem_append_left _ hx
    | cons y pre =>
      obtain ⟨rfl, rfl⟩ := List.cons.inj hsplit
      refine .inr ⟨?_, pre, q, post, hw, hq, ?_, ?_⟩
      · intro x hx
        rw [hlog] at hx
        rcases List.mem_append.mp hx with hx | hx
        · exact hunread x hx
        · rw [List.mem_singleton.mp hx]
          exact hpre p List.mem_cons_self
      · exact fun x hx => hpre x (List.mem_cons_of_mem _ hx)
      · intro x hx
        have hx := hsent x hx
        rw [hlog, List.append_assoc]
        exact hx

theorem event_grows {k k' : Link} {ev : Link.Event} (h : k.event ev = some k')
    (own : Option Nat) : k.Grows k' own := by
  obtain ⟨p, w, hw, rfl⟩ | ⟨id, es, _, rfl⟩ | ⟨id, es, _, rfl⟩ | rfl |
    ⟨wire, echoes, hwire, _, rfl⟩ := event_cases h
  · have hmem : ∀ x, x ∈ k.log ++ [p] ++ w ↔ x ∈ k.log ++ k.wire := by
      intro x
      rw [hw, List.append_assoc]
      rfl
    refine ⟨le_rfl, le_rfl, fun x hx => List.mem_append_left _ hx,
      fun _ x hx => (hmem x).mpr hx, ?_, fun _ _ h => h, ?_⟩
    · exact fun id _ hu x hx => hu x ((hmem x).mp hx)
    · exact fun id sent _ _ hv => vouches_read hw rfl rfl hv
  · refine .of_same rfl rfl rfl le_rfl fun j _ hj hmem => hj ?_
    exact (List.mem_filter.mp hmem).1
  · exact .of_same rfl rfl rfl le_rfl fun _ _ hid => hid
  · exact .of_same rfl rfl rfl le_rfl fun _ _ hid => hid
  · have hmoved : k.epoch + 1 ≠ k.epoch := by omega
    refine ⟨Nat.le_succ _, le_rfl, fun _ h => h, fun he => absurd he hmoved, ?_,
      fun _ _ h => h, fun _ _ _ he => absurd he hmoved⟩
    intro id _ hu x hx
    rcases List.mem_append.mp hx with hx | hx
    · exact hu x (List.mem_append_left _ hx)
    · exact hu x (List.mem_append_right _ (hwire.subset hx))

theorem heard_read {k : Link} (hk : LinkInv k) {p : Packet} {id : Nat}
    (h : id ∈ Link.answer p k.echoes ∨ id ∈ k.fired) : ∃ x ∈ k.log ++ [p], x.body = .echo id := by
  have hcases : (id ∈ k.echoes ∨ id ∈ k.fired) ∨ p.body = .echo id := by
    rcases h with h | h
    · unfold Link.answer at h
      split at h
      · exact .inl (.inl h)
      next id' hb =>
        rcases List.mem_append.mp h with h | h
        · exact .inl (.inl h)
        · exact .inr (by rw [hb, List.mem_singleton.mp h])
    · exact .inl (.inr h)
  rcases hcases with hid | hid
  · obtain ⟨x, hx, hb⟩ := hk.heard_read id hid
    exact ⟨x, List.mem_append_left _ hx, hb⟩
  · exact ⟨p, List.mem_append_right _ (List.mem_singleton.mpr rfl), hid⟩

theorem linkInv_event {k k' : Link} {ev : Link.Event} (hk : LinkInv k)
    (h : k.event ev = some k') : LinkInv k' := by
  obtain ⟨p, w, hw, rfl⟩ | ⟨id, es, he, rfl⟩ | ⟨id, es, he, rfl⟩ | rfl |
    ⟨wire, echoes, hwire, hechoes, rfl⟩ := event_cases h
  · refine ⟨fun x hx => hk.asked_lt x ?_, fun id hid => heard_read hk hid, hk.fired_gone⟩
    rw [hw]
    simpa using hx
  · have hrest : ∀ j ∈ es, j ∈ k.echoes := fun j hj => by simp [he, hj]
    refine ⟨hk.asked_lt, fun j hj => ?_, fun j hj hm => ?_⟩
    · rcases hj with hj | hj
      · exact hk.heard_read j (.inl (hrest j hj))
      · rcases List.mem_cons.mp hj with rfl | hj
        · exact hk.heard_read j (.inl (by simp [he]))
        · exact hk.heard_read j (.inr hj)
    · rw [List.mem_filter] at hm
      rcases List.mem_cons.mp hj with rfl | hj
      · simp at hm
      · exact hk.fired_gone j hj hm.1
  · have hrest : ∀ j ∈ es, j ∈ k.echoes := fun j hj => by simp [he, hj]
    exact ⟨hk.asked_lt, fun j hj => hk.heard_read j (hj.imp_left (hrest j)), hk.fired_gone⟩
  · exact ⟨hk.asked_lt, hk.heard_read, hk.fired_gone⟩
  · refine ⟨fun x hx => hk.asked_lt x ?_,
      fun j hj => hk.heard_read j (hj.imp_left fun h => hechoes.subset h), hk.fired_gone⟩
    rcases List.mem_append.mp hx with hx | hx
    · exact List.mem_append_left _ hx
    · exact List.mem_append_right _ (hwire.subset hx)

theorem linkInv_write {k : Link} (hk : LinkInv k) {b : Body}
    (hb : ∀ id, b = .echo id → id < k.nextId) : LinkInv (k.write b) := by
  refine ⟨fun p hp id hid => ?_, hk.heard_read, hk.fired_gone⟩
  rcases mem_write.mp hp with hp | rfl
  · exact hk.asked_lt p hp id hid
  · exact hb id hid

def StepKeeps (k : Link) (c : Caller) (k' : Link) (c' : Caller) : Prop :=
  (LinkInv k' ∧ CallerInv k' c') ∧
    ∀ d, CallerInv k d → Apart c d → k.Grows k' d.barrier ∧ Apart c' d

theorem StepKeeps.local {k : Link} {c c' : Caller} (hk : LinkInv k) (hc : CallerInv k c)
    (hb : c'.barrier = none ∨ c'.barrier = c.barrier) (hat : c'.At k c'.pc) :
    StepKeeps k c k c' := by
  refine ⟨⟨hk, fun id hid => ?_, hat⟩, fun d _ hd => ⟨.refl k _, fun id hid => ?_⟩⟩
  · rcases hb with hb | hb
    · rw [hb] at hid
      cases hid
    · exact hc.barrier_lt id (hb ▸ hid)
  · rcases hb with hb | hb
    · rw [hb] at hid
      cases hid
    · exact hd id (hb ▸ hid)

theorem StepKeeps.publish {k : Link} {c c' : Caller} (hk : LinkInv k) (hc : CallerInv k c)
    (m : Msg) (hb : c'.barrier = c.barrier) (hat : c'.At (k.write (.publish m)) c'.pc) :
    StepKeeps k c (k.write (.publish m)) c' := by
  refine ⟨⟨linkInv_write hk (by simp), fun id hid => hc.barrier_lt id (hb ▸ hid), hat⟩, ?_⟩
  exact fun d _ hd => ⟨.write k _ (by simp), fun id hid => hd id (hb ▸ hid)⟩

theorem Caller.Tracks.publish {k : Link} {c : Caller} {e : Nat} (h : c.Tracks k e) (m : Msg)
    (rest : List Msg) :
    Caller.Tracks (k.write (.publish m))
      { c with held := rest, sent := c.sent ++ [⟨k.written, .publish m⟩] } e := by
  refine ⟨h.1, fun he p hp => mem_write.mpr ?_⟩
  rcases List.mem_append.mp hp with hp | hp
  · exact .inl (h.2 he p hp)
  · exact .inr (List.mem_singleton.mp hp)

theorem vouches_ask {k : Link} {c : Caller} {e id : Nat} (h : c.Tracks k e) (hu : Unasked k id)
    (he : e = k.epoch) : Vouches (k.write (.echo id)) c.sent id := by
  -- the question of a barrier stands behind everything its thread handed over
  refine .inr ⟨fun p hp => hu p (List.mem_append_left _ hp), k.wire, ⟨k.written, .echo id⟩, [],
    rfl, rfl, fun p hp => hu p (List.mem_append_right _ hp), h.2 he⟩

theorem read_of_fired {k : Link} (hk : LinkInv k) {sent : List Packet} {id : Nat}
    (hf : id ∈ k.fired) (hv : Vouches k sent id) : ∀ p ∈ sent, p ∈ k.log := by
  -- hearing the echo settles the question: it is not unread any more
  rcases hv with hv | ⟨hunread, _⟩
  · exact hv
  · obtain ⟨p, hp, hb⟩ := hk.heard_read id (.inr hf)
    exact absurd hb (hunread p hp)

theorem go_keeps {k k' : Link} {c c' : Caller} (hk : LinkInv k) (hc : CallerInv k c)
    (h : c.go k = some (k', c')) : StepKeeps k c k' c' := by
  have hat := hc.at_pc
  unfold Caller.go at h
  cases hpc : c.pc <;> rw [hpc] at hat h <;> dsimp only at h
  case idle => cases h
  case checkUp =>
    obtain ⟨hb, hs, ha⟩ := hat
    split at h <;> cases h
    · exact .local hk hc (.inr rfl) ⟨hb, hs, ha⟩
    · exact .local hk hc (.inr rfl) ⟨fun id hid => by simp [hb] at hid, rfl, nofun⟩
  case readEpoch =>
    obtain ⟨hb, hs, ha⟩ := hat
    cases h
    exact .local hk hc (.inr rfl) ⟨hb, ha, le_rfl, fun _ p hp => by simp [hs] at hp⟩
  case sending e =>
    obtain ⟨hb, ha, ht⟩ := hat
    split at h
    next hheld =>
      cases h
      exact .local hk hc (.inr rfl) ⟨hb, hheld, ha, ht⟩
    next m rest hheld =>
      cases h
      refine .publish hk hc m rfl ⟨hb, ?_, ht.publish m rest⟩
      simpa [Caller.Accounts, hheld] using ha
  case fetchId e =>
    obtain ⟨hb, hh, ha, ht⟩ := hat
    cases h
    refine ⟨⟨⟨fun p hp id hid => Nat.lt_succ_of_lt (hk.asked_lt p hp id hid), hk.heard_read,
      hk.fired_gone⟩, ?_, ?_⟩, fun d hd _ => ⟨.of_same rfl rfl rfl (Nat.le_succ _)
        fun _ _ hid => hid, fun id hid hd' => ?_⟩⟩
    · rintro id ⟨⟩
      exact Nat.lt_succ_self _
    · exact ⟨rfl, hh, ha, ht, fun p hp hid => absurd (hk.asked_lt p hp _ hid) (lt_irrefl _)⟩
    · cases hid
      exact absurd (hd.barrier_lt _ hd') (lt_irrefl _)
  case register e id =>
    obtain ⟨hb, hh, ha, ht, hu⟩ := hat
    cases h
    have hnotFired : id ∉ k.fired := by
      intro hf
      obtain ⟨p, hp, hid⟩ := hk.heard_read id (.inr hf)
      exact hu p (List.mem_append_left _ hp) hid
    refine ⟨⟨⟨hk.asked_lt, hk.heard_read, fun j hj hm => ?_⟩, hc.barrier_lt,
      hb, hh, ha, ht, hu⟩, fun d _ hd => ⟨.of_same rfl rfl rfl le_rfl fun j hj hm hmem => ?_, hd⟩⟩
    · rcases List.mem_cons.mp hm with rfl | hm
      · exact hnotFired hj
      · exact hk.fired_gone j hj hm
    · rcases List.mem_cons.mp hmem with rfl | hmem
      · exact hd j hb hj
      · exact hm hmem
  case ask e id =>
    obtain ⟨hb, hh, ha, ht, hu⟩ := hat
    cases h
    have hlt := hc.barrier_lt id hb
    refine ⟨⟨linkInv_write hk ?_, hc.barrier_lt, hb, hh, ha, ht.1, vouches_ask ht hu⟩,
      fun d _ hd => ⟨.write k _ fun j hj => ?_, hd⟩⟩
    · rintro j ⟨⟩
      exact hlt
    · rintro ⟨⟩
      exact hd id hb hj
  case listen e id =>
    obtain ⟨hb, hh, ha, hle, hv⟩ := hat
    split at h
    next hf =>
      cases h
      refine .local hk hc (.inr rfl) ⟨fun j hj => ?_, hh, ha, hle, fun he => ?_⟩
      · cases hb.symm.trans hj
        exact hk.fired_gone id hf
      · exact read_of_fired hk hf (hv he)
    · cases h
  case unregister id =>
    obtain ⟨hb, hh⟩ := hat
    cases h
    refine ⟨⟨⟨hk.asked_lt, hk.heard_read, fun j hj hm => ?_⟩, hc.barrier_lt, ?_, hh, nofun⟩,
      fun d _ hd => ⟨.of_same rfl rfl rfl le_rfl fun j hj hm hmem => ?_, hd⟩⟩
    · exact hk.fired_gone j hj (List.mem_filter.mp hm).1
    · intro j hj hm
      cases hb.symm.trans hj
      simp at hm
    · exact hm (List.mem_filter.mp hmem).1
  case recheck e =>
    obtain ⟨hw, hh, ha, hle, hr⟩ := hat
    cases h
    exact .local hk hc (.inr rfl) ⟨hw, hh, fun hok => ⟨ha, hr (beq_iff_eq.mp hok).symm⟩⟩
  case returned ok =>
    cases h
    exact .local hk hc (.inr rfl) hat.1

theorem fail_keeps {k k' : Link} {c c' : Caller} (hk : LinkInv k) (hc : CallerInv k c)
    (h : c.fail k = some (k', c')) : StepKeeps k c k' c' := by
  have hat := hc.at_pc
  unfold Caller.fail at h
  cases hpc : c.pc <;> rw [hpc] at hat h <;> dsimp only at h
  case sending e =>
    split at h
    · cases h
    · cases h
      exact .local hk hc (.inr rfl) ⟨fun id hid => by simp [hat.1] at hid, rfl, nofun⟩
  case ask e id =>
    cases h
    exact .local hk hc (.inr rfl) ⟨hat.1, hat.2.1⟩
  case listen e id =>
    cases h
    exact .local hk hc (.inr rfl) ⟨hat.1, hat.2.1⟩
  all_goals cases h

theorem call_keeps {k k' : Link} {c c' : Caller} (hk : LinkInv k) (hc : CallerInv k c)
    (h : c.call k = some (k', c')) : StepKeeps k c k' c' := by
  unfold Caller.call at h
  split at h
  · cases h
  · split at h
    next hheld =>
      cases h
      rw [List.isEmpty_iff] at hheld
      exact .local hk hc (.inl rfl)
        ⟨nofun, hheld, fun _ => ⟨by simp [Caller.Accounts, hheld], nofun⟩⟩
    · cases h
      exact .local hk hc (.inl rfl) ⟨rfl, rfl, by simp [Caller.Accounts]⟩

section
variable {τ : Type}

def Sound : Pool.State Link Caller τ → Prop := Pool.Holds LinkInv CallerInv Apart

theorem sound_of_fresh {s : Pool.State Link Caller τ} (h : freshLink s) : Sound s := by
  obtain ⟨hs, hl⟩ := h
  refine ⟨?_, fun t => ?_, fun t u _ => ?_⟩
  · rw [hs]
    exact ⟨nofun, nofun, nofun⟩
  · rw [hl t]
    exact ⟨nofun, nofun⟩
  · rw [hl t]
    exact nofun

variable [External]

theorem act_keeps {k k' : Link} {c c' : Caller} {ch : Choice} (hk : LinkInv k)
    (hc : CallerInv k c) (h : c.act k ch = some (k', c')) : StepKeeps k c k' c' := by
  cases ch with
  | confirm => exact call_keeps hk hc h
  | go => exact go_keeps hk hc h
  | fail => exact fail_keeps hk hc h
  | hold limit subject payload =>
    simp only [Caller.act] at h
    split at h
    · cases h
    next hpc =>
      have hat := hc.at_pc
      rw [not_not.mp hpc] at hat
      have hidle : ∀ held : List Msg, Caller.At k { c with held } c.pc := by
        intro held
        rw [not_not.mp hpc]
        exact hat
      split at h
      · cases h
        exact .local hk hc (.inr rfl) (hidle _)
      · cases h
        exact .local hk hc (.inr rfl) (hidle _)
  | send m =>
    simp only [Caller.act] at h
    split at h
    · cases h
    next hpc =>
      cases h
      refine .publish hk hc m rfl ?_
      have hg : k.Grows (k.write (.publish m)) c.barrier := .write k _ (by simp)
      exact (hc.grows hg).at_pc

variable [DecidableEq τ]

theorem sound_of_reachable {s : Pool.State Link Caller τ}
    (h : (link.system freshLink).Reachable s) : Sound s := by
  refine Pool.Holds.reachable Apart.symm ?_ ?_ (fun _ => sound_of_fresh)
    (Transition.ReachableUnder.mono (fun _ a _ => ?_) h : (link.system freshLink).ReachableUnder
      (Pool.Only fun _ _ _ => True) s)
  · intro k c ch k' c' hk hc _ hstep
    obtain ⟨hown, hothers⟩ := act_keeps hk hc hstep
    refine ⟨hown, fun d hd hapart => ?_⟩
    obtain ⟨hg, hapart'⟩ := hothers d hd hapart
    exact ⟨hd.grows hg, hapart'⟩
  · intro k ev k' hk hstep
    exact ⟨linkInv_event hk hstep, fun d hd => hd.grows (event_grows hstep _)⟩
  · cases a <;> trivial

/-- Whatever threads, server and network do: a `confirm` that returned `Ok` had every
message it was called with read by the server; and one that returned holds nothing
and left no waiter behind. -/
theorem confirm_sound {s : Pool.State Link Caller τ} (h : (link.system freshLink).Reachable s)
    (t : τ) (ok : Bool) (hret : (s.locals t).pc = .returned ok) :
    (ok = true → (s.locals t).sent.map (·.body) = (s.locals t).asked.map .publish ∧
      ∀ p ∈ (s.locals t).sent, p ∈ s.shared.log) ∧
    (s.locals t).held = [] ∧
    ∀ id, (s.locals t).barrier = some id → id ∉ s.shared.waiting := by
  have hat := ((sound_of_reachable h).each t).at_pc
  rw [hret] at hat
  obtain ⟨hw, hheld, hok⟩ := hat
  refine ⟨fun h => ?_, hheld, hw⟩
  obtain ⟨hacc, hread⟩ := hok h
  refine ⟨?_, hread⟩
  simpa [Caller.Accounts, hheld] using hacc

end

def quietRun : List (Pool.Label Choice Link.Event Unit) :=
  [.thread () (.hold 64 "vx.out" [1]), .thread () .confirm] ++
    List.replicate 7 (.thread () .go) ++ [.env .read, .env .read, .env .deliver] ++
    List.replicate 2 (.thread () .go)

def startState : Pool.State Link Caller Unit := ⟨.opened, fun _ => .start⟩

theorem confirm_sound_quietRun :
    ∃ s : Pool.State Link Caller Unit, (s.locals ()).pc = .returned true ∧
      (s.locals ()).asked = [⟨"vx.out", [1]⟩] ∧
      (s.locals ()).sent.map (·.body) = (s.locals ()).asked.map .publish ∧
      ∀ p ∈ (s.locals ()).sent, p ∈ s.shared.log := by
  have hsome : (Transition.run (@link ascii).step startState quietRun).isSome = true := by decide
  obtain ⟨s, hs⟩ := Option.isSome_iff_exists.mp hsome
  have hpc : (Transition.run (@link ascii).step startState quietRun).map (fun s => (s.locals ()).pc) =
      some (.returned true) := by decide
  have hasked : (Transition.run (@link ascii).step startState quietRun).map (fun s => (s.locals ()).asked) =
      some [⟨"vx.out", [1]⟩] := by decide
  rw [hs] at hpc hasked
  have hreach : ((@link ascii).system freshLink).Reachable s :=
    Transition.Reachable.run quietRun (.init ⟨rfl, fun _ => rfl⟩) hs
  have hret : (s.locals ()).pc = .returned true := by simpa using hpc
  exact ⟨s, hret, by simpa using hasked,
    (@confirm_sound Unit ascii _ s hreach () true hret).1 rfl⟩

end Vejas.Bus
