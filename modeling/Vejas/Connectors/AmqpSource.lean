import Mathlib.Data.List.Sort
import Vejas.Bus.Link
import Vejas.Lib.Transition

/-! The AMQP source: a message is received, published to the bus, and then acked, or nacked if the
publish failed. The broker delivers ahead of the acks, and a nacked message goes back to its place
in the queue while those delivered after it stay with the client. -/

namespace Vejas.Amqp
open Bus

structure Queued where
  number : Nat
  body : Payload
  deriving DecidableEq

inductive SourcePc
  | top
  | receiving
  | publishing (tag : Nat) (m : Queued)
  | acking (tag : Nat)
  | nacking (tag : Nat)
  | returned (r : Except String Unit)

/-- A run of `run_source` over an `AmqpConsumer`. `buffer` is what was delivered and not received,
`pending` the deliveries the consumer holds, `unacked` those the broker waits for; `bus` are the
messages whose publish returned `Ok` and `acked` those the broker let go, all oldest first. -/
structure Source where
  pc : SourcePc
  tag : Nat
  queue : List Queued
  unacked : List (Nat × Queued)
  buffer : List (Nat × Queued)
  pending : List (Nat × Queued)
  arrived : List Queued
  bus : List Queued
  acked : List Queued

inductive SourceEvent
  | arrive (body : Payload)
  | deliver
  | alive (b : Bool)
  | recv
  /-- a notice of the channel instead of a delivery -/
  | notice
  | publish (ok : Bool)
  | ack (r : Except String Unit)
  | nack (r : Except String Unit)

namespace Source

def start : Source := ⟨.top, 0, [], [], [], [], [], [], []⟩

def requeue (m : Queued) (queue : List Queued) : List Queued :=
  queue.orderedInsert (fun a b => a.number ≤ b.number) m

def without (tag : Nat) (ds : List (Nat × Queued)) : List (Nat × Queued) := ds.filter (·.1 != tag)

def take (s : Source) (tag : Nat) (r : Except String Unit) (settle : Queued → Source → Source) : Source :=
  match s.pending.find? (·.1 == tag) with
  | none => { s with pc := .top }
  | some (_, m) =>
    match r with
    | .ok () => settle m { s with pc := .top, pending := without tag s.pending, unacked := without tag s.unacked }
    | .error e => { s with pc := .returned (.error e), pending := without tag s.pending }

def step (s : Source) : SourceEvent → Option Source
  | .arrive body =>
    let m : Queued := ⟨s.arrived.length, body⟩
    some { s with queue := s.queue ++ [m], arrived := s.arrived ++ [m] }
  | .deliver =>
    match s.queue with
    | [] => none
    | m :: rest => some { s with
        tag := s.tag + 1
        queue := rest
        unacked := s.unacked ++ [(s.tag + 1, m)]
        buffer := s.buffer ++ [(s.tag + 1, m)] }
  | .alive b =>
    match s.pc with
    | .top => some { s with pc := if b then .receiving else .returned (.ok ()) }
    | _ => none
  | .recv =>
    match s.pc with
    | .receiving =>
      match s.buffer with
      | [] => some { s with pc := .top }
      | (tag, m) :: rest => some { s with
          pc := .publishing tag m
          buffer := rest
          pending := without tag s.pending ++ [(tag, m)] }
    | _ => none
  | .notice =>
    match s.pc with
    | .receiving => some { s with pc := .top }
    | _ => none
  | .publish ok =>
    match s.pc with
    | .publishing tag m =>
      some (if ok then { s with pc := .acking tag, bus := s.bus ++ [m] } else { s with pc := .nacking tag })
    | _ => none
  | .ack r =>
    match s.pc with
    | .acking tag => some (s.take tag r fun m s => { s with acked := s.acked ++ [m] })
    | _ => none
  | .nack r =>
    match s.pc with
    | .nacking tag => some (s.take tag r fun m s => { s with queue := requeue m s.queue })
    | _ => none

def system : Transition Source SourceEvent := .ofStep step (· = start)

/-- A message goes back to the queue only if none that was delivered after it waits. -/
def Alone (s : Source) : SourceEvent → Prop
  | .nack _ => s.buffer = []
  | _ => True

instance (s : Source) : ∀ a : SourceEvent, Decidable (s.Alone a)
  | .nack _ => inferInstanceAs (Decidable (s.buffer = []))
  | .arrive _ | .deliver | .alive _ | .recv | .notice | .publish _ | .ack _ => inferInstanceAs (Decidable True)

def InOrder (s : Source) : Prop := s.bus.eraseDups.Pairwise fun a b => a.number < b.number

structure Accounted (s : Source) : Prop where
  somewhere : ∀ m ∈ s.arrived, m ∈ s.bus ∨ m ∈ s.queue ∨ m ∈ s.unacked.map (·.2)
  published : ∀ m ∈ s.acked, m ∈ s.bus

def Holds (s : Source) : Prop :=
  match s.pc with
  | .top => s.unacked = s.buffer ∧ s.pending = []
  | .receiving => s.unacked = s.buffer ∧ s.pending = []
  | .publishing tag m => s.unacked = (tag, m) :: s.buffer ∧ s.pending = [(tag, m)]
  | .acking tag => ∃ m, s.unacked = (tag, m) :: s.buffer ∧ s.pending = [(tag, m)] ∧ m ∈ s.bus
  | .nacking tag => ∃ m, s.unacked = (tag, m) :: s.buffer ∧ s.pending = [(tag, m)]
  | .returned _ => True

structure Sound (s : Source) : Prop where
  holds : s.Holds
  tags : (s.unacked.map (·.1)).Nodup
  below : ∀ d ∈ s.unacked, d.1 ≤ s.tag
  accounted : s.Accounted

variable {s s' : Source}

theorem mem_requeue (m a : Queued) (queue : List Queued) : a ∈ requeue m queue ↔ a = m ∨ a ∈ queue :=
  List.mem_orderedInsert _

theorem without_head {tag : Nat} {m : Queued} {ds : List (Nat × Queued)} (h : (((tag, m) :: ds).map (·.1)).Nodup) :
    without tag ((tag, m) :: ds) = ds := by
  obtain ⟨hnot, -⟩ := List.nodup_cons.mp h
  unfold without
  rw [List.filter_cons_of_neg (by simp), List.filter_eq_self]
  intro d hd
  simp only [bne_iff_ne]
  intro heq
  exact hnot (List.mem_map.mpr ⟨d, hd, heq⟩)

theorem take_ok {tag : Nat} {m : Queued} (hp : s.pending = [(tag, m)]) (hu : s.unacked = (tag, m) :: s.buffer)
    (htags : (s.unacked.map (·.1)).Nodup) (settle : Queued → Source → Source) :
    s.take tag (.ok ()) settle = settle m { s with pc := .top, pending := [], unacked := s.buffer } := by
  rw [hu] at htags
  have hnone : without tag [(tag, m)] = [] := by simp [without]
  unfold take
  simp only [hp, hu, List.find?_cons, beq_self_eq_true, hnone, without_head htags]

theorem take_error {tag : Nat} {m : Queued} (hp : s.pending = [(tag, m)]) (e : String) (settle : Queued → Source → Source) :
    s.take tag (.error e) settle = { s with pc := .returned (.error e), pending := [] } := by
  simp [take, hp, without]

theorem sound_start : start.Sound where
  holds := ⟨rfl, rfl⟩
  tags := List.nodup_nil
  below d h := by cases h
  accounted := ⟨fun m h => (by cases h), fun m h => (by cases h)⟩

theorem Sound.elsewhere (h : s.Sound) {pc : SourcePc} (hpc : Holds { s with pc }) : Sound { s with pc } where
  holds := hpc
  tags := h.tags
  below := h.below
  accounted := ⟨h.accounted.somewhere, h.accounted.published⟩

theorem Sound.arrive (h : s.Sound) (m : Queued) :
    Sound { s with queue := s.queue ++ [m], arrived := s.arrived ++ [m] } where
  holds := by
    have := h.holds
    unfold Holds at this ⊢
    exact this
  tags := h.tags
  below := h.below
  accounted := by
    refine ⟨fun a ha => ?_, h.accounted.published⟩
    rcases List.mem_append.mp ha with ha | ha
    · rcases h.accounted.somewhere a ha with hin | hin | hin
      · exact .inl hin
      · exact .inr (.inl (List.mem_append_left _ hin))
      · exact .inr (.inr hin)
    · exact .inr (.inl (List.mem_append_right _ ha))

theorem Sound.deliver (h : s.Sound) {m : Queued} {rest : List Queued} (hq : s.queue = m :: rest) :
    Sound { s with
      tag := s.tag + 1
      queue := rest
      unacked := s.unacked ++ [(s.tag + 1, m)]
      buffer := s.buffer ++ [(s.tag + 1, m)] } where
  holds := by
    have := h.holds
    unfold Holds at this ⊢
    dsimp only
    split
    next hpc =>
      rw [hpc] at this
      exact ⟨congrArg (· ++ _) this.1, this.2⟩
    next hpc =>
      rw [hpc] at this
      exact ⟨congrArg (· ++ _) this.1, this.2⟩
    next hpc =>
      rw [hpc] at this
      exact ⟨congrArg (· ++ _) this.1, this.2⟩
    next hpc =>
      rw [hpc] at this
      obtain ⟨m', hu, hrest⟩ := this
      exact ⟨m', congrArg (· ++ _) hu, hrest⟩
    next hpc =>
      rw [hpc] at this
      obtain ⟨m', hu, hrest⟩ := this
      exact ⟨m', congrArg (· ++ _) hu, hrest⟩
    next => trivial
  tags := by
    rw [List.map_append, List.nodup_append]
    refine ⟨h.tags, List.nodup_singleton _, ?_⟩
    intro a ha b hb heq
    obtain ⟨d, hd, rfl⟩ := List.mem_map.mp ha
    have hle := h.below d hd
    rw [List.map_singleton, List.mem_singleton] at hb
    dsimp only at heq hb
    omega
  below d hd := by
    rcases List.mem_append.mp hd with hd | hd
    · exact Nat.le_succ_of_le (h.below d hd)
    · rw [List.mem_singleton.mp hd]
  accounted := by
    refine ⟨fun a ha => ?_, h.accounted.published⟩
    rcases h.accounted.somewhere a ha with hin | hin | hin
    · exact .inl hin
    · rw [hq] at hin
      rcases List.mem_cons.mp hin with rfl | hin
      · exact .inr (.inr (by simp))
      · exact .inr (.inl hin)
    · exact .inr (.inr (by rw [List.map_append]; exact List.mem_append_left _ hin))

theorem Sound.recv (h : s.Sound) (hu : s.unacked = s.buffer) (hp : s.pending = []) {tag : Nat} {m : Queued}
    {rest : List (Nat × Queued)} (hb : s.buffer = (tag, m) :: rest) :
    Sound { s with
      pc := .publishing tag m
      buffer := rest
      pending := without tag s.pending ++ [(tag, m)] } where
  holds := ⟨hu.trans hb, by rw [hp]; rfl⟩
  tags := h.tags
  below := h.below
  accounted := ⟨h.accounted.somewhere, h.accounted.published⟩

theorem Sound.published (h : s.Sound) {tag : Nat} {m : Queued} (hu : s.unacked = (tag, m) :: s.buffer)
    (hp : s.pending = [(tag, m)]) : Sound { s with pc := .acking tag, bus := s.bus ++ [m] } where
  holds := ⟨m, hu, hp, by simp⟩
  tags := h.tags
  below := h.below
  accounted := by
    refine ⟨fun a ha => ?_, fun a ha => List.mem_append_left _ (h.accounted.published a ha)⟩
    rcases h.accounted.somewhere a ha with hin | hin
    · exact .inl (List.mem_append_left _ hin)
    · exact .inr hin

theorem Sound.acked (h : s.Sound) {tag : Nat} {m : Queued} (hu : s.unacked = (tag, m) :: s.buffer) (hm : m ∈ s.bus) :
    Sound { s with pc := .top, pending := [], unacked := s.buffer, acked := s.acked ++ [m] } where
  holds := ⟨rfl, rfl⟩
  tags := by
    have htags := h.tags
    rw [hu] at htags
    exact (List.nodup_cons.mp htags).2
  below d hd := h.below d (by rw [hu]; exact List.mem_cons_of_mem _ hd)
  accounted := by
    constructor
    · intro a ha
      rcases h.accounted.somewhere a ha with hin | hin | hin
      · exact .inl hin
      · exact .inr (.inl hin)
      · rw [hu] at hin
        rcases List.mem_cons.mp hin with rfl | hin
        · exact .inl hm
        · exact .inr (.inr hin)
    · intro a ha
      rcases List.mem_append.mp ha with ha | ha
      · exact h.accounted.published a ha
      · rw [List.mem_singleton.mp ha]
        exact hm

theorem Sound.nacked (h : s.Sound) {tag : Nat} {m : Queued} (hu : s.unacked = (tag, m) :: s.buffer) :
    Sound { s with pc := .top, pending := [], unacked := s.buffer, queue := requeue m s.queue } where
  holds := ⟨rfl, rfl⟩
  tags := by
    have htags := h.tags
    rw [hu] at htags
    exact (List.nodup_cons.mp htags).2
  below d hd := h.below d (by rw [hu]; exact List.mem_cons_of_mem _ hd)
  accounted := by
    refine ⟨fun a ha => ?_, h.accounted.published⟩
    rcases h.accounted.somewhere a ha with hin | hin | hin
    · exact .inl hin
    · exact .inr (.inl ((mem_requeue ..).mpr (.inr hin)))
    · rw [hu] at hin
      rcases List.mem_cons.mp hin with rfl | hin
      · exact .inr (.inl ((mem_requeue ..).mpr (.inl rfl)))
      · exact .inr (.inr hin)

theorem Sound.stopped (h : s.Sound) (e : String) :
    Sound { s with pc := .returned (.error e), pending := [] } where
  holds := trivial
  tags := h.tags
  below := h.below
  accounted := ⟨h.accounted.somewhere, h.accounted.published⟩

inductive Moves (s : Source) : SourceEvent → Source → Prop
  | arrive (body : Payload) : Moves s (.arrive body) { s with
      queue := s.queue ++ [⟨s.arrived.length, body⟩]
      arrived := s.arrived ++ [⟨s.arrived.length, body⟩] }
  | deliver {m : Queued} {rest : List Queued} (hq : s.queue = m :: rest) : Moves s .deliver { s with
      tag := s.tag + 1
      queue := rest
      unacked := s.unacked ++ [(s.tag + 1, m)]
      buffer := s.buffer ++ [(s.tag + 1, m)] }
  | turn {a : SourceEvent} {pc : SourcePc} (hfrom : s.pc = .top ∨ s.pc = .receiving)
      (hto : pc = .top ∨ pc = .receiving ∨ pc = .returned (.ok ())) : Moves s a { s with pc }
  | recv {tag : Nat} {m : Queued} {rest : List (Nat × Queued)} (hpc : s.pc = .receiving)
      (hb : s.buffer = (tag, m) :: rest) : Moves s .recv { s with
        pc := .publishing tag m
        buffer := rest
        pending := without tag s.pending ++ [(tag, m)] }
  | published {tag : Nat} {m : Queued} (hpc : s.pc = .publishing tag m) :
      Moves s (.publish true) { s with pc := .acking tag, bus := s.bus ++ [m] }
  | refused {tag : Nat} {m : Queued} (hpc : s.pc = .publishing tag m) (hp : s.pending = [(tag, m)]) :
      Moves s (.publish false) { s with pc := .nacking tag }
  | acked {tag : Nat} {m : Queued} (hpc : s.pc = .acking tag) (hu : s.unacked = (tag, m) :: s.buffer) (hm : m ∈ s.bus) :
      Moves s (.ack (.ok ())) { s with pc := .top, pending := [], unacked := s.buffer, acked := s.acked ++ [m] }
  | nacked {tag : Nat} {m : Queued} (hpc : s.pc = .nacking tag) (hu : s.unacked = (tag, m) :: s.buffer)
      (hp : s.pending = [(tag, m)]) : Moves s (.nack (.ok ())) { s with
        pc := .top
        pending := []
        unacked := s.buffer
        queue := requeue m s.queue }
  | stopped {a : SourceEvent} (e : String) : Moves s a { s with pc := .returned (.error e), pending := [] }

theorem moves_of_step {a : SourceEvent} (h : s.Sound) (hs : s.step a = some s') : s.Moves a s' := by
  have hholds := h.holds
  unfold Holds at hholds
  cases a with
  | arrive body =>
    cases hs
    exact .arrive body
  | deliver =>
    simp only [step] at hs
    split at hs
    next => cases hs
    next m rest hq =>
      cases hs
      exact .deliver hq
  | alive b =>
    simp only [step] at hs
    split at hs
    next hpc =>
      cases hs
      cases b with
      | true => exact .turn (.inl hpc) (.inr (.inl rfl))
      | false => exact .turn (.inl hpc) (.inr (.inr rfl))
    next => cases hs
  | recv =>
    simp only [step] at hs
    split at hs
    next hpc =>
      split at hs
      next =>
        cases hs
        exact .turn (.inr hpc) (.inl rfl)
      next tag m rest hb =>
        cases hs
        exact .recv hpc hb
    next => cases hs
  | notice =>
    simp only [step] at hs
    split at hs
    next hpc =>
      cases hs
      exact .turn (.inr hpc) (.inl rfl)
    next => cases hs
  | publish ok =>
    simp only [step] at hs
    split at hs
    next tag m hpc =>
      rw [hpc] at hholds
      cases hs
      cases ok with
      | true => exact .published hpc
      | false => exact .refused hpc hholds.2
    next => cases hs
  | ack r =>
    simp only [step] at hs
    split at hs
    next tag hpc =>
      rw [hpc] at hholds
      obtain ⟨m, hu, hp, hm⟩ := hholds
      cases hs
      cases r with
      | ok _ =>
        rw [take_ok hp hu h.tags]
        exact .acked hpc hu hm
      | error e =>
        rw [take_error hp]
        exact .stopped e
    next => cases hs
  | nack r =>
    simp only [step] at hs
    split at hs
    next tag hpc =>
      rw [hpc] at hholds
      obtain ⟨m, hu, hp⟩ := hholds
      cases hs
      cases r with
      | ok _ =>
        rw [take_ok hp hu h.tags]
        exact .nacked hpc hu hp
      | error e =>
        rw [take_error hp]
        exact .stopped e
    next => cases hs

theorem Sound.moves {a : SourceEvent} (h : s.Sound) (hs : s.Moves a s') : s'.Sound := by
  have hholds := h.holds
  unfold Holds at hholds
  cases hs with
  | arrive body => exact h.arrive _
  | deliver hq => exact h.deliver hq
  | turn hfrom hto =>
    have hrest : s.unacked = s.buffer ∧ s.pending = [] := by
      rcases hfrom with hpc | hpc
      · rw [hpc] at hholds
        exact hholds
      · rw [hpc] at hholds
        exact hholds
    apply h.elsewhere
    rcases hto with rfl | rfl | rfl
    · exact hrest
    · exact hrest
    · trivial
  | recv hpc hb =>
    rw [hpc] at hholds
    exact h.recv hholds.1 hholds.2 hb
  | published hpc =>
    rw [hpc] at hholds
    exact h.published hholds.1 hholds.2
  | refused hpc hp =>
    rw [hpc] at hholds
    exact h.elsewhere ⟨_, hholds.1, hp⟩
  | acked _ hu hm => exact h.acked hu hm
  | nacked _ hu _ => exact h.nacked hu
  | stopped e => exact h.stopped e

def waiting (s : Source) : List Queued :=
  match s.pc with
  | .publishing _ m => [m]
  | .nacking _ => s.pending.map (·.2)
  | _ => []

structure Lined (s : Source) : Prop where
  numbers : s.arrived.Pairwise fun a b => a.number < b.number
  top : ∀ m ∈ s.arrived, m.number < s.arrived.length
  first : s.bus <+: s.arrived
  line : (∀ r, s.pc ≠ .returned r) → s.bus ++ s.waiting ++ s.buffer.map (·.2) ++ s.queue = s.arrived

theorem requeue_first {m : Queued} {queue : List Queued} (h : ∀ a ∈ queue, m.number < a.number) :
    requeue m queue = m :: queue := by
  cases queue with
  | nil => rfl
  | cons a rest => exact List.orderedInsert_cons_of_le _ _ (Nat.le_of_lt (h a (List.mem_cons_self ..)))

theorem Lined.moves {a : SourceEvent} (h : s.Lined) (hc : s.Alone a) (hs : s.Moves a s') : s'.Lined := by
  cases hs with
  | arrive body =>
    refine ⟨?_, ?_, h.first.trans (List.prefix_append _ _), fun hrun => ?_⟩
    · refine List.pairwise_append.mpr ⟨h.numbers, List.pairwise_singleton _ _, fun m hm b hb => ?_⟩
      rw [List.mem_singleton.mp hb]
      exact h.top m hm
    · intro m hm
      rw [List.length_append]
      rcases List.mem_append.mp hm with hm | hm
      · exact Nat.lt_add_right _ (h.top m hm)
      · rw [List.mem_singleton.mp hm]
        exact Nat.lt_succ_self _
    · rw [← h.line hrun, ← List.append_assoc]
      rfl
  | @deliver m rest hq =>
    refine ⟨h.numbers, h.top, h.first, fun hrun => ?_⟩
    rw [← h.line hrun, hq]
    simp only [waiting, List.map_append, List.map_singleton, List.append_assoc, List.singleton_append]
  | turn hfrom hto =>
    refine ⟨h.numbers, h.top, h.first, fun hrun => ?_⟩
    have hnone : s.waiting = [] := by
      unfold waiting
      rcases hfrom with hpc | hpc <;> rw [hpc]
    have hline := h.line fun r heq => by
      rcases hfrom with hpc | hpc <;> rw [hpc] at heq <;> cases heq
    rw [hnone] at hline
    rcases hto with rfl | rfl | rfl
    · exact hline
    · exact hline
    · exact absurd rfl (hrun _)
  | recv hpc hb =>
    refine ⟨h.numbers, h.top, h.first, fun _ => ?_⟩
    have hline := h.line fun r heq => by
      rw [hpc] at heq
      cases heq
    have hnone : s.waiting = [] := by
      unfold waiting
      rw [hpc]
    rw [hnone, hb] at hline
    rw [← hline]
    simp [waiting]
  | @published tag m hpc =>
    have hline := h.line fun r heq => by
      rw [hpc] at heq
      cases heq
    have hmine : s.waiting = [m] := by
      unfold waiting
      rw [hpc]
    rw [hmine] at hline
    refine ⟨h.numbers, h.top, ⟨s.buffer.map (·.2) ++ s.queue, ?_⟩, fun _ => ?_⟩
    · rw [← hline]
      simp
    · rw [← hline]
      simp [waiting]
  | @refused tag m hpc hp =>
    refine ⟨h.numbers, h.top, h.first, fun _ => ?_⟩
    have hline := h.line fun r heq => by
      rw [hpc] at heq
      cases heq
    have hmine : s.waiting = [m] := by
      unfold waiting
      rw [hpc]
    rw [hmine] at hline
    rw [← hline]
    simp [waiting, hp]
  | acked hpc hu hm =>
    refine ⟨h.numbers, h.top, h.first, fun _ => ?_⟩
    have hline := h.line fun r heq => by
      rw [hpc] at heq
      cases heq
    have hnone : s.waiting = [] := by
      unfold waiting
      rw [hpc]
    rw [hnone] at hline
    exact hline
  | @nacked tag m hpc hu hp =>
    refine ⟨h.numbers, h.top, h.first, fun _ => ?_⟩
    have hbuffer : s.buffer = [] := hc
    have hline := h.line fun r heq => by
      rw [hpc] at heq
      cases heq
    have hmine : s.waiting = [m] := by
      unfold waiting
      rw [hpc]
      simp [hp]
    rw [hmine, hbuffer, List.map_nil, List.append_nil] at hline
    have hfirst : ∀ a ∈ s.queue, m.number < a.number := by
      have hnumbers := h.numbers
      rw [← hline, List.append_assoc] at hnumbers
      exact fun a ha => List.rel_of_pairwise_cons (List.pairwise_append.mp hnumbers).2.1 ha
    show s.bus ++ [] ++ s.buffer.map (·.2) ++ requeue m s.queue = s.arrived
    rw [requeue_first hfirst, hbuffer, ← hline]
    simp
  | stopped e => exact ⟨h.numbers, h.top, h.first, fun hrun => absurd rfl (hrun _)⟩

end Source

/-- Whatever the pace of the deliveries and whichever publishes fail, no message is lost, and none is
acked before its publish. -/
theorem source_accounts {s : Source} (h : Source.system.Reachable s) : s.Sound :=
  h.invariant (fun _ hs => hs ▸ Source.sound_start) fun _ _ _ hs hstep => hs.moves (Source.moves_of_step hs hstep)

def retried : List SourceEvent :=
  [.arrive [1], .arrive [2], .deliver, .alive true, .recv, .publish false, .nack (.ok ()), .deliver, .deliver,
   .alive true, .recv, .publish true, .ack (.ok ()), .alive true, .recv, .publish true]

end Vejas.Amqp
