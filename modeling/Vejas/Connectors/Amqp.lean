import Vejas.Bus.Link
import Vejas.Lib.Transition

/-! The AMQP sink: each message of the bus is published to the broker, and acked if the next
publisher confirm says so. The broker settles publishes in the order they were made, one by one or
several at once, after any delay; a confirm says how far it reaches, which the sink does not read. -/

namespace Vejas.Amqp
open Bus

structure Delivered where
  seq : Nat
  delivery : Nat
  data : Payload
  deriving DecidableEq

structure Confirm where
  ack : Bool
  tag : Nat
  multiple : Bool
  deriving DecidableEq

inductive Pc
  | top
  | pulling
  | inRound
  | publishing (m : Delivered)
  | receiving (m : Delivered) (tag : Nat)
  | acking (m : Delivered) (tag : Nat)
  | returned (r : Except String Unit)

/-- A run of `run_sink` over one channel. `tag` is the last publish's number, `unsettled` the
publishes the broker owes a confirm, oldest first, `confirms` the confirms not read yet; `settled`,
`judged` and `acked` are what the broker decided, what the sink took for it and what was acked. -/
structure Sink where
  pc : Pc
  tag : Nat
  unsettled : List Nat
  confirms : List Confirm
  settled : List (Nat × Bool)
  judged : List (Nat × Bool)
  acked : List (Delivered × Nat)

inductive Event
  | alive (b : Bool)
  | round (r : Except String Unit)
  | next (m : Option Delivered) (alive : Bool)
  | publish (r : Except String Unit)
  | settle (ack : Bool) (count : Nat)
  | recv
  | timeout
  | ack

namespace Sink

def start : Sink := ⟨.top, 0, [], [], [], [], []⟩

def settle (s : Sink) (ack : Bool) (count : Nat) : Option Sink :=
  match (s.unsettled.take count).getLast? with
  | none => none
  | some last => some { s with
      unsettled := s.unsettled.drop count
      confirms := s.confirms ++ [⟨ack, last, decide (1 < count)⟩]
      settled := s.settled ++ (s.unsettled.take count).map (·, ack) }

def step (s : Sink) : Event → Option Sink
  | .alive b =>
    match s.pc with
    | .top => some { s with pc := if b then .pulling else .returned (.ok ()) }
    | _ => none
  | .round r =>
    match s.pc with
    | .pulling =>
      match r with
      | .ok () => some { s with pc := .inRound }
      | .error e => some { s with pc := .returned (.error e) }
    | _ => none
  | .next m alive =>
    match s.pc with
    | .inRound =>
      match m with
      | none => some { s with pc := .top }
      | some m => some { s with pc := if alive then .publishing m else .returned (.ok ()) }
    | _ => none
  | .publish r =>
    match s.pc with
    | .publishing m =>
      match r with
      | .ok () => some { s with
          pc := .receiving m (s.tag + 1)
          tag := s.tag + 1
          unsettled := s.unsettled ++ [s.tag + 1] }
      | .error _ => some { s with pc := .inRound }
    | _ => none
  | .settle ack count => s.settle ack count
  | .recv =>
    match s.pc, s.confirms with
    | .receiving m tag, c :: rest => some { s with
        pc := if c.ack then .acking m tag else .inRound
        confirms := rest
        judged := s.judged ++ [(tag, c.ack)] }
    | _, _ => none
  | .timeout =>
    -- thirty seconds with nothing to read
    match s.pc, s.confirms with
    | .receiving _ _, [] => some { s with pc := .inRound }
    | _, _ => none
  | .ack =>
    match s.pc with
    | .acking m tag => some { s with pc := .inRound, acked := s.acked ++ [(m, tag)] }
    | _ => none

def system : Transition Sink Event := .ofStep step (· = start)

/-- No confirm is late: none is unread when a publish is made, and each reaches the last publish. -/
def OnTime (s : Sink) : Event → Prop
  | .publish _ => s.confirms = []
  | .settle _ count => s.unsettled.length ≤ count
  | _ => True

structure Credited (s : Sink) : Prop where
  judged : ∀ p ∈ s.judged, p ∈ s.settled
  acked : ∀ p ∈ s.acked, (p.2, true) ∈ s.settled

structure Inv (s : Sink) : Prop where
  credited : s.Credited
  last : ∀ m t, s.pc = .receiving m t → t = s.tag ∧ (s.unsettled.getLast? = some t ∨
    ∃ b, (t, b) ∈ s.settled ∧ ∃ c, s.confirms = [c] ∧ c.ack = b)
  acking : ∀ m t, s.pc = .acking m t → (t, true) ∈ s.settled
  unread : s.confirms = [] ∨ ∃ c, s.confirms = [c] ∧ s.unsettled = []

variable {s s' : Sink}

theorem inv_start : start.Inv where
  credited := ⟨nofun, nofun⟩
  last := nofun
  acking := nofun
  unread := .inl rfl

theorem Inv.elsewhere (h : s.Inv) {pc : Pc} (hr : ∀ m t, pc ≠ .receiving m t) (ha : ∀ m t, pc ≠ .acking m t) :
    Inv { s with pc } where
  credited := ⟨h.credited.judged, h.credited.acked⟩
  last m t hpc := absurd hpc (hr m t)
  acking m t hpc := absurd hpc (ha m t)
  unread := h.unread

theorem settle_cases {ack : Bool} {count : Nat} (h : s.settle ack count = some s') :
    ∃ last, (s.unsettled.take count).getLast? = some last ∧ s' = { s with
      unsettled := s.unsettled.drop count
      confirms := s.confirms ++ [⟨ack, last, decide (1 < count)⟩]
      settled := s.settled ++ (s.unsettled.take count).map (·, ack) } := by
  unfold settle at h
  split at h
  · cases h
  next last hlast =>
    cases h
    exact ⟨last, hlast, rfl⟩

theorem Inv.settle (h : s.Inv) {ack : Bool} {count : Nat} (hall : s.unsettled.length ≤ count)
    (hs : s.settle ack count = some s') : s'.Inv := by
  obtain ⟨last, hlast, rfl⟩ := settle_cases hs
  rw [List.take_of_length_le hall] at hlast ⊢
  have hne : s.unsettled ≠ [] := by
    intro hnil
    rw [hnil] at hlast
    cases hlast
  have hread : s.confirms = [] := by
    rcases h.unread with hread | ⟨c, -, hnil⟩
    · exact hread
    · exact absurd hnil hne
  have hkeep : ∀ p ∈ s.settled, p ∈ s.settled ++ s.unsettled.map (·, ack) :=
    fun p hp => List.mem_append_left _ hp
  refine ⟨⟨fun p hp => hkeep p (h.credited.judged p hp), fun p hp => hkeep _ (h.credited.acked p hp)⟩,
    ?_, fun m t hpc => hkeep _ (h.acking m t hpc), .inr ⟨⟨ack, last, decide (1 < count)⟩, ?_, ?_⟩⟩
  · intro m t hpc
    obtain ⟨htag, howed⟩ := h.last m t hpc
    refine ⟨htag, .inr ⟨ack, ?_, ⟨ack, last, decide (1 < count)⟩, ?_, rfl⟩⟩
    · rcases howed with howed | ⟨b, -, c, hc, -⟩
      · refine List.mem_append_right _ (List.mem_map.mpr ⟨t, ?_, rfl⟩)
        exact List.mem_of_getLast? howed
      · rw [hread] at hc
        cases hc
    · show s.confirms ++ _ = _
      rw [hread]
      rfl
  · show s.confirms ++ _ = _
    rw [hread]
    rfl
  · exact List.drop_of_length_le hall

theorem Inv.recv (h : s.Inv) {m : Delivered} {t : Nat} {c : Confirm} {rest : List Confirm}
    (hpc : s.pc = .receiving m t) (hc : s.confirms = c :: rest) :
    Inv { s with
      pc := if c.ack then .acking m t else .inRound
      confirms := rest
      judged := s.judged ++ [(t, c.ack)] } := by
  -- the confirm that is read is the one of the publish just made
  have hown : (t, c.ack) ∈ s.settled ∧ rest = [] := by
    obtain ⟨-, howed⟩ := h.last m t hpc
    rcases h.unread with hnil | ⟨c', hone, hsettled⟩
    · rw [hc] at hnil
      cases hnil
    · rw [hc] at hone
      cases hone
      rcases howed with howed | ⟨b, hb, c', hone, hack⟩
      · rw [hsettled] at howed
        cases howed
      · rw [hc] at hone
        cases hone
        exact ⟨hack ▸ hb, rfl⟩
  obtain ⟨hown, rfl⟩ := hown
  refine ⟨⟨fun p hp => ?_, h.credited.acked⟩, fun m' t' hpc' => ?_, fun m' t' hpc' => ?_, .inl rfl⟩
  · rcases List.mem_append.mp hp with hp | hp
    · exact h.credited.judged p hp
    · rw [List.mem_singleton.mp hp]
      exact hown
  · dsimp only at hpc'
    split at hpc' <;> cases hpc'
  · dsimp only at hpc'
    split at hpc'
    next hack =>
      cases hpc'
      rw [hack] at hown
      exact hown
    next => cases hpc'

theorem inv_step {a : Event} (h : s.Inv) (hc : s.OnTime a) (hs : s.step a = some s') : s'.Inv := by
  cases a with
  | settle ack count => exact h.settle hc hs
  | alive b =>
    unfold step at hs
    dsimp only at hs
    split at hs
    · cases hs
      cases b <;> exact h.elsewhere nofun nofun
    · cases hs
  | round r =>
    unfold step at hs
    dsimp only at hs
    split at hs
    · cases r <;> cases hs <;> exact h.elsewhere nofun nofun
    · cases hs
  | next m alive =>
    unfold step at hs
    dsimp only at hs
    split at hs
    · cases m with
      | none =>
        cases hs
        exact h.elsewhere nofun nofun
      | some m =>
        cases hs
        cases alive <;> exact h.elsewhere nofun nofun
    · cases hs
  | publish r =>
    unfold step at hs
    dsimp only at hs
    split at hs
    next m hpc =>
      cases r with
      | error e =>
        cases hs
        exact h.elsewhere nofun nofun
      | ok u =>
        cases hs
        refine ⟨⟨h.credited.judged, h.credited.acked⟩, ?_, nofun, .inl hc⟩
        intro m' t hpc'
        cases hpc'
        exact ⟨rfl, .inl (by simp)⟩
    next => cases hs
  | recv =>
    unfold step at hs
    dsimp only at hs
    split at hs
    next m t c rest hpc hconf =>
      cases hs
      exact h.recv hpc hconf
    next => cases hs
  | timeout =>
    unfold step at hs
    dsimp only at hs
    split at hs
    · cases hs
      exact h.elsewhere nofun nofun
    · cases hs
  | ack =>
    unfold step at hs
    dsimp only at hs
    split at hs
    next m t hpc =>
      cases hs
      refine ⟨⟨h.credited.judged, fun p hp => ?_⟩, nofun, nofun, h.unread⟩
      rcases List.mem_append.mp hp with hp | hp
      · exact h.credited.acked p hp
      · rw [List.mem_singleton.mp hp]
        exact h.acking m t hpc
    next => cases hs

/-- As long as no confirm is late, the sink judges every message by its own confirm and acks only
what the broker acked. -/
theorem confirms_credited (h : system.ReachableUnder OnTime s) : s.Credited := by
  have hinv : s.Inv := by
    refine Transition.ReachableUnder.invariant (I := Inv) ?_ (fun _ _ _ hi hc hs => inv_step hi hc hs) h
    rintro _ rfl
    exact inv_start
  exact hinv.credited

end Sink

def timelyRun : List Event :=
  [.alive true, .round (.ok ()), .next (some ⟨1, 1, [1]⟩) true, .publish (.ok ()), .settle false 1, .recv,
    .next (some ⟨2, 1, [2]⟩) true, .publish (.ok ()), .settle true 1, .recv, .ack]

theorem confirms_credited_timely :
    ∃ s, Transition.run Sink.step Sink.start timelyRun = some s ∧ s.acked = [(⟨2, 1, [2]⟩, 2)] ∧
      s.Credited := by
  refine ⟨_, rfl, rfl, ?_⟩
  refine Sink.confirms_credited (Transition.ReachableUnder.run timelyRun (.init rfl) ?_ rfl)
  simp [timelyRun, Transition.Meets, Sink.step, Sink.OnTime, Sink.settle, Sink.start]

def lateRun : List Event :=
  [.alive true, .round (.ok ()), .next (some ⟨1, 1, [1]⟩) true, .publish (.ok ()), .timeout,
    .next (some ⟨2, 1, [2]⟩) true, .publish (.ok ()), .settle true 1, .recv, .ack, .settle false 1]

/-- It is credited to the second, which is acked though the broker refused it. -/
theorem late_confirm_acks_refused :
    ∃ s, Transition.run Sink.step Sink.start lateRun = some s ∧ Sink.system.Reachable s ∧
      s.acked = [(⟨2, 1, [2]⟩, 2)] ∧ (2, false) ∈ s.settled ∧ ¬ s.Credited := by
  refine ⟨_, rfl, Transition.Reachable.run lateRun (.init rfl) rfl, rfl, by decide, ?_⟩
  intro h
  exact absurd (h.acked (⟨2, 1, [2]⟩, 2) (by decide)) (by decide)

end Vejas.Amqp
