import Vejas.Runtime.Batches
import Vejas.Runtime.Detect

/-! When a stored snapshot is sound: every message it stands for was given to `ack_all` behind a
confirmed batch or is in the DLQ. The loop keeps its books right on every path but three: a refused
emit, a barrier that fails over fed messages, and an attempt that takes over a durable with
messages still open. -/

namespace Vejas.Runtime
open Rust Bus

/-- The message of this sequence was given to `ack_all` behind a barrier, or the DLQ has it. -/
def Settled (log : List Act) (q : Nat) : Prop :=
  (∃ m n, m.seq = q ∧ .handed m n ∈ log) ∨ ∃ m, m.seq = q ∧ .dlq m true ∈ log

def Act.settles (q : Nat) : Act → Bool
  | .handed m _ => m.seq == q
  | .dlq m true => m.seq == q
  | _ => false

theorem settled_iff_any {log : List Act} {q : Nat} : Settled log q ↔ log.any (Act.settles q) := by
  rw [List.any_eq_true]
  constructor
  · rintro (⟨m, n, hq, hm⟩ | ⟨m, hq, hm⟩)
    · exact ⟨_, hm, beq_iff_eq.mpr hq⟩
    · exact ⟨_, hm, beq_iff_eq.mpr hq⟩
  · rintro ⟨a, ha, hs⟩
    unfold Act.settles at hs
    split at hs
    next m n => exact .inl ⟨m, n, beq_iff_eq.mp hs, ha⟩
    next m => exact .inr ⟨m, beq_iff_eq.mp hs, ha⟩
    next => cases hs

instance (log : List Act) (q : Nat) : Decidable (Settled log q) :=
  decidable_of_iff _ settled_iff_any.symm

def DetectDue (log : List Act) : Act → Prop
  | .handed m n => ∃ emits, Covered log m n emits
  | .ack m (some n) => .handed m n ∈ log
  | .snapshot q => ∀ m, .deliver m ∈ log → m.seq ≤ q → Settled log m.seq
  | _ => True

theorem Settled.mono {log log' : List Act} (h : log ⊆ log') {q : Nat} (hs : Settled log q) :
    Settled log' q := by
  rcases hs with ⟨m, n, hq, hm⟩ | ⟨m, hq, hm⟩
  · exact .inl ⟨m, n, hq, h hm⟩
  · exact .inr ⟨m, hq, h hm⟩

def Detect.queue (s : Detect) : List Nat := (s.batch ++ s.rx).map (·.seq)

/-- Where a delivered message can be: settled, still ahead of the consumer, kept in mind,
behind the next barrier, or queued and not yet seen. -/
inductive Detect.Tracked (s : Detect) (seen q : Nat) : Prop
  | settled (h : Settled s.log q)
  | ahead (h : s.high < q)
  | retried (h : q ∈ s.retrying)
  | waiting (h : q ∈ s.toAck.map (·.seq))
  | queued (h : seen < q) (hq : q ∈ s.queue)

theorem Detect.Tracked.imp {s s' : Detect} {seen q : Nat} (h : s.Tracked seen q)
    (hlog : s.log ⊆ s'.log) (hhigh : s'.high = s.high) (hr : q ∈ s.retrying → q ∈ s'.retrying)
    (hw : q ∈ s.toAck.map (·.seq) → q ∈ s'.toAck.map (·.seq)) (hq : q ∈ s.queue → q ∈ s'.queue) :
    s'.Tracked seen q := by
  cases h with
  | settled h => exact .settled (h.mono hlog)
  | ahead h => exact .ahead (by rw [hhigh]; exact h)
  | retried h => exact .retried (hr h)
  | waiting h => exact .waiting (hw h)
  | queued h hmem => exact .queued h (hq hmem)

structure Running (seen : Nat) (s : Detect) : Prop where
  ordered : Feed.Ordered s.given s.high seen s.queue
  tracked : ∀ m, .deliver m ∈ s.log → s.Tracked seen m.seq
  acked_le : s.ackedMax ≤ seen
  waiting : ∀ m ∈ s.toAck, m.seq ≤ seen ∧ ∃ emits, .ran m s.round emits ∈ s.log
  holds : (completed s.round s.log).Sublist s.held
  between : s.stage ≠ .inBatch → s.batch = [] ∧ s.toAck = []

structure Kept (snapshot : Option Snapshot) (given : List Nat) (high : Nat) (log : List Act) :
    Prop where
  stored : ∀ snap, snapshot = some snap → snap.seq ≤ high ∧
    ∀ m, .deliver m ∈ log → m.seq ≤ snap.seq → Settled log m.seq
  known : ∀ q ∈ given, q ≤ high ∧ ∃ m, .deliver m ∈ log ∧ m.seq = q

structure Sound (s : Detect) : Prop where
  earned : Ledger.Earned DetectDue s.log
  kept : Kept s.snapshot s.given s.high s.log
  numbered : RanUpTo s.log s.round
  running : s.stage ≠ .down → ∃ seen, Running seen s

def Quiet (new : List Act) : Prop := ∀ d, .deliver d ∉ new

def Runless (new : List Act) : Prop := ∀ a ∈ new, ∀ m n emits, a ≠ .ran m n emits

theorem Quiet.deliver_mem {new log : List Act} (h : Quiet new) {d : Delivery}
    (hd : .deliver d ∈ new ++ log) : .deliver d ∈ log :=
  (List.mem_append.mp hd).resolve_left (h d)

theorem Runless.completed {new : List Act} (h : Runless new) (n : Nat) (log : List Act) :
    completed n (new ++ log) = completed n log :=
  completed_append fun a ha => Act.emitsIn_of_ne fun m emits => h a ha m n emits

theorem Runless.numbered {new log : List Act} (h : Runless new) {n : Nat} (hlog : RanUpTo log n) :
    RanUpTo (new ++ log) n :=
  hlog.append fun m k emits hran => absurd rfl (h _ hran m k emits)

theorem Kept.write {snapshot : Option Snapshot} {given : List Nat} {high : Nat} {new log : List Act}
    (h : Kept snapshot given high log) (hnew : Quiet new) : Kept snapshot given high (new ++ log) := by
  have hsub : log ⊆ new ++ log := List.subset_append_right _ _
  refine ⟨fun snap hsnap => ?_, fun q hq => ?_⟩
  · obtain ⟨hle, hset⟩ := h.stored snap hsnap
    exact ⟨hle, fun d hd hdle => (hset d (hnew.deliver_mem hd) hdle).mono hsub⟩
  · obtain ⟨hle, d, hd, hseq⟩ := h.known q hq
    exact ⟨hle, d, hsub hd, hseq⟩

section
variable {s : Detect} {seen : Nat}

theorem Running.settled (h : Running seen s) (hst : s.stage ≠ .inBatch) (hr : s.retrying = ∅)
    {m : Delivery} (hm : .deliver m ∈ s.log) (hle : m.seq ≤ s.ackedMax) :
    Settled s.log m.seq := by
  -- nothing is kept in mind, behind a barrier or unseen below `ackedMax`
  have hseen := Nat.le_trans hle h.acked_le
  have hhigh := Nat.le_trans hseen h.ordered.seen_le
  cases h.tracked m hm with
  | settled hs => exact hs
  | ahead hlt => exact absurd hlt (Nat.not_lt_of_le hhigh)
  | retried hret =>
    rw [hr] at hret
    cases hret
  | waiting hack =>
    rw [(h.between hst).2] at hack
    cases hack
  | queued hlt _ => exact absurd hlt (Nat.not_lt_of_le hseen)

theorem Running.write (h : Running seen s) {new : List Act} {snapshot : Option Snapshot}
    (hnew : Quiet new) (hran : Runless new) : Running seen { s with snapshot, log := new ++ s.log } where
  ordered := h.ordered
  tracked m hm :=
    (h.tracked m (hnew.deliver_mem hm)).imp (List.subset_append_right _ _) rfl id id id
  acked_le := h.acked_le
  waiting m hm := by
    obtain ⟨hle, emits, hin⟩ := h.waiting m hm
    exact ⟨hle, emits, List.mem_append_right _ hin⟩
  holds := by
    have hsame := hran.completed s.round s.log
    exact hsame ▸ h.holds
  between := h.between

theorem Sound.snapshotUnit (h : Sound s) {seq : Nat} (hle : seq ≤ s.high)
    (hset : ∀ m, .deliver m ∈ s.log → m.seq ≤ seq → Settled s.log m.seq) (put : Put) :
    Sound (s.snapshotUnit seq put) := by
  unfold Detect.snapshotUnit
  split
  · exact h
  · have hquiet : Quiet [.snapshot seq] := by simp [Quiet]
    have hkept : Kept (some ⟨s.unit.version, seq⟩) s.given s.high s.log :=
      ⟨fun snap hsnap => by cases hsnap; exact ⟨hle, hset⟩, h.kept.known⟩
    have hrunless : Runless [.snapshot seq] := by simp [Runless]
    refine ⟨⟨hset, h.earned⟩, hkept.write hquiet, hrunless.numbered h.numbered, fun hst => ?_⟩
    obtain ⟨seen, hrun⟩ := h.running hst
    exact ⟨seen, hrun.write hquiet hrunless⟩

theorem Sound.leave (h : Sound s) : Sound { s with stage := .down } :=
  ⟨h.earned, h.kept, h.numbered, fun hst => absurd rfl hst⟩

theorem Sound.moveOn (h : Sound s) (hst : s.stage ≠ .inBatch) (hup : s.stage ≠ .down)
    (stage : DetectStage) : Sound { s with stage } := by
  refine ⟨h.earned, h.kept, h.numbered, fun _ => ?_⟩
  obtain ⟨seen, hrun⟩ := h.running hup
  exact ⟨seen, hrun.ordered, fun m hm => (hrun.tracked m hm).imp (List.Subset.refl _) rfl id id id,
    hrun.acked_le, hrun.waiting, hrun.holds, fun _ => hrun.between hst⟩

theorem Sound.snapshotAcked (h : Sound s) (hst : s.stage ≠ .inBatch) (hup : s.stage ≠ .down)
    (hr : s.retrying = ∅) (stage : DetectStage) (put : Put) :
    Sound ({ s with stage }.snapshotUnit s.ackedMax put) := by
  obtain ⟨seen, hrun⟩ := h.running hup
  have hle : s.ackedMax ≤ s.high := Nat.le_trans hrun.acked_le hrun.ordered.seen_le
  exact (h.moveOn hst hup stage).snapshotUnit hle (fun m hm hle => hrun.settled hst hr hm hle) put

theorem Sound.cadence (h : Sound s) (hst : s.stage = .barrierDone) (elapsed : Bool) (put : Put) :
    Sound (s.cadence elapsed put) := by
  have hout : s.stage ≠ .inBatch := by
    rw [hst]
    decide
  have hup : s.stage ≠ .down := by
    rw [hst]
    decide
  unfold Detect.cadence
  dsimp only
  split
  next hdue =>
    have hr : s.retrying = ∅ := by
      simp only [Bool.and_eq_true, decide_eq_true_eq] at hdue
      exact hdue.1.2
    have hs := h.snapshotAcked hout hup hr .top put
    split
    · refine ⟨hs.earned, hs.kept, hs.numbered, fun hst => ?_⟩
      obtain ⟨seen, hrun⟩ := hs.running hst
      exact ⟨seen, hrun.ordered,
        fun m hm => (hrun.tracked m hm).imp (List.Subset.refl _) rfl id id id, hrun.acked_le,
        hrun.waiting, hrun.holds, hrun.between⟩
    · exact hs
  · exact h.moveOn hout hup .top

theorem Sound.stop (h : Sound s) (hst : s.stage = .top) (put : Put) : Sound (s.stop put) := by
  have hout : s.stage ≠ .inBatch := by
    rw [hst]
    decide
  have hup : s.stage ≠ .down := by
    rw [hst]
    decide
  unfold Detect.stop
  dsimp only
  split
  next hdue =>
    have hr : s.retrying = ∅ := by
      simp only [Bool.and_eq_true, decide_eq_true_eq] at hdue
      exact hdue.2
    exact h.snapshotAcked hout hup hr .down put
  · exact h.leave

theorem Sound.deliverAgain (h : Sound s) (hup : s.stage ≠ .down) {m : Delivery}
    (hm : m.seq ∈ s.given) : Sound { s with rx := s.rx ++ [m], log := .deliver m :: s.log } := by
  obtain ⟨-, d, hd, hseq⟩ := h.kept.known m.seq hm
  have hsub : s.log ⊆ .deliver m :: s.log := List.subset_cons_self _ _
  have hrunless : Runless [.deliver m] := by simp [Runless]
  have hold : ∀ m', .deliver m' ∈ Act.deliver m :: s.log →
      ∃ d', .deliver d' ∈ s.log ∧ d'.seq = m'.seq := by
    intro m' hm'
    rcases List.mem_cons.mp hm' with heq | hm'
    · cases heq
      exact ⟨d, hd, hseq⟩
    · exact ⟨m', hm', rfl⟩
  refine ⟨⟨trivial, h.earned⟩, ⟨?_, ?_⟩, hrunless.numbered h.numbered, fun _ => ?_⟩
  · intro snap hsnap
    obtain ⟨hle, hset⟩ := h.kept.stored snap hsnap
    refine ⟨hle, fun m' hm' hle' => ?_⟩
    obtain ⟨d', hd', hd'seq⟩ := hold m' hm'
    rw [← hd'seq] at hle' ⊢
    exact (hset d' hd' hle').mono hsub
  · intro q hq
    obtain ⟨hle, d', hd', hd'seq⟩ := h.kept.known q hq
    exact ⟨hle, d', hsub hd', hd'seq⟩
  · obtain ⟨seen, hrun⟩ := h.running hup
    have hqueue : Detect.queue { s with rx := s.rx ++ [m], log := .deliver m :: s.log } =
        s.queue ++ [m.seq] := by simp [Detect.queue]
    refine ⟨seen, ?_, fun m' hm' => ?_, hrun.acked_le, fun a ha => ?_, ?_, hrun.between⟩
    · rw [hqueue]
      exact hrun.ordered.again hm
    · obtain ⟨d', hd', hd'seq⟩ := hold m' hm'
      rw [← hd'seq]
      refine (hrun.tracked d' hd').imp hsub rfl id id fun hq => ?_
      rw [hqueue]
      exact List.mem_append_left _ hq
    · obtain ⟨hle, emits, hran⟩ := hrun.waiting a ha
      exact ⟨hle, emits, hsub hran⟩
    · have hsame := hrunless.completed s.round s.log
      exact hsame ▸ hrun.holds

theorem mem_deliveredSeqs {log : List Act} {m : Delivery} (h : .deliver m ∈ log) :
    m.seq ∈ deliveredSeqs log :=
  List.mem_filterMap.mpr ⟨_, h, rfl⟩

theorem Sound.deliverNext (h : Sound s) (hup : s.stage ≠ .down) {m : Delivery}
    (hnew : s.high < m.seq) (hnext : ∀ q ∈ deliveredSeqs s.log, s.high < q → m.seq ≤ q) :
    Sound { s with
      rx := s.rx ++ [m]
      log := .deliver m :: s.log
      given := m.seq :: s.given
      high := m.seq } := by
  -- the new message is above everything given before, so the order of the queue stays
  have hrunless : Runless [.deliver m] := by simp [Runless]
  have hsub : s.log ⊆ .deliver m :: s.log := List.subset_cons_self _ _
  refine ⟨⟨trivial, h.earned⟩, ⟨?_, ?_⟩, hrunless.numbered h.numbered, fun _ => ?_⟩
  · intro snap hsnap
    obtain ⟨hle, hset⟩ := h.kept.stored snap hsnap
    refine ⟨Nat.le_of_lt (Nat.lt_of_le_of_lt hle hnew), fun m' hm' hle' => ?_⟩
    rcases List.mem_cons.mp hm' with heq | hm'
    · cases heq
      exact absurd (Nat.lt_of_lt_of_le hnew (Nat.le_trans hle' hle)) (Nat.lt_irrefl _)
    · exact (hset m' hm' hle').mono hsub
  · intro q hq
    rcases List.mem_cons.mp hq with rfl | hq
    · exact ⟨Nat.le_refl _, m, List.mem_cons_self, rfl⟩
    · obtain ⟨hle, d, hd, hseq⟩ := h.kept.known q hq
      exact ⟨Nat.le_of_lt (Nat.lt_of_le_of_lt hle hnew), d, hsub hd, hseq⟩
  · obtain ⟨seen, hrun⟩ := h.running hup
    have hqueue : Detect.queue { s with
        rx := s.rx ++ [m]
        log := .deliver m :: s.log
        given := m.seq :: s.given
        high := m.seq } = s.queue ++ [m.seq] := by simp [Detect.queue]
    have hseen : seen < m.seq := Nat.lt_of_le_of_lt hrun.ordered.seen_le hnew
    have hlast : m.seq ∈ s.queue ++ [m.seq] := List.mem_append_right _ List.mem_cons_self
    refine ⟨seen, ?_, fun m' hm' => ?_, hrun.acked_le, fun a ha => ?_, ?_, hrun.between⟩
    · rw [hqueue]
      exact hrun.ordered.fresh hnew
    · rcases List.mem_cons.mp hm' with heq | hm'
      · cases heq
        exact .queued hseen (by rw [hqueue]; exact hlast)
      · cases hrun.tracked m' hm' with
        | settled hs => exact .settled (hs.mono hsub)
        | ahead hlt =>
          rcases Nat.eq_or_lt_of_le (hnext _ (mem_deliveredSeqs hm') hlt) with heq | hlt
          · rw [← heq]
            exact .queued hseen (by rw [hqueue]; exact hlast)
          · exact .ahead hlt
        | retried hret => exact .retried hret
        | waiting hack => exact .waiting hack
        | queued hlt hq => exact .queued hlt (by rw [hqueue]; exact List.mem_append_left _ hq)
    · obtain ⟨hle, emits, hran⟩ := hrun.waiting a ha
      exact ⟨hle, emits, hsub hran⟩
    · have hsame := hrunless.completed s.round s.log
      exact hsame ▸ hrun.holds

theorem Sound.deliver (h : Sound s) {m : Delivery} {s' : Detect} (hstep : s.deliver m = some s') :
    Sound s' := by
  unfold Detect.deliver at hstep
  dsimp only at hstep
  split at hstep
  · cases hstep
  next hup =>
    split at hstep
    next hm =>
      cases hstep
      exact h.deliverAgain hup hm
    next =>
      split at hstep
      next hnew =>
        cases hstep
        exact h.deliverNext hup hnew.1 hnew.2
      · cases hstep

theorem Sound.receive (h : Sound s) (hst : s.stage = .top) :
    Sound { s with batch := s.rx.take 256, rx := s.rx.drop 256, toAck := [], stage := .inBatch } := by
  refine ⟨h.earned, h.kept, h.numbered, fun _ => ?_⟩
  obtain ⟨seen, hrun⟩ := h.running (by rw [hst]; decide)
  obtain ⟨hbatch, hack⟩ := hrun.between (by rw [hst]; decide)
  have hqueue : Detect.queue { s with
      batch := s.rx.take 256, rx := s.rx.drop 256, toAck := [], stage := .inBatch } = s.queue := by
    simp [Detect.queue, hbatch]
  refine ⟨seen, ?_, fun m hm => ?_, hrun.acked_le, fun a ha => (by cases ha), hrun.holds,
    fun hst => absurd rfl hst⟩
  · rw [hqueue]
    exact hrun.ordered
  · refine (hrun.tracked m hm).imp (List.Subset.refl _) rfl id ?_ ?_
    · rw [hack]
      exact id
    · rw [hqueue]
      exact id

theorem publishAll_held [External] (u : DetectUnit) (es : List (DetectEmit × Nat)) (held : List Msg) :
    (Detect.publishAll u held es).1 = true →
      (Detect.publishAll u held es).2 = held ++ es.map fun e => u.emitMsg e.1 := by
  induction es generalizing held with
  | nil =>
    intro _
    rw [List.map_nil, List.append_nil]
    rfl
  | cons e es ih =>
    obtain ⟨e, limit⟩ := e
    unfold Detect.publishAll
    cases h : hold limit held (u.emitSubject e) e.payload with
    | error _ =>
      intro hok
      cases hok
    | ok held' =>
      obtain ⟨-, -, rfl⟩ := hold_eq_ok.mp h
      intro hok
      dsimp only
      rw [ih _ hok, List.append_assoc]
      rfl

theorem publishAll_ok [External] (u : DetectUnit) {es : List (DetectEmit × Nat)}
    (h : ∀ e ∈ es, sendableSubject (u.emitSubject e.1) = true ∧ e.1.payload.length ≤ e.2)
    (held : List Msg) : (Detect.publishAll u held es).1 = true := by
  induction es generalizing held with
  | nil => rfl
  | cons e es ih =>
    obtain ⟨e, limit⟩ := e
    obtain ⟨hsend, hlen⟩ := h _ List.mem_cons_self
    unfold Detect.publishAll
    rw [hold_eq_ok.mpr ⟨hsend, hlen, rfl⟩]
    exact ih (fun e he => h e (List.mem_cons_of_mem _ he)) _

structure Handled (m : Delivery) (s : Detect) (held : List Msg) (toAck : List Delivery)
    (retrying : Finset Nat) (new : List Act) : Prop where
  holds : (completed s.round s.log).Sublist s.held → (completed s.round (new ++ s.log)).Sublist held
  numbered : ∀ m' k emits, .ran m' k emits ∈ new → k ≤ s.round
  waits : s.toAck ⊆ toAck
  keeps : ∀ q, q ≠ m.seq → q ∈ s.retrying → q ∈ retrying
  added : ∀ a ∈ toAck, a ∈ s.toAck ∨ a = m ∧ ∃ emits, .ran m s.round emits ∈ new
  quiet : Quiet new
  due : ∀ a ∈ new, ∀ log, DetectDue log a
  tracked : Settled new m.seq ∨ m.seq ∈ retrying ∨ m.seq ∈ toAck.map (·.seq)

theorem deadLetter_handled (s : Detect) (m : Delivery) (ok : Bool) :
    ∃ held toAck retrying new, Handled m s held toAck retrying new ∧
      s.deadLetter m ok = { s with held, toAck, retrying, log := new ++ s.log } := by
  cases ok with
  | true =>
    refine ⟨s.held, s.toAck, s.retrying.erase m.seq, [.ack m none, .dlq m true], ?_, rfl⟩
    exact {
      holds := fun hsub => by simpa [completed, Act.emitsIn] using hsub
      numbered := by simp
      waits := List.Subset.refl _
      keeps := fun q hne hq => Finset.mem_erase.mpr ⟨hne, hq⟩
      added := fun a ha => .inl ha
      quiet := by simp [Quiet]
      due := by simp [DetectDue]
      tracked := .inl (.inr ⟨m, rfl, by simp⟩) }
  | false =>
    refine ⟨s.held, s.toAck, insert m.seq s.retrying, [.nak m, .dlq m false], ?_, rfl⟩
    exact {
      holds := fun hsub => by simpa [completed, Act.emitsIn] using hsub
      numbered := by simp
      waits := List.Subset.refl _
      keeps := fun q _ hq => Finset.mem_insert_of_mem hq
      added := fun a ha => .inl ha
      quiet := by simp [Quiet]
      due := by simp [DetectDue]
      tracked := .inr (.inl (Finset.mem_insert_self _ _)) }

theorem message_handled [External] (s : Detect) (m : Delivery) (fed : Fed) (dlqOk : Bool)
    (hall : ∀ es, fed = .emits es → (Detect.publishAll s.unit s.held es).1 = true) :
    ∃ held toAck retrying new, Handled m s held toAck retrying new ∧
      s.message m fed dlqOk = { s with held, toAck, retrying, log := new ++ s.log } := by
  cases fed with
  | notAnEvent => exact deadLetter_handled s m dlqOk
  | failed =>
    unfold Detect.message
    dsimp only
    split
    · exact deadLetter_handled s m dlqOk
    · refine ⟨s.held, s.toAck, insert m.seq s.retrying, [], ?_, rfl⟩
      exact {
        holds := id
        numbered := fun _ _ _ hran => by cases hran
        waits := List.Subset.refl _
        keeps := fun q _ hq => Finset.mem_insert_of_mem hq
        added := fun a ha => .inl ha
        quiet := fun _ hd => by cases hd
        due := fun a ha => by cases ha
        tracked := .inr (.inl (Finset.mem_insert_self _ _)) }
  | emits es =>
    have hok := hall es rfl
    have hall := publishAll_held s.unit es s.held hok
    unfold Detect.message
    dsimp only
    rcases hp : Detect.publishAll s.unit s.held es with ⟨ok, held⟩
    rw [hp] at hok hall
    cases hok
    have hheld : held = s.held ++ es.map fun e => s.unit.emitMsg e.1 := hall
    refine ⟨held, s.toAck ++ [m], s.retrying,
      [.ran m s.round (es.map fun e => s.unit.emitMsg e.1)], ?_, rfl⟩
    exact {
      holds := fun hsub => by
        rw [hheld, List.singleton_append, completed, Act.emitsIn, if_pos rfl]
        exact hsub.append (List.Sublist.refl _)
      numbered := fun _ _ _ hran => by
        cases List.mem_singleton.mp hran
        exact Nat.le_refl _
      waits := List.subset_append_left _ _
      keeps := fun q _ hq => hq
      added := fun a ha => by
        rcases List.mem_append.mp ha with ha | ha
        · exact .inl ha
        · exact .inr ⟨List.mem_singleton.mp ha, _, List.mem_cons_self⟩
      quiet := by simp [Quiet]
      due := by simp [DetectDue]
      tracked := .inr (.inr (by simp)) }

theorem Sound.message [External] (h : Sound s) (hst : s.stage = .inBatch) {m : Delivery}
    {batch : List Delivery} (hb : s.batch = m :: batch) {fed : Fed} {dlqOk : Bool}
    (hall : ∀ es, fed = .emits es → (Detect.publishAll s.unit s.held es).1 = true) :
    Sound ({ s with batch }.message m fed dlqOk) := by
  obtain ⟨held, toAck, retrying, new, hh, heq⟩ :=
    message_handled { s with batch } m fed dlqOk hall
  rw [heq]
  have hsub : s.log ⊆ new ++ s.log := List.subset_append_right _ _
  refine ⟨h.earned.append fun a ha more => hh.due a ha _, h.kept.write hh.quiet,
    h.numbered.append hh.numbered, fun _ => ?_⟩
  obtain ⟨seen, hrun⟩ := h.running (by rw [hst]; decide)
  have hqueue : s.queue = m.seq :: (batch ++ s.rx).map (·.seq) := by simp [Detect.queue, hb]
  have hord := hrun.ordered
  rw [hqueue] at hord
  refine ⟨max seen m.seq, hord.take, fun d hd => ?_, ?_, fun a ha => ?_, hh.holds hrun.holds,
    fun hne => absurd hst hne⟩
  · by_cases hm : d.seq = m.seq
    · rw [hm]
      rcases hh.tracked with hs | hr | hw
      · exact .settled (hs.mono (List.subset_append_left _ _))
      · exact .retried hr
      · exact .waiting hw
    · cases hrun.tracked d (hh.quiet.deliver_mem hd) with
      | settled hs => exact .settled (hs.mono hsub)
      | ahead hlt => exact .ahead hlt
      | retried hr => exact .retried (hh.keeps _ hm hr)
      | waiting hw => exact .waiting (List.map_subset _ hh.waits hw)
      | queued hlt hq =>
        rw [hqueue] at hq
        rcases List.mem_cons.mp hq with heq | hq
        · exact absurd heq hm
        · exact .queued (hord.lt_behind hq hlt hm) hq
  · exact Nat.le_trans hrun.acked_le (Nat.le_max_left _ _)
  · rcases hh.added a ha with hold | ⟨rfl, emits, hran⟩
    · obtain ⟨hle, emits, hran⟩ := hrun.waiting a hold
      exact ⟨Nat.le_trans hle (Nat.le_max_left _ _), emits, hsub hran⟩
    · exact ⟨Nat.le_max_right _ _, emits, List.mem_append_left _ hran⟩

theorem foldl_max_le {toAck : List Delivery} {seen n : Nat} (h : ∀ m ∈ toAck, m.seq ≤ seen)
    (hn : n ≤ seen) : toAck.foldl (fun n m => max n m.seq) n ≤ seen := by
  induction toAck generalizing n with
  | nil => exact hn
  | cons m toAck ih =>
    exact ih (fun a ha => h a (List.mem_cons_of_mem _ ha))
      (Nat.max_le.mpr ⟨hn, h m List.mem_cons_self⟩)

theorem Sound.confirmed (h : Sound s) (hst : s.stage = .inBatch) (hb : s.batch = []) (acks : Nat) :
    Sound (s.endBatch true acks) := by
  -- a barrier that holds settles what waited behind it
  let handed : List Act := (s.toAck.map (.handed · s.round)).reverse
  let acked : List Act := ((s.toAck.take acks).map (.ack · (some s.round))).reverse
  let new : List Act := acked ++ (handed ++ [.confirm s.round s.held true])
  have hhanded : ∀ a, a ∈ handed ↔ ∃ m ∈ s.toAck, .handed m s.round = a := by simp [handed]
  have hacked : ∀ a ∈ acked, ∃ m ∈ s.toAck, .ack m (some s.round) = a := by
    intro a ha
    obtain ⟨m, hm, heq⟩ := List.mem_map.mp (List.mem_reverse.mp ha)
    exact ⟨m, List.mem_of_mem_take hm, heq⟩
  have hkinds : ∀ a ∈ new, (∀ d, a ≠ .deliver d) ∧ ∀ m n emits, a ≠ .ran m n emits := by
    intro a ha
    rcases List.mem_append.mp ha with ha | ha
    · obtain ⟨m, -, rfl⟩ := hacked a ha
      exact ⟨nofun, nofun⟩
    · rcases List.mem_append.mp ha with ha | ha
      · obtain ⟨m, -, rfl⟩ := (hhanded a).mp ha
        exact ⟨nofun, nofun⟩
      · rw [List.mem_singleton.mp ha]
        exact ⟨nofun, nofun⟩
  have hquiet : Quiet new := fun d hd => (hkinds _ hd).1 d rfl
  have hrunless : Runless new := fun a ha => (hkinds a ha).2
  have hlog : (s.endBatch true acks).log = new ++ s.log := by simp [Detect.endBatch, new, acked, handed]
  have hin : handed ⊆ (s.endBatch true acks).log := by
    rw [hlog]
    intro a ha
    exact List.mem_append_left _ (List.mem_append_right _ (List.mem_append_left _ ha))
  obtain ⟨seen, hrun⟩ := h.running (by rw [hst]; decide)
  have hbase : Ledger.Earned DetectDue (.confirm s.round s.held true :: s.log) :=
    ⟨trivial, h.earned⟩
  have hgiven : Ledger.Earned DetectDue (handed ++ .confirm s.round s.held true :: s.log) := by
    refine hbase.append fun a ha more => ?_
    obtain ⟨m, hm, rfl⟩ := (hhanded a).mp ha
    obtain ⟨-, emits, hran⟩ := hrun.waiting m hm
    exact ⟨emits, s.held, s.log, more, rfl, hran, hrun.holds⟩
  have hearned : Ledger.Earned DetectDue (acked ++ (handed ++ .confirm s.round s.held true :: s.log)) := by
    refine hgiven.append fun a ha more => ?_
    obtain ⟨m, hm, rfl⟩ := hacked a ha
    exact List.mem_append_right _ (List.mem_append_left _ ((hhanded _).mpr ⟨m, hm, rfl⟩))
  have hkept : Kept s.snapshot s.given s.high (s.endBatch true acks).log := by
    rw [hlog]
    exact h.kept.write hquiet
  have hnum : RanUpTo (s.endBatch true acks).log s.round := by
    rw [hlog]
    exact hrunless.numbered h.numbered
  have hnil := hnum.fresh
  refine ⟨hearned, hkept, hnum.succ, fun _ => ⟨seen, hrun.ordered, fun d hd => ?_, ?_, ?_, ?_, ?_⟩⟩
  · rw [hlog] at hd
    have hgone : d.seq ∈ s.toAck.map (·.seq) → (s.endBatch true acks).Tracked seen d.seq := by
      intro hw
      obtain ⟨m, hm, hseq⟩ := List.mem_map.mp hw
      exact .settled (.inl ⟨m, s.round, hseq, hin ((hhanded _).mpr ⟨m, hm, rfl⟩)⟩)
    cases hrun.tracked d (hquiet.deliver_mem hd) with
    | settled hs =>
      refine .settled (hs.mono ?_)
      rw [hlog]
      exact List.subset_append_right _ _
    | ahead hlt => exact .ahead hlt
    | retried hr =>
      by_cases hw : d.seq ∈ s.toAck.map (·.seq)
      · exact hgone hw
      · exact .retried (Finset.mem_filter.mpr ⟨hr, hw⟩)
    | waiting hw => exact hgone hw
    | queued hlt hq => exact .queued hlt hq
  · exact foldl_max_le (fun m hm => (hrun.waiting m hm).1) hrun.acked_le
  · intro m hm
    cases hm
  · exact hnil ▸ List.nil_sublist _
  · exact fun _ => ⟨hb, rfl⟩

theorem Sound.unconfirmed (h : Sound s) (hst : s.stage = .inBatch) (hb : s.batch = [])
    (hw : s.toAck = []) (acks : Nat) : Sound (s.endBatch false acks) := by
  -- a barrier that fails loses track of what waited behind it, so nothing may have
  have hquiet : Quiet [.confirm s.round s.held false] := by simp [Quiet]
  have hrunless : Runless [.confirm s.round s.held false] := by simp [Runless]
  have hnum := hrunless.numbered h.numbered
  have hnil := hnum.fresh
  refine ⟨⟨trivial, h.earned⟩, h.kept.write hquiet, hnum.succ, fun _ => ?_⟩
  obtain ⟨seen, hrun⟩ := h.running (by rw [hst]; decide)
  refine ⟨seen, hrun.ordered, fun d hd => ?_, hrun.acked_le, fun m hm => (by cases hm),
    hnil ▸ List.nil_sublist _, fun _ => ⟨hb, rfl⟩⟩
  refine (hrun.tracked d (hquiet.deliver_mem hd)).imp (List.subset_cons_self _ _) rfl id ?_ id
  rw [hw]
  exact id

theorem Sound.takeOver (h : Sound s) (hset : ∀ m, .deliver m ∈ s.log → Settled s.log m.seq)
    (unit : DetectUnit) (store : Bool) :
    Sound { s with
      unit, store, stage := .top, rx := [], batch := [], toAck := [], held := []
      round := s.round + 1, ackedMax := 0, retrying := ∅, acksSince := 0 } := by
  have hnil := h.numbered.fresh
  refine ⟨h.earned, h.kept, h.numbered.succ,
    fun _ => ⟨s.high, ?_, fun m hm => .settled (hset m hm), ?_, ?_, hnil ▸ List.nil_sublist _, ?_⟩⟩
  · exact Feed.Ordered.rest fun q hq => (h.kept.known q hq).1
  · exact Nat.zero_le _
  · intro m hm
    cases hm
  · exact fun _ => ⟨rfl, rfl⟩

theorem Sound.resume (h : Sound s) {snap : Snapshot} (hsnap : s.snapshot = some snap)
    (unit : DetectUnit) (store : Bool) :
    Sound { s with
      unit, store, stage := .top, rx := [], batch := [], toAck := [], held := []
      round := s.round + 1, ackedMax := 0, retrying := ∅, acksSince := 0
      startSeq := snap.seq + 1, given := [], high := snap.seq } := by
  obtain ⟨-, hset⟩ := h.kept.stored snap hsnap
  have hnil := h.numbered.fresh
  refine ⟨h.earned, ⟨?_, fun q hq => (by cases hq)⟩, h.numbered.succ,
    fun _ => ⟨snap.seq, ?_, fun m hm => ?_, ?_, ?_, hnil ▸ List.nil_sublist _, ?_⟩⟩
  · intro snap' hsnap'
    have heq : snap' = snap := Option.some.inj (hsnap'.symm.trans hsnap)
    rw [heq]
    exact ⟨Nat.le_refl _, hset⟩
  · exact Feed.Ordered.rest fun q hq => by cases hq
  · rcases Nat.lt_or_ge snap.seq m.seq with hlt | hle
    · exact .ahead hlt
    · exact .settled (hset m hm hle)
  · exact Nat.zero_le _
  · intro m hm
    cases hm
  · exact fun _ => ⟨rfl, rfl⟩

def Detect.Resumes (s : Detect) (unit : DetectUnit) (store deleted : Bool) : Prop :=
  (s.ownSnapshot unit store).isSome = true ∧ deleted = true

/-- The steps after which the books are still right: an attempt that keeps the durable finds
everything settled, no emit of a message is refused, and no barrier fails over messages
that wait for it. -/
def Careful (s : Detect) : DetectEvent → Prop
  | .start unit store deleted _ _ =>
    s.Resumes unit store deleted ∨ ∀ m, .deliver m ∈ s.log → Settled s.log m.seq
  | .message (.emits es) _ => ∀ e ∈ es,
    sendableSubject (s.unit.emitSubject e.1) = true ∧ e.1.payload.length ≤ e.2
  | .endBatch confirmed _ => confirmed = true ∨ s.toAck = []
  | _ => True

theorem ownSnapshot_eq_some {unit : DetectUnit} {store : Bool} {snap : Snapshot}
    (h : s.ownSnapshot unit store = some snap) : s.snapshot = some snap := by
  unfold Detect.ownSnapshot at h
  split at h
  · exact (Option.filter_eq_some_iff.mp h).1
  · cases h

theorem Sound.start (h : Sound s) {unit : DetectUnit} {store deleted : Bool} {floor : Nat}
    {put : Put} (hc : s.Resumes unit store deleted ∨ ∀ m, .deliver m ∈ s.log → Settled s.log m.seq)
    {s' : Detect} (hstep : s.start unit store deleted floor put = some s') : Sound s' := by
  unfold Detect.start at hstep
  dsimp only at hstep
  cases hown : s.ownSnapshot unit store with
  | some snap =>
    rw [hown] at hstep
    dsimp only at hstep
    split at hstep
    · cases hstep
      exact h.resume (ownSnapshot_eq_some hown) unit store
    next hdel =>
      have hset := hc.resolve_left fun hres => hdel hres.2
      split at hstep
      · cases hstep
        exact h.takeOver hset unit store
      · cases hstep
  | none =>
    have hset := hc.resolve_left fun hres => by
      have hsome := hres.1
      rw [hown] at hsome
      cases hsome
    rw [hown] at hstep
    dsimp only at hstep
    split at hstep
    · cases hstep
    next hfloor =>
      have hle : floor ≤ s.high := Nat.le_of_not_lt fun hlt => hfloor (.inr hlt)
      split at hstep
      · cases hstep
        exact (h.takeOver hset unit store).snapshotUnit hle (fun m hm _ => hset m hm) put
      · cases hstep
        exact h.takeOver hset unit store

theorem Sound.step [External] (h : Sound s) {e : DetectEvent} (hc : Careful s e) {s' : Detect}
    (hstep : s.step e = some s') : Sound s' := by
  cases e with
  | start unit store deleted floor put =>
    simp only [Detect.step] at hstep
    split at hstep
    · cases hstep
    · exact h.start hc hstep
  | deliver m => exact h.deliver hstep
  | receive =>
    simp only [Detect.step] at hstep
    split at hstep
    · cases hstep
    next hst =>
      cases hstep
      exact h.receive (not_not.mp (not_or.mp hst).1)
  | message fed dlqOk =>
    simp only [Detect.step] at hstep
    split at hstep
    · cases hstep
    next hst =>
      split at hstep
      · cases hstep
      next m batch hb =>
        split at hstep
        · cases hstep
          refine h.message (not_not.mp hst) hb fun es hes => ?_
          rw [hes] at hc
          exact publishAll_ok s.unit hc s.held
        · cases hstep
          exact h.leave
  | endBatch confirmed acks =>
    simp only [Detect.step] at hstep
    split at hstep
    · cases hstep
    next hst =>
      cases hstep
      obtain ⟨hin, hrest⟩ := not_or.mp hst
      have hb := not_not.mp (not_or.mp hrest).1
      cases confirmed with
      | true => exact h.confirmed (not_not.mp hin) hb acks
      | false => exact h.unconfirmed (not_not.mp hin) hb (hc.resolve_left (by decide)) acks
  | cadence elapsed put =>
    simp only [Detect.step] at hstep
    split at hstep
    · cases hstep
    next hst =>
      cases hstep
      exact h.cadence (not_not.mp hst) elapsed put
  | stop put =>
    simp only [Detect.step] at hstep
    split at hstep
    · cases hstep
    next hst =>
      cases hstep
      exact h.stop (not_not.mp hst) put
  | crash =>
    simp only [Detect.step] at hstep
    split at hstep
    · cases hstep
    · cases hstep
      exact h.leave

end

def watch : DetectUnit := ⟨"v1", [("vx.in", "Order")], "vx", "watch", 10000⟩

def reading (n : Nat) : Delivery := ⟨n, 1, "vx.in", []⟩

end Vejas.Runtime
