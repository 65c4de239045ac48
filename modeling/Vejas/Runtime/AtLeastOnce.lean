import Mathlib.Data.List.Induction
import Vejas.Runtime.Batches

/-! At-least-once of a flow: a message is acked because its emits were confirmed, in the
batch that held them, or because the DLQ has it. -/

namespace Vejas.Runtime
open Json Rust Vjs Bus

section
variable [External]

theorem holdAll_held (limit : List Msg → Nat) (es : List Emit) (held : List Msg) :
    held <+: (holdAll limit held es).2 ∧
    ((holdAll limit held es).1 = .ok () → (holdAll limit held es).2 = held ++ es.map emitMsg) := by
  induction es generalizing held with
  | nil =>
    refine ⟨List.prefix_refl _, fun _ => ?_⟩
    rw [List.map_nil, List.append_nil]
    rfl
  | cons e es ih =>
    obtain ⟨subj, payload⟩ := e
    unfold holdAll
    cases h : hold (limit held) held subj (bytesOf payload.render) with
    | error e => exact ⟨List.prefix_refl _, fun h => by cases h⟩
    | ok held' =>
      obtain ⟨-, -, hheld⟩ := hold_eq_ok.mp h
      obtain ⟨hpre, hall⟩ := ih held'
      have hkept : held <+: held' := by
        rw [hheld]
        exact List.prefix_append _ _
      refine ⟨hkept.trans hpre, fun hok => ?_⟩
      dsimp only
      rw [hall hok, hheld, List.append_assoc]
      rfl

/-- What a delivery can do to the loop: its run ends with every emit held; or it leaves no
trace but emits that were held before a refusal; or it panics; or it goes to the DLQ. -/
theorem message_cases (decode : Payload → Except String Value) (s : Flow) (m : Delivery)
    (files : String → Option String) (limit : List Msg → Nat) (dlqOk : Bool) :
    (∃ event ctx engine, decode m.data = .ok event ∧
      (run s.prog event { s.engine with files }).1 = .ok ctx ∧
      s.message decode m files limit dlqOk =
        { s with engine, held := s.held ++ ctx.emits.map emitMsg, toAck := s.toAck ++ [m] }.note
          (.ran m s.batch (ctx.emits.map emitMsg))) ∨
    (∃ engine held, s.held <+: held ∧
      s.message decode m files limit dlqOk = { s with engine, held }) ∨
    (∃ engine, s.message decode m files limit dlqOk = { s with engine }.abandon) ∨
    (∃ engine held, s.held <+: held ∧
      s.message decode m files limit dlqOk = { s with engine, held }.deadLetter m dlqOk) := by
  have hfailed : ∀ (engine : Engine) (held : List Msg), s.held <+: held →
      (∃ engine' held', s.held <+: held' ∧ { s with engine, held }.failed m dlqOk =
        { s with engine := engine', held := held' }) ∨
      (∃ engine', { s with engine, held }.failed m dlqOk =
        { s with engine := engine' }.abandon) ∨
      (∃ engine' held', s.held <+: held' ∧ { s with engine, held }.failed m dlqOk =
        { s with engine := engine', held := held' }.deadLetter m dlqOk) := by
    intro engine held hsub
    unfold Flow.failed
    split
    · exact .inr (.inr ⟨engine, held, hsub, rfl⟩)
    · exact .inl ⟨engine, held, hsub, rfl⟩
  unfold Flow.message
  cases hdec : decode m.data with
  | error e => exact .inr (.inr (.inr ⟨s.engine, s.held, List.prefix_refl _, rfl⟩))
  | ok event =>
    dsimp only
    rcases hrun : run s.prog event { s.engine with files } with ⟨r, engine⟩
    cases r with
    | error e =>
      cases e with
      | panic => exact .inr (.inr (.inl ⟨engine, rfl⟩))
      | _ => exact .inr (hfailed engine s.held (List.prefix_refl _))
    | ok ctx =>
      dsimp only
      obtain ⟨hsub, hall⟩ := holdAll_held limit ctx.emits s.held
      rcases hh : holdAll limit s.held ctx.emits with ⟨r, held⟩
      rw [hh] at hsub hall
      cases r with
      | error e => exact .inr (hfailed engine held hsub)
      | ok u =>
        have hheld : held = s.held ++ ctx.emits.map emitMsg := hall rfl
        rw [hheld]
        exact .inl ⟨event, ctx, engine, rfl, by rw [hrun], rfl⟩

def StartedLast (prog : Program) (events : List FlowEvent) : Prop :=
  ∃ before engine after, events = before ++ .start prog engine :: after ∧
    ∀ prog' engine', .start prog' engine' ∉ after

/-- Somewhere in the run of `events` the attempt of its last start, with batch `n` open, ran its
program on `m`, in the engine it had by then: to the end, and with these emits. -/
def RunOf (decode : Payload → Except String Value) (s₀ : Flow) (events : List FlowEvent)
    (m : Delivery) (n : Nat) (emits : List Msg) : Prop :=
  ∃ before files limit dlqOk after s event ctx,
    events = before ++ .message m files limit dlqOk :: after ∧
    Transition.run (Flow.step decode) s₀ before = some s ∧ s.batch = n ∧ StartedLast s.prog before ∧
    decode m.data = .ok event ∧ (run s.prog event { s.engine with files }).1 = .ok ctx ∧
    emits = ctx.emits.map emitMsg

/-- When an ack is due: the DLQ took the message, or a confirm covers its run. -/
def Due (log : List Act) : Act → Prop
  | .ack m none => .dlq m true ∈ log
  | .ack m (some n) => ∃ emits, Covered log m n emits
  | _ => True

def Act.ends : Act → Option (Nat × Option Bool)
  | .confirm n _ ok => some (n, some ok)
  | .abandon n => some (n, none)
  | _ => none

/-- The loop's books: every ack was due; the messages waiting for the barrier were run, and the
batch has the emits of its runs; and a batch that ended is not the current one, and ended once. -/
structure Accounted (s : Flow) : Prop where
  earned : Ledger.Earned Due s.log
  waiting : ∀ m ∈ s.toAck, ∃ emits, .ran m s.batch emits ∈ s.log
  holds : (completed s.batch s.log).Sublist s.held
  numbered : RanUpTo s.log s.batch
  ended : ∀ a ∈ s.log, ∀ n ok, a.ends = some (n, ok) → n < s.batch ∨ n = s.batch ∧ s.stage = .down
  once : ∀ a ∈ s.log, ∀ b ∈ s.log, ∀ n ok ok', a.ends = some (n, ok) → b.ends = some (n, ok') →
    ok = ok'

variable {decode : Payload → Except String Value} {s : Flow}

omit [External] in
theorem due_persists : Ledger.Persists Due := by
  intro log b a h
  match a, h with
  | .ack m none, h => exact List.mem_cons_of_mem _ h
  | .ack m (some n), ⟨emits, hcov⟩ => exact ⟨emits, hcov.write [b]⟩
  | .deliver _, _ => trivial
  | .ran .., _ => trivial
  | .dlq .., _ => trivial
  | .confirm .., _ => trivial
  | .abandon _, _ => trivial
  | .handed .., _ => trivial
  | .nak _, _ => trivial
  | .snapshot _, _ => trivial

omit [External] in
theorem Accounted.note (h : Accounted s) {a : Act} (hdue : Due s.log a)
    (hends : a.ends = none) (hran : ∀ m k emits, a ≠ .ran m k emits) : Accounted (s.note a) where
  earned := ⟨hdue, h.earned⟩
  waiting m hm := by
    obtain ⟨emits, hin⟩ := h.waiting m hm
    exact ⟨emits, List.mem_cons_of_mem _ hin⟩
  holds := by
    have hsame : completed s.batch (a :: s.log) = completed s.batch s.log :=
      completed_cons_of_ne fun m emits => hran m s.batch emits
    exact hsame ▸ h.holds
  numbered := h.numbered.cons fun m k emits heq => absurd heq (hran m k emits)
  ended b hb n ok he := by
    rcases List.mem_cons.mp hb with rfl | hb
    · rw [hends] at he
      cases he
    · exact h.ended b hb n ok he
  once b hb c hc n ok ok' hbe hce := by
    rcases List.mem_cons.mp hb with rfl | hb
    · rw [hends] at hbe
      cases hbe
    · rcases List.mem_cons.mp hc with rfl | hc
      · rw [hends] at hce
        cases hce
      · exact h.once b hb c hc n ok ok' hbe hce

omit [External] in
theorem Accounted.open_batch (h : Accounted s) (hst : s.stage ≠ .down) {a : Act}
    (ha : a ∈ s.log) {ok : Option Bool} : a.ends ≠ some (s.batch, ok) := by
  intro he
  rcases h.ended a ha _ _ he with hlt | ⟨-, hdown⟩
  · exact Nat.lt_irrefl _ hlt
  · exact hst hdown

omit [External] in
theorem Accounted.once_cons (h : Accounted s) (hst : s.stage ≠ .down) {e : Act} {v : Option Bool}
    (he : e.ends = some (s.batch, v)) : ∀ a ∈ e :: s.log, ∀ b ∈ e :: s.log, ∀ n ok ok',
      a.ends = some (n, ok) → b.ends = some (n, ok') → ok = ok' := by
  intro a ha b hb n ok ok' hae hbe
  rcases List.mem_cons.mp ha with rfl | hal <;> rcases List.mem_cons.mp hb with rfl | hbl
  · rw [hae] at hbe
    exact (Prod.mk.inj (Option.some.inj hbe)).2
  · rw [hae] at he
    obtain ⟨rfl, -⟩ := Prod.mk.inj (Option.some.inj he)
    exact absurd hbe (h.open_batch hst hbl)
  · rw [hbe] at he
    obtain ⟨hn, -⟩ := Prod.mk.inj (Option.some.inj he)
    rw [hn] at hae
    exact absurd hae (h.open_batch hst hal)
  · exact h.once a hal b hbl n ok ok' hae hbe

omit [External] in
theorem Accounted.abandon (h : Accounted s) (hst : s.stage ≠ .down) : Accounted s.abandon where
  earned := ⟨trivial, h.earned⟩
  waiting m hm := by
    obtain ⟨emits, hin⟩ := h.waiting m hm
    exact ⟨emits, List.mem_cons_of_mem _ hin⟩
  holds := by
    have hsame : completed s.batch (.abandon s.batch :: s.log) = completed s.batch s.log :=
      completed_cons_of_ne nofun
    exact hsame ▸ h.holds
  numbered := h.numbered.cons nofun
  ended a ha n ok he := by
    rcases List.mem_cons.mp ha with rfl | ha
    · cases he
      exact .inr ⟨rfl, rfl⟩
    · rcases h.ended a ha n ok he with hlt | ⟨-, hdown⟩
      · exact .inl hlt
      · exact absurd hdown hst
  once := h.once_cons hst rfl

omit [External] in
theorem Accounted.hold (h : Accounted s) (engine : Engine) {held : List Msg}
    (hsub : s.held <+: held) : Accounted { s with engine, held } where
  earned := h.earned
  waiting := h.waiting
  holds := h.holds.trans hsub.sublist
  numbered := h.numbered
  ended := h.ended
  once := h.once

omit [External] in
theorem Accounted.deadLetter (h : Accounted s) (m : Delivery) (ok : Bool) :
    Accounted (s.deadLetter m ok) := by
  have hdlq : Accounted (s.note (.dlq m ok)) := h.note trivial rfl nofun
  unfold Flow.deadLetter
  cases ok with
  | true => exact hdlq.note (List.mem_cons_self : Act.dlq m true ∈ _) rfl nofun
  | false => exact hdlq.note trivial rfl nofun

omit [External] in
theorem Accounted.ran (h : Accounted s) (engine : Engine) (m : Delivery) (emits : List Msg) :
    Accounted ({ s with engine, held := s.held ++ emits, toAck := s.toAck ++ [m] }.note
      (.ran m s.batch emits)) where
  earned := ⟨trivial, h.earned⟩
  waiting a ha := by
    rcases List.mem_append.mp ha with ha | ha
    · obtain ⟨emits', hin⟩ := h.waiting a ha
      exact ⟨emits', List.mem_cons_of_mem _ hin⟩
    · rw [List.mem_singleton.mp ha]
      exact ⟨emits, List.mem_cons_self⟩
  holds := by
    have hnew : completed s.batch (.ran m s.batch emits :: s.log) = completed s.batch s.log ++ emits := by
      rw [completed, Act.emitsIn, if_pos rfl]
    have hsub := h.holds.append (List.Sublist.refl emits)
    exact hnew ▸ hsub
  numbered := h.numbered.cons fun m' k emits' heq => by
    cases heq
    exact Nat.le_refl _
  ended a ha n ok he := by
    rcases List.mem_cons.mp ha with rfl | ha
    · cases he
    · exact h.ended a ha n ok he
  once a ha b hb n ok ok' hae hbe := by
    rcases List.mem_cons.mp ha with rfl | ha
    · cases hae
    · rcases List.mem_cons.mp hb with rfl | hb
      · cases hbe
      · exact h.once a ha b hb n ok ok' hae hbe

theorem Accounted.message (h : Accounted s) (hst : s.stage ≠ .down) (m : Delivery)
    (files : String → Option String) (limit : List Msg → Nat) (dlqOk : Bool) :
    Accounted (s.message decode m files limit dlqOk) := by
  rcases message_cases decode s m files limit dlqOk with
    ⟨event, ctx, engine, -, -, heq⟩ | ⟨engine, held, hsub, heq⟩ |
    ⟨engine, heq⟩ | ⟨engine, held, hsub, heq⟩
  · rw [heq]
    exact h.ran engine m (ctx.emits.map emitMsg)
  · rw [heq]
    exact h.hold engine hsub
  · rw [heq]
    exact (h.hold engine (List.prefix_refl _)).abandon hst
  · rw [heq]
    exact (h.hold engine hsub).deadLetter m dlqOk

omit [External] in
theorem Accounted.endRound (h : Accounted s) (hst : s.stage ≠ .down) (confirmed : Bool)
    (acks : Nat) : Accounted (s.endRound confirmed acks) := by
  -- the acks of a round stand on the confirm written just before them
  have hbase : Ledger.Earned Due (.confirm s.batch s.held confirmed :: s.log) :=
    ⟨trivial, h.earned⟩
  have honce := h.once_cons hst (e := .confirm s.batch s.held confirmed) rfl
  have hcons : RanUpTo (.confirm s.batch s.held confirmed :: s.log) s.batch := h.numbered.cons nofun
  unfold Flow.endRound
  generalize hacked : (if confirmed then s.ackAll acks else []) = acked
  have hack : ∀ a ∈ acked.reverse, ∃ m ∈ s.toAck, confirmed = true ∧ a = .ack m (some s.batch) := by
    intro a ha
    rw [← hacked] at ha
    exact mem_acked ha
  have hquiet : ∀ a ∈ acked.reverse, a.ends = none := by
    intro a ha
    obtain ⟨m, -, -, rfl⟩ := hack a ha
    rfl
  have hin : ∀ a ∈ acked.reverse ++ .confirm s.batch s.held confirmed :: s.log, ∀ v,
      a.ends = some v → a ∈ Act.confirm s.batch s.held confirmed :: s.log := by
    intro a ha v he
    rcases List.mem_append.mp ha with ha | ha
    · rw [hquiet a ha] at he
      cases he
    · exact ha
  have hnum : RanUpTo (acked.reverse ++ .confirm s.batch s.held confirmed :: s.log) s.batch := by
    refine hcons.append fun m k emits hran => ?_
    obtain ⟨m', -, -, heq⟩ := hack _ hran
    cases heq
  constructor
  · refine hbase.append fun a ha => due_persists.append ?_
    obtain ⟨m, hm, rfl, rfl⟩ := hack a ha
    obtain ⟨emits, hran⟩ := h.waiting m hm
    exact ⟨emits, s.held, s.log, [], rfl, hran, h.holds⟩
  · intro m hm
    cases hm
  · have hnil := hnum.fresh
    exact hnil ▸ List.nil_sublist _
  · exact hnum.succ
  · intro a ha n ok he
    refine .inl (Nat.lt_succ_of_le ?_)
    rcases List.mem_cons.mp (hin a ha _ he) with rfl | ha
    · cases he
      exact Nat.le_refl _
    · rcases h.ended a ha n ok he with hlt | ⟨rfl, -⟩
      · exact Nat.le_of_lt hlt
      · exact Nat.le_refl _
  · intro a ha b hb n ok ok' hae hbe
    exact honce a (hin a ha _ hae) b (hin b hb _ hbe) n ok ok' hae hbe

theorem Accounted.step (h : Accounted s) {e : FlowEvent} {s' : Flow}
    (hstep : s.step decode e = some s') : Accounted s' := by
  cases turns_of_step hstep with
  | start hst =>
    have hnil := h.numbered.fresh
    refine ⟨h.earned, fun m hm => (by cases hm), hnil ▸ List.nil_sublist _, h.numbered.succ,
      fun a ha n ok he => .inl ?_, h.once⟩
    rcases h.ended a ha n ok he with hlt | ⟨rfl, -⟩
    · exact Nat.lt_succ_of_lt hlt
    · exact Nat.lt_succ_self _
  | begin hst =>
    refine ⟨h.earned, fun m hm => (by cases hm), h.holds, h.numbered, fun a ha n ok he => .inl ?_, h.once⟩
    rcases h.ended a ha n ok he with hlt | ⟨-, hdown⟩
    · exact hlt
    · cases hst.symm.trans hdown
  | message hst => exact h.message (by rw [hst]; decide) _ _ _ _
  | endRound hst => exact h.endRound (by rw [hst]; decide) _ _
  | stop hst => exact h.abandon hst

theorem accounted_of_reachable (hs : (flowSystem decode).Reachable s) : Accounted s := by
  refine hs.invariant (fun s h => ?_) (fun s e s' h hstep => h.step hstep)
  obtain ⟨hlog, hack, -⟩ := h
  constructor
  · rw [hlog]
    trivial
  · intro m hm
    rw [hack] at hm
    cases hm
  · rw [hlog]
    exact List.nil_sublist _
  · intro m k emits hran
    rw [hlog] at hran
    cases hran
  · intro a ha
    rw [hlog] at ha
    cases ha
  · intro a ha
    rw [hlog] at ha
    cases ha

theorem step_ran {e : FlowEvent} {s' : Flow} (hstep : s.step decode e = some s') {m : Delivery}
    {n : Nat} {emits : List Msg} (hran : .ran m n emits ∈ s'.log) :
    .ran m n emits ∈ s.log ∨ ∃ files limit dlqOk event ctx, e = .message m files limit dlqOk ∧
      s.stage = .inRound ∧ s.batch = n ∧ decode m.data = .ok event ∧
      (run s.prog event { s.engine with files }).1 = .ok ctx ∧ emits = ctx.emits.map emitMsg := by
  cases turns_of_step hstep with
  | start hst => exact .inl hran
  | begin hst => exact .inl hran
  | @message m' files limit dlqOk hst =>
    rcases message_cases decode s m' files limit dlqOk with
      ⟨event, ctx, engine, hdec, hrun, heq⟩ | ⟨engine, held, -, heq⟩ | ⟨engine, heq⟩ |
      ⟨engine, held, -, heq⟩
    · rw [heq] at hran
      rcases List.mem_cons.mp hran with hnew | hran
      · cases hnew
        exact .inr ⟨files, limit, dlqOk, event, ctx, rfl, hst, rfl, hdec, hrun, rfl⟩
      · exact .inl hran
    · rw [heq] at hran
      exact .inl hran
    · rw [heq] at hran
      exact .inl (ran_mem_of_cons hran nofun)
    · rw [heq] at hran
      unfold Flow.deadLetter at hran
      have hin := ran_mem_of_cons hran (by cases dlqOk <;> nofun)
      exact .inl (ran_mem_of_cons hin nofun)
  | endRound hst =>
    unfold Flow.endRound at hran
    rcases List.mem_append.mp hran with hack | hran
    · obtain ⟨m', -, -, heq⟩ := mem_acked hack
      cases heq
    · exact .inl (ran_mem_of_cons hran nofun)
  | stop hst => exact .inl (ran_mem_of_cons hran nofun)

theorem step_prog {e : FlowEvent} {s' : Flow} (hstep : s.step decode e = some s') :
    (∃ engine, e = .start s'.prog engine) ∨
      s'.prog = s.prog ∧ s.stage ≠ .down ∧ ∀ prog engine, e ≠ .start prog engine := by
  cases turns_of_step hstep with
  | @start prog engine hst => exact .inl ⟨engine, rfl⟩
  | begin hst => exact .inr ⟨rfl, by rw [hst]; decide, nofun⟩
  | @message m files limit dlqOk hst =>
    refine .inr ⟨?_, by rw [hst]; decide, nofun⟩
    rcases message_cases decode s m files limit dlqOk with ⟨event, ctx, engine, -, -, heq⟩ |
      ⟨engine, held, -, heq⟩ | ⟨engine, heq⟩ | ⟨engine, held, -, heq⟩
    all_goals exact (congrArg Flow.prog heq).trans rfl
  | endRound hst => exact .inr ⟨rfl, by rw [hst]; decide, nofun⟩
  | stop hst => exact .inr ⟨rfl, hst, nofun⟩

omit [External] in
theorem StartedLast.snoc {prog : Program} {events : List FlowEvent} (h : StartedLast prog events)
    {e : FlowEvent} (he : ∀ prog engine, e ≠ .start prog engine) : StartedLast prog (events ++ [e]) := by
  obtain ⟨before, engine, after, rfl, hlast⟩ := h
  refine ⟨before, engine, after ++ [e], by rw [List.append_assoc, List.cons_append], fun prog' engine' hin => ?_⟩
  rcases List.mem_append.mp hin with hin | hin
  · exact hlast prog' engine' hin
  · exact he prog' engine' (List.mem_singleton.mp hin).symm

theorem RunOf.snoc {s₀ : Flow} {events : List FlowEvent} {m : Delivery} {n : Nat} {emits : List Msg}
    (h : RunOf decode s₀ events m n emits) (e : FlowEvent) : RunOf decode s₀ (events ++ [e]) m n emits := by
  obtain ⟨before, files, limit, dlqOk, after, s, event, ctx, rfl, hrest⟩ := h
  exact ⟨before, files, limit, dlqOk, after ++ [e], s, event, ctx,
    by rw [List.append_assoc, List.cons_append], hrest⟩

theorem runOf_of_ran {s₀ : Flow} (h₀ : (flowSystem decode).init s₀) (events : List FlowEvent) {s : Flow}
    (hs : Transition.run (Flow.step decode) s₀ events = some s) :
    (s.stage ≠ .down → StartedLast s.prog events) ∧
      ∀ m n emits, .ran m n emits ∈ s.log → RunOf decode s₀ events m n emits := by
  obtain ⟨hlog, -, hdown⟩ := h₀
  induction events using List.reverseRecOn generalizing s with
  | nil =>
    cases hs
    refine ⟨fun hst => absurd hdown hst, fun m n emits hran => ?_⟩
    rw [hlog] at hran
    cases hran
  | append_singleton events e ih =>
    rw [Transition.run_append] at hs
    obtain ⟨mid, hmid, hrest⟩ := Option.bind_eq_some_iff.mp hs
    obtain ⟨s', hstep, hs'⟩ := Option.bind_eq_some_iff.mp hrest
    cases hs'
    obtain ⟨hprog, hof⟩ := ih hmid
    constructor
    · intro hst
      rcases step_prog hstep with ⟨engine, rfl⟩ | ⟨hsame, hup, hne⟩
      · exact ⟨events, engine, [], rfl, fun _ _ hin => by cases hin⟩
      · rw [hsame]
        exact (hprog hup).snoc hne
    · intro m n emits hran
      rcases step_ran hstep hran with hran | ⟨files, limit, dlqOk, event, ctx, rfl, hin, hn, hdec, hrun, rfl⟩
      · exact (hof m n emits hran).snoc e
      · have hup : mid.stage ≠ .down := by
          rw [hin]
          decide
        exact ⟨events, files, limit, dlqOk, [], mid, event, ctx, rfl, hmid, hn, hprog hup, hdec, hrun, rfl⟩

/-- In every run of the loop an ack stands on earlier entries: the DLQ took the message, or its
attempt's program ran on it to the end and a confirm of the batch it ran in returned `Ok`, the
batch holding every emit of that run and of the others, in order and as often. A batch whose
confirm failed or that was abandoned acks nothing. -/
theorem acked_when_confirmed_or_dead_lettered {s₀ : Flow} (h₀ : (flowSystem decode).init s₀)
    {events : List FlowEvent} (hs : Transition.run (Flow.step decode) s₀ events = some s) :
    (∀ m pre post, s.log = post ++ .ack m none :: pre → .dlq m true ∈ pre) ∧
    (∀ m n pre post, s.log = post ++ .ack m (some n) :: pre →
      ∃ emits, RunOf decode s₀ events m n emits ∧ Covered pre m n emits) ∧
    ∀ n, ((∃ held, .confirm n held false ∈ s.log) ∨ .abandon n ∈ s.log) →
      ∀ m, .ack m (some n) ∉ s.log := by
  have h := accounted_of_reachable (Transition.Reachable.run events (.init h₀) hs)
  refine ⟨fun m pre post hlog => h.earned.due_below hlog, fun m n pre post hlog => ?_, ?_⟩
  · obtain ⟨emits, hcov⟩ := h.earned.due_below hlog
    have hran : .ran m n emits ∈ s.log := by
      rw [hlog]
      exact List.mem_append_right _ (List.mem_cons_of_mem _ hcov.ran)
    exact ⟨emits, (runOf_of_ran h₀ events hs).2 m n emits hran, hcov⟩
  · intro n hend m hm
    obtain ⟨post, pre, hlog⟩ := List.append_of_mem hm
    obtain ⟨emits, hcov⟩ := h.earned.due_below hlog
    obtain ⟨held, hconf⟩ := hcov.confirmed
    have hok : Act.confirm n held true ∈ s.log := by
      rw [hlog]
      exact List.mem_append_right _ (List.mem_cons_of_mem _ hconf)
    -- the batch ended well, and it can end only once
    rcases hend with ⟨held', hfail⟩ | habandon
    · exact absurd (h.once _ hok _ hfail n (some true) (some false) rfl rfl) (by decide)
    · exact absurd (h.once _ hok _ habandon n (some true) none rfl rfl) (by decide)

end

def passFlow : Program where
  source := some "vx.in"
  tool := none
  api := none
  driver := none
  stmts := [.emit (.lit (.string "vx.out")) (.var "event")]
  surface := []
  emitSubjects := ["vx.out"]
  invokes := []
  secretRefs := []

def unstarted : Flow where
  prog := passFlow
  engine := .withSecrets (fun _ => none) "/p" "default" .error
  held := []
  toAck := []
  batch := 0
  stage := .down
  log := []

def order : Delivery := ⟨7, 1, "vx.in", [110]⟩

def orderEmits : List Msg := [⟨"vx.out", [110, 117, 108, 108]⟩]

def orderRound (confirmed : Bool) : List FlowEvent :=
  [.start passFlow unstarted.engine, .begin,
   .message order (fun _ => none) (fun _ => 1024) true, .endRound confirmed 1]

def nullDecoder : Payload → Except String Value := fun _ => .ok .null

theorem acked_when_confirmed_or_dead_lettered_order :
    (∃ s, Transition.run (@Flow.step ascii nullDecoder) unstarted (orderRound true) = some s ∧
      s.log = [.ack order (some 1), .confirm 1 orderEmits true, .ran order 1 orderEmits] ∧
      ∃ emits, @RunOf ascii nullDecoder unstarted (orderRound true) order 1 emits ∧
        Covered s.log.tail order 1 emits) ∧
    ∃ s, Transition.run (@Flow.step ascii nullDecoder) unstarted (orderRound false) = some s ∧
      s.log = [.confirm 1 orderEmits false, .ran order 1 orderEmits] ∧
      ∀ m, .ack m (some 1) ∉ s.log := by
  have hinit : (@flowSystem ascii nullDecoder).init unstarted := ⟨rfl, rfl, rfl⟩
  have hrun : ∀ confirmed, ∃ s,
      Transition.run (@Flow.step ascii nullDecoder) unstarted (orderRound confirmed) = some s ∧
      s.log = if confirmed then
          [.ack order (some 1), .confirm 1 orderEmits true, .ran order 1 orderEmits]
        else [.confirm 1 orderEmits false, .ran order 1 orderEmits] := by
    intro confirmed
    have hlog : (Transition.run (@Flow.step ascii nullDecoder) unstarted
        (orderRound confirmed)).map (·.log) = some (if confirmed then
          [.ack order (some 1), .confirm 1 orderEmits true, .ran order 1 orderEmits]
        else [.confirm 1 orderEmits false, .ran order 1 orderEmits]) := by
      revert confirmed
      decide +kernel
    exact Option.map_eq_some_iff.mp hlog
  obtain ⟨s, hs, hl⟩ := hrun true
  obtain ⟨s', hs', hl'⟩ := hrun false
  have hgood := @acked_when_confirmed_or_dead_lettered ascii nullDecoder s unstarted hinit _ hs
  have hbad := @acked_when_confirmed_or_dead_lettered ascii nullDecoder s' unstarted hinit _ hs'
  obtain ⟨emits, hof, hcov⟩ := hgood.2.1 order 1 _ [] hl
  refine ⟨⟨s, hs, hl, emits, hof, ?_⟩, s', hs', hl', hbad.2.2 1 (.inl ⟨orderEmits, ?_⟩)⟩
  · rw [hl]
    exact hcov
  · rw [hl']
    exact List.mem_cons_self

end Vejas.Runtime
