import Vejas.Runtime.AtLeastOnce

/-! What a failed message leaves in the batch. A run that fails leaves nothing, and so does one whose
first emit is refused; but the emits before a later refusal stay held and leave with the batch. -/

namespace Vejas.Runtime
open Json Rust Vjs Bus

section
variable [External]

def takes (limit : List Msg → Nat) (held : List Msg) (e : Emit) : Bool :=
  sendableSubject e.1 && (emitMsg e).payload.length ≤ limit held

structure Refuses (limit : List Msg → Nat) (held : List Msg) (emits before : List Emit) (e : Emit) : Prop where
  split : ∃ after, emits = before ++ e :: after
  taken : ∀ pre e' post, before = pre ++ e' :: post → takes limit (held ++ pre.map emitMsg) e' = true
  refused : takes limit (held ++ before.map emitMsg) e = false

inductive Fails (decode : Payload → Except String Value) (s : Flow) (m : Delivery) (files : String → Option String)
    (limit : List Msg → Nat) : Prop
  | decoded {e : String} (h : decode m.data = .error e)
  | ran {event : Value} {f : Fault} (hd : decode m.data = .ok event)
      (hr : (run s.prog event { s.engine with files }).1 = .error f)
  | refused {event : Value} {ctx : Ctx} {before : List Emit} {e : Emit} (hd : decode m.data = .ok event)
      (hr : (run s.prog event { s.engine with files }).1 = .ok ctx) (h : Refuses limit s.held ctx.emits before e)

/-- An emit is refused after another one of its run was taken. -/
def RefusedLate (decode : Payload → Except String Value) (s : Flow) (m : Delivery) (files : String → Option String)
    (limit : List Msg → Nat) : Prop :=
  ∃ event ctx before e, decode m.data = .ok event ∧ (run s.prog event { s.engine with files }).1 = .ok ctx ∧
    Refuses limit s.held ctx.emits before e ∧ before ≠ []

def Panics (decode : Payload → Except String Value) (s : Flow) (m : Delivery) (files : String → Option String) :
    Prop :=
  ∃ event, decode m.data = .ok event ∧ (run s.prog event { s.engine with files }).1 = .error .panic

/-- The message fails and will not be tried again: it is no JSON, or this was its last delivery. -/
structure GivenUp (decode : Payload → Except String Value) (s : Flow) (m : Delivery) (files : String → Option String)
    (limit : List Msg → Nat) : Prop where
  fails : Fails decode s m files limit
  alive : ¬ Panics decode s m files
  last : (∃ e, decode m.data = .error e) ∨ maxDeliveries ≤ m.delivered

theorem hold_of_takes {limit : List Msg → Nat} {held : List Msg} {e : Emit} (h : takes limit held e = true) :
    hold (limit held) held e.1 (bytesOf e.2.render) = .ok (held ++ [emitMsg e]) := by
  unfold takes at h
  rw [Bool.and_eq_true, decide_eq_true_eq] at h
  exact hold_eq_ok.mpr ⟨h.1, h.2, rfl⟩

theorem hold_of_not_takes {limit : List Msg → Nat} {held : List Msg} {e : Emit} (h : takes limit held e = false) :
    ∃ msg, hold (limit held) held e.1 (bytesOf e.2.render) = .error msg := by
  cases hh : hold (limit held) held e.1 (bytesOf e.2.render) with
  | error msg => exact ⟨msg, rfl⟩
  | ok held' =>
    obtain ⟨hsub, hlen, -⟩ := hold_eq_ok.mp hh
    unfold takes at h
    rw [hsub, Bool.true_and, decide_eq_false_iff_not] at h
    exact absurd hlen h

theorem holdAll_refuses {limit : List Msg → Nat} {held : List Msg} {emits before : List Emit} {e : Emit}
    (h : Refuses limit held emits before e) :
    ∃ msg, holdAll limit held emits = (.error msg, held ++ before.map emitMsg) := by
  obtain ⟨⟨after, rfl⟩, htaken, hrefused⟩ := h
  induction before generalizing held with
  | nil =>
    rw [List.map_nil, List.append_nil] at hrefused
    obtain ⟨msg, hmsg⟩ := hold_of_not_takes hrefused
    refine ⟨"publish " ++ e.1 ++ ": " ++ msg, ?_⟩
    rw [List.nil_append, holdAll, hmsg, List.map_nil, List.append_nil]
  | cons a before ih =>
    have ha := htaken [] a before rfl
    rw [List.map_nil, List.append_nil] at ha
    have hcut : ∀ pre : List Emit, held ++ [emitMsg a] ++ pre.map emitMsg = held ++ (a :: pre).map emitMsg := by
      intro pre
      rw [List.append_assoc, List.map_cons, List.singleton_append]
    obtain ⟨msg, hmsg⟩ := @ih (held ++ [emitMsg a])
      (fun pre e' post hsplit => by rw [hcut]; exact htaken (a :: pre) e' post (by rw [hsplit, List.cons_append]))
      (by rw [hcut]; exact hrefused)
    refine ⟨msg, ?_⟩
    rw [List.cons_append, holdAll, hold_of_takes ha]
    dsimp only
    rw [hmsg, hcut]

theorem holdAll_cases (limit : List Msg → Nat) (held : List Msg) (emits : List Emit) :
    holdAll limit held emits = (.ok (), held ++ emits.map emitMsg) ∨
      ∃ before e, Refuses limit held emits before e := by
  induction emits generalizing held with
  | nil => exact .inl (by rw [List.map_nil, List.append_nil, holdAll])
  | cons a emits ih =>
    cases ha : takes limit held a with
    | false =>
      refine .inr ⟨[], a, ⟨emits, rfl⟩, fun pre e' post hsplit => ?_, by rwa [List.map_nil, List.append_nil]⟩
      cases pre <;> cases hsplit
    | true =>
      have hcut : ∀ pre : List Emit, held ++ [emitMsg a] ++ pre.map emitMsg = held ++ (a :: pre).map emitMsg := by
        intro pre
        rw [List.append_assoc, List.map_cons, List.singleton_append]
      rcases ih (held ++ [emitMsg a]) with hok | ⟨before, e, ⟨after, rfl⟩, htaken, hrefused⟩
      · refine .inl ?_
        rw [holdAll, hold_of_takes ha]
        dsimp only
        rw [hok, hcut]
      · refine .inr ⟨a :: before, e, ⟨after, rfl⟩, fun pre e' post hsplit => ?_, by rwa [← hcut]⟩
        cases pre with
        | nil =>
          cases hsplit
          rwa [List.map_nil, List.append_nil]
        | cons b pre =>
          obtain ⟨rfl, hrest⟩ := List.cons.inj hsplit
          rw [← hcut]
          exact htaken pre e' post hrest

variable {decode : Payload → Except String Value} {s : Flow} {m : Delivery} {files : String → Option String}
  {limit : List Msg → Nat} {dlqOk : Bool}

omit [External] in
theorem Flow.held_failed (s : Flow) (m : Delivery) (dlqOk : Bool) : (s.failed m dlqOk).held = s.held := by
  unfold Flow.failed
  split
  · rfl
  · rfl

omit [External] in
theorem Refuses.emits_ne [External] {emits before : List Emit} {e : Emit} {held : List Msg}
    (h : Refuses limit held emits before e) : holdAll limit held emits ≠ (.ok (), held ++ emits.map emitMsg) := by
  obtain ⟨msg, hmsg⟩ := holdAll_refuses h
  rw [hmsg]
  intro heq
  cases (Prod.mk.inj heq).1

theorem message_held (decode : Payload → Except String Value) (s : Flow) (m : Delivery)
    (files : String → Option String) (limit : List Msg → Nat) (dlqOk : Bool) :
    (∃ event ctx engine, decode m.data = .ok event ∧ (run s.prog event { s.engine with files }).1 = .ok ctx ∧
      ¬ Fails decode s m files limit ∧ s.message decode m files limit dlqOk =
        { s with engine, held := s.held ++ ctx.emits.map emitMsg, toAck := s.toAck ++ [m] }.note
          (.ran m s.batch (ctx.emits.map emitMsg))) ∨
    (Fails decode s m files limit ∧ ((∃ engine, s.message decode m files limit dlqOk = { s with engine }.abandon) ∨
      ¬ Panics decode s m files ∧
        (∃ engine, s.message decode m files limit dlqOk = { s with engine }.failed m dlqOk) ∨
      GivenUp decode s m files limit ∧ s.message decode m files limit dlqOk = s.deadLetter m dlqOk)) ∧
        ¬ RefusedLate decode s m files limit ∨
    (Fails decode s m files limit ∧ RefusedLate decode s m files limit ∧ ∃ engine held, held ≠ [] ∧
      s.message decode m files limit dlqOk = { s with engine, held := s.held ++ held }.failed m dlqOk) := by
  unfold Flow.message
  cases hdec : decode m.data with
  | error e =>
    have hquiet : ¬ Panics decode s m files := by
      rintro ⟨event, hd, -⟩
      rw [hdec] at hd
      cases hd
    refine .inr (.inl ⟨⟨.decoded hdec, .inr (.inr ⟨⟨.decoded hdec, hquiet, .inl ⟨e, hdec⟩⟩, rfl⟩)⟩, ?_⟩)
    rintro ⟨event, ctx, before, e', hd, -⟩
    rw [hdec] at hd
    cases hd
  | ok event =>
    dsimp only
    rcases hrun : run s.prog event { s.engine with files } with ⟨r, engine⟩
    have hquiet : r ≠ .error .panic → ¬ Panics decode s m files := by
      rintro hne ⟨event', hd, hr⟩
      rw [hdec] at hd
      cases hd
      rw [hrun] at hr
      exact hne hr
    cases r with
    | error f =>
      have hfails : Fails decode s m files limit := .ran hdec (by rw [hrun])
      have hlate : ¬ RefusedLate decode s m files limit := by
        rintro ⟨event', ctx, before, e', hd, hr, -⟩
        rw [hdec] at hd
        cases hd
        rw [hrun] at hr
        cases hr
      cases f with
      | panic => exact .inr (.inl ⟨⟨hfails, .inl ⟨engine, rfl⟩⟩, hlate⟩)
      | err e => exact .inr (.inl ⟨⟨hfails, .inr (.inl ⟨hquiet nofun, engine, rfl⟩)⟩, hlate⟩)
      | outOfFuel => exact .inr (.inl ⟨⟨hfails, .inr (.inl ⟨hquiet nofun, engine, rfl⟩)⟩, hlate⟩)
    | ok ctx =>
      have hctx : (run s.prog event { s.engine with files }).1 = .ok ctx := by rw [hrun]
      -- a refusal in this message is a refusal among these emits
      have hsame : ∀ {event' ctx'}, decode m.data = .ok event' →
          (run s.prog event' { s.engine with files }).1 = .ok ctx' → ctx' = ctx := by
        intro event' ctx' hd hr
        rw [hdec] at hd
        cases hd
        rw [hctx] at hr
        exact (Except.ok.inj hr).symm
      dsimp only
      rcases holdAll_cases limit s.held ctx.emits with hok | ⟨before, e, href⟩
      · rw [hok]
        refine .inl ⟨event, ctx, engine, rfl, hctx, ?_, rfl⟩
        rintro (hd | ⟨hd, hr⟩ | ⟨hd, hr, href⟩)
        · rw [hdec] at hd
          cases hd
        · rw [hdec] at hd
          cases hd
          rw [hctx] at hr
          cases hr
        · rw [hsame hd hr] at href
          exact href.emits_ne hok
      · obtain ⟨msg, hmsg⟩ := holdAll_refuses href
        rw [hmsg]
        have hfails : Fails decode s m files limit := .refused hdec hctx href
        cases before with
        | nil =>
          refine .inr (.inl ⟨⟨hfails, .inr (.inl ⟨hquiet nofun, engine, ?_⟩)⟩, ?_⟩)
          · rw [List.map_nil, List.append_nil]
          · rintro ⟨event', ctx', before, e', hd, hr, href', hne⟩
            rw [hsame hd hr] at href'
            -- the first emit cannot be both refused and taken
            obtain ⟨after, hsplit⟩ := href.split
            obtain ⟨after', hsplit'⟩ := href'.split
            cases before with
            | nil => exact hne rfl
            | cons a before =>
              rw [hsplit, List.nil_append, List.cons_append] at hsplit'
              obtain ⟨rfl, -⟩ := List.cons.inj hsplit'
              have htaken := href'.taken [] e before rfl
              rw [href.refused] at htaken
              cases htaken
        | cons a before =>
          exact .inr (.inr ⟨hfails, ⟨event, ctx, a :: before, e, hdec, hctx, href, List.cons_ne_nil _ _⟩,
            engine, _, List.cons_ne_nil _ _, rfl⟩)

theorem held_of_failed_iff (decode : Payload → Except String Value) (s : Flow) (m : Delivery)
    (files : String → Option String) (limit : List Msg → Nat) (dlqOk : Bool) :
    (Fails decode s m files limit → (s.message decode m files limit dlqOk).held = s.held) ↔
      ¬ RefusedLate decode s m files limit := by
  rcases message_held decode s m files limit dlqOk with ⟨event, ctx, engine, hdec, hrun, hok, -⟩ |
    ⟨⟨-, hleft⟩, hlate⟩ | ⟨hfails, hlate, engine, held, hne, heq⟩
  · refine iff_of_true (fun hfails => absurd hfails hok) ?_
    rintro ⟨event', ctx', before, e, hd, hr, href, -⟩
    exact hok (.refused hd hr href)
  · refine iff_of_true (fun _ => ?_) hlate
    rcases hleft with ⟨engine, heq⟩ | ⟨-, engine, heq⟩ | ⟨-, heq⟩
    · rw [heq]
      rfl
    · rw [heq, Flow.held_failed]
    · rw [heq]
      rfl
  · refine iff_of_false (fun hsame => hne ?_) (not_not.mpr hlate)
    have hheld := hsame hfails
    rw [heq, Flow.held_failed] at hheld
    exact List.append_right_eq_self.mp hheld

def Unrefused (decode : Payload → Except String Value) (s : Flow) : FlowEvent → Prop
  | .message m files limit _ => ¬ RefusedLate decode s m files limit
  | _ => True

/-- A message that is given up has no completed delivery whose emits may have left, and one that
completes has no letter: an ack that was lost brings neither back. -/
def DecidedOnce (decode : Payload → Except String Value) (s : Flow) : FlowEvent → Prop
  | .message m files limit dlqOk =>
    (dlqOk = true → GivenUp decode s m files limit → ∀ m' n emits, m'.seq = m.seq →
      .ran m' n emits ∈ s.log → emits = [] ∨ .abandon n ∈ s.log) ∧
    (¬ Fails decode s m files limit → ∀ m', m'.seq = m.seq → .dlq m' true ∉ s.log)
  | _ => True

structure Booked (s : Flow) : Prop where
  holds : s.stage ≠ .down → s.held = completed s.batch s.log
  numbered : RanUpTo s.log s.batch
  published : ∀ n held ok, .confirm n held ok ∈ s.log → n < s.batch ∧ held = completed n s.log

omit [External] in
def Act.quiet (a : Act) : Prop := (∀ m n emits, a ≠ .ran m n emits) ∧ ∀ n held ok, a ≠ .confirm n held ok

omit [External] in
theorem Booked.note (h : Booked s) {a : Act} (ha : a.quiet) : Booked (s.note a) := by
  have hsame : ∀ n, completed n (a :: s.log) = completed n s.log :=
    fun n => completed_cons_of_ne fun m emits => ha.1 m n emits
  refine ⟨fun hst => ?_, h.numbered.cons fun m n emits heq => absurd heq (ha.1 m n emits),
    fun n held ok hconf => ?_⟩
  · exact (h.holds hst).trans (hsame s.batch).symm
  · rcases List.mem_cons.mp hconf with rfl | hconf
    · exact absurd rfl (ha.2 n held ok)
    · obtain ⟨hlt, heq⟩ := h.published n held ok hconf
      exact ⟨hlt, heq.trans (hsame n).symm⟩

omit [External] in
theorem Booked.deadLetter (h : Booked s) (m : Delivery) (ok : Bool) : Booked (s.deadLetter m ok) := by
  have hdlq : Booked (s.note (.dlq m ok)) := h.note ⟨nofun, nofun⟩
  unfold Flow.deadLetter
  cases ok with
  | true => exact hdlq.note ⟨nofun, nofun⟩
  | false => exact hdlq.note ⟨nofun, nofun⟩

omit [External] in
theorem Booked.failed (h : Booked s) (m : Delivery) (dlqOk : Bool) : Booked (s.failed m dlqOk) := by
  unfold Flow.failed
  split
  · exact h.deadLetter m dlqOk
  · exact h

omit [External] in
theorem Booked.abandon (h : Booked s) : Booked s.abandon :=
  Booked.note (s := { s with stage := .down })
    ⟨fun hst => absurd rfl hst, h.numbered, h.published⟩ (a := .abandon s.batch) ⟨nofun, nofun⟩

omit [External] in
theorem Booked.engine (h : Booked s) (engine : Engine) : Booked { s with engine } :=
  ⟨h.holds, h.numbered, h.published⟩

theorem Booked.message (h : Booked s) (hst : s.stage ≠ .down) (hclean : ¬ RefusedLate decode s m files limit) :
    Booked (s.message decode m files limit dlqOk) := by
  rcases message_held decode s m files limit dlqOk with ⟨event, ctx, engine, -, -, -, heq⟩ |
    ⟨⟨-, ⟨engine, heq⟩ | ⟨-, engine, heq⟩ | ⟨-, heq⟩⟩, -⟩ | ⟨-, hlate, -⟩
  · rw [heq]
    have hnum : RanUpTo (.ran m s.batch (ctx.emits.map emitMsg) :: s.log) s.batch := by
      refine h.numbered.cons fun m' n emits hnew => ?_
      cases hnew
      exact Nat.le_refl _
    refine ⟨fun _ => ?_, hnum, fun n held ok hconf => ?_⟩
    · show s.held ++ ctx.emits.map emitMsg = completed s.batch (.ran m s.batch (ctx.emits.map emitMsg) :: s.log)
      rw [completed, Act.emitsIn, if_pos rfl, h.holds hst]
    · rcases List.mem_cons.mp hconf with hnew | hconf
      · cases hnew
      · obtain ⟨hlt, hheld⟩ := h.published n held ok hconf
        refine ⟨hlt, hheld.trans ?_⟩
        -- the run belongs to the open batch, which is not the published one
        show completed n s.log = completed n (.ran m s.batch (ctx.emits.map emitMsg) :: s.log)
        rw [completed, Act.emitsIn, if_neg (Nat.ne_of_gt hlt), List.append_nil]
  · rw [heq]
    exact (h.engine engine).abandon
  · rw [heq]
    exact (h.engine engine).failed m dlqOk
  · rw [heq]
    exact h.deadLetter m dlqOk
  · exact absurd hlate hclean

omit [External] in
theorem Booked.endRound (h : Booked s) (hst : s.stage ≠ .down) (confirmed : Bool) (acks : Nat) :
    Booked (s.endRound confirmed acks) := by
  unfold Flow.endRound
  generalize hacked : (if confirmed then s.ackAll acks else []) = acked
  have hack : ∀ a ∈ acked.reverse, ∃ m, a = .ack m (some s.batch) := by
    intro a ha
    rw [← hacked] at ha
    obtain ⟨m, -, -, heq⟩ := mem_acked ha
    exact ⟨m, heq⟩
  have hsame : ∀ n, completed n (acked.reverse ++ .confirm s.batch s.held confirmed :: s.log) =
      completed n s.log := by
    intro n
    have hquiet : ∀ a ∈ acked.reverse, a.emitsIn n = [] := by
      intro a ha
      obtain ⟨m, rfl⟩ := hack a ha
      rfl
    rw [completed_append hquiet]
    exact completed_cons_of_ne nofun
  have hcons : RanUpTo (.confirm s.batch s.held confirmed :: s.log) s.batch := h.numbered.cons nofun
  have hnum : RanUpTo (acked.reverse ++ .confirm s.batch s.held confirmed :: s.log) s.batch := by
    refine hcons.append fun m n emits hran => ?_
    obtain ⟨m', heq⟩ := hack _ hran
    cases heq
  refine ⟨fun _ => hnum.fresh.symm, hnum.succ, fun n held ok hconf => ?_⟩
  rw [hsame]
  rcases List.mem_append.mp hconf with hconf | hconf
  · obtain ⟨m', heq⟩ := hack _ hconf
    cases heq
  · rcases List.mem_cons.mp hconf with hnew | hconf
    · cases hnew
      exact ⟨Nat.lt_succ_self _, h.holds hst⟩
    · obtain ⟨hlt, hheld⟩ := h.published n held ok hconf
      exact ⟨Nat.lt_succ_of_lt hlt, hheld⟩

theorem Booked.step (h : Booked s) {e : FlowEvent} {s' : Flow} (hclean : Unrefused decode s e)
    (hstep : s.step decode e = some s') : Booked s' := by
  cases turns_of_step hstep with
  | start hst =>
    refine ⟨fun _ => h.numbered.fresh.symm, h.numbered.succ, fun n held ok hconf => ?_⟩
    obtain ⟨hlt, hheld⟩ := h.published n held ok hconf
    exact ⟨Nat.lt_succ_of_lt hlt, hheld⟩
  | begin hst => exact ⟨fun _ => h.holds (by rw [hst]; decide), h.numbered, h.published⟩
  | message hst => exact h.message (by rw [hst]; decide) hclean
  | endRound hst => exact h.endRound (by rw [hst]; decide) _ _
  | stop hst => exact h.abandon

theorem booked_of_reachable (hs : (flowSystem decode).ReachableUnder (Unrefused decode) s) : Booked s := by
  refine hs.invariant (fun s h => ?_) (fun s e s' h hclean hstep => h.step hclean hstep)
  obtain ⟨hlog, -, hdown⟩ := h
  refine ⟨fun hst => absurd hdown hst, fun m n emits hran => ?_, fun n held ok hconf => ?_⟩
  · rw [hlog] at hran
    cases hran
  · rw [hlog] at hconf
    cases hconf

def Unsent (log : List Act) : Prop :=
  ∀ m, .dlq m true ∈ log → ∀ m' n emits, m'.seq = m.seq → .ran m' n emits ∈ log → emits = [] ∨ .abandon n ∈ log

def Act.silent : Act → Bool
  | .ran .. => false
  | .dlq _ ok => !ok
  | _ => true

omit [External] in
theorem Unsent.quiet {log : List Act} (h : Unsent log) (new : List Act) (hnew : ∀ a ∈ new, a.silent = true) :
    Unsent (new ++ log) := by
  intro m hdlq m' n emits hseq hran
  have hdlq' := (List.mem_append.mp hdlq).resolve_left fun hin => Bool.false_ne_true (hnew _ hin)
  have hran' := (List.mem_append.mp hran).resolve_left fun hin => Bool.false_ne_true (hnew _ hin)
  exact (h m hdlq' m' n emits hseq hran').imp_right (List.mem_append_right _)

theorem step_quiet {e : FlowEvent} {s' : Flow} (hstep : s.step decode e = some s')
    (he : ∀ m files limit dlqOk, e ≠ .message m files limit dlqOk) :
    ∃ new, s'.log = new ++ s.log ∧ ∀ a ∈ new, a.silent = true := by
  have hnone : ∀ a ∈ ([] : List Act), a.silent = true := fun _ ha => absurd ha List.not_mem_nil
  cases turns_of_step hstep with
  | start hst => exact ⟨[], rfl, hnone⟩
  | begin hst => exact ⟨[], rfl, hnone⟩
  | message hst => exact absurd rfl (he _ _ _ _)
  | @endRound confirmed acks hst =>
    refine ⟨(if confirmed then s.ackAll acks else []).reverse ++ [.confirm s.batch s.held confirmed], ?_, ?_⟩
    · rw [List.append_assoc]
      rfl
    · intro a ha
      rcases List.mem_append.mp ha with ha | ha
      · obtain ⟨m, -, -, rfl⟩ := mem_acked ha
        rfl
      · rw [List.mem_singleton.mp ha]
        rfl
  | stop hst =>
    refine ⟨[.abandon s.batch], rfl, fun a ha => ?_⟩
    rw [List.mem_singleton.mp ha]
    rfl

omit [External] in
theorem Unsent.deadLetter (h : Unsent s.log) (m : Delivery) (ok : Bool)
    (hgone : ok = true → ∀ m' n emits, m'.seq = m.seq → .ran m' n emits ∈ s.log →
      emits = [] ∨ .abandon n ∈ s.log) : Unsent (s.deadLetter m ok).log := by
  cases ok with
  | false =>
    exact h.quiet [.nak m, .dlq m false] (by
      intro a ha
      rcases List.mem_pair.mp ha with rfl | rfl <;> rfl)
  | true =>
    intro m₀ hdlq m' n emits hseq hran
    have hran' : .ran m' n emits ∈ s.log := ran_mem_of_cons (ran_mem_of_cons hran nofun) nofun
    have hsub : s.log ⊆ (s.deadLetter m true).log := fun a ha => List.mem_cons_of_mem _ (List.mem_cons_of_mem _ ha)
    rcases List.mem_cons.mp hdlq with hack | hdlq
    · cases hack
    · rcases List.mem_cons.mp hdlq with hnew | hdlq
      · cases hnew
        exact (hgone rfl m' n emits hseq hran').imp_right fun hab => hsub hab
      · exact (h m₀ hdlq m' n emits hseq hran').imp_right fun hab => hsub hab

theorem Unsent.message (h : Unsent s.log) (hclean : ¬ RefusedLate decode s m files limit)
    (honce : DecidedOnce decode s (.message m files limit dlqOk)) :
    Unsent (s.message decode m files limit dlqOk).log := by
  rcases message_held decode s m files limit dlqOk with ⟨event, ctx, engine, -, -, hok, heq⟩ |
    ⟨⟨hfails, ⟨engine, heq⟩ | ⟨hquiet, engine, heq⟩ | ⟨hgiven, heq⟩⟩, -⟩ | ⟨-, hlate, -⟩
  · rw [heq]
    intro m₀ hdlq m' n emits hseq hran
    have hdlq' : .dlq m₀ true ∈ s.log := by
      rcases List.mem_cons.mp hdlq with hnew | hdlq
      · cases hnew
      · exact hdlq
    rcases List.mem_cons.mp hran with hnew | hran
    · -- the message has no letter yet
      cases hnew
      exact absurd hdlq' (honce.2 hok m₀ hseq.symm)
    · exact (h m₀ hdlq' m' n emits hseq hran).imp_right (List.mem_cons_of_mem _)
  · rw [heq]
    exact h.quiet [.abandon s.batch] (by
      intro a ha
      rw [List.mem_singleton.mp ha]
      rfl)
  · rw [heq]
    unfold Flow.failed
    split
    next hlast =>
      exact Unsent.deadLetter (s := { s with engine }) h m dlqOk
        fun hdlq => honce.1 hdlq ⟨hfails, hquiet, .inr hlast⟩
    next => exact h
  · rw [heq]
    exact h.deadLetter m dlqOk fun hdlq => honce.1 hdlq hgiven
  · exact absurd hlate hclean

theorem unsent_of_reachable
    (hs : (flowSystem decode).ReachableUnder (fun s e => Unrefused decode s e ∧ DecidedOnce decode s e) s) :
    Unsent s.log := by
  refine hs.invariant (I := fun s => Unsent s.log) (fun s h => ?_) (fun s e s' h hc hstep => ?_)
  · rw [h.1]
    intro m hdlq
    cases hdlq
  · cases e with
    | message m files limit dlqOk =>
      cases turns_of_step hstep with
      | message hst => exact h.message hc.1 hc.2
    | _ =>
      obtain ⟨new, hlog, hquiet⟩ := step_quiet hstep fun _ _ _ _ heq => by cases heq
      rw [hlog]
      exact h.quiet _ hquiet

/-- A failed message leaves the batch as it was exactly if no emit of it was refused after another was
taken. In a run where no message has such a refusal every published batch holds the emits of its
completed runs and nothing else; and if besides no message is both completed and given up, a batch
that was published has no emit of a message that is in the DLQ. -/
theorem failed_message_emits_nothing (decode : Payload → Except String Value) :
    (∀ (s : Flow) (m : Delivery) (files : String → Option String) (limit : List Msg → Nat) (dlqOk : Bool),
      (Fails decode s m files limit → (s.message decode m files limit dlqOk).held = s.held) ↔
        ¬ RefusedLate decode s m files limit) ∧
    (∀ s, (flowSystem decode).ReachableUnder (Unrefused decode) s →
      ∀ n held ok, .confirm n held ok ∈ s.log → held = completed n s.log) ∧
    ∀ s, (flowSystem decode).ReachableUnder (fun s e => Unrefused decode s e ∧ DecidedOnce decode s e) s →
      ∀ m n held ok, .dlq m true ∈ s.log → .confirm n held ok ∈ s.log →
        ∀ m' emits, m'.seq = m.seq → .ran m' n emits ∈ s.log → emits = [] := by
  refine ⟨held_of_failed_iff decode, fun s hs n held ok hconf => ((booked_of_reachable hs).published n held ok hconf).2,
    fun s hs m n held ok hdlq hconf m' emits hseq hran => ?_⟩
  refine (unsent_of_reachable hs m hdlq m' n emits hseq hran).resolve_right fun habandon => ?_
  -- a batch that was abandoned was not published
  have hbooks := accounted_of_reachable (hs.mono fun _ _ _ => trivial)
  have hends := hbooks.once _ hconf _ habandon n (some ok) none rfl rfl
  cases hends

end

def halfFlow : Program :=
  { passFlow with stmts := [.emit (.lit (.string "vx.out")) (.var "event"),
      .emit (.lit (.string "vx.out")) (.lit (.string "nine bytes"))] }

def lastOrder : Delivery := { order with delivered := 5 }

def lastRound (prog : Program) (limit : Nat) : List FlowEvent :=
  [.start prog unstarted.engine, .begin, .message lastOrder (fun _ => none) (fun _ => limit) true, .endRound true 1]

theorem failed_message_emits_nothing_halfFlow :
    ∃ s, Transition.run (@Flow.step ascii nullDecoder) unstarted (lastRound halfFlow 3) = some s ∧
      s.log = [.confirm 1 [] true, .ack lastOrder none, .dlq lastOrder true] ∧ completed 1 s.log = [] ∧
      ∀ m' emits, m'.seq = lastOrder.seq → .ran m' 1 emits ∈ s.log → emits = [] := by
  have hlog : (Transition.run (@Flow.step ascii nullDecoder) unstarted (lastRound halfFlow 3)).map (·.log) =
      some [.confirm 1 [] true, .ack lastOrder none, .dlq lastOrder true] := by
    decide +kernel
  obtain ⟨s, hs, hl⟩ := Option.map_eq_some_iff.mp hlog
  obtain ⟨hone, hruns, hletters⟩ := @failed_message_emits_nothing ascii nullDecoder
  have hmeets : Transition.Meets (fun s e => @Unrefused ascii nullDecoder s e ∧ @DecidedOnce ascii nullDecoder s e)
      (@Flow.step ascii nullDecoder) unstarted (lastRound halfFlow 3) := by
    refine ⟨⟨trivial, trivial⟩, fun s₁ h₁ => ⟨⟨trivial, trivial⟩, fun s₂ h₂ => ⟨⟨?_, ?_, ?_⟩, fun s₃ _ =>
      ⟨⟨trivial, trivial⟩, fun _ _ => trivial⟩⟩⟩⟩
    · cases h₁
      cases h₂
      exact (hone _ _ _ _ true).mp fun _ => by decide +kernel
    · cases h₁
      cases h₂
      exact fun _ _ m' n emits _ hran => by cases hran
    · cases h₁
      cases h₂
      exact fun _ m' _ hdlq => by cases hdlq
  have hinit : (@flowSystem ascii nullDecoder).ReachableUnder
      (fun s e => @Unrefused ascii nullDecoder s e ∧ @DecidedOnce ascii nullDecoder s e) unstarted :=
    .init ⟨rfl, rfl, rfl⟩
  have hreach := Transition.ReachableUnder.run _ hinit hmeets hs
  have hconf : .confirm 1 [] true ∈ s.log := by
    rw [hl]
    exact List.mem_cons_self
  have hdlq : .dlq lastOrder true ∈ s.log := by
    rw [hl]
    decide
  exact ⟨s, hs, hl, (hruns s (hreach.mono fun _ _ hc => hc.1) 1 [] true hconf).symm,
    hletters s hreach lastOrder 1 [] true hdlq hconf⟩

/-- The first of two emits stays held when the second is refused, and the batch that is published
has the emit of a message that is in the DLQ. -/
theorem failed_message_emits_halfFlow :
    (¬ ∀ (s : Flow) (m : Delivery) (files : String → Option String) (limit : List Msg → Nat) (dlqOk : Bool),
      @Fails ascii nullDecoder s m files limit →
        (@Flow.message ascii nullDecoder s m files limit dlqOk).held = s.held) ∧
    ∃ s, Transition.run (@Flow.step ascii nullDecoder) unstarted (lastRound halfFlow 8) = some s ∧
      s.log = [.confirm 1 orderEmits true, .ack lastOrder none, .dlq lastOrder true] := by
  constructor
  · intro h
    -- a message that did not fail would have left nothing in the DLQ
    have hfails : @Fails ascii nullDecoder { unstarted with prog := halfFlow } lastOrder (fun _ => none) (fun _ => 8) := by
      rcases @message_held ascii nullDecoder { unstarted with prog := halfFlow } lastOrder (fun _ => none)
          (fun _ => 8) true with ⟨event, ctx, engine, -, -, -, heq⟩ | ⟨⟨hfails, -⟩, -⟩ | ⟨hfails, -⟩
      · have hlog := congrArg Flow.log heq
        have hdlq : (@Flow.message ascii nullDecoder { unstarted with prog := halfFlow } lastOrder (fun _ => none)
            (fun _ => 8) true).log = [.ack lastOrder none, .dlq lastOrder true] := by decide +kernel
        rw [hdlq] at hlog
        cases hlog
      · exact hfails
      · exact hfails
    have hheld : (@Flow.message ascii nullDecoder { unstarted with prog := halfFlow } lastOrder (fun _ => none)
        (fun _ => 8) true).held = orderEmits := by decide +kernel
    have hsame := h _ _ _ _ true hfails
    rw [hheld] at hsame
    cases hsame
  · have hlog : (Transition.run (@Flow.step ascii nullDecoder) unstarted (lastRound halfFlow 8)).map (·.log) =
        some [.confirm 1 orderEmits true, .ack lastOrder none, .dlq lastOrder true] := by
      decide +kernel
    exact Option.map_eq_some_iff.mp hlog

end Vejas.Runtime
