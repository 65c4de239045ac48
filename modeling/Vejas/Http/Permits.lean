import Vejas.Http.Routes

/-! The gates of all the doors together: a request or a tool call does only what they let through. -/

namespace Vejas.Http
open Json Rust Vjs Governance Fallible
open Vejas.Runtime.Canaries (planOf)

variable {σ δ α β : Type} {R : Estate σ δ → Estate σ δ → Prop} {A : Effect → Prop}

def Moves (R : Estate σ δ → Estate σ δ → Prop) (m : Reach σ δ α) : Prop := ∀ e, R e (m e).2

/-- What the gates let through may move along `R`, the world by effects of `A`; `approved` is whether
the human's credential came along. -/
structure Permits [External] [Server δ] (cfg : Settings) (works : Works σ δ) (approved : Bool) (A : Effect → Prop)
    (R : Estate σ δ → Estate σ δ → Prop) : Prop where
  refl : ∀ e, R e e
  trans : ∀ {e e' e''}, R e e' → R e' e'' → R e e''
  world : ∀ e i, Relation.ReflTransGen (Takes A) e.world i.world → R e (e.settle i)
  routine : Routine cfg.subjRoot A
  queues : Queues A
  promotes : works.requireApproval = false → ∀ key value, A (.put .versions key value)
  writes : works.requireApproval = false → cfg.clustered = false → ∀ path text, A (.write path text)
  decides : approved = true → Decides A cfg.clustered
  setSecret : works.requireApproval = false → (cfg.clustered && !works.sharedSecrets) = false → ∀ r v, Moves R (works.setSecret r v)
  provision : works.requireApproval = false → cfg.clustered = false → ∀ t s ps f, Moves R (works.provision t s ps f)
  generateFlow : works.requireApproval = false → cfg.clustered = false → ∀ p, Moves R (works.generateFlow p)
  generateConnector : works.requireApproval = false → cfg.clustered = false → ∀ p, Moves R (works.generateConnector p)
  rollback : works.requireApproval = false → cfg.clustered = false → ∀ f n k a, Moves R (works.rollbackLiteral f n k a)
  golden : works.requireApproval = false → cfg.clustered = false → ∀ f n, Moves R (works.goldenFromEvent f n)
  dlqReplay : works.requireApproval = false ∨ approved = true → ∀ n u a, Moves R (works.dlqReplay n u a)
  dlqPurge : works.requireApproval = false ∨ approved = true → ∀ n u a, Moves R (works.dlqPurge n u a)
  probe : ∀ file, Moves R (works.probeConnector file)
  reload : Moves R works.reload
  sapRpc : ∀ op, Moves R (works.sapRpcRequest op)

section
variable [External] [Server δ] {cfg : Settings} {works : Works σ δ} {approved : Bool}

theorem Permits.closed (h : Permits cfg works approved A R) : Closed (fun {α} (m : Reach σ δ α) => Moves R m) where
  reads _ e := h.refl e
  bind {α β m f} hm hf e := by
    have he := hm e
    rcases hme : m e with ⟨_ | a, e'⟩
    · rw [bind_error hme]
      rwa [hme] at he
    · rw [bind_ok hme]
      rw [hme] at he
      exact h.trans he (hf a e')

omit [External] [Server δ] in
theorem moves_told {m : Reach σ δ α} (hm : Moves R m) : Moves R (told m) := by
  intro e
  have he := hm e
  unfold told
  split <;> simp_all

/-- Where the outcome of a computation decides how it goes on. -/
theorem Permits.told (h : Permits cfg works approved A R) {m : Reach σ δ α} {f : Except String α → Reach σ δ β} (hm : Moves R m)
    (hok : ∀ a, Moves R (f (.ok a))) (herr : ∀ e, Moves R (f (.error e))) : Moves R (Http.told m >>= f) := by
  refine h.closed.bind (moves_told hm) fun r => ?_
  cases r with
  | ok a => exact hok a
  | error e => exact herr e

theorem Permits.onEstate (h : Permits cfg works approved A R) {m : Fallible Fault Instance α} (hm : OnlyTakesIn A m) :
    Moves R (onEstate m) := fun e => h.world e _ (hm ⟨e.seq, e.world⟩)

theorem Permits.inWorld (h : Permits cfg works approved A R) {m : Gov α} (hm : OnlyTakes A m) : Moves R (inWorld m) :=
  h.onEstate (onlyTakesIn_onWorld hm)

theorem Permits.need (h : Permits cfg works approved A R) (args : Value) (key : String) : Moves R (need args key : Reach σ δ String) :=
  h.inWorld (onlyTakes_required _ _ _)

theorem Permits.approvalGate (h : Permits cfg works approved A R) {f : Unit → Reach σ δ α}
    (hf : works.requireApproval = false → Moves R (f ())) : Moves R (approvalGate works >>= f) := by
  unfold Http.approvalGate
  cases hreq : works.requireApproval with
  | true => exact fun e => h.refl e
  | false => exact hf hreq

theorem Permits.clusterWriteGuard (h : Permits cfg works approved A R) {f : Unit → Reach σ δ α}
    (hf : cfg.clustered = false → Moves R (f ())) : Moves R (clusterWriteGuard cfg >>= f) := by
  unfold Http.clusterWriteGuard
  cases hloc : cfg.clustered with
  | true => exact fun e => h.refl e
  | false => exact hf hloc

theorem Permits.secretsGuard (h : Permits cfg works approved A R) {f : Unit → Reach σ δ α}
    (hf : (cfg.clustered && !works.sharedSecrets) = false → Moves R (f ())) : Moves R (secretsGuard cfg works >>= f) := by
  unfold Http.secretsGuard
  cases hsec : cfg.clustered && !works.sharedSecrets with
  | true => exact fun e => h.refl e
  | false => exact hf hsec

theorem Permits.dlqAgentGate (h : Permits cfg works approved A R) {f : Unit → Reach σ δ α}
    (hf : works.requireApproval = false → Moves R (f ())) : Moves R (dlqAgentGate works >>= f) := by
  unfold Http.dlqAgentGate
  cases hreq : works.requireApproval with
  | true => exact fun e => h.refl e
  | false => exact hf hreq

theorem Permits.localGates (h : Permits cfg works approved A R) {m : Reach σ δ α}
    (hm : works.requireApproval = false → cfg.clustered = false → Moves R m) :
    Moves R (do
      Http.approvalGate works
      Http.clusterWriteGuard cfg
      m) := h.approvalGate fun hreq => h.clusterWriteGuard fun hloc => hm hreq hloc

theorem onlyTakes_shadowEmits (site : Site) (pkg : String) (prog : Program) (event : Value) :
    OnlyTakes A (shadowEmits cfg site pkg prog event) := by
  have hro : ReadOnly (shadowEmits cfg site pkg prog event) := by
    refine closed_readOnly.bind (readOnly_caught (closed_readOnly.reads _)) fun result => ?_
    cases result with
    | ok ctx => exact closed_readOnly.pure _
    | error e => exact closed_readOnly.pure _
  exact onlyTakes_of_leaves hro

theorem onlyTakes_replayLiteral (site : Site) (traffic : Traffic) (file name key : String) (value : Value) (n : Nat) :
    OnlyTakes A (replayLiteral cfg site traffic file name key value n) := by
  have hc := closed_onlyTakes A
  have hrows : ∀ pkg before after entries, OnlyTakes A (replayRows cfg site pkg before after entries) := by
    intro pkg before after entries
    induction entries with
    | nil => exact hc.pure _
    | cons entry entries ih =>
      unfold replayRows
      split
      · exact ih
      · refine hc.bind (onlyTakes_shadowEmits site pkg before _) fun b => ?_
        refine hc.bind (onlyTakes_shadowEmits site pkg after _) fun a => ?_
        exact hc.bind ih fun _ => hc.pure _
  have hsources : OnlyTakes A (replaySources cfg file name key value) := by
    refine hc.bind (onlyTakes_guarded cfg file) fun path => ?_
    refine hc.bind (hc.reads _) fun src => ?_
    exact hc.bind (hc.reads _) fun patched => hc.pure _
  refine hc.bind hsources fun sources => ?_
  refine hc.bind (hc.reads _) fun before => ?_
  refine hc.bind (hc.reads _) fun after => ?_
  exact hc.bind (hrows _ _ _ _) fun _ => hc.pure _

omit [Server δ] in
theorem onlyTakes_timeTravel (h : Routine cfg.subjRoot A) (surface : Surface) (fates : Fates) (file candidateSrc : String) (n : Nat) :
    OnlyTakes A (timeTravel cfg works surface fates file candidateSrc n) := by
  have hc := closed_onlyTakes A
  have hrows : ∀ pkg current candidate rows, OnlyTakes A (travelRows cfg surface.site pkg current candidate rows) := by
    intro pkg current candidate rows
    induction rows with
    | nil => exact hc.pure _
    | cons row rows ih =>
      refine hc.bind (onlyTakes_shadowEmits _ pkg current _) fun b => ?_
      refine hc.bind (onlyTakes_shadowEmits _ pkg candidate _) fun a => ?_
      exact hc.bind ih fun _ => hc.pure _
  refine hc.bind (onlyTakes_guarded cfg file) fun path => ?_
  refine hc.bind (hc.reads _) fun baseline => ?_
  refine hc.bind (onlyTakes_connect fates) fun _ => ?_
  refine hc.bind (onlyTakes_resolveSource h _ fates _ _) fun r => ?_
  refine hc.bind (hc.reads _) fun current => ?_
  refine hc.bind (hc.reads _) fun candidate => ?_
  have hsubject : OnlyTakes A (sourceSubject current) := by
    unfold sourceSubject
    cases current.source with
    | none => exact hc.throw _
    | some subject => exact hc.pure _
  refine hc.bind hsubject fun subject => ?_
  refine hc.bind (hc.reads _) fun rows => ?_
  exact hc.bind (hrows _ _ _ _) fun _ => hc.pure _

omit [Server δ] in
theorem onlyTakes_canaryStart (h : Routine cfg.subjRoot A) (fates : Fates) (file candidateSrc : String) :
    OnlyTakes A (canaryStart cfg works fates file candidateSrc) := by
  have hc := closed_onlyTakes A
  have hplan : OnlyTakes A (planOf cfg fates file candidateSrc) := by
    refine hc.bind (onlyTakes_guarded cfg file) fun path => ?_
    refine hc.bind (hc.reads _) fun baseline => ?_
    refine hc.bind (onlyTakes_connect fates) fun _ => ?_
    refine hc.bind (onlyTakes_resolveSource h _ fates _ _) fun r => ?_
    refine hc.bind (hc.reads _) fun current => ?_
    refine hc.bind (hc.reads _) fun candidate => ?_
    cases current.source with
    | none => exact hc.throw _
    | some subject => exact hc.pure _
  refine hc.bind hplan fun plan => ?_
  exact hc.bind (hc.reads _) fun _ => hc.pure _

omit [External] [Server δ] in
theorem onlyTakes_canaryStop (file : String) : OnlyTakes A (canaryStop cfg works file) :=
  (closed_onlyTakes A).bind (onlyTakes_guarded cfg file) fun _ => (closed_onlyTakes A).pure _

theorem onlyTakes_runFlowOnInput (site : Site) (file : String) (input : Value) :
    OnlyTakes A (runFlowOnInput cfg site file input) := by
  have hc := closed_onlyTakes A
  refine hc.bind (onlyTakes_guarded cfg file) fun path => ?_
  refine hc.bind (hc.reads _) fun src => ?_
  refine hc.bind (hc.reads _) fun prog => ?_
  exact hc.bind (hc.reads _) fun ctx => hc.pure _

theorem onlyTakes_flowAsTool (surface : Surface) (name : String) (args : Value) :
    OnlyTakes A (flowAsTool cfg surface name args) := by
  have hc := closed_onlyTakes A
  refine hc.bind (onlyTakes_of_leaves (readOnly_scan _ _)) fun flows => ?_
  cases flows.find? (·.1 == name) with
  | none => exact hc.throw _
  | some flow => exact hc.bind (onlyTakes_runFlowOnInput _ _ _) fun _ => hc.pure _

theorem onlyTakes_rendered {m : Gov Value} (h : OnlyTakes A m) : OnlyTakes A (rendered m) :=
  (closed_onlyTakes A).bind h fun _ => (closed_onlyTakes A).pure _

theorem Permits.shown (h : Permits cfg works approved A R) {m : Gov String} (hm : OnlyTakes A m) :
    Moves R (shown m : Reach σ δ Value) := h.closed.bind (h.inWorld hm) fun _ => h.closed.pure _

theorem Permits.fileTool (h : Permits cfg works approved A R) (args : Value) {look : String → Gov String}
    (hlook : ∀ file, OnlyTakes A (look file)) : Moves R (fileTool args look : Reach σ δ Value) :=
  h.closed.bind (h.need args _) fun file => h.closed.bind (h.inWorld (hlook file)) fun _ => h.closed.pure _

theorem Permits.writeFlow (h : Permits cfg works approved A R) (surface : Surface) (t : Turn) (args : Value) :
    Moves R (writeFlow cfg works surface t args) := by
  refine h.localGates fun hreq hloc => ?_
  have hc := h.closed
  have hg := closed_onlyTakes A
  refine hc.bind (h.need args _) fun p => ?_
  refine hc.bind (h.need args _) fun content => ?_
  refine hc.bind (h.inWorld (onlyTakes_guarded cfg p)) fun path => ?_
  refine hc.bind (h.inWorld ?_) fun _ => ?_
  · unfold checkText
    split
    · exact hg.bind (hg.reads _) fun _ => hg.pure _
    · split
      · split
        · exact hg.pure _
        · exact hg.throw _
      · exact hg.throw _
  · refine hc.bind (h.inWorld (onlyTakes_perform (h.writes hreq hloc path content) _)) fun _ => ?_
    exact hc.bind h.reload fun n => hc.pure _

theorem Permits.setLiteralTool (h : Permits cfg works approved A R) (t : Turn) (args : Value) :
    Moves R (setLiteralTool cfg works t args) := by
  refine h.approvalGate fun hreq => ?_
  have hc := h.closed
  have hg := closed_onlyTakes A
  refine hc.bind (h.need args _) fun file => ?_
  refine hc.bind (h.need args _) fun name => ?_
  dsimp only
  split
  · exact hc.bind (h.inWorld (onlyTakes_promoteVersion h.routine (h.promotes hreq) _ _ _ _ _ _)) fun _ => hc.pure _
  next hlocal =>
    refine hc.bind (h.inWorld (onlyTakes_guarded cfg file)) fun path => ?_
    refine hc.bind (h.inWorld ?_) fun _ => ?_
    · refine hg.bind (hg.reads _) fun src => ?_
      refine hg.bind (onlyTakes_rewrite h.routine _ _ _ _) fun newSrc => ?_
      refine hg.bind (onlyTakes_perform (h.writes hreq (Bool.eq_false_iff.mpr hlocal) path newSrc) _) fun _ => ?_
      exact onlyTakes_recordPromote h.routine _ _ _ _ _ _ _
    · exact hc.bind h.reload fun _ => hc.pure _

theorem Permits.rollbackTool (h : Permits cfg works approved A R) (args : Value) : Moves R (rollbackTool cfg works args) := by
  refine h.localGates fun hreq hloc => ?_
  have hc := h.closed
  refine hc.bind (h.need args _) fun file => ?_
  refine hc.bind (h.need args _) fun name => ?_
  refine hc.bind (h.rollback hreq hloc _ _ _ _) fun out => ?_
  exact hc.bind h.reload fun _ => hc.pure _

theorem Permits.generateTool (h : Permits cfg works approved A R) {generate : String → Reach σ δ String}
    (hgen : works.requireApproval = false → cfg.clustered = false → ∀ p, Moves R (generate p)) (args : Value) :
    Moves R (generateTool cfg works generate args) := by
  refine h.localGates fun hreq hloc => ?_
  have hc := h.closed
  refine hc.bind (h.need args _) fun prompt => ?_
  refine hc.bind (hgen hreq hloc prompt) fun res => ?_
  exact hc.bind h.reload fun _ => hc.pure _

theorem Permits.setSecretTool (h : Permits cfg works approved A R) (args : Value) : Moves R (setSecretTool cfg works args) := by
  refine h.approvalGate fun hreq => h.secretsGuard fun hsec => ?_
  have hc := h.closed
  refine hc.bind (h.need args _) fun r => ?_
  refine hc.bind (h.need args _) fun v => ?_
  split
  · exact hc.throw _
  · exact hc.bind (h.setSecret hreq hsec r v) fun _ => hc.pure _

theorem Permits.provisionTool (h : Permits cfg works approved A R) (args : Value) : Moves R (provisionTool cfg works args) := by
  refine h.localGates fun hreq hloc => ?_
  have hc := h.closed
  refine hc.bind (h.need args _) fun template => ?_
  refine hc.bind (h.need args _) fun slug => ?_
  exact hc.bind (h.provision hreq hloc _ _ _ _) fun _ => hc.pure _

theorem Permits.dlqTool (h : Permits cfg works approved A R) {act : Option Nat → Option String → String → Reach σ δ Value}
    (hact : works.requireApproval = false → ∀ n u a, Moves R (act n u a)) (args : Value) : Moves R (dlqTool works act args) :=
  h.dlqAgentGate fun hreq => h.closed.bind (hact hreq _ _ _) fun _ => h.closed.pure _

theorem Permits.proposeTool (h : Permits cfg works approved A R) (t : Turn) (args : Value) : Moves R (proposeTool cfg t args) := by
  refine h.closed.bind (h.need args _) fun kind => ?_
  exact h.closed.bind (h.onEstate (onlyTakes_submitProposal h.routine h.queues _ _ _ _ _ _ _)) fun _ => h.closed.pure _

theorem Permits.proposalsTool (h : Permits cfg works approved A R) (t : Turn) : Moves R (proposalsTool cfg t : Reach σ δ Value) :=
  h.closed.bind (h.inWorld (onlyTakes_reconcileAndList h.routine h.queues _ _ _)) fun _ => h.closed.pure _

theorem Permits.vplTool (h : Permits cfg works approved A R) (args : Value) : Moves R (vplTool cfg works args) := by
  have hc := h.closed
  refine hc.bind (h.need args _) fun file => ?_
  refine hc.bind (h.inWorld ((closed_onlyTakes A).reads _)) fun src => ?_
  cases works.vplCheck src with
  | ok u => exact hc.pure _
  | error e => exact hc.pure _

theorem Permits.mcpCall (h : Permits cfg works approved A R) (surface : Surface) (t : Turn) (name : String) (args : Value) :
    Moves R (mcpCall cfg works surface t name args) := by
  have hc := h.closed
  have hg := closed_onlyTakes A
  have hscans : ∀ {m : Gov Value}, ReadOnly m → Moves R (Http.shown (rendered m) : Reach σ δ Value) :=
    fun hm => h.shown (onlyTakes_rendered (onlyTakes_of_leaves hm))
  unfold Http.mcpCall
  split
  · exact h.shown (hg.pure _)
  · exact hscans (readOnly_scans _ _ _ _ _)
  · exact hscans (readOnly_scans _ _ _ _ _)
  · exact hc.bind (h.need args _) fun p => h.shown (hg.bind (onlyTakes_guarded cfg p) fun _ => hg.reads _)
  · exact h.shown (hg.pure _)
  · exact h.vplTool args
  · exact h.shown (hg.pure _)
  · exact h.writeFlow surface t args
  · exact h.setLiteralTool t args
  · exact h.rollbackTool args
  · refine hc.bind (h.need args _) fun file => ?_
    exact hc.bind (h.need args _) fun name => h.shown (onlyTakes_rendered (onlyTakes_replayLiteral _ _ _ _ _ _ _))
  · refine hc.bind (h.need args _) fun file => ?_
    exact hc.bind (h.need args _) fun candidate => h.shown (onlyTakes_rendered (onlyTakes_timeTravel h.routine _ _ _ _ _))
  · refine hc.bind (h.need args _) fun file => ?_
    exact hc.bind (h.need args _) fun candidate => h.shown (onlyTakes_rendered (onlyTakes_canaryStart h.routine _ _ _))
  · exact h.fileTool args fun file => onlyTakes_rendered (onlyTakes_of_leaves (readOnly_canaryRead _ _ file))
  · exact h.fileTool args fun file => onlyTakes_rendered (onlyTakes_canaryStop file)
  · exact h.proposeTool t args
  · exact h.proposalsTool t
  · exact h.fileTool args fun file => onlyTakes_of_leaves (readOnly_previewJson _ _ file)
  · exact h.fileTool args fun file => hg.bind (onlyTakes_runFlowOnInput _ _ _) fun _ => hg.pure _
  · exact h.generateTool h.generateFlow args
  · exact h.generateTool h.generateConnector args
  · exact hc.bind h.reload fun n => hc.pure _
  · exact h.shown (hg.pure _)
  · exact hscans (readOnly_scans _ _ _ _ _)
  · exact h.setSecretTool args
  · exact hc.bind (h.need args _) fun file => hc.bind (h.probe file) fun out => hc.pure _
  · exact h.provisionTool args
  · exact hc.bind (h.sapRpc _) fun out => hc.pure _
  · exact hc.bind (h.need args _) fun func => hc.bind (h.sapRpc _) fun out => hc.pure _
  · exact hc.bind (h.need args _) fun func => hc.bind (h.sapRpc _) fun out => hc.pure _
  · exact hc.bind (h.sapRpc _) fun out => hc.pure _
  · exact h.shown (onlyTakes_rendered (hg.reads _))
  · exact h.dlqTool (fun hreq => h.dlqReplay (.inl hreq)) args
  · exact h.dlqTool (fun hreq => h.dlqPurge (.inl hreq)) args
  · exact h.shown (onlyTakes_flowAsTool surface _ args)

theorem Permits.mcpDispatch (h : Permits cfg works approved A R) (surface : Surface) (t : Turn) (req : Value) :
    Moves R (mcpDispatch cfg works surface t req) := by
  have hc := h.closed
  unfold Http.mcpDispatch
  dsimp only
  split
  · exact hc.pure _
  · exact hc.pure _
  · exact hc.pure _
  · exact hc.pure _
  · refine hc.bind (h.inWorld ?_) fun tools => hc.pure _
    exact (closed_onlyTakes A).bind (onlyTakes_of_leaves (readOnly_scan _ _)) fun _ => (closed_onlyTakes A).pure _
  · exact h.told (h.mcpCall surface t _ _) (fun _ => hc.pure _) fun _ => hc.pure _
  · exact hc.pure _

theorem Permits.serveMcp (h : Permits cfg works approved A R) (surface : Surface) (turn : Nat → Turn) (body : Value) :
    Moves R (serveMcp cfg works surface turn body) := by
  have hc := h.closed
  have hbatch : ∀ reqs n, Moves R (mcpBatch cfg works surface turn n reqs) := by
    intro reqs
    induction reqs with
    | nil => exact fun n => hc.pure _
    | cons req reqs ih => exact fun n => hc.bind (h.mcpDispatch surface _ req) fun _ => hc.bind (ih (n + 1)) fun _ => hc.pure _
  unfold Http.serveMcp
  split
  · exact hc.bind (hbatch _ 0) fun _ => hc.pure _
  · refine hc.bind (h.mcpDispatch surface _ _) fun reply => ?_
    cases reply with
    | none => exact hc.pure _
    | some reply => exact hc.pure _

theorem Permits.gated (h : Permits cfg works approved A R) {gate : Reach σ δ Unit} {rest : Reach σ δ Response}
    (hgate : Moves R gate) (hrest : Moves R rest) : Moves R (gated gate rest) :=
  h.told hgate (fun _ => hrest) fun _ => h.closed.pure _

theorem Permits.gatedBy (h : Permits cfg works approved A R) {closed : Bool} {msg : String} {rest : Reach σ δ Response}
    (hrest : closed = false → Moves R rest) : Moves R (Http.gated (if closed then refuse msg else pure ()) rest) := by
  cases closed with
  | true => exact fun e => h.refl e
  | false => exact h.gated (h.closed.pure _) (hrest rfl)

theorem Permits.gatedLocal (h : Permits cfg works approved A R) {rest : Reach σ δ Response}
    (hrest : works.requireApproval = false → cfg.clustered = false → Moves R rest) : Moves R (gatedLocal cfg works rest) :=
  h.gatedBy fun hreq => h.gatedBy fun hloc => hrest hreq hloc

theorem Permits.replied (h : Permits cfg works approved A R) (failure : Nat) {m : Reach σ δ String} (hm : Moves R m) :
    Moves R (replied failure m) :=
  h.told hm (fun _ => h.closed.pure _) fun _ => h.closed.pure _

theorem Permits.rendering (h : Permits cfg works approved A R) {m : Reach σ δ Value} (hm : Moves R m) : Moves R (rendering m) :=
  h.closed.bind hm fun _ => h.closed.pure _

theorem Permits.withGuarded (h : Permits cfg works approved A R) (rel : String) {rest : String → Reach σ δ Response}
    (hrest : ∀ path, Moves R (rest path)) : Moves R (withGuarded cfg rel rest) :=
  h.told (h.inWorld (onlyTakes_guarded cfg rel)) hrest fun _ => h.closed.pure _

theorem Permits.serveDlqAct {r : Request} (h : Permits cfg works (approvalAuthorized cfg r) A R)
    {act : Option Nat → Option String → String → Reach σ δ Value}
    (hact : works.requireApproval = false ∨ approvalAuthorized cfg r = true → ∀ n u a, Moves R (act n u a)) :
    Moves R (serveDlqAct cfg works r act) := by
  unfold Http.serveDlqAct dlqGated
  split
  next hopen =>
    rw [Bool.or_eq_true, Bool.not_eq_true'] at hopen
    exact h.replied _ (h.rendering (hact hopen _ _ _))
  next =>
    split
    · exact h.closed.pure _
    · exact h.closed.pure _

theorem Permits.serveSetSecret (h : Permits cfg works approved A R) (body : Value) : Moves R (serveSetSecret cfg works body) := by
  refine h.gatedBy fun hreq => h.gatedBy fun hsec => ?_
  split
  · split
    · exact h.closed.pure _
    · exact h.replied _ (h.closed.bind (h.setSecret hreq hsec _ _) fun _ => h.closed.pure _)
  · exact h.closed.pure _

theorem Permits.serveProvision (h : Permits cfg works approved A R) (body : Value) : Moves R (serveProvision cfg works body) := by
  refine h.gatedLocal fun hreq hloc => ?_
  split
  · exact h.replied _ (h.rendering (h.provision hreq hloc _ _ _ _))
  · exact h.closed.pure _

theorem Permits.serveFileSet (h : Permits cfg works approved A R) (t : Turn) (body : Value) :
    Moves R (serveFileSet cfg works t body) := by
  refine h.gatedLocal fun hreq hloc => ?_
  have hc := h.closed
  split
  · refine h.withGuarded _ fun path => ?_
    refine h.told (h.inWorld ((closed_onlyTakes A).reads _)) (fun checked => ?_) fun _ => hc.pure _
    refine h.told (h.inWorld (onlyTakes_perform (h.writes hreq hloc _ _) _)) (fun written => ?_) fun _ => hc.pure _
    exact hc.bind h.reload fun n => hc.pure _
  · exact hc.pure _

theorem Permits.serveFixtureSet (h : Permits cfg works approved A R) (t : Turn) (body : Value) :
    Moves R (serveFixtureSet cfg works t body) := by
  refine h.gatedLocal fun hreq hloc => ?_
  have hc := h.closed
  split
  · refine h.withGuarded _ fun path => ?_
    split
    · exact hc.pure _
    · exact h.told (h.inWorld (onlyTakes_perform (h.writes hreq hloc _ _) _)) (fun _ => hc.pure _) fun _ => hc.pure _
  · exact hc.pure _

theorem Permits.serveSurfaceSet (h : Permits cfg works approved A R) (t : Turn) (r : Request) (body : Value) :
    Moves R (serveSurfaceSet cfg works t r body) := by
  refine h.gatedBy fun hreq => ?_
  have hc := h.closed
  dsimp only
  split
  · exact h.replied _ (h.inWorld (onlyTakes_rendered (onlyTakes_promoteVersion h.routine (h.promotes hreq) _ _ _ _ _ _)))
  next hlocal =>
    refine h.withGuarded _ fun path => ?_
    refine h.told (h.inWorld ((closed_onlyTakes A).reads _)) (fun src => ?_) fun _ => hc.pure _
    refine h.told (h.inWorld (onlyTakes_rewrite h.routine _ _ _ _)) (fun newSrc => ?_) fun _ => hc.pure _
    have hwrite := h.writes hreq (Bool.eq_false_iff.mpr hlocal) path newSrc
    refine h.told (h.inWorld (onlyTakes_perform hwrite _)) (fun written => ?_) fun _ => hc.pure _
    refine hc.bind (h.inWorld (onlyTakes_recordPromote h.routine _ _ _ _ _ _ _)) fun _ => ?_
    exact hc.bind h.reload fun _ => hc.pure _

theorem Permits.serveRollback (h : Permits cfg works approved A R) (r : Request) (body : Value) :
    Moves R (serveRollback cfg works r body) := by
  refine h.gatedLocal fun hreq hloc => h.replied _ ?_
  refine h.closed.bind (h.rollback hreq hloc _ _ _ _) fun out => ?_
  exact h.closed.bind h.reload fun _ => h.closed.pure _

theorem Permits.serveGenerate (h : Permits cfg works approved A R) {generate : String → Reach σ δ String}
    (hgen : works.requireApproval = false → cfg.clustered = false → ∀ p, Moves R (generate p)) (body : Value) :
    Moves R (serveGenerate cfg works generate body) := by
  refine h.gatedLocal fun hreq hloc => ?_
  dsimp only
  split
  · exact h.closed.pure _
  · refine h.replied _ (h.closed.bind (hgen hreq hloc _) fun out => ?_)
    exact h.closed.bind h.reload fun _ => h.closed.pure _

theorem Permits.servePost {r : Request} (h : Permits cfg works (approvalAuthorized cfg r) A R) (surface : Surface)
    (turn : Nat → Turn) : Moves R (servePost cfg works surface turn r) := by
  have hc := h.closed
  unfold Http.servePost
  dsimp only
  split
  · exact h.gatedLocal fun hreq hloc => h.replied _ (h.rendering (h.golden hreq hloc _ _))
  · exact h.serveDlqAct h.dlqReplay
  · exact h.serveDlqAct h.dlqPurge
  · exact h.serveSetSecret _
  · unfold serveProbe
    split
    · exact hc.bind (h.probe _) fun verdict => hc.pure _
    · exact hc.pure _
  · exact h.serveProvision _
  · exact h.serveFileSet _ _
  · exact h.serveFixtureSet _ _
  · exact h.replied _ (h.inWorld (onlyTakes_rendered (onlyTakes_replayLiteral _ _ _ _ _ _ _)))
  · exact h.replied _ (h.inWorld (onlyTakes_rendered (onlyTakes_timeTravel h.routine _ _ _ _ _)))
  · refine h.told (h.inWorld (onlyTakes_rendered (onlyTakes_canaryStart h.routine _ _ _))) (fun _ => ?_) fun _ => ?_
    · exact hc.pure _
    · exact hc.pure _
  · exact h.replied _ (h.inWorld (onlyTakes_rendered (onlyTakes_canaryStop _)))
  · exact h.serveSurfaceSet _ _ _
  · exact h.serveRollback _ _
  · exact h.serveGenerate h.generateFlow _
  · exact h.serveGenerate h.generateConnector _
  · exact hc.bind h.reload fun n => hc.pure _
  · exact h.serveMcp surface turn _
  · exact hc.pure _

omit [External] in
theorem onlyTakes_answer (failure : Nat) {m : Gov String} (h : OnlyTakes A m) : OnlyTakes A (answer failure m) := by
  intro w
  rw [answer_state]
  exact h w

theorem onlyTakes_page (failure : Nat) {m : Gov Value} (h : OnlyTakes A m) : OnlyTakes A (page failure m) :=
  onlyTakes_answer failure (onlyTakes_rendered h)

omit [External] in
theorem takes_after_look {m : Gov α} {f : α → Gov β} {w : World} (hm : ReadOnly m)
    (hf : ∀ a, m w = (.ok a, w) → Relation.ReflTransGen (Takes A) w (f a w).2) : Relation.ReflTransGen (Takes A) w ((m >>= f) w).2 := by
  obtain ⟨r, hr⟩ := hm.run w
  cases r with
  | error e => rw [bind_error hr]
  | ok a =>
    rw [bind_ok hr]
    exact hf a hr

theorem onlyTakes_publishEmits (fates : Fates) (sent : Nat → Fate) {emits : List Emit}
    (h : ∀ m ∈ emits, ∀ payload, A (.publish m.1 payload)) : OnlyTakes A (publishEmits fates sent emits) := by
  have hc := closed_onlyTakes A
  have heach : ∀ n, OnlyTakes A (publishEach sent n emits) := by
    induction emits with
    | nil => exact fun n => hc.pure _
    | cons m emits ih =>
      have hrest := ih fun m' hm' => h m' (List.mem_cons_of_mem m hm')
      have hone := h m List.mem_cons_self
      exact fun n => hc.bind (onlyTakes_ignore (onlyTakes_perform (hone _) _)) fun _ => hrest (n + 1)
  unfold publishEmits
  split
  · exact hc.pure _
  · exact onlyTakes_ignore (hc.bind (onlyTakes_connect _) fun _ => heach 0)

theorem takes_runApiFlow {site : Site} {file : String} {input : Value} {w : World} (fates : Fates) (sent : Nat → Fate)
    (h : ∀ ctx, runFlowCtx cfg site file input w = (.ok ctx, w) → ∀ m ∈ ctx.emits, ∀ payload, A (.publish m.1 payload)) :
    Relation.ReflTransGen (Takes A) w (runApiFlow cfg site fates sent file input w).2 := by
  have hc := closed_onlyTakes A
  refine takes_after_look (readOnly_caught (readOnly_runFlowCtx _ _ _ _)) fun result hrun => ?_
  cases result with
  | error e => exact .refl
  | ok ctx =>
    refine hc.bind (onlyTakes_publishEmits _ _ (h ctx (caught_ok hrun))) (fun _ => ?_) w
    cases ctx.response with
    | none => exact hc.pure _
    | some response => exact hc.pure _

theorem takes_serveApi {site : Site} {w : World} (env : Answers) (r : Request) (rel : String)
    (h : ∀ file input ctx, runFlowCtx cfg site file input w = (.ok ctx, w) → ∀ m ∈ ctx.emits, ∀ payload, A (.publish m.1 payload)) :
    Relation.ReflTransGen (Takes A) w (serveApi cfg site env r rel w).2 := by
  refine takes_after_look (readOnly_matchApiRoute _ _ _ _) fun route _ => ?_
  cases route with
  | none => exact .refl
  | some route =>
    have hrefused : ReadOnly (apiRefused cfg r route.1) := by
      unfold apiRefused
      split
      · exact closed_readOnly.pure _
      · split
        · exact closed_readOnly.pure _
        · exact closed_readOnly.bind (readOnly_flowWritesBus _ _) fun _ => closed_readOnly.pure _
    refine takes_after_look hrefused fun refused _ => ?_
    cases refused with
    | true => exact .refl
    | false =>
      have hflow := takes_runApiFlow env.own env.sent (h route.1 (apiEvent r route.2))
      rwa [← bind_state (fun _ => closed_readOnly.pure _) w] at hflow

theorem onlyTakes_serveDecision (h : Routine cfg.subjRoot A) {r : Request} (hd : approvalAuthorized cfg r = true → Decides A cfg.clustered)
    (env : Answers) (rest : String) : OnlyTakes A (serveDecision cfg env r rest) := by
  have hc := closed_onlyTakes A
  unfold serveDecision
  split
  · exact hc.pure _
  · split
    · exact hc.pure _
    · split
      · exact hc.pure _
      · split
        · exact hc.pure _
        next happroved =>
          rw [Bool.not_eq_true, Bool.not_eq_false'] at happroved
          exact onlyTakes_page _ (onlyTakes_decideProposal h (hd happroved) _ _ _ _)

theorem Permits.serve {r : Request} (h : Permits cfg works (approvalAuthorized cfg r) A R) {surface : Surface}
    (hapi : ∀ env rel, Moves R (Http.inWorld (serveApi cfg surface.site env r rel) : Reach σ δ Response)) (turn : Nat → Turn) :
    Moves R (serve cfg works surface turn r) := by
  have hc := closed_onlyTakes A
  unfold Http.serve
  split
  · exact h.servePost surface turn
  next hbehind =>
    unfold handleRequest
    dsimp only
    split
    · exact h.inWorld (hc.pure _)
    next hopen =>
      split
      · exact h.inWorld (onlyTakes_page _ (onlyTakes_of_leaves (readOnly_openapiJson _ _ _)))
      next hdoc =>
        split
        · exact hapi _ _
        next hpath =>
          split
          next hget =>
            by_cases hlist : pathOnly r.url = "/proposals"
            · rw [hlist]
              have hqueue := onlyTakes_reconcileAndList h.routine h.queues (turn 0).own (turn 0).reads (turn 0).each
              exact h.inWorld (onlyTakes_page _ (hc.bind hqueue fun _ => hc.pure _))
            · exact h.inWorld (onlyTakes_of_leaves (readOnly_serveGet _ _ _ _ hlist))
          next hpost =>
            split
            · exact h.inWorld (onlyTakes_serveDecision h.routine h.decides _ _)
            next hprop =>
              have hreach : reachesPost cfg r = true := by
                unfold reachesPost
                simp [hopen, hpost, hdoc, hpath, hprop]
              exact absurd hreach hbehind
          · exact h.inWorld (hc.pure _)

end

end Vejas.Http
