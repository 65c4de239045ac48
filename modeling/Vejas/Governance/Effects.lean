import Mathlib.Logic.Relation
import Vejas.Governance.Evidence
import Vejas.Governance.Submissions

/-! What the calls of a request do to the world, effect by effect: each computation takes only
effects of a kind, however its calls end and wherever it stops. -/

namespace Vejas.Governance
open Json Rust Vjs Fallible

def World.after (w : World) : Effect → World
  | .publish subject payload => w.publish subject payload
  | .write path text => w.write path text
  | .put .versions key value => w.putVersion key value
  | .put .proposals key value => w.putProposal key value
  | .delete .versions key => w.deleteVersion key
  | .delete .proposals _ => w
  | .rewrite src => w.note (.rewrite src)

def Takes (A : Effect → Prop) (w w' : World) : Prop := ∃ e, A e ∧ w' = w.after e

/-- The computation gets to where it leaves the world by effects of this kind. -/
def OnlyTakes {α : Type} (A : Effect → Prop) (m : Gov α) : Prop := ∀ w, Relation.ReflTransGen (Takes A) w (m w).2

variable {α β : Type} {A : Effect → Prop}

theorem closed_onlyTakes (A : Effect → Prop) : Closed (fun {α} (m : Gov α) => OnlyTakes A m) where
  reads _ _ := .refl
  bind {α β m f} hm hf w := by
    have hw := hm w
    rcases hmw : m w with ⟨_ | a, w'⟩
    · rw [bind_error hmw]
      rwa [hmw] at hw
    · rw [bind_ok hmw]
      rw [hmw] at hw
      exact hw.trans (hf a w')

theorem onlyTakes_of_leaves {m : Gov α} (h : Leaves (fun w => w) m) : OnlyTakes A m := by
  intro w
  have hw : (m w).2 = w := h w
  rw [hw]

theorem onlyTakes_perform {e : Effect} (he : A e) (fate : Fate) : OnlyTakes A (perform fate fun w => w.after e) := by
  intro w
  have hstep : Relation.ReflTransGen (Takes A) w (w.after e) := .single ⟨e, he, rfl⟩
  cases fate with
  | ok => exact hstep
  | failed msg => exact .refl
  | lost msg => exact hstep

theorem onlyTakes_attempt {m : Gov α} (h : OnlyTakes A m) : OnlyTakes A (attempt m) := by
  intro w
  have hw := h w
  unfold attempt
  split <;> simp_all

theorem onlyTakes_ignore {m : Gov α} (h : OnlyTakes A m) : OnlyTakes A (ignore m) :=
  (closed_onlyTakes A).bind (onlyTakes_attempt h) fun _ => (closed_onlyTakes A).pure ()

theorem onlyTakes_guarded (cfg : Settings) (rel : String) : OnlyTakes A (guarded cfg rel) :=
  onlyTakes_of_leaves (leaves_guarded _ cfg rel)

theorem onlyTakes_connect (fates : Fates) : OnlyTakes A (connect fates) := onlyTakes_of_leaves (leaves_connect _ fates)

/-- The audit trail and the listeners of the proposals are told, sources are edited in memory, and stale
overlays go. -/
structure Routine (root : String) (A : Effect → Prop) : Prop where
  audits : ∀ unit payload, A (.publish ("vxaudit." ++ keyOf unit) payload)
  events : ∀ payload, A (.publish (root ++ ".proposals.events") payload)
  rewrites : ∀ src, A (.rewrite src)
  evicts : ∀ key, A (.delete .versions key)

section
variable [External]

/-- A record that says of no decision. -/
def Undecided (v : Value) : Prop := v.text "status" ≠ some "approved" ∧ v.text "status" ≠ some "rejected"

def Queues (A : Effect → Prop) : Prop := ∀ id v, Undecided v → A (.put .proposals id v.render)

omit [External] in
theorem onlyTakes_resolveSource {root : String} (h : Routine root A) (store : Bool) (fates : Fates) (flow baseline : String) :
    OnlyTakes A (resolveSource store fates flow baseline) := by
  have hc := closed_onlyTakes A
  unfold resolveSource
  split
  · exact hc.pure _
  · refine hc.bind (hc.reads _) fun ov => ?_
    split
    · exact hc.pure _
    · split
      · exact hc.pure _
      · exact hc.bind (onlyTakes_ignore (onlyTakes_perform (h.evicts _) _)) fun _ => hc.pure _

omit [External] in
theorem onlyTakes_effectiveSourceHash {cfg : Settings} (h : Routine cfg.subjRoot A) (fates : Fates) (file : String) :
    OnlyTakes A (effectiveSourceHash cfg fates file) := by
  have hc := closed_onlyTakes A
  refine hc.bind (onlyTakes_guarded cfg file) fun path => ?_
  refine hc.bind (hc.reads _) fun baseline => ?_
  exact hc.bind (onlyTakes_resolveSource h _ fates _ _) fun _ => hc.pure _

theorem onlyTakes_toAudit {root : String} (h : Routine root A) (fates : Fates) (unit : String) (record : Value) :
    OnlyTakes A (toAudit fates unit record) := onlyTakes_perform (h.audits _ _) _

theorem onlyTakes_recordPromote {cfg : Settings} (h : Routine cfg.subjRoot A) (fates : Fates) (file name key : String)
    (before after : Value) (actor : String) : OnlyTakes A (recordPromote cfg fates file name key before after actor) := by
  have hc := closed_onlyTakes A
  refine onlyTakes_ignore (hc.bind (onlyTakes_guarded cfg file) fun path => ?_)
  split
  · exact hc.pure ()
  · exact onlyTakes_toAudit h fates _ _

theorem onlyTakes_rewrite {root : String} (h : Routine root A) (src name key : String) (value : Value) : OnlyTakes A (rewrite src name key value) :=
  fun _ => .single ⟨.rewrite src, h.rewrites src, rfl⟩

theorem onlyTakes_promoteVersion {cfg : Settings} (h : Routine cfg.subjRoot A) (hput : ∀ key value, A (.put .versions key value))
    (fates : Fates) (file name key : String) (value : Value) (actor : String) :
    OnlyTakes A (promoteVersion cfg fates file name key value actor) := by
  have hc := closed_onlyTakes A
  refine hc.bind (onlyTakes_guarded cfg file) fun path => ?_
  refine hc.bind (hc.reads _) fun baseline => ?_
  refine hc.bind (onlyTakes_connect fates) fun _ => ?_
  split
  · exact hc.throw _
  · refine hc.bind (onlyTakes_resolveSource h _ fates _ _) fun r => ?_
    refine hc.bind (onlyTakes_rewrite h _ _ _ _) fun src => ?_
    refine hc.bind (onlyTakes_perform (hput _ _) _) fun _ => ?_
    exact hc.bind (onlyTakes_recordPromote h fates _ _ _ _ _ _) fun _ => hc.pure _

omit [External] in
theorem onlyTakes_openQueue (fates : Fates) : OnlyTakes A (openQueue fates) := onlyTakes_of_leaves (leaves_openQueue _ fates)

omit [External] in
theorem onlyTakes_required (v : Value) (key msg : String) : OnlyTakes A (required v key msg) :=
  onlyTakes_of_leaves (leaves_required _ v key msg)

theorem onlyTakes_emitProposalEvent {cfg : Settings} (h : Routine cfg.subjRoot A) (fates : Fates) (transition : String) (proposal : Value) :
    OnlyTakes A (emitProposalEvent cfg fates transition proposal) :=
  onlyTakes_ignore (onlyTakes_perform (h.events _) _)

theorem onlyTakes_setStatus (cfg : Settings) (fates : Fates) (id status : String) (decidedBy : Option String)
    (hput : ∀ stored, A (.put .proposals id (withStatus cfg status decidedBy stored).render)) :
    OnlyTakes A (setStatus cfg fates id status decidedBy) := by
  have hc := closed_onlyTakes A
  refine hc.bind (hc.reads _) fun stored => ?_
  cases stored with
  | none => exact hc.throw _
  | some stored => exact hc.bind (onlyTakes_perform (hput stored) _) fun _ => hc.pure _

omit [External] in
theorem undecided_of_not_object {v : Value} (h : v.asObject = none) : Undecided v := by
  have htext : v.text "status" = none := by
    unfold Value.text Value.index Value.get
    rw [h]
    rfl
  unfold Undecided
  rw [htext]
  exact ⟨(Option.some_ne_none _).symm, (Option.some_ne_none _).symm⟩

omit [External] in
theorem undecided_expired (cfg : Settings) (stored : Value) : Undecided (withStatus cfg "expired" none stored) := by
  cases stored with
  | object o =>
    have htext : (withStatus cfg "expired" none (.object o)).text "status" = some "expired" := by
      simp [withStatus, Value.text, Value.index, Value.get, Value.asObject, Map.get?_insert, Value.asStr]
    unfold Undecided
    rw [htext]
    exact ⟨by decide, by decide⟩
  | _ => exact undecided_of_not_object rfl

theorem onlyTakes_reconcileAndList {cfg : Settings} (h : Routine cfg.subjRoot A) (hq : Queues A) (own : Fates) (reads : String → Bool)
    (fates : Nat → DecisionFates) : OnlyTakes A (reconcileAndList cfg own reads fates) := by
  have hc := closed_onlyTakes A
  have hexpired : ∀ fates p current, OnlyTakes A (expire cfg fates p current) := by
    intro fates p current
    refine hc.bind (onlyTakes_attempt (onlyTakes_setStatus cfg fates _ _ _ fun stored => ?_)) fun updated => ?_
    · exact hq _ _ (undecided_expired cfg stored)
    · cases updated with
      | none => exact hc.pure _
      | some updated =>
        refine hc.bind (onlyTakes_ignore (onlyTakes_toAudit h fates _ _)) fun _ => ?_
        exact hc.bind (onlyTakes_emitProposalEvent h fates _ _) fun _ => hc.pure _
  have hone : ∀ fates p, OnlyTakes A (reconcile cfg fates p) := by
    intro fates p
    unfold reconcile
    split
    · refine hc.bind (onlyTakes_attempt (onlyTakes_effectiveSourceHash h fates.check _)) fun hash => ?_
      dsimp only
      split
      · exact hc.pure _
      · exact hexpired fates.status p _
    · exact hc.pure _
  have hall : ∀ ps n, OnlyTakes A (reconcileAll cfg fates n ps) := by
    intro ps
    induction ps with
    | nil => exact fun n => hc.pure _
    | cons p ps ih => exact fun n => hc.bind (hone _ p) fun _ => hc.bind (ih (n + 1)) fun _ => hc.pure _
  refine hc.bind (onlyTakes_openQueue own) fun _ => ?_
  exact hc.bind (hc.reads _) fun w => hall _ 0

structure Decides (A : Effect → Prop) (clustered : Bool) : Prop where
  puts : ∀ id text, A (.put .proposals id text)
  versions : ∀ key value, A (.put .versions key value)
  writes : clustered = false → ∀ path text, A (.write path text)

theorem onlyTakes_applyApproved {cfg : Settings} (h : Routine cfg.subjRoot A) (hd : Decides A cfg.clustered) (fates : Fates)
    (proposal : Value) (actor : String) : OnlyTakes A (applyApproved cfg fates proposal actor) := by
  have hc := closed_onlyTakes A
  refine hc.bind (onlyTakes_required _ _ _) fun file => ?_
  have hset : ∀ payload, OnlyTakes A (applySetLiteral cfg fates payload file actor) := by
    intro payload
    refine hc.bind (onlyTakes_required _ _ _) fun name => ?_
    dsimp only
    split
    · exact onlyTakes_promoteVersion h hd.versions fates _ _ _ _ _
    next hlocal =>
      refine hc.bind (onlyTakes_guarded cfg file) fun path => ?_
      refine hc.bind (hc.reads _) fun src => ?_
      refine hc.bind (onlyTakes_rewrite h _ _ _ _) fun newSrc => ?_
      refine hc.bind (onlyTakes_perform (hd.writes (Bool.eq_false_iff.mpr hlocal) _ _) _) fun _ => ?_
      exact hc.bind (onlyTakes_recordPromote h fates _ _ _ _ _ _) fun _ => hc.pure _
  have hversion : ∀ payload, OnlyTakes A (applyVersion cfg fates payload file actor) := by
    intro payload
    refine hc.bind (onlyTakes_required _ _ _) fun candidate => ?_
    refine hc.bind (hc.reads _) fun _ => ?_
    refine hc.bind (onlyTakes_guarded cfg file) fun path => ?_
    refine hc.bind (hc.reads _) fun baseline => ?_
    refine hc.bind (onlyTakes_of_leaves (leaves_perform fun _ => rfl)) fun _ => ?_
    split
    · split
      · exact hc.throw _
      · exact hc.bind (onlyTakes_perform (hd.versions _ _) _) fun _ => hc.pure _
    next hlocal =>
      exact hc.bind (onlyTakes_perform (hd.writes (Bool.eq_false_iff.mpr hlocal) _ _) _) fun _ => hc.pure _
  split
  · exact hset _
  · exact hversion _
  · exact hc.throw _

theorem onlyTakes_decideProposal {cfg : Settings} (h : Routine cfg.subjRoot A) (hd : Decides A cfg.clustered) (fates : DecisionFates)
    (id : String) (approve : Bool) (decidedBy : String) : OnlyTakes A (decideProposal cfg fates id approve decidedBy) := by
  have hc := closed_onlyTakes A
  have hstatus : ∀ fates status by_, OnlyTakes A (setStatus cfg fates id status by_) :=
    fun fates status by_ => onlyTakes_setStatus cfg fates id status by_ fun _ => hd.puts _ _
  have happrove : ∀ proposal, OnlyTakes A (approveProposal cfg fates proposal id decidedBy) := by
    intro proposal
    refine hc.bind (onlyTakes_required _ _ _) fun file => ?_
    refine hc.bind (onlyTakes_effectiveSourceHash h _ _) fun current => ?_
    split
    · refine hc.bind (hstatus _ _ _) fun updated => ?_
      exact hc.bind (onlyTakes_emitProposalEvent h _ _ _) fun _ => hc.throw _
    · refine hc.bind (onlyTakes_applyApproved h hd _ _ _) fun result => ?_
      refine hc.bind (onlyTakes_ignore (onlyTakes_toAudit h _ _ _)) fun _ => ?_
      refine hc.bind (hstatus _ _ _) fun updated => ?_
      exact hc.bind (onlyTakes_emitProposalEvent h _ _ _) fun _ => hc.pure _
  have hreject : OnlyTakes A (rejectProposal cfg fates id decidedBy) := by
    refine hc.bind (hstatus _ _ _) fun updated => ?_
    refine hc.bind (onlyTakes_ignore (onlyTakes_toAudit h _ _ _)) fun _ => ?_
    exact hc.bind (onlyTakes_emitProposalEvent h _ _ _) fun _ => hc.pure _
  refine hc.bind (onlyTakes_openQueue _) fun _ => ?_
  refine hc.bind (hc.reads _) fun found => ?_
  cases found with
  | none => exact hc.throw _
  | some proposal =>
    dsimp only
    split
    · exact hc.throw _
    · split
      · exact happrove proposal
      · exact hreject

def OnlyTakesIn {γ : Type} (A : Effect → Prop) (m : Fallible Fault Instance γ) : Prop :=
  ∀ s, Relation.ReflTransGen (Takes A) s.world (m s).2.world

omit [External] in
theorem closed_onlyTakesIn (A : Effect → Prop) : Closed (fun {α} (m : Fallible Fault Instance α) => OnlyTakesIn A m) where
  reads _ _ := .refl
  bind {α β m f} hm hf s := by
    have hs := hm s
    rcases hms : m s with ⟨_ | a, s'⟩
    · rw [bind_error hms]
      rwa [hms] at hs
    · rw [bind_ok hms]
      rw [hms] at hs
      exact hs.trans (hf a s')

omit [External] in
theorem onlyTakesIn_onWorld {m : Gov α} (h : OnlyTakes A m) : OnlyTakesIn A (onWorld m) := fun s => h s.world

omit [External] in
theorem undecided_record (d : Draft) (ts : Nat) : Undecided (d.record ts) := by
  have htext : (d.record ts).text "status" = some "pending" := by
    simp [Draft.record, Value.obj, Map.ofEntries, Map.extend, Value.text, Value.index, Value.get, Value.asObject,
      Map.get?_insert, Value.asStr]
  unfold Undecided
  rw [htext]
  exact ⟨by decide, by decide⟩

theorem onlyTakes_submitProposal {cfg : Settings} (h : Routine cfg.subjRoot A) (hq : Queues A) (created sent : Nat) (fates : Fates)
    (kind : String) (payload : Value) (author : String) (evidence : Value) :
    OnlyTakesIn A (submitProposal cfg created sent fates kind payload author evidence) := by
  have hc := closed_onlyTakesIn A
  have hg := closed_onlyTakes A
  have hdraft : OnlyTakesIn A (draft cfg fates kind payload author evidence) := by
    unfold draft
    split
    · exact onlyTakesIn_onWorld (hg.throw _)
    · refine hc.bind (onlyTakesIn_onWorld (onlyTakes_required _ _ _)) fun file => ?_
      refine hc.bind (onlyTakesIn_onWorld (onlyTakes_connect fates)) fun _ => ?_
      refine hc.bind (onlyTakesIn_onWorld (onlyTakes_effectiveSourceHash h fates file)) fun baseline => ?_
      split
      · exact onlyTakesIn_onWorld (hg.throw _)
      · exact hc.bind (fun _ => .refl) fun id => hc.pure _
  have hsent : Routine ({ cfg with now := sent } : Settings).subjRoot A := h
  refine hc.bind hdraft fun d => ?_
  refine hc.bind (onlyTakesIn_onWorld ?_) fun record => ?_
  · exact hg.bind (onlyTakes_perform (hq _ _ (undecided_record d created)) _) fun _ => hg.pure _
  · exact hc.bind (onlyTakesIn_onWorld (onlyTakes_emitProposalEvent hsent fates _ _)) fun _ => hc.pure _

end

end Vejas.Governance
