import Vejas.Governance.Proposals

/-! An approval checks a hash of the effective source and then rewrites a source it reads
again. The two are the same text unless an overlay is in force that only one of them sees. -/

namespace Vejas.Governance
open Json Rust Vjs Fallible

def rewritten (log : List Effect) : List String :=
  log.filterMap fun
    | .rewrite src => some src
    | _ => none

abbrev Silent {α : Type} (m : Gov α) : Prop := Leaves (fun w : World => rewritten w.log) m

/-- Hands exactly `src` to `set_literal`. -/
def Hands {α : Type} (m : Gov α) (w : World) (src : String) : Prop :=
  rewritten (m w).2.log = src :: rewritten w.log

theorem closed_silent : Closed (fun {α} (m : Gov α) => Silent m) := closed_leaves _

section
variable {α β : Type} {m : Gov α} {f : α → Gov β} {w : World} {src : String}

theorem Hands.not_silent (h : Hands m w src) : ¬ Silent m := by
  intro hs
  have heq : src :: rewritten w.log = rewritten w.log := h.symm.trans (hs w)
  have hlen := congrArg List.length heq
  simp at hlen

theorem Hands.after (h : Hands (m >>= f) w src) (hm : Silent m) :
    ∃ a w', m w = (.ok a, w') ∧ Hands (f a) w' src := by
  have hsame := hm w
  rcases hmw : m w with ⟨e | a, w'⟩
  · unfold Hands at h
    rw [bind_error hmw] at h
    rw [hmw] at hsame
    have hlen := congrArg List.length (h.symm.trans hsame)
    simp at hlen
  · unfold Hands at h
    rw [bind_ok hmw] at h
    rw [hmw] at hsame
    refine ⟨a, w', rfl, ?_⟩
    unfold Hands
    rw [h]
    exact congrArg _ hsame.symm

theorem Hands.before (h : Hands (m >>= f) w src) (hf : ∀ a, Silent (f a)) : Hands m w src := by
  rcases hmw : m w with ⟨e | a, w'⟩
  · unfold Hands at h ⊢
    rw [bind_error hmw] at h
    rw [hmw]
    exact h
  · have hsame := hf a w'
    unfold Hands at h ⊢
    rw [bind_ok hmw] at h
    rw [hmw]
    exact hsame.symm.trans h

end

theorem leaves_required {γ : Type} (f : World → γ) (v : Value) (key msg : String) :
    Leaves f (required v key msg) := by
  unfold required
  cases v.text key with
  | none => exact (closed_leaves f).throw _
  | some s => exact (closed_leaves f).pure s

theorem leaves_openQueue {γ : Type} (f : World → γ) (fates : Fates) : Leaves f (openQueue fates) := by
  refine (closed_leaves f).bind (leaves_connect f fates) fun _ => ?_
  split
  · exact (closed_leaves f).pure ()
  · exact (closed_leaves f).throw _

def effectiveSource (seen : Bool) (versions : Kv) (flow baseline : String) : String :=
  match if seen then overlayOf versions flow else none with
  | none => baseline
  | some ov => if forkedFrom ov baseline then (ov.text "source").getD baseline else baseline

def sees (fates : Fates) : Bool := (fates .openVersions).isOk && (fates .getVersion).isOk

def StaleOverlay (versions : Kv) (flow baseline : String) : Prop :=
  ∃ ov, overlayOf versions flow = some ov ∧ forkedFrom ov baseline = false

/-- The worlds a read of the source may leave behind: a stale overlay may be gone. -/
def Resolved (flow baseline : String) (w w' : World) : Prop :=
  w' = w ∨ StaleOverlay w.versions flow baseline ∧ w' = w.deleteVersion (keyOf flow)

theorem get?_delete (kv : Kv) (key : String) : (kv.delete key).get? key = none := by
  simp [Kv.get?, Kv.delete, List.find?_eq_none]

theorem Resolved.same {flow baseline : String} {w w' : World} (h : Resolved flow baseline w w')
    (seen : Bool) : effectiveSource seen w'.versions flow baseline =
      effectiveSource seen w.versions flow baseline := by
  -- a stale overlay that is gone was not in force
  rcases h with rfl | ⟨⟨ov, hov, hstale⟩, rfl⟩
  · rfl
  · have hgone : overlayOf (w.deleteVersion (keyOf flow)).versions flow = none := by
      show ((w.versions.delete (keyOf flow)).get? (keyOf flow)).bind fromStr = none
      rw [get?_delete]
      rfl
    unfold effectiveSource
    rw [hgone, hov]
    cases seen with
    | false => rfl
    | true => simp [hstale]

theorem Resolved.files {flow baseline : String} {w w' : World} (h : Resolved flow baseline w w') :
    w'.files = w.files := by
  rcases h with rfl | ⟨-, rfl⟩ <;> rfl

theorem Resolved.canonicalize {flow baseline : String} {w w' : World}
    (h : Resolved flow baseline w w') : w'.canonicalize = w.canonicalize := by
  rcases h with rfl | ⟨-, rfl⟩ <;> rfl

theorem resolveSource_run (store : Bool) (fates : Fates) (flow baseline : String) (w : World) :
    ∃ o w', resolveSource store fates flow baseline w =
        (.ok (effectiveSource (store && (fates .getVersion).isOk) w.versions flow baseline, o), w') ∧
      Resolved flow baseline w w' := by
  unfold resolveSource
  cases store with
  | false => exact ⟨.baseline, w, rfl, .inl rfl⟩
  | true =>
    simp only [Bool.not_true, Bool.false_eq_true, if_false, Bool.true_and]
    have hget : getVersion fates flow w =
        (.ok (if (fates .getVersion).isOk then overlayOf w.versions flow else none), w) := rfl
    rw [bind_ok hget]
    unfold effectiveSource
    cases hov : if (fates .getVersion).isOk then overlayOf w.versions flow else none with
    | none => exact ⟨.baseline, w, rfl, .inl rfl⟩
    | some ov =>
      dsimp only
      cases hfork : forkedFrom ov baseline with
      | true => exact ⟨.overlay, w, rfl, .inl rfl⟩
      | false =>
        have hin : overlayOf w.versions flow = some ov := by
          split at hov
          · exact hov
          · cases hov
        have hstale : StaleOverlay w.versions flow baseline := ⟨ov, hin, hfork⟩
        cases hfate : fates .deleteVersion with
        | ok => exact ⟨_, w.deleteVersion (keyOf flow), rfl, .inr ⟨hstale, rfl⟩⟩
        | failed e => exact ⟨_, w, rfl, .inl rfl⟩
        | lost e => exact ⟨_, w.deleteVersion (keyOf flow), rfl, .inr ⟨hstale, rfl⟩⟩

theorem leaves_resolveSource {γ : Type} {f : World → γ} (h : ∀ w key, f (w.deleteVersion key) = f w)
    (store : Bool) (fates : Fates) (flow baseline : String) :
    Leaves f (resolveSource store fates flow baseline) := by
  have hf : Closed (fun {α} (m : Gov α) => Leaves f m) := closed_leaves f
  unfold resolveSource
  split
  · exact hf.pure _
  · refine hf.bind (hf.reads _) fun ov => ?_
    split
    · exact hf.pure _
    · split
      · exact hf.pure _
      · exact hf.bind (leaves_ignore (leaves_perform fun w => h w _)) fun _ => hf.pure _

theorem leaves_effectiveSourceHash {γ : Type} {f : World → γ} (h : ∀ w key, f (w.deleteVersion key) = f w)
    (cfg : Settings) (fates : Fates) (file : String) : Leaves f (effectiveSourceHash cfg fates file) := by
  have hf : Closed (fun {α} (m : Gov α) => Leaves f m) := closed_leaves f
  refine hf.bind (leaves_guarded _ cfg file) fun path => ?_
  refine hf.bind (hf.reads _) fun baseline => ?_
  exact hf.bind (leaves_resolveSource h _ _ _ _) fun _ => hf.pure _

theorem silent_resolveSource (store : Bool) (fates : Fates) (flow baseline : String) :
    Silent (resolveSource store fates flow baseline) := leaves_resolveSource (fun _ _ => rfl) store fates flow baseline

theorem silent_effectiveSourceHash (cfg : Settings) (fates : Fates) (file : String) :
    Silent (effectiveSourceHash cfg fates file) := leaves_effectiveSourceHash (fun _ _ => rfl) cfg fates file

structure FlowFile (cfg : Settings) (w : World) (file path text : String) : Prop where
  guard : guardPath w cfg.root file = some path
  read : w.files path = .ok text

theorem guarded_ok {cfg : Settings} {rel path : String} {w w' : World}
    (h : guarded cfg rel w = (.ok path, w')) : guardPath w cfg.root rel = some path ∧ w' = w := by
  unfold guarded at h
  split at h
  · cases h
    exact ⟨by assumption, rfl⟩
  · cases h

theorem readFile_ok {path text : String} {w w' : World} (h : readFile path w = (.ok text, w')) :
    w.files path = .ok text ∧ w' = w := by
  unfold readFile at h
  rw [reads_run] at h
  cases hf : w.files path with
  | ok t =>
    rw [hf] at h
    cases h
    exact ⟨rfl, rfl⟩
  | error e =>
    rw [hf] at h
    cases h

theorem effectiveSourceHash_ok {cfg : Settings} {fates : Fates} {file hash : String} {w w' : World}
    (h : effectiveSourceHash cfg fates file w = (.ok hash, w')) :
    ∃ path text, FlowFile cfg w file path text ∧
      hash = hashContent (effectiveSource (sees fates) w.versions (flowProcName path) text) ∧
      Resolved (flowProcName path) text w w' := by
  unfold effectiveSourceHash at h
  rcases hg : guarded cfg file w with ⟨e | path, w₁⟩
  · rw [bind_error hg] at h
    cases h
  · rw [bind_ok hg] at h
    obtain ⟨hpath, rfl⟩ := guarded_ok hg
    rcases hr : readFile path w₁ with ⟨e | text, w₂⟩
    · rw [bind_error hr] at h
      cases h
    · rw [bind_ok hr] at h
      obtain ⟨htext, rfl⟩ := readFile_ok hr
      obtain ⟨o, w₃, hres, hkept⟩ := resolveSource_run (fates .openVersions).isOk fates
        (flowProcName path) text w₂
      rw [bind_ok hres] at h
      change (Except.ok (hashContent _), w₃) = (Except.ok hash, w') at h
      obtain ⟨hhash, rfl⟩ := Prod.mk.inj h
      exact ⟨path, text, ⟨hpath, htext⟩, (Except.ok.inj hhash).symm, hkept⟩

section
variable [External]

theorem silent_putVersion (cfg : Settings) (fates : Fates) (flow source parentHash actor : String) :
    Silent (putVersion cfg fates flow source parentHash actor) :=
  leaves_perform fun _ => rfl

theorem silent_toAudit (fates : Fates) (unit : String) (record : Value) :
    Silent (toAudit fates unit record) :=
  leaves_perform fun _ => rfl

theorem silent_recordPromote (cfg : Settings) (fates : Fates) (file name key : String)
    (before after : Value) (actor : String) :
    Silent (recordPromote cfg fates file name key before after actor) := by
  refine leaves_ignore (closed_silent.bind (leaves_guarded _ cfg file) fun path => ?_)
  split
  · exact closed_silent.pure ()
  · exact silent_toAudit _ _ _

theorem silent_setStatus (cfg : Settings) (fates : Fates) (id status : String)
    (decidedBy : Option String) : Silent (setStatus cfg fates id status decidedBy) := by
  refine closed_silent.bind (closed_silent.reads _) fun stored => ?_
  cases stored with
  | none => exact closed_silent.throw _
  | some stored =>
    exact closed_silent.bind (leaves_perform fun _ => rfl) fun _ => closed_silent.pure _

theorem silent_emitProposalEvent (cfg : Settings) (fates : Fates) (transition : String)
    (proposal : Value) : Silent (emitProposalEvent cfg fates transition proposal) :=
  leaves_ignore (leaves_perform fun _ => rfl)

theorem silent_applyVersion (cfg : Settings) (fates : Fates) (payload : Value) (file actor : String) :
    Silent (applyVersion cfg fates payload file actor) := by
  refine closed_silent.bind (leaves_required _ _ _ _) fun candidate => ?_
  refine closed_silent.bind (closed_silent.reads _) fun _ => ?_
  refine closed_silent.bind (leaves_guarded _ cfg file) fun path => ?_
  refine closed_silent.bind (closed_silent.reads _) fun baseline => ?_
  refine closed_silent.bind (leaves_perform fun _ => rfl) fun _ => ?_
  split
  · split
    · exact closed_silent.throw _
    · exact closed_silent.bind (silent_putVersion _ _ _ _ _ _) fun _ => closed_silent.pure _
  · exact closed_silent.bind (leaves_perform fun _ => rfl) fun _ => closed_silent.pure _

theorem rewrite_hands {w : World} {src s name key : String} {value : Value}
    (h : Hands (rewrite s name key value) w src) : src = s := by
  unfold Hands rewrite at h
  exact (List.cons.inj h).1.symm

theorem promoteVersion_hands {cfg : Settings} {fates : Fates} {file name key actor src path text : String}
    {value : Value} {w : World} (hfile : FlowFile cfg w file path text)
    (h : Hands (promoteVersion cfg fates file name key value actor) w src) :
    src = effectiveSource (sees fates) w.versions (flowProcName path) text := by
  unfold promoteVersion at h
  obtain ⟨path', w₁, hg, h₁⟩ := h.after (leaves_guarded _ cfg file)
  obtain ⟨hpath, rfl⟩ := guarded_ok hg
  obtain rfl : path = path' := Option.some.inj (hfile.guard.symm.trans hpath)
  obtain ⟨text', w₂, hr, h₂⟩ := h₁.after (closed_silent.reads _)
  obtain ⟨htext, rfl⟩ := readFile_ok hr
  obtain rfl : text = text' := Except.ok.inj (hfile.read.symm.trans htext)
  obtain ⟨u, w₃, hc, h₃⟩ := h₂.after (leaves_connect _ fates)
  have hsame : w₃ = w₂ := by
    have hw := leaves_connect id fates w₂
    rw [hc] at hw
    exact hw
  rw [hsame] at h₃
  cases hopen : (fates .openVersions).isOk with
  | false =>
    simp only [hopen, Bool.not_false, if_true] at h₃
    exact absurd (closed_silent.throw _) h₃.not_silent
  | true =>
    simp only [hopen, Bool.not_true, Bool.false_eq_true, if_false] at h₃
    obtain ⟨o, w₄, hres, -⟩ := resolveSource_run true fates (flowProcName path) text w₂
    obtain ⟨⟨current, o'⟩, w₅, hres', h₄⟩ := h₃.after (silent_resolveSource _ _ _ _)
    rw [hres] at hres'
    obtain ⟨hcur, -⟩ := Prod.mk.inj (Except.ok.inj (Prod.mk.inj hres').1)
    have hrw := h₄.before fun newSrc => closed_silent.bind (silent_putVersion _ _ _ _ _ _) fun _ =>
      closed_silent.bind (silent_recordPromote _ _ _ _ _ _ _ _) fun _ => closed_silent.pure _
    rw [rewrite_hands hrw, ← hcur]
    unfold sees
    rw [hopen]

theorem applySetLiteral_hands {cfg : Settings} {fates : Fates} {payload : Value}
    {file actor src path text : String} {w : World} (hfile : FlowFile cfg w file path text)
    (h : Hands (applySetLiteral cfg fates payload file actor) w src) :
    src = effectiveSource (cfg.clustered && sees fates) w.versions (flowProcName path) text := by
  unfold applySetLiteral at h
  obtain ⟨name, w₁, hn, h₁⟩ := h.after (leaves_required _ _ _ _)
  have hsame : w₁ = w := by
    have hw := leaves_required id payload "name" "payload.name" w
    rw [hn] at hw
    exact hw
  rw [hsame] at h₁
  dsimp only at h₁
  cases hcl : cfg.clustered with
  | true =>
    rw [hcl, if_pos rfl] at h₁
    exact promoteVersion_hands hfile h₁
  | false =>
    -- outside a cluster the file itself is rewritten, whatever overlay is in force
    rw [hcl, if_neg (by decide)] at h₁
    obtain ⟨path', w₂, hg, h₂⟩ := h₁.after (leaves_guarded _ cfg file)
    obtain ⟨hpath, rfl⟩ := guarded_ok hg
    obtain rfl : path = path' := Option.some.inj (hfile.guard.symm.trans hpath)
    obtain ⟨text', w₃, hr, h₃⟩ := h₂.after (closed_silent.reads _)
    obtain ⟨htext, rfl⟩ := readFile_ok hr
    obtain rfl : text = text' := Except.ok.inj (hfile.read.symm.trans htext)
    have hrw := h₃.before fun newSrc => closed_silent.bind (leaves_perform fun _ => rfl) fun _ =>
      closed_silent.bind (silent_recordPromote _ _ _ _ _ _ _ _) fun _ => closed_silent.pure _
    exact rewrite_hands hrw

theorem applyApproved_hands {cfg : Settings} {fates : Fates} {proposal : Value}
    {file actor src path text : String} {w : World}
    (hp : (proposal.index "payload").text "file" = some file)
    (hfile : FlowFile cfg w file path text) (h : Hands (applyApproved cfg fates proposal actor) w src) :
    src = effectiveSource (cfg.clustered && sees fates) w.versions (flowProcName path) text := by
  unfold applyApproved at h
  obtain ⟨file', w₁, hn, h₁⟩ := h.after (leaves_required _ _ _ _)
  unfold required at hn
  rw [hp] at hn
  obtain ⟨rfl, rfl⟩ : file = file' ∧ w = w₁ := by
    obtain ⟨h1, h2⟩ := Prod.mk.inj hn
    exact ⟨Except.ok.inj h1, h2⟩
  split at h₁
  · exact applySetLiteral_hands hfile h₁
  · exact absurd (silent_applyVersion _ _ _ _ _) h₁.not_silent
  · exact absurd (closed_silent.throw _) h₁.not_silent

theorem approveProposal_hands {cfg : Settings} {fates : DecisionFates} {proposal : Value}
    {id decidedBy file src : String} {w : World}
    (hp : (proposal.index "payload").text "file" = some file)
    (h : Hands (approveProposal cfg fates proposal id decidedBy) w src) :
    ∃ path text, FlowFile cfg w file path text ∧
      hashContent (effectiveSource (sees fates.check) w.versions (flowProcName path) text) =
        (proposal.text "baseline").getD "" ∧
      src = effectiveSource (cfg.clustered && sees fates.apply) w.versions (flowProcName path) text := by
  unfold approveProposal at h
  obtain ⟨file', w₁, hn, h₁⟩ := h.after (leaves_required _ _ _ _)
  unfold required at hn
  rw [hp] at hn
  obtain ⟨rfl, rfl⟩ : file = file' ∧ w = w₁ := by
    obtain ⟨h1, h2⟩ := Prod.mk.inj hn
    exact ⟨Except.ok.inj h1, h2⟩
  obtain ⟨current, w₂, hcheck, h₂⟩ := h₁.after (silent_effectiveSourceHash _ _ _)
  obtain ⟨path, text, hfile, hcur, hres⟩ := effectiveSourceHash_ok hcheck
  split at h₂
  · refine absurd ?_ h₂.not_silent
    exact closed_silent.bind (silent_setStatus _ _ _ _ _) fun _ =>
      closed_silent.bind (silent_emitProposalEvent _ _ _ _) fun _ => closed_silent.throw _
  next hbase =>
    have hsame : current = (proposal.text "baseline").getD "" := by simpa using hbase
    have hap := h₂.before fun result =>
      closed_silent.bind (leaves_ignore (silent_toAudit _ _ _)) fun _ =>
        closed_silent.bind (silent_setStatus _ _ _ _ _) fun _ =>
          closed_silent.bind (silent_emitProposalEvent _ _ _ _) fun _ => closed_silent.pure _
    have hfile' : FlowFile cfg w₂ file path text := by
      refine ⟨?_, ?_⟩
      · unfold guardPath
        rw [hres.canonicalize]
        exact hfile.guard
      · rw [hres.files]
        exact hfile.read
    refine ⟨path, text, hfile, hcur.symm.trans hsame, ?_⟩
    rw [applyApproved_hands hp hfile' hap]
    exact hres.same _

theorem decideProposal_hands {cfg : Settings} {fates : DecisionFates} {id decidedBy src : String}
    {proposal : Value} {w : World} (hp : proposalOf w.proposals id = some proposal)
    (h : Hands (decideProposal cfg fates id true decidedBy) w src) :
    Hands (approveProposal cfg fates proposal id decidedBy) w src := by
  unfold decideProposal at h
  obtain ⟨u, w₁, ho, h₁⟩ := h.after (leaves_openQueue _ _)
  have hsame : w₁ = w := by
    have hw := leaves_openQueue (fun w => w) fates.own w
    rw [ho] at hw
    exact hw
  rw [hsame] at h₁
  obtain ⟨got, w₂, hg, h₂⟩ := h₁.after (closed_silent.reads _)
  unfold getProposal at hg
  rw [reads_run, hp] at hg
  obtain ⟨hgot, rfl⟩ := Prod.mk.inj hg
  cases got with
  | none => exact absurd (closed_silent.throw _) h₂.not_silent
  | some p =>
    obtain rfl : proposal = p := by
      have hif := Except.ok.inj hgot
      split at hif
      · exact Option.some.inj hif
      · cases hif
    dsimp only at h₂
    split at h₂
    · exact absurd (closed_silent.throw _) h₂.not_silent
    · exact h₂

/-- An overlay is in force on the flow, and it hashes differently from the file. -/
def Diverges (cfg : Settings) (w : World) (file : String) : Prop :=
  ∃ path text, FlowFile cfg w file path text ∧
    hashContent (effectiveSource true w.versions (flowProcName path) text) ≠ hashContent text

/-- Whenever an approval hands a source to `set_literal`, that source hashes to the baseline of
the proposal exactly if no overlay diverges from the file, or the check and the apply see the
overlay alike. The apply sees it only in a cluster. -/
theorem approved_source_is_the_checked_one {cfg : Settings} {fates : DecisionFates}
    {id decidedBy file src : String} {proposal : Value} {w : World}
    (hp : proposalOf w.proposals id = some proposal)
    (hf : (proposal.index "payload").text "file" = some file)
    (h : Hands (decideProposal cfg fates id true decidedBy) w src) :
    hashContent src = (proposal.text "baseline").getD "" ↔
      ¬ Diverges cfg w file ∨ (sees fates.check = true ↔ cfg.clustered = true ∧ sees fates.apply = true) := by
  obtain ⟨path, text, hfile, hbase, hsrc⟩ := approveProposal_hands hf (decideProposal_hands hp h)
  have hblind : effectiveSource false w.versions (flowProcName path) text = text := rfl
  have hdiv : Diverges cfg w file ↔
      hashContent (effectiveSource true w.versions (flowProcName path) text) ≠ hashContent text := by
    constructor
    · rintro ⟨path', text', hfile', hne⟩
      obtain rfl : path = path' := Option.some.inj (hfile.guard.symm.trans hfile'.guard)
      obtain rfl : text = text' := Except.ok.inj (hfile.read.symm.trans hfile'.read)
      exact hne
    · exact fun hne => ⟨path, text, hfile, hne⟩
  have halike : (sees fates.check = true ↔ cfg.clustered = true ∧ sees fates.apply = true) ↔
      sees fates.check = (cfg.clustered && sees fates.apply) := by
    rw [← Bool.and_eq_true, ← Bool.eq_iff_iff]
  rw [← hbase, hsrc, hdiv, halike, not_ne_iff]
  generalize (cfg.clustered && sees fates.apply) = applied
  -- the two sources differ only if exactly one side sees the overlay
  cases hc : sees fates.check <;> cases applied
  · exact iff_of_true rfl (.inr rfl)
  · rw [hblind]
    exact ⟨.inl, fun h => h.resolve_right (by decide)⟩
  · rw [hblind, eq_comm]
    exact ⟨.inl, fun h => h.resolve_right (by decide)⟩
  · exact iff_of_true rfl (.inr rfl)

end

def minFlow (n : String) : String := "source \"vx.in\"\nMIN = " ++ n ++ "\n"

def settingsOf (clustered : Bool) : Settings where
  root := "/p"
  subjRoot := "vx"
  clustered := clustered
  writeToken := none
  approvalToken := some "human"
  now := 1

def minProposal : Value := .obj [
  ("id", .string "p-1-1"), ("kind", .string "set_literal"), ("status", .string "pending"),
  ("baseline", .string (hashContent (minFlow "20"))),
  ("payload", .obj [("file", .string "flows/a.vjs"), ("name", .string "MIN"),
    ("value", .ofNat 30)])]

def overlaid : World where
  files p := if p = "/p/flows/a.vjs" then .ok (minFlow "10") else .error "not found"
  canonicalize := some
  versions := [(keyOf "flow:a", (@Value.render ascii (.obj [
    ("parent", .string (hashContent (minFlow "10"))), ("source", .string (minFlow "20"))])))]
  proposals := [("p-1-1", @Value.render ascii minProposal)]
  log := []

def allOk : DecisionFates := ⟨fun _ => .ok, fun _ => .ok, fun _ => .ok, fun _ => .ok⟩

theorem approved_source_is_the_checked_one_overlaid :
    @Hands _ (@decideProposal ascii (settingsOf true) allOk "p-1-1" true "ana") overlaid
      (minFlow "20") ∧
    ∃ proposal, proposalOf overlaid.proposals "p-1-1" = some proposal ∧
      hashContent (minFlow "20") = (proposal.text "baseline").getD "" := by
  have hands : @Hands _ (@decideProposal ascii (settingsOf true) allOk "p-1-1" true "ana") overlaid
      (minFlow "20") := by
    unfold Hands
    decide +kernel
  have hsome : ((proposalOf overlaid.proposals "p-1-1").map fun p =>
      (p.index "payload").text "file") = some (some "flows/a.vjs") := by decide +kernel
  obtain ⟨proposal, hp, hf⟩ := Option.map_eq_some_iff.mp hsome
  have halike : sees allOk.check = true ↔
      (settingsOf true).clustered = true ∧ sees allOk.apply = true := by decide
  exact ⟨hands, proposal, hp,
    (@approved_source_is_the_checked_one ascii _ _ _ _ _ _ _ _ hp hf hands).mpr (.inr halike)⟩

/-- Outside a cluster it checks the overlay and rewrites the file. -/
theorem approval_rewrites_unchecked_source :
    @Hands _ (@decideProposal ascii (settingsOf false) allOk "p-1-1" true "ana") overlaid
      (minFlow "10") ∧
    ((proposalOf overlaid.proposals "p-1-1").bind (·.text "baseline")) =
      some (hashContent (minFlow "20")) ∧
    hashContent (minFlow "10") ≠ hashContent (minFlow "20") := by
  refine ⟨?_, by decide +kernel, by decide +kernel⟩
  unfold Hands
  decide +kernel

end Vejas.Governance
