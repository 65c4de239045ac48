import Vejas.Governance.Expiry
import Vejas.Http.Handler
import Vejas.Vjs.BusWrites

/-! What a request without a credential can change, once the write token is set: nothing, but
for the listing of the proposals, which expires those whose baseline has moved. -/

namespace Vejas.Http
open Json Rust Vjs Governance Fallible

abbrev ReadOnly {α : Type} (m : Gov α) : Prop := Leaves (fun w : World => w) m

theorem closed_readOnly : Closed (fun {α} (m : Gov α) => ReadOnly m) := closed_leaves _

theorem ReadOnly.run {α : Type} {m : Gov α} (h : ReadOnly m) (w : World) : ∃ r, m w = (r, w) :=
  ⟨(m w).1, Prod.ext rfl (h w)⟩

theorem readOnly_caught {α : Type} {m : Gov α} (h : ReadOnly m) : ReadOnly (caught m) := by
  intro w
  have hw := h w
  unfold caught
  split <;> simp_all

theorem answer_state (failure : Nat) (m : Gov String) (w : World) :
    (answer failure m w).2 = (m w).2 := by
  have hstate : (caught m w).2 = (m w).2 := by
    unfold caught
    split <;> simp_all
  rw [← hstate]
  refine bind_state (fun r => ?_) w
  cases r with
  | error e => exact closed_readOnly.pure _
  | ok body => exact closed_readOnly.pure _

theorem readOnly_answer {m : Gov String} (failure : Nat) (h : ReadOnly m) :
    ReadOnly (answer failure m) := by
  intro w
  rw [answer_state]
  exact h w

theorem readOnly_withFile {r : Request} {serve : String → Gov Response}
    (h : ∀ file, ReadOnly (serve file)) : ReadOnly (withFile r serve) := by
  unfold withFile
  cases qparam r.url "file" with
  | none => exact closed_readOnly.pure _
  | some file => exact h file

theorem readOnly_canaryRead (cfg : Settings) (proc : Process) (file : String) :
    ReadOnly (canaryRead cfg proc file) := by
  refine closed_readOnly.bind (leaves_guarded _ cfg file) fun path => ?_
  dsimp only
  split
  · exact closed_readOnly.pure _
  · exact closed_readOnly.pure _

theorem refused_of_write {cfg : Settings} {r : Request} {tok : String}
    (htok : cfg.writeToken = some tok) (hb : bearerAuthorized r tok = false)
    (ha : approvalAuthorized cfg r = false) (h : isReadMethod r.method = false) :
    refused cfg r = true := by
  unfold refused
  rw [htok]
  simp [h, hb, ha]

section
variable [External]

theorem readOnly_page {m : Gov Value} (failure : Nat) (h : ReadOnly m) : ReadOnly (page failure m) :=
  readOnly_answer failure (closed_readOnly.bind h fun _ => closed_readOnly.pure _)

theorem readOnly_programAt (path : String) : ReadOnly (programAt path) :=
  leaves_attempt (closed_readOnly.bind (closed_readOnly.reads _) fun _ => closed_readOnly.reads _)

theorem readOnly_scan {α : Type} (visit : String → String → Program → List α)
    (files : List (String × String)) : ReadOnly (scan visit files) := by
  induction files with
  | nil => exact closed_readOnly.pure _
  | cons file files ih =>
    refine closed_readOnly.bind (readOnly_programAt file.1) fun prog => ?_
    exact closed_readOnly.bind ih fun rest => closed_readOnly.pure _

theorem readOnly_matchApiRoute (cfg : Settings) (site : Site) (method rel : String) :
    ReadOnly (matchApiRoute cfg site method rel) :=
  closed_readOnly.bind (readOnly_scan _ _) fun _ => closed_readOnly.pure _

theorem readOnly_openapiJson (cfg : Settings) (site : Site) (proc : Process) :
    ReadOnly (openapiJson cfg site proc) :=
  closed_readOnly.bind (readOnly_scan _ _) fun _ => closed_readOnly.pure _

theorem readOnly_scans {α β γ : Type} (visit : String → String → Program → List α)
    (visit' : String → String → Program → List β) (files files' : List (String × String))
    (doc : List α → List β → γ) :
    ReadOnly (do
      let as ← scan visit files
      let bs ← scan visit' files'
      pure (doc as bs)) :=
  closed_readOnly.bind (readOnly_scan _ _) fun _ =>
    closed_readOnly.bind (readOnly_scan _ _) fun _ => closed_readOnly.pure _

theorem readOnly_rulesJson (cfg : Settings) (proc : Process) (file : String) :
    ReadOnly (rulesJson cfg proc file) := by
  refine closed_readOnly.bind (leaves_guarded _ cfg file) fun path => ?_
  refine closed_readOnly.bind (closed_readOnly.reads _) fun src => ?_
  exact closed_readOnly.bind (closed_readOnly.reads _) fun prog => closed_readOnly.pure _

theorem readOnly_previewJson (cfg : Settings) (site : Site) (file : String) :
    ReadOnly (previewJson cfg site file) := by
  refine closed_readOnly.bind (leaves_guarded _ cfg file) fun path => ?_
  refine closed_readOnly.bind (closed_readOnly.reads _) fun src => ?_
  refine closed_readOnly.bind (closed_readOnly.reads _) fun prog => ?_
  dsimp only
  split
  · exact closed_readOnly.pure _
  · refine closed_readOnly.bind (closed_readOnly.reads _) fun text => ?_
    split
    · exact closed_readOnly.throw _
    · refine closed_readOnly.bind (readOnly_caught (closed_readOnly.reads _)) fun result => ?_
      exact closed_readOnly.pure _

theorem readOnly_serveFile (cfg : Settings) (r : Request) : ReadOnly (serveFile cfg r) := by
  intro w
  unfold serveFile
  split
  · rfl
  · split <;> rfl

theorem readOnly_serveFixture (cfg : Settings) (file : String) :
    ReadOnly (serveFixture cfg file) := by
  intro w
  unfold serveFixture
  split <;> rfl

theorem readOnly_serveGet (cfg : Settings) (s : Surface) (env : Answers) (r : Request)
    {path : String} (h : path ≠ "/proposals") : ReadOnly (serveGet cfg s env r path) := by
  unfold serveGet
  split
  · exact absurd rfl h
  · exact closed_readOnly.pure _
  · exact closed_readOnly.pure _
  · exact closed_readOnly.pure _
  · exact readOnly_page _ (closed_readOnly.pure _)
  · exact closed_readOnly.pure _
  · exact readOnly_page _ (closed_readOnly.pure _)
  · exact readOnly_page _ (readOnly_scans _ _ _ _ _)
  · exact readOnly_page _ (readOnly_scans _ _ _ _ _)
  · exact readOnly_page _ (closed_readOnly.pure _)
  · exact readOnly_page _ (closed_readOnly.reads _)
  · exact readOnly_page _ (closed_readOnly.pure _)
  · exact readOnly_page _ (readOnly_scans _ _ _ _ _)
  · exact readOnly_withFile fun file => readOnly_answer _ (readOnly_previewJson _ _ file)
  · exact readOnly_withFile fun file => readOnly_page _ (readOnly_rulesJson _ _ file)
  · exact readOnly_serveFile cfg r
  · exact readOnly_withFile (readOnly_serveFixture cfg)
  · exact readOnly_withFile fun file => readOnly_page _ (readOnly_canaryRead _ _ file)
  · exact closed_readOnly.pure _

theorem readOnly_flowWritesBus (cfg : Settings) (file : String) :
    ReadOnly (flowWritesBus cfg file) := by
  refine closed_readOnly.bind (leaves_attempt ?_) fun _ => closed_readOnly.pure _
  refine closed_readOnly.bind (leaves_guarded _ cfg file) fun path => ?_
  refine closed_readOnly.bind (closed_readOnly.reads _) fun src => ?_
  exact closed_readOnly.bind (closed_readOnly.reads _) fun prog => closed_readOnly.pure _

theorem readOnly_runFlowCtx (cfg : Settings) (site : Site) (file : String) (input : Value) :
    ReadOnly (runFlowCtx cfg site file input) := by
  refine closed_readOnly.bind (leaves_guarded _ cfg file) fun path => ?_
  refine closed_readOnly.bind (closed_readOnly.reads _) fun src => ?_
  exact closed_readOnly.bind (closed_readOnly.reads _) fun prog => closed_readOnly.reads _

theorem runFlowCtx_ok {cfg : Settings} {site : Site} {file : String} {input : Value} {ctx : Ctx}
    {w w' : World} (h : runFlowCtx cfg site file input w = (.ok ctx, w')) :
    ∃ path src prog, FlowFile cfg w file path src ∧ parse src = .ok prog ∧
      (run prog input (.withSecrets (engineFiles w) cfg.root (pkgOfPath path) site.secrets)).1 =
        .ok ctx := by
  unfold runFlowCtx at h
  rcases hg : guarded cfg file w with ⟨e | path, w₁⟩
  · rw [bind_error hg] at h
    cases h
  · rw [bind_ok hg] at h
    obtain ⟨hpath, rfl⟩ := guarded_ok hg
    rcases hr : readFile path w₁ with ⟨e | src, w₂⟩
    · rw [bind_error hr] at h
      cases h
    · rw [bind_ok hr] at h
      obtain ⟨hsrc, rfl⟩ := readFile_ok hr
      cases hp : parse src with
      | error e =>
        have he : (reads fun _ => parse src : Gov Program) w₂ = (.error e, w₂) := by rw [reads_run, hp]
        rw [bind_error he] at h
        cases h
      | ok prog =>
        have ho : (reads fun _ => parse src : Gov Program) w₂ = (.ok prog, w₂) := by rw [reads_run, hp]
        rw [bind_ok ho, reads_run] at h
        exact ⟨path, src, prog, ⟨hpath, hsrc⟩, hp, (Prod.mk.inj h).1⟩

theorem flowWritesBus_of_file {cfg : Settings} {file path src : String} {prog : Program} {w : World}
    (hfile : FlowFile cfg w file path src) (hp : parse src = .ok prog) :
    flowWritesBus cfg file w = (.ok prog.writesBus, w) := by
  have hg : guarded cfg file w = (.ok path, w) := by
    unfold guarded
    rw [hfile.guard]
  have hr : readFile path w = (.ok src, w) := by
    unfold readFile
    rw [reads_run, hfile.read]
    rfl
  have ho : (reads fun _ => parse src : Gov Program) w = (.ok prog, w) := by rw [reads_run, hp]
  unfold flowWritesBus
  rw [bind_run]
  unfold attempt
  rw [bind_ok hg, bind_ok hr, bind_ok ho]
  rfl

omit [External] in
theorem caught_ok {α : Type} {m : Gov α} {a : α} {w w' : World} (h : caught m w = (.ok (.ok a), w')) :
    m w = (.ok a, w') := by
  unfold caught at h
  split at h
  next b v hm =>
    obtain ⟨hb, rfl⟩ := Prod.mk.inj h
    rw [hm, Except.ok.inj (Except.ok.inj hb)]
  · cases h
  · cases h

theorem runApiFlow_quiet {cfg : Settings} {site : Site} {fates : Fates} {sent : Nat → Fate}
    {file : String} {input : Value} {w : World}
    (h : flowWritesBus cfg file w = (.ok false, w)) :
    (runApiFlow cfg site fates sent file input w).2 = w := by
  -- a flow that the check passed is answered without a change
  refine bind_keeps (readOnly_caught (readOnly_runFlowCtx cfg site file input) w) fun r hr => ?_
  cases r with
  | error e => rfl
  | ok ctx =>
    obtain ⟨path, src, prog, hfile, hp, hctx⟩ := runFlowCtx_ok (caught_ok hr)
    have hwrites : prog.writesBus = false := by
      rw [flowWritesBus_of_file hfile hp] at h
      exact Except.ok.inj (Prod.mk.inj h).1
    have hemits : ctx.emits = [] := (run_quiet hwrites _ _).1 ctx hctx
    dsimp only
    rw [hemits]
    cases ctx.response with
    | none => rfl
    | some r => rfl

theorem serveApi_keeps {cfg : Settings} {site : Site} {env : Answers} {r : Request} {rel tok : String}
    (htok : cfg.writeToken = some tok) (hread : isReadMethod r.method = true)
    (hb : bearerAuthorized r tok = false) : ReadOnly (serveApi cfg site env r rel) := by
  intro w
  refine bind_keeps (readOnly_matchApiRoute _ _ _ _ w) fun route _ => ?_
  cases route with
  | none => rfl
  | some route =>
    have href : apiRefused cfg r route.1 = flowWritesBus cfg route.1 >>= fun writes => pure writes := by
      unfold apiRefused
      rw [htok]
      simp [hread, hb]
    have hro : ReadOnly (apiRefused cfg r route.1) := by
      rw [href]
      exact closed_readOnly.bind (readOnly_flowWritesBus _ _) fun _ => closed_readOnly.pure _
    refine bind_keeps (hro w) fun refused hrun => ?_
    cases refused with
    | true => rfl
    | false =>
      have hquiet : flowWritesBus cfg route.1 w = (.ok false, w) := by
        rw [href] at hrun
        obtain ⟨r', hr'⟩ := (readOnly_flowWritesBus cfg route.1).run w
        cases r' with
        | error e =>
          rw [bind_error hr'] at hrun
          cases hrun
        | ok b =>
          rw [bind_ok hr'] at hrun
          rw [hr']
          exact hrun
      exact (bind_state (fun _ => closed_readOnly.pure _) w).trans (runApiFlow_quiet hquiet)

theorem handleRequest_keeps {cfg : Settings} {r : Request} {tok : String} (s : Surface)
    (env : Answers) (htok : cfg.writeToken = some tok) (hb : bearerAuthorized r tok = false)
    (ha : approvalAuthorized cfg r = false)
    (h : ¬ (r.method = .get ∧ pathOnly r.url = "/proposals")) :
    ReadOnly (handleRequest cfg s env r) := by
  have hgate : refused cfg r = false → isReadMethod r.method = true := by
    intro hr
    refine Bool.eq_true_of_not_eq_false fun hm => ?_
    rw [refused_of_write htok hb ha hm] at hr
    cases hr
  unfold handleRequest
  dsimp only
  split
  · exact closed_readOnly.pure _
  next hr =>
    have hread := hgate (Bool.eq_false_iff.mpr hr)
    split
    · exact readOnly_page _ (readOnly_openapiJson _ _ _)
    · split
      · exact serveApi_keeps htok hread hb
      · split
        next hm => exact readOnly_serveGet _ _ _ _ fun hp => h ⟨hm, hp⟩
        next hm =>
          rw [hm] at hread
          cases hread
        · exact closed_readOnly.pure _

theorem handleRequest_proposals {cfg : Settings} {r : Request} (s : Surface) (env : Answers)
    (hm : r.method = .get) (hp : pathOnly r.url = "/proposals") :
    handleRequest cfg s env r = serveProposals cfg env := by
  have hopen : refused cfg r = false := by
    unfold refused
    rw [hm]
    cases cfg.writeToken <;> rfl
  have hapi : stripStart "/proposals" "/api/" = none := by decide
  unfold handleRequest
  dsimp only
  rw [hopen, hp, if_neg (by decide), if_neg (by decide), hapi, hm]
  rfl

theorem serveProposals_state (cfg : Settings) (env : Answers) (w : World) :
    (serveProposals cfg env w).2 = (reconcileAndList cfg env.own env.reads env.each w).2 := by
  unfold serveProposals page
  rw [answer_state, bind_state fun _ => closed_readOnly.pure _]
  exact bind_state (fun _ => closed_readOnly.pure _) w

/-- With the write token set, a request with neither credential leaves the files, the buckets
and the bus as they are, however the calls of its handler end, unless it lists the proposals
while one of them has moved. -/
theorem unauthorized_changes_nothing_iff {cfg : Settings} {s : Surface} {r : Request} {tok : String}
    (htok : cfg.writeToken = some tok) (hb : ¬ CarriesBearer r tok) (ha : ¬ CarriesApproval cfg r)
    (w : World) :
    (∀ env, (handleRequest cfg s env r w).2 = w) ↔
      ¬ (r.method = .get ∧ pathOnly r.url = "/proposals" ∧
        ∃ key p, proposalOf w.proposals key = some p ∧ Moved cfg w p) := by
  rw [← bearerAuthorized_iff, Bool.not_eq_true] at hb
  rw [← approvalAuthorized_iff, Bool.not_eq_true] at ha
  by_cases hlist : r.method = .get ∧ pathOnly r.url = "/proposals"
  · obtain ⟨hm, hp⟩ := hlist
    have hstate (env : Answers) : (handleRequest cfg s env r w).2 =
        (reconcileAndList cfg env.own env.reads env.each w).2 := by
      rw [handleRequest_proposals s env hm hp, serveProposals_state]
    have hall : (∀ env, (handleRequest cfg s env r w).2 = w) ↔
        ∀ own reads fates, (reconcileAndList cfg own reads fates w).2 = w := by
      refine ⟨fun h own reads fates => ?_, fun h env => (hstate env).trans (h _ _ _)⟩
      exact (hstate ⟨own, reads, fates, .idle, fun _ => .ok⟩).symm.trans (h _)
    rw [hall, reconcileAndList_keeps_iff]
    constructor
    · rintro h ⟨-, -, key, p, hkey, hmoved⟩
      exact h key p hkey hmoved
    · exact fun h key p hkey hmoved => h ⟨hm, hp, key, p, hkey, hmoved⟩
  · refine iff_of_true (fun env => handleRequest_keeps s env htok hb ha hlist w) ?_
    exact fun h => hlist ⟨h.1, h.2.1⟩

end

def lockedCfg : Settings := { settingsOf false with writeToken := some "agent" }

def plainSurface : Surface where
  site := { readDir := fun _ => none, fileExists := fun _ => false, secrets := .error
            jsonError := fun _ => "" }
  proc := { units := [], traces := [], canaries := [], evictions := [], rotations := []
            drivers := [], storeKind := "env", apiTitle := "", apiVersion := ""
            apiDescription := "", panel := "", metrics := "", flowRules := fun _ _ => [] }
  dlq := { connect := .ok (), state := .ok (0, 0, 0), message := fun _ => none }
  behind := fun _ => pure (text 404 "not found")

def guess (method : Method) (url : String) : Request :=
  { method, url, headers := [("Authorization", "Bearer guess")], body := "" }

def movedOn : World := { overlaid with
  versions := [(keyOf "flow:a", (@Value.render ascii (.obj [
    ("parent", .string (hashContent (minFlow "5"))), ("source", .string (minFlow "20"))])))] }

def everyOk : Answers := ⟨Fates.ok, fun _ => true, fun _ => allOk, allOk, fun _ => .ok⟩

theorem unauthorized_changes_nothing_guess :
    (@handleRequest ascii lockedCfg plainSurface everyOk (guess .get "/surface") movedOn).2 =
      movedOn := by
  have hb : ¬ CarriesBearer (guess .get "/surface") "agent" := by
    rw [← bearerAuthorized_iff]
    decide
  have ha : ¬ CarriesApproval lockedCfg (guess .get "/surface") := by
    rw [← approvalAuthorized_iff]
    decide
  have hpath : pathOnly "/surface" ≠ "/proposals" := by decide
  refine (@unauthorized_changes_nothing_iff ascii lockedCfg plainSurface _ "agent" rfl hb ha
    movedOn).mpr ?_ everyOk
  exact fun h => hpath h.2.1

/-- The listing, asked for with a wrong token, deletes the overlay, puts the proposal and
publishes twice. -/
theorem listing_writes_without_token :
    lockedCfg.writeToken = some "agent" ∧ ¬ CarriesBearer (guess .get "/proposals") "agent" ∧
    ¬ CarriesApproval lockedCfg (guess .get "/proposals") ∧
    (let w := (@handleRequest ascii lockedCfg plainSurface everyOk (guess .get "/proposals") movedOn).2
     w.versions = [] ∧
     (proposalOf w.proposals "p-1-1").bind (·.text "status") = some "expired" ∧
     w.log.length = movedOn.log.length + 4) := by
  refine ⟨rfl, ?_, ?_, ?_⟩
  · rw [← bearerAuthorized_iff]
    decide
  · rw [← approvalAuthorized_iff]
    decide
  · decide +kernel

end Vejas.Http
