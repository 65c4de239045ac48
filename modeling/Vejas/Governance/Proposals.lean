import Vejas.Governance.Versions

/-! The proposal queue: submitted, listed with the stale ones expired, approved or rejected. -/

namespace Vejas.Governance
open Json Rust Vjs
variable [External]

/-- The calls of a decision: its own, those that check the baseline, those that apply the
change, and those that record the new status. -/
structure DecisionFates where
  own : Fates
  check : Fates
  apply : Fates
  status : Fates

def proposalOf (proposals : Kv) (id : String) : Option Value := (proposals.get? id).bind fromStr

def getProposal (fates : Fates) (id : String) : Gov (Option Value) :=
  .reads fun w => .ok (if (fates .getProposal).isOk then proposalOf w.proposals id else none)

def listProposals (fates : Fates) (reads : String → Bool) (proposals : Kv) : List Value :=
  -- `reads` tells which of the keys could be read
  let all := if (fates .listProposals).isOk then
      (proposals.map (·.1)).filterMap fun k => if reads k then proposalOf proposals k else none
    else []
  all.mergeSort fun a b =>
    decide (((b.index "created_at").asU64).getD 0 ≤ ((a.index "created_at").asU64).getD 0)

def withStatus (cfg : Settings) (status : String) (decidedBy : Option String) : Value → Value
  | .object o =>
    let o := (Map.insert "status" (.string status) o).insert "decided_at" (.ofNat cfg.now)
    .object (match decidedBy with
      | some by_ => o.insert "decided_by" (.string by_)
      | none => o)
  | v => v

def setStatus (cfg : Settings) (fates : Fates) (id status : String) (decidedBy : Option String) :
    Gov Value := do
  match ← getProposal fates id with
  | none => fail "proposal not found"
  | some stored =>
    let updated := withStatus cfg status decidedBy stored
    -- the put asks for no revision
    perform (fates .putProposal) fun w => w.putProposal id updated.render
    pure updated

def emitProposalEvent (cfg : Settings) (fates : Fates) (transition : String) (proposal : Value) :
    Gov Unit :=
  let ev := Value.obj [
    ("transition", .string transition), ("ts", .ofNat cfg.now), ("proposal", proposal)]
  ignore (perform (fates .event) fun w => w.publish (cfg.subjRoot ++ ".proposals.events") ev.render)

def openQueue (fates : Fates) : Gov Unit := do
  connect fates
  if (fates .openProposals).isOk then pure () else fail "proposal store unavailable"

def expire (cfg : Settings) (fates : Fates) (p : Value) (current : String) : Gov Value := do
  let id := (p.text "id").getD ""
  match ← attempt (setStatus cfg fates id "expired" none) with
  | none => pure p
  | some updated =>
    ignore (toAudit fates "proposals" (.obj [
      ("ts", .ofNat cfg.now), ("actor", .string "expiry"), ("kind", .string "proposal-expired"),
      ("proposal", .string id), ("baseline_was", p.index "baseline"),
      ("baseline_now", .string current)]))
    emitProposalEvent cfg fates "expired" updated
    pure updated

def reconcile (cfg : Settings) (fates : DecisionFates) (p : Value) : Gov Value := do
  match (p.index "status").asStr, (p.index "payload").text "file" with
  | some "pending", some file =>
    let current := (← attempt (effectiveSourceHash cfg fates.check file)).getD ""
    if current == "" || current == (p.text "baseline").getD "" then pure p
    else expire cfg fates.status p current
  | _, _ => pure p

def reconcileAll (cfg : Settings) (fates : Nat → DecisionFates) : Nat → List Value → Gov (List Value)
  | _, [] => pure []
  | n, p :: ps => do
    let p ← reconcile cfg (fates n) p
    let ps ← reconcileAll cfg fates (n + 1) ps
    pure (p :: ps)

def reconcileAndList (cfg : Settings) (own : Fates) (reads : String → Bool)
    (fates : Nat → DecisionFates) : Gov (List Value) := do
  openQueue own
  let w ← .get
  reconcileAll cfg fates 0 (listProposals own reads w.proposals)

def required (v : Value) (key msg : String) : Gov String :=
  match v.text key with
  | some s => pure s
  | none => fail msg

def applySetLiteral (cfg : Settings) (fates : Fates) (payload : Value) (file actor : String) :
    Gov Value := do
  let name ← required payload "name" "payload.name"
  let key := (payload.text "key").getD "-"
  let value := payload.index "value"
  if cfg.clustered then promoteVersion cfg fates file name key value actor
  else
    let path ← guarded cfg file
    let src ← readFile path
    let before := (getLiteral src name key).getD .null
    let newSrc ← rewrite src name key value
    perform (fates .writeFile) fun w => w.write path newSrc
    recordPromote cfg fates file name key before value actor
    pure (.obj [("ok", .bool true), ("file", .string file), ("name", .string name),
      ("key", .string key)])

def applyVersion (cfg : Settings) (fates : Fates) (payload : Value) (file actor : String) :
    Gov Value := do
  let candidate ← required payload "candidate" "payload.candidate"
  let _ ← .reads fun _ => parse candidate
  let path ← guarded cfg file
  let baseline ← readFile path
  let unit := flowProcName path
  perform (fates .connect) id
  if cfg.clustered then
    if !(fates .openVersions).isOk then fail "version store unavailable"
    else
      putVersion cfg fates unit candidate (hashContent baseline) actor
      pure (.obj [("ok", .bool true), ("versioned", .bool true), ("flow", .string unit)])
  else
    perform (fates .writeFile) fun w => w.write path candidate
    pure (.obj [("ok", .bool true), ("file", .string file), ("written", .bool true)])

def applyApproved (cfg : Settings) (fates : Fates) (proposal : Value) (actor : String) :
    Gov Value := do
  let kind := (proposal.text "kind").getD ""
  let payload := proposal.index "payload"
  let file ← required payload "file" "payload.file"
  match kind with
  | "set_literal" => applySetLiteral cfg fates payload file actor
  | "version" => applyVersion cfg fates payload file actor
  | other => fail ("unknown proposal kind " ++ debugStr other)

def rejectProposal (cfg : Settings) (fates : DecisionFates) (id decidedBy : String) : Gov Value := do
  let updated ← setStatus cfg fates.status id "rejected" (some decidedBy)
  ignore (toAudit fates.own "proposals" (.obj [
    ("ts", .ofNat cfg.now), ("actor", .string decidedBy), ("kind", .string "proposal-rejected"),
    ("proposal", .string id)]))
  emitProposalEvent cfg fates.own "rejected" updated
  pure updated

def approveProposal (cfg : Settings) (fates : DecisionFates) (proposal : Value)
    (id decidedBy : String) : Gov Value := do
  let file ← required (proposal.index "payload") "file" "payload.file"
  let current ← effectiveSourceHash cfg fates.check file
  if current != (proposal.text "baseline").getD "" then
    let updated ← setStatus cfg fates.status id "expired" none
    emitProposalEvent cfg fates.own "expired" updated
    fail "baseline changed since the proposal was made — expired, re-propose"
  else
    let result ← applyApproved cfg fates.apply proposal decidedBy
    ignore (toAudit fates.own "proposals" (.obj [
      ("ts", .ofNat cfg.now), ("actor", .string decidedBy), ("kind", .string "proposal-approved"),
      ("proposal", .string id), ("applied", result)]))
    let updated ← setStatus cfg fates.status id "approved" (some decidedBy)
    emitProposalEvent cfg fates.own "approved" updated
    pure (.obj [("ok", .bool true), ("proposal", updated), ("applied", result)])

def decideProposal (cfg : Settings) (fates : DecisionFates) (id : String) (approve : Bool)
    (decidedBy : String) : Gov Value := do
  openQueue fates.own
  match ← getProposal fates.own id with
  | none => fail "proposal not found"
  | some proposal =>
    if (proposal.index "status").asStr != some "pending" then
      fail ("proposal already " ++ (proposal.index "status").render)
    else if approve then approveProposal cfg fates proposal id decidedBy
    else rejectProposal cfg fates id decidedBy

end Vejas.Governance
