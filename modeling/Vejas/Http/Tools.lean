import Vejas.Governance.Submissions
import Vejas.Http.Reach
import Vejas.Runtime.Canaries

/-! The tools an agent calls: `mcp_call` behind its gates, the replies of `mcp_dispatch` and the
requests of one body. -/

namespace Vejas.Http
open Json Rust Vjs Governance Fallible
open Vejas.Runtime.Canaries (Plan planOf)

variable {σ δ α : Type}

/-- The settings of the gates, and the functions that tools and routes call and that are looked at
elsewhere: those that may change something, whatever it is, and those that only look. -/
structure Works (σ δ : Type) where
  requireApproval : Bool
  -- the store is a Vault, shared by the instances
  sharedSecrets : Bool
  setSecret : String → String → Reach σ δ Value
  provision : String → String → Map → Bool → Reach σ δ Value
  generateFlow : String → Reach σ δ String
  generateConnector : String → Reach σ δ String
  rollbackLiteral : String → String → String → String → Reach σ δ Value
  goldenFromEvent : String → Nat → Reach σ δ Value
  dlqReplay : Option Nat → Option String → String → Reach σ δ Value
  dlqPurge : Option Nat → Option String → String → Reach σ δ Value
  -- behind no gate: a probe may run the command of the manifest
  probeConnector : String → Reach σ δ Value
  reload : Reach σ δ (Nat × Nat × Nat)
  sapRpcRequest : Value → Reach σ δ Value
  vplCheck : String → Except String Unit
  hydrateRecent : String → Nat → Except String (List (Nat × String × Value))
  ring : String → List Value
  -- under the lock of the canaries
  enterCanary : Plan → Except String Unit
  stopCanary : String → Bool
  language : String
  version : String
  cards : List Value

structure Turn extends Answers where
  created : Nat
  submitted : Nat

def approvalRequired : String :=
  "approval required: submit a proposal (vejas_propose, or the panel) — a human approves it, see ADR-0024"

def dlqHumanAct : String :=
  "approval required: replaying or discarding dead letters is a human " ++
    "action in governed mode: the panel, or X-Approval-Token (ADR-0024)"

def localRefused : String :=
  "clustered: this instance will not mutate its local files — promote through git (GitOps), see ADR-0020"

def localSecretsRefused : String :=
  "clustered: a local-file secret store would be written on " ++
    "one instance only — use a shared Vault backend, see ADR-0020"

section
variable [Server δ] (cfg : Settings) (works : Works σ δ)

def approvalGate : Reach σ δ Unit := if works.requireApproval then refuse approvalRequired else pure ()

def dlqAgentGate : Reach σ δ Unit := if works.requireApproval then refuse dlqHumanAct else pure ()

def clusterWriteGuard : Reach σ δ Unit := if cfg.clustered then refuse localRefused else pure ()

def secretsGuard : Reach σ δ Unit :=
  if cfg.clustered && !works.sharedSecrets then refuse localSecretsRefused else pure ()

def need (args : Value) (key : String) : Reach σ δ String := inWorld (required args key (key ++ " required"))

def toolText (v : String) : Value := .obj [("content", .array [.obj [("type", .string "text"), ("text", .string v)]])]

def startedStopped (n : Nat × Nat × Nat) : List (String × Value) :=
  [("started", .ofNat n.2.1), ("stopped", .ofNat n.2.2)]

variable [External] (surface : Surface)

def flowTool (path pkg : String) (prog : Program) : List (String × String × String) :=
  match prog.tool with
  | none => []
  | some desc =>
    let stem := stemOf path
    [(if pkg = "default" then "flow_" ++ stem else "flow_" ++ pkg ++ "_" ++ stem, path, desc)]

def toolFlows : Gov (List (String × String × String)) := scan flowTool (vjsFiles surface.site cfg.root)

def mcpTools : Gov Value := do
  let flows ← toolFlows cfg surface
  pure (.array (works.cards ++ flows.map fun f => .obj [
    ("name", .string f.1), ("description", .string f.2.2),
    ("inputSchema", .obj [("type", .string "object"), ("description", .string "the input event for this flow")])]))

def travelRows (site : Site) (pkg : String) (current candidate : Program) :
    List (Nat × String × Value) → Gov (List Value × Nat)
  | [] => pure ([], 0)
  | (seq, subject, event) :: rows => do
    let b ← shadowEmits cfg site pkg current event
    let a ← shadowEmits cfg site pkg candidate event
    let row := .obj [("seq", .ofNat seq), ("subject", .string subject), ("preview", .string (previewOf event)),
      ("before", b), ("after", a), ("changed", .bool (!b.eq a))]
    let (rest, changed) ← travelRows site pkg current candidate rows
    pure (row :: rest, if b.eq a then changed else changed + 1)

def sourceSubject (prog : Program) : Gov String :=
  match prog.source with
  | some subject => pure subject
  | none => fail "flow has no bus source to replay"

def timeTravel (fates : Fates) (file candidateSrc : String) (n : Nat) : Gov Value := do
  let path ← guarded cfg file
  let baseline ← readFile path
  let unit := flowProcName path
  connect fates
  let (currentSrc, _) ← resolveSource (fates .openVersions).isOk fates unit baseline
  let current ← .reads fun _ => parse currentSrc
  let candidate ← .reads fun _ => parse candidateSrc
  let subject ← sourceSubject current
  let rows ← .reads fun _ => (works.hydrateRecent subject n).mapError .err
  let (results, changed) ← travelRows cfg surface.site (pkgOfPath path) current candidate rows
  pure (.obj [("file", .string file), ("flow", .string unit), ("candidate_hash", .string (hashContent candidateSrc)),
    ("events", .ofNat results.length), ("changed", .ofNat changed), ("results", .array results)])

def canaryStart (fates : Fates) (file candidateSrc : String) : Gov Value := do
  let plan ← planOf cfg fates file candidateSrc
  let _ ← .reads fun _ => (works.enterCanary plan).mapError .err
  pure (.obj [("ok", .bool true), ("flow", .string plan.unit), ("candidate_hash", .string plan.candidateHash)])

def canaryStop (file : String) : Gov Value := do
  let path ← guarded cfg file
  let unit := flowProcName path
  pure (.obj [("ok", .bool true), ("flow", .string unit), ("stopped", .bool (works.stopCanary unit))])

def traffic : Traffic := ⟨fun subject n => (works.hydrateRecent subject n).toOption, works.ring⟩

def checkText (p content : String) : Gov Unit :=
  if endsWith p ".vjs" then do
    let _ ← .reads fun _ => parse content
  else if endsWith p ".json" then
    if (fromStr content).isSome then pure ()
    else fail ("fixture must be valid JSON: " ++ surface.site.jsonError content)
  else fail "only .vjs or .json files"

def writeFlow (t : Turn) (args : Value) : Reach σ δ Value := do
  approvalGate works
  clusterWriteGuard cfg
  let p ← need args "path"
  let content ← need args "content"
  let path ← inWorld (guarded cfg p)
  inWorld (checkText surface p content)
  inWorld (perform (t.own .writeFile) fun w => w.write path content)
  let n ← works.reload
  pure (toolText (Value.obj (("ok", .bool true) :: startedStopped n)).render)

def promoteFile (fates : Fates) (path file name key : String) (value : Value) (actor : String) : Gov Unit := do
  let src ← readFile path
  let before := (getLiteral src name key).getD .null
  let newSrc ← rewrite src name key value
  perform (fates .writeFile) fun w => w.write path newSrc
  recordPromote cfg fates file name key before value actor

def setLiteralTool (t : Turn) (args : Value) : Reach σ δ Value := do
  approvalGate works
  let file ← need args "file"
  let name ← need args "name"
  let key := (args.text "key").getD "-"
  if cfg.clustered then
    let out ← inWorld (promoteVersion cfg t.own file name key (args.index "value") "mcp")
    pure (toolText out.render)
  else
    let path ← inWorld (guarded cfg file)
    inWorld (promoteFile cfg t.own path file name key (args.index "value") "mcp")
    let _ ← works.reload
    pure (toolText (Value.obj [("ok", .bool true)]).render)

def rollbackTool (args : Value) : Reach σ δ Value := do
  approvalGate works
  clusterWriteGuard cfg
  let file ← need args "file"
  let name ← need args "name"
  let out ← works.rollbackLiteral file name ((args.text "key").getD "-") "rollback:mcp"
  let _ ← works.reload
  pure (toolText out.render)

def generateTool (generate : String → Reach σ δ String) (args : Value) : Reach σ δ Value := do
  approvalGate works
  clusterWriteGuard cfg
  let prompt ← need args "prompt"
  let res ← generate prompt
  let _ ← works.reload
  pure (toolText res)

def setSecretTool (args : Value) : Reach σ δ Value := do
  approvalGate works
  secretsGuard cfg works
  let ref ← need args "ref"
  let value ← need args "value"
  if value = "" then refuse "empty value"
  else
    let restarted ← works.setSecret ref value
    pure (toolText (Value.obj [("ok", .bool true), ("ref", .string ref), ("restarted", restarted)]).render)

def provisionTool (args : Value) : Reach σ δ Value := do
  approvalGate works
  clusterWriteGuard cfg
  let template ← need args "template"
  let slug ← need args "tenant_slug"
  let out ← works.provision template slug (((args.index "params").asObject).getD []) (((args.index "force").asBool).getD false)
  pure (toolText out.render)

def dlqTool (act : Option Nat → Option String → String → Reach σ δ Value) (args : Value) : Reach σ δ Value := do
  dlqAgentGate works
  let out ← act ((args.get "seq").bind Value.asU64) ((args.get "unit").bind Value.asStr) "mcp"
  pure (toolText out.render)

def proposeTool (t : Turn) (args : Value) : Reach σ δ Value := do
  let kind ← need args "kind"
  let record ← onEstate (submitProposal cfg t.created t.submitted t.own kind (args.index "payload") "mcp"
    ((args.get "evidence").getD .null))
  pure (toolText record.render)

def proposalsTool (t : Turn) : Reach σ δ Value := do
  let list ← inWorld (reconcileAndList cfg t.own t.reads t.each)
  pure (toolText (Value.obj [("proposals", .array list)]).render)

def fileTool (args : Value) (look : String → Gov String) : Reach σ δ Value := do
  let file ← need args "file"
  let out ← inWorld (look file)
  pure (toolText out)

def rendered (m : Gov Value) : Gov String := do
  let v ← m
  pure v.render

def sapTool (op : List (String × Value)) : Reach σ δ Value := do
  let out ← works.sapRpcRequest (.obj op)
  pure (toolText out.render)

def optionalArg (args : Value) (key : String) : List (String × Value) := ((args.get key).map (key, ·)).toList

def vplTool (args : Value) : Reach σ δ Value := do
  let file ← need args "file"
  let src ← inWorld (.reads fun w => match w.files (joinPath cfg.root file) with
    | .ok src => .ok src
    | .error _ => (w.files file).mapError .err)
  match works.vplCheck src with
  | .ok () => pure (toolText (Value.obj [("ok", .bool true), ("file", .string file)]).render)
  | .error e => pure (toolText (Value.obj [("ok", .bool false), ("file", .string file), ("error", .string e)]).render)

def flowAsTool (name : String) (args : Value) : Gov String := do
  let flows ← toolFlows cfg surface
  match flows.find? (·.1 == name) with
  | some (_, file, _) =>
    let emits ← runFlowOnInput cfg surface.site file args
    pure (Value.obj [("emits", .array emits)]).render
  | none => fail ("unknown tool " ++ debugStr name)

def shown (m : Gov String) : Reach σ δ Value := do
  let out ← inWorld m
  pure (toolText out)

def mcpCall (t : Turn) (name : String) (args : Value) : Reach σ δ Value :=
  match name with
  | "vejas_topology" => shown (pure (topologyJson surface.proc).render)
  | "vejas_graph" => shown (rendered (graphJson cfg surface.site surface.proc))
  | "vejas_surface" => shown (rendered (surfaceJson cfg surface.site surface.proc))
  | "vejas_read" => do
    let p ← need args "path"
    shown (do readFile (← guarded cfg p))
  | "vejas_language" => shown (pure works.language)
  | "vejas_vpl_check" => vplTool cfg works args
  | "vejas_events" => shown (pure (eventsJson surface.proc (args.text "flow")).render)
  | "vejas_write_flow" => writeFlow cfg works surface t args
  | "vejas_set_literal" => setLiteralTool cfg works t args
  | "vejas_rollback_literal" => rollbackTool cfg works args
  | "vejas_replay_literal" => do
    let file ← need args "file"
    let name ← need args "name"
    let n := ((args.index "n").asU64).getD 20
    shown (rendered (replayLiteral cfg surface.site (traffic works) file name ((args.text "key").getD "-") (args.index "value") n))
  | "vejas_time_travel" => do
    let file ← need args "file"
    let candidate ← need args "candidate"
    shown (rendered (timeTravel cfg works surface t.own file candidate (((args.index "n").asU64).getD 20)))
  | "vejas_canary_start" => do
    let file ← need args "file"
    let candidate ← need args "candidate"
    shown (rendered (canaryStart cfg works t.own file candidate))
  | "vejas_canary_status" => fileTool args fun file => rendered (canaryRead cfg surface.proc file)
  | "vejas_canary_stop" => fileTool args fun file => rendered (canaryStop cfg works file)
  | "vejas_propose" => proposeTool cfg t args
  | "vejas_proposals" => proposalsTool cfg t
  | "vejas_preview" => fileTool args (previewJson cfg surface.site)
  | "vejas_run_flow" => fileTool args fun file => do
    let emits ← runFlowOnInput cfg surface.site file (args.index "input")
    pure (Value.obj [("emits", .array emits)]).render
  | "vejas_new_flow" => generateTool cfg works works.generateFlow args
  | "vejas_new_connector" => generateTool cfg works works.generateConnector args
  | "vejas_reload" => do
    let n ← works.reload
    pure (toolText (Value.obj (("total", .ofNat n.1) :: startedStopped n)).render)
  | "vejas_drivers" => shown (pure (driversJson surface.proc).render)
  | "vejas_secrets" => shown (rendered (secretsJson cfg surface.site surface.proc))
  | "vejas_set_secret" => setSecretTool cfg works args
  | "vejas_test_connector" => do
    let file ← need args "file"
    let out ← works.probeConnector file
    pure (toolText out.render)
  | "vejas_provision" => provisionTool cfg works args
  | "sap_list" => sapTool works [("op", .string "list"), ("pattern", .string ((args.text "pattern").getD "*"))]
  | "sap_describe" => do
    let func ← need args "func"
    sapTool works [("op", .string "describe"), ("func", .string func)]
  | "sap_call" => do
    let func ← need args "func"
    sapTool works ([("op", .string "call"), ("func", .string func)] ++ optionalArg args "import" ++ optionalArg args "max_rows")
  | "sap_send_idoc" => sapTool works ([("op", .string "send_idoc"), ("control", (args.get "control").getD (.obj [])),
      ("data", (args.get "data").getD (.array []))] ++ optionalArg args "tid")
  | "vejas_dlq" => shown (rendered (.reads fun _ =>
      match dlqList surface.dlq ((args.get "limit").bind Value.asU64 |>.getD 100) with
      | .ok l => .ok (.obj [("dead_letters", .array l)])
      | .error e => .error (.err e)))
  | "vejas_dlq_replay" => dlqTool works works.dlqReplay args
  | "vejas_dlq_purge" => dlqTool works works.dlqPurge args
  | other => shown (flowAsTool cfg surface other args)

def rpcOk (id result : Value) : Value := .obj [("jsonrpc", .string "2.0"), ("id", id), ("result", result)]

def rpcError (id : Value) (code : Int64) (msg : String) : Value := .obj [
  ("jsonrpc", .string "2.0"), ("id", id), ("error", .obj [("code", .number (.ofI64 code)), ("message", .string msg)])]

def mcpDispatch (t : Turn) (req : Value) : Reach σ δ (Option Value) :=
  let id := (req.get "id").getD .null
  match (req.text "method").getD "" with
  | "initialize" => pure (some (rpcOk id (.obj [
      ("protocolVersion", .string "2024-11-05"),
      ("capabilities", .obj [("tools", .obj [("listChanged", .bool true)])]),
      ("serverInfo", .obj [("name", .string "vejas"), ("version", .string works.version)])])))
  | "notifications/initialized" => pure none
  | "notifications/cancelled" => pure none
  | "ping" => pure (some (rpcOk id (.obj [])))
  | "tools/list" => do
    let tools ← inWorld (mcpTools cfg works surface)
    pure (some (rpcOk id (.obj [("tools", tools)])))
  | "tools/call" => do
    let params := req.index "params"
    match ← told (mcpCall cfg works surface t ((params.text "name").getD "") ((params.get "arguments").getD (.obj []))) with
    | .ok result => pure (some (rpcOk id result))
    | .error e => pure (some (rpcOk id (.obj [
        ("content", .array [.obj [("type", .string "text"), ("text", .string ("error: " ++ e))]]), ("isError", .bool true)])))
  | method => pure (some (rpcError id (-32601) ("method not found: " ++ method)))

def mcpBatch (turn : Nat → Turn) : Nat → List Value → Reach σ δ (List Value)
  | _, [] => pure []
  | n, req :: reqs => do
    let reply ← mcpDispatch cfg works surface (turn n) req
    let replies ← mcpBatch turn (n + 1) reqs
    pure (reply.toList ++ replies)

def serveMcp (turn : Nat → Turn) (body : Value) : Reach σ δ Response :=
  match body with
  | .array reqs => do
    let replies ← mcpBatch cfg works surface turn 0 reqs
    pure (if replies.isEmpty then json 202 "" else json 200 (Value.array replies).render)
  | req => do
    match ← mcpDispatch cfg works surface (turn 0) req with
    | some reply => pure (json 200 reply.render)
    | none => pure (json 202 "")

end

def Yields (m : Reach σ δ α) (Q : α → Prop) : Prop := ∀ a e e', m e = (.ok a, e') → Q a

theorem yields_pure {Q : α → Prop} {a : α} (h : Q a) : Yields (pure a : Reach σ δ α) Q := by
  intro b e e' heq
  cases heq
  exact h

section
variable [External] [Server δ] {cfg : Settings} {works : Works σ δ} {surface : Surface}

end

/-- A message below the root of the dead letters is one of them; the streams have no other interface. -/
instance : Server (List String) where
  capture _ payload letters := letters ++ [payload]
  system _ _ streams := streams

def openWorks (requireApproval : Bool) : Works Unit (List String) where
  requireApproval
  sharedSecrets := false
  setSecret _ _ := pure .null
  provision _ _ _ _ := pure .null
  generateFlow _ := pure ""
  generateConnector _ := pure ""
  rollbackLiteral _ _ _ _ := pure .null
  goldenFromEvent _ _ := pure .null
  dlqReplay _ _ _ := pure .null
  dlqPurge _ _ _ := fun e => (.ok .null, { e with letters := [] })
  probeConnector _ := pure .null
  reload := pure (0, 0, 0)
  sapRpcRequest _ := refuse ""
  vplCheck _ := .ok ()
  hydrateRecent _ _ := .ok []
  ring _ := []
  enterCanary _ := .ok ()
  stopCanary _ := false
  language := ""
  version := "1"
  cards := []

def everyTurn : Nat → Turn := fun _ => ⟨everyOk, 1, 1⟩

def oneLetter : Estate Unit (List String) := ⟨1, movedOn, (), ["order"]⟩

end Vejas.Http
