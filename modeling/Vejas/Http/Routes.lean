import Vejas.Http.Tools

/-! The routes that only POST reaches, and `handle_request` on all that it can reach. -/

namespace Vejas.Http
open Json Rust Vjs Governance Fallible

variable {σ δ : Type} [Server δ] (cfg : Settings) (works : Works σ δ)

def gated (gate : Reach σ δ Unit) (rest : Reach σ δ Response) : Reach σ δ Response := do
  match ← told gate with
  | .ok () => rest
  | .error e => pure (text 409 e)

def gatedLocal (rest : Reach σ δ Response) : Reach σ δ Response :=
  gated (approvalGate works) (gated (clusterWriteGuard cfg) rest)

def replied (failure : Nat) (m : Reach σ δ String) : Reach σ δ Response := do
  match ← told m with
  | .ok body => pure (json 200 body)
  | .error e => pure (text failure e)

def dlqGated (r : Request) (rest : Reach σ δ Response) : Reach σ δ Response :=
  if !works.requireApproval || approvalAuthorized cfg r then rest
  else if r.headers.any fun h => equiv h.1 "x-approval-token" then
    pure (text 401 "unauthorized: X-Approval-Token required")
  else pure (text 409 dlqHumanAct)

variable [External] (surface : Surface)

def rendering (m : Reach σ δ Value) : Reach σ δ String := do
  let v ← m
  pure v.render

def serveGolden (body : Value) : Reach σ δ Response := gatedLocal cfg works <|
  replied 422 (rendering (works.goldenFromEvent ((body.text "flow").getD "") (((body.index "seq").asU64).getD (2 ^ 64 - 1))))

def serveDlqAct (r : Request) (act : Option Nat → Option String → String → Reach σ δ Value) : Reach σ δ Response :=
  dlqGated cfg works r <|
    let body := readBody r
    replied 422 (rendering (act ((body.get "seq").bind Value.asU64) ((body.get "unit").bind Value.asStr) (headerActor r "panel")))

def serveSetSecret (body : Value) : Reach σ δ Response := gated (approvalGate works) <| gated (secretsGuard cfg works) <|
  match body.text "ref", body.text "value" with
  | some ref, some value =>
    if value = "" then pure (text 400 "empty value")
    else replied 422 do
      let restarted ← works.setSecret ref value
      pure (Value.obj [("ok", .bool true), ("ref", .string ref), ("restarted", restarted)]).render
  | _, _ => pure (text 400 "need ref+value")

def serveProbe (body : Value) : Reach σ δ Response :=
  match body.text "file" with
  | some file => do
    let verdict ← works.probeConnector file
    pure (json 200 verdict.render)
  | none => pure (text 400 "need file")

def serveProvision (body : Value) : Reach σ δ Response := gatedLocal cfg works <|
  match body.text "template", body.text "tenant_slug" with
  | some template, some slug => replied 422 (rendering (works.provision template slug
      (((body.index "params").asObject).getD []) (((body.index "force").asBool).getD false)))
  | _, _ => pure (text 400 "need template+tenant_slug")

def withGuarded (rel : String) (rest : String → Reach σ δ Response) : Reach σ δ Response := do
  match ← told (inWorld (guarded cfg rel)) with
  | .ok path => rest path
  | .error _ => pure (text 400 "path not allowed")

def writing (fates : Fates) (path content : String) : Gov Unit :=
  perform (fates .writeFile) fun w => w.write path content

def writtenAndReloaded (fates : Fates) (path content : String) : Reach σ δ Response := do
  match ← told (inWorld (writing fates path content)) with
  | .error e => pure (text 500 e)
  | .ok () =>
    let n ← works.reload
    pure (json 200 (Value.obj (("ok", .bool true) :: startedStopped n)).render)

def serveFileSet (t : Turn) (body : Value) : Reach σ δ Response := gatedLocal cfg works <|
  match body.text "path", body.text "content" with
  | some pstr, some content => withGuarded cfg pstr fun path => do
    -- a script has to parse; any other file goes in as it is
    match ← told (inWorld (.reads fun _ => if endsWith pstr ".vjs" then (parse content).map fun _ => () else .ok ())) with
    | .error e => pure (text 422 e)
    | .ok () => writtenAndReloaded works t.own path content
  | _, _ => pure (text 400 "need path+content")

def serveFixtureSet (t : Turn) (body : Value) : Reach σ δ Response := gatedLocal cfg works <|
  match body.text "file", body.text "content" with
  | some file, some content => withGuarded cfg file fun path =>
    if (fromStr content).isNone then pure (text 422 "fixture must be valid JSON")
    else do
      match ← told (inWorld (writing t.own (fixturePathFor path) content)) with
      | .ok () => pure (json 200 (Value.obj [("ok", .bool true)]).render)
      | .error e => pure (text 500 e)
  | _, _ => pure (text 400 "need file+content")

def bodyText (body : Value) (key : String) : String := (body.text key).getD ""

def keyText (body : Value) : String := (body.text "key").getD "-"

def lastN (body : Value) : Nat := ((body.index "n").asU64).getD 20

def serveReplay (body : Value) : Reach σ δ Response := replied 422 <| inWorld <| rendered <|
  replayLiteral cfg surface.site (traffic works) (bodyText body "file") (bodyText body "name") (keyText body)
    (body.index "value") (lastN body)

def serveTravel (t : Turn) (body : Value) : Reach σ δ Response := replied 422 <| inWorld <| rendered <|
  timeTravel cfg works surface t.own (bodyText body "file") (bodyText body "candidate") (lastN body)

def serveCanaryStart (t : Turn) (body : Value) : Reach σ δ Response := do
  match ← told (inWorld (rendered (canaryStart cfg works t.own (bodyText body "file") (bodyText body "candidate")))) with
  | .ok out => pure (json 200 out)
  | .error e => pure (text (if contains e "already running" then 409 else 422) e)

def serveCanaryStop (body : Value) : Reach σ δ Response :=
  replied 422 (inWorld (rendered (canaryStop cfg works (bodyText body "file"))))

def serveSurfaceSet (t : Turn) (r : Request) (body : Value) : Reach σ δ Response := gated (approvalGate works) <|
  let file := bodyText body "file"
  let name := bodyText body "name"
  let key := keyText body
  let value := body.index "value"
  let actor := headerActor r "panel"
  if cfg.clustered then replied 422 (inWorld (rendered (promoteVersion cfg t.own file name key value actor)))
  else withGuarded cfg file fun path => do
    match ← told (inWorld (readFile path)) with
    | .error e => pure (text 500 e)
    | .ok src =>
      match ← told (inWorld (rewrite src name key value)) with
      | .error e => pure (text 422 e)
      | .ok newSrc =>
        match ← told (inWorld (writing t.own path newSrc)) with
        | .error e => pure (text 500 e)
        | .ok () =>
          inWorld (recordPromote cfg t.own file name key ((getLiteral src name key).getD .null) value actor)
          let _ ← works.reload
          pure (json 200 (Value.obj [
            ("ok", .bool true), ("file", .string file), ("name", .string name), ("key", .string key)]).render)

def serveRollback (r : Request) (body : Value) : Reach σ δ Response := gatedLocal cfg works <| replied 422 do
  let out ← works.rollbackLiteral (bodyText body "file") (bodyText body "name") (keyText body)
    ("rollback:" ++ headerActor r "panel")
  let _ ← works.reload
  pure out.render

def serveGenerate (generate : String → Reach σ δ String) (body : Value) : Reach σ δ Response := gatedLocal cfg works <|
  let prompt := bodyText body "prompt"
  if trim prompt = "" then pure (text 400 "missing prompt")
  else replied 422 do
    let out ← generate prompt
    let _ ← works.reload
    pure out

def serveReload : Reach σ δ Response := do
  let n ← works.reload
  pure (json 200 (Value.obj (("total", .ofNat n.1) :: startedStopped n)).render)

def servePost (turn : Nat → Turn) (r : Request) : Reach σ δ Response :=
  let body := readBody r
  match pathOnly r.url with
  | "/events/golden" => serveGolden cfg works body
  | "/dlq/replay" => serveDlqAct cfg works r works.dlqReplay
  | "/dlq/purge" => serveDlqAct cfg works r works.dlqPurge
  | "/secrets/set" => serveSetSecret cfg works body
  | "/connectors/test" => serveProbe works body
  | "/provision" => serveProvision cfg works body
  | "/file/set" => serveFileSet cfg works (turn 0) body
  | "/fixture/set" => serveFixtureSet cfg works (turn 0) body
  | "/surface/replay" => serveReplay cfg works surface body
  | "/surface/timetravel" => serveTravel cfg works surface (turn 0) body
  | "/surface/canary/start" => serveCanaryStart cfg works (turn 0) body
  | "/surface/canary/stop" => serveCanaryStop cfg works body
  | "/surface/set" => serveSurfaceSet cfg works (turn 0) r body
  | "/surface/rollback" => serveRollback cfg works r body
  | "/flows/new" => serveGenerate cfg works works.generateFlow body
  | "/connectors/new" => serveGenerate cfg works works.generateConnector body
  | "/reload" => serveReload works
  | "/mcp" => serveMcp cfg works surface turn body
  | _ => pure (text 404 "not found")

def reachesPost (r : Request) : Bool :=
  !refused cfg r && r.method == .post && pathOnly r.url != "/api/openapi.json" &&
    (stripStart (pathOnly r.url) "/api/").isNone && (stripStart (pathOnly r.url) "/proposals/").isNone

def serve (turn : Nat → Turn) (r : Request) : Reach σ δ Response :=
  if reachesPost cfg r then servePost cfg works surface turn r
  else inWorld (handleRequest cfg surface (turn 0).toAnswers r)

end Vejas.Http
