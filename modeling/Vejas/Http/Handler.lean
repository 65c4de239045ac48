import Vejas.Http.Pages

/-! `handle_request`: the write gate, the API surface, the decisions on proposals and the pages. -/

namespace Vejas.Http
open Json Rust Vjs Governance

/-- What the handler works on besides the world, and the routes that only POST reaches. -/
structure Surface where
  site : Site
  proc : Process
  dlq : DlqStream
  behind : Request → Gov Response

/-- How the calls end that a request makes: those of its own, the reads of the listing, those
for each listed proposal, those of a decision, and the emits of an API flow. -/
structure Answers where
  own : Fates
  reads : String → Bool
  each : Nat → DecisionFates
  decision : DecisionFates
  sent : Nat → Fate

def text (code : Nat) (body : String) : Response := ⟨code, body, "text/plain"⟩

def json (code : Nat) (body : String) : Response := ⟨code, body, "application/json"⟩

def answer (failure : Nat) (m : Gov String) : Gov Response := do
  match ← caught m with
  | .ok body => pure (json 200 body)
  | .error e => pure (text failure e)

def withFile (r : Request) (serve : String → Gov Response) : Gov Response :=
  match qparam r.url "file" with
  | some file => serve file
  | none => pure (text 400 "missing file")

section
variable [External]

def page (failure : Nat) (m : Gov Value) : Gov Response := answer failure do
  let v ← m
  pure v.render

def apiEvent (r : Request) (params : List (String × String)) : Value :=
  let body := (readBody r).asObject.getD []
  let withParams := params.foldl (fun ev p => Map.insert p.1 (.string p.2) ev) body
  .object (withParams.insert "query" (parseQuery r.url))

def apiRefused (cfg : Settings) (r : Request) (file : String) : Gov Bool := do
  match cfg.writeToken with
  | none => pure false
  | some token =>
    -- every other method has passed the write gate
    if !isReadMethod r.method then pure false
    else
      let writes ← flowWritesBus cfg file
      pure (writes && !bearerAuthorized r token)

def serveApi (cfg : Settings) (site : Site) (env : Answers) (r : Request) (rel : String) :
    Gov Response := do
  let method := methodStr r.method
  match ← matchApiRoute cfg site method rel with
  | none =>
    pure (json 404 (Value.obj [("error", .string "no API route"), ("method", .string method),
      ("path", .string ("/" ++ rel))]).render)
  | some (file, params) =>
    if ← apiRefused cfg r file then
      pure (text 401 ("unauthorized: this endpoint writes to the bus; " ++
        "set Authorization: Bearer <VEJAS_TOKEN>"))
    else
      let (code, out) ← runApiFlow cfg site env.own env.sent file (apiEvent r params)
      pure (json code out)

def serveDecision (cfg : Settings) (env : Answers) (r : Request) (rest : String) : Gov Response :=
  match rsplitOnce rest '/' with
  | none => pure (text 400 "use /proposals/\x7bid\x7d/approve|reject")
  | some (id, action) =>
    if action ≠ "approve" ∧ action ≠ "reject" then
      pure (text 400 "action must be approve or reject")
    else if cfg.approvalToken = none then
      pure (text 403 ("approval requires VEJAS_APPROVAL_TOKEN " ++
        "(a credential distinct from the agent's VEJAS_TOKEN)"))
    else if !approvalAuthorized cfg r then
      pure (text 401 "unauthorized: X-Approval-Token required")
    else page 422 (decideProposal cfg env.decision id (action == "approve") (headerActor r "panel"))

def serveFile (cfg : Settings) (r : Request) : Gov Response := fun w =>
  match (qparam r.url "path").bind (guardPath w cfg.root) with
  | none => (.ok (text 400 "path not allowed"), w)
  | some p =>
    match w.files p with
    | .ok content =>
      (.ok (json 200 (Value.obj [("path", .string p), ("content", .string content)]).render), w)
    | .error e => (.ok (text 404 e), w)

def serveFixture (cfg : Settings) (file : String) : Gov Response := fun w =>
  match guardPath w cfg.root file with
  | none => (.ok (text 400 "path not allowed"), w)
  | some p =>
    let fx := fixturePathFor p
    let content := (w.files fx).toOption.getD "\x7b\x7d"
    (.ok (json 200 (Value.obj [("path", .string fx), ("content", .string content)]).render), w)

def serveProposals (cfg : Settings) (env : Answers) : Gov Response := page 500 do
  let list ← reconcileAndList cfg env.own env.reads env.each
  pure (.obj [("proposals", .array list)])

def serveDlq (dlq : DlqStream) : Gov Response := page 500 <| .reads fun _ =>
  match dlqList dlq 200 with
  | .ok l => .ok (.obj [("dead_letters", .array l)])
  | .error e => .error (.err e)

def serveGet (cfg : Settings) (s : Surface) (env : Answers) (r : Request) (path : String) :
    Gov Response :=
  match path with
  | "/proposals" => serveProposals cfg env
  | "/" | "/panel" => pure ⟨200, s.proc.panel, "text/html; charset=utf-8"⟩
  | "/healthz" => pure (text 200 "ok")
  | "/evictions" => page 500 (pure (.obj [("evictions", .array s.proc.evictions)]))
  | "/metrics" => pure ⟨200, s.proc.metrics, "text/plain; version=0.0.4"⟩
  | "/topology" => page 500 (pure (topologyJson s.proc))
  | "/graph" => page 500 (graphJson cfg s.site s.proc)
  | "/surface" => page 500 (surfaceJson cfg s.site s.proc)
  | "/events" => page 500 (pure (eventsJson s.proc (qparam r.url "flow")))
  | "/dlq" => serveDlq s.dlq
  | "/drivers" => page 500 (pure (driversJson s.proc))
  | "/secrets" => page 500 (secretsJson cfg s.site s.proc)
  | "/preview" => withFile r fun file => answer 500 (previewJson cfg s.site file)
  | "/rules" => withFile r fun file => page 500 (rulesJson cfg s.proc file)
  | "/file" => serveFile cfg r
  | "/fixture" => withFile r (serveFixture cfg)
  | "/surface/canary" => withFile r fun file => page 422 (canaryRead cfg s.proc file)
  | _ => pure (text 404 "not found")

def refused (cfg : Settings) (r : Request) : Bool :=
  match cfg.writeToken with
  | none => false
  | some token =>
    !isReadMethod r.method && !bearerAuthorized r token &&
      !(isHumanRoute (pathOnly r.url) && approvalAuthorized cfg r)

def handleRequest (cfg : Settings) (s : Surface) (env : Answers) (r : Request) : Gov Response :=
  let path := pathOnly r.url
  if refused cfg r then pure (text 401 "unauthorized: set Authorization: Bearer <VEJAS_TOKEN>")
  else if path = "/api/openapi.json" then page 500 (openapiJson cfg s.site s.proc)
  else match stripStart path "/api/" with
    | some rel => serveApi cfg s.site env r rel
    | none =>
      match r.method with
      | .get => serveGet cfg s env r path
      | .post =>
        match stripStart path "/proposals/" with
        | some rest => serveDecision cfg env r rest
        | none => s.behind r
      | _ => pure (text 404 "not found")

end

end Vejas.Http
