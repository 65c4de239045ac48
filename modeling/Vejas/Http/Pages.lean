import Vejas.Http.Api

/-! The pages of the panel: what each of them reads, and the document it makes of it. -/

namespace Vejas.Http
open Json Rust Vjs Governance

inductive UnitKind
  | flow
  | connector
  | detect
  deriving DecidableEq

structure Supervised where
  name : String
  file : String
  pkg : String
  kind : UnitKind
  status : String
  restarts : Nat
  startedAt : Option Nat
  lastError : Option String

structure Canary where
  running : Bool
  candidateHash : String
  startedAt : Nat
  total : Nat
  changed : Nat
  stopReason : Option String
  ring : List Value

structure Driver where
  name : String
  kind : String
  about : String

/-- The state of the process that the pages report on, with the documents other parts of the
program make: the panel, the exposition of the metrics and the rules of a flow. -/
structure Process where
  units : List Supervised
  traces : List (String × List Value)
  canaries : List (String × Canary)
  evictions : List Value
  rotations : List String
  drivers : List Driver
  storeKind : String
  apiTitle : String
  apiVersion : String
  apiDescription : String
  panel : String
  metrics : String
  flowRules : Program → String → List Value

structure DlqStream where
  connect : Except String Unit
  state : Except String (Nat × Nat × Nat)
  message : Nat → Option (Nat × String)

def optional {α : Type} (f : α → Value) : Option α → Value
  | some a => f a
  | none => .null

section
variable [External]

def unitJson (u : Supervised) : Value := .obj [
  ("name", .string u.name), ("file", .string u.file), ("pkg", .string u.pkg),
  ("lang", .string (if u.kind = .detect then "vpl" else "vjs")), ("status", .string u.status),
  ("restarts", .ofNat u.restarts), ("started_at", optional .ofNat u.startedAt),
  ("last_error", optional .string u.lastError)]

def topologyJson (proc : Process) : Value :=
  let unitsOf (kind : UnitKind) := Value.array ((proc.units.filter (·.kind == kind)).map unitJson)
  .obj [("flows", unitsOf .flow), ("connectors", unitsOf .connector), ("detects", unitsOf .detect)]

def previewOf (v : Value) : String :=
  let s := v.render
  if 160 < s.toList.length then String.ofList (s.toList.take 159) ++ "…" else s

def traceJson : Value → Value
  | .object o =>
    let shown := (Map.get? o "preview").bind Value.asStr
    let o := if shown.getD "" = "" then
        Map.insert "preview" (.string (((Map.get? o "event").map previewOf).getD "")) o
      else o
    .object (Map.remove o "event")
  | v => v

def eventsJson (proc : Process) (flow : Option String) : Value :=
  let seq (e : Value) := ((e.index "seq").asU64).getD 0
  let all := (proc.traces.filter fun t => flow.all (· == t.1)).flatMap fun t => t.2.map traceJson
  .obj [("events", .array ((all.mergeSort fun a b => decide (seq b ≤ seq a)).take 100))]

def driversJson (proc : Process) : Value := .array <| proc.drivers.map fun d => .obj [
  ("driver", .string d.name), ("kind", .string d.kind), ("about", .string d.about)]

def canaryRead (cfg : Settings) (proc : Process) (file : String) : Gov Value := do
  let path ← guarded cfg file
  let unit := flowProcName path
  match proc.canaries.lookup unit with
  | none => pure (.obj [("running", .bool false), ("flow", .string unit), ("events", .ofNat 0)])
  | some c => pure (.obj [
      ("running", .bool c.running), ("flow", .string unit),
      ("candidate_hash", .string c.candidateHash), ("started_at", .ofNat c.startedAt),
      ("events", .ofNat c.total), ("changed", .ofNat c.changed),
      ("stop_reason", optional .string c.stopReason),
      ("results", .array (c.ring.reverse.take 100))])

def isService (path : String) : Bool := ((parent path).bind fileName) == some "services"

def vjsKindOf (name : String) (value : Value) : String :=
  if value.asObject.isSome then if startsWith name "MAPPING" then "mapping" else "table"
  else "constant"

def flowCards (path pkg : String) (prog : Program) : List Value :=
  let card (es : List (String × Value)) := Value.obj <| ("file", .string path) :: es ++
    [("lang", .string "vjs"), ("pkg", .string pkg), ("service", .bool (isService path))]
  -- a flow without literals has an empty card
  if prog.surface.isEmpty then
    [card [("name", .string ""), ("kind", .string "none"), ("value", .null)]]
  else prog.surface.map fun e => card [("name", .string e.name),
    ("kind", .string (vjsKindOf e.name e.value)), ("value", e.value),
    ("list", .bool e.value.asArray.isSome)]

def driverKind (proc : Process) (name : String) : String :=
  ((proc.drivers.find? (·.name == name)).map (·.kind)).getD "unknown"

def connectorCards (proc : Process) (path pkg : String) (prog : Program) : List Value :=
  match prog.driver with
  | none => []
  | some driver =>
    let card (es : List (String × Value)) := Value.obj <| [("file", .string path),
      ("lang", .string "vjs"), ("pkg", .string pkg), ("service", .bool false),
      ("connector", .bool true), ("driver", .string driver),
      ("driver_kind", .string (driverKind proc driver))] ++ es
    if prog.surface.isEmpty then
      [card [("name", .string ""), ("kind", .string "none"), ("value", .null)]]
    else prog.surface.map fun e => card [("name", .string e.name),
      ("kind", .string (vjsKindOf e.name e.value)), ("value", e.value),
      ("list", .bool e.value.asArray.isSome)]

def surfaceJson (cfg : Settings) (site : Site) (proc : Process) : Gov Value := do
  let flows ← scan flowCards (vjsFiles site cfg.root)
  let connectors ← scan (connectorCards proc) (connectorFiles site cfg.root)
  pure (.array (flows ++ connectors))

def strings (l : List String) : Value := .array (l.map .string)

def connectorEntry (proc : Process) (path _pkg : String) (prog : Program) : List Value :=
  match prog.driver with
  | none => []
  | some driver =>
    let kind := driverKind proc driver
    let subject := ((prog.surface.reverse.find? (·.name == "SUBJECT")).map (·.value)).bind Value.asStr
    let ends := if startsWith kind "source" then [("subjects_out", strings [subject.getD "vx.*"])]
      else (subject.map fun s => ("subjects_in", strings [s])).toList
    let refs := prog.secretRefs.map fun s => Value.obj [("var", .string s.1), ("ref", .string s.2)]
    [.obj ([("name", .string (stemOf path)), ("driver", .string driver), ("kind", .string kind)] ++
      ends ++ if refs.isEmpty then [] else [("secret_refs", .array refs)])]

def graphEntry (path pkg : String) (prog : Program) : List (Bool × Value) :=
  let stem := stemOf path
  [(isService path, .obj [
    ("file", .string path),
    ("name", .string (if pkg = "default" then stem else pkg ++ ":" ++ stem)),
    ("sources", strings prog.source.toList), ("emits", strings prog.emitSubjects),
    ("invokes", strings prog.invokes), ("lang", .string "vjs"), ("pkg", .string pkg)])]

def graphJson (cfg : Settings) (site : Site) (proc : Process) : Gov Value := do
  let connectors ← scan (connectorEntry proc) (scriptsUnder site cfg.root ["connectors"])
  let entries ← scan graphEntry (vjsFiles site cfg.root)
  let those (service : Bool) := Value.array ((entries.filter (·.1 == service)).map (·.2))
  pure (.obj [("flows", those false), ("services", those true), ("connectors", .array connectors)])

def secretUses (path _pkg : String) (prog : Program) : List (String × String) :=
  prog.secretRefs.map fun s => (s.2, path)

def secretsJson (cfg : Settings) (site : Site) (proc : Process) : Gov Value := do
  let inFlows ← scan secretUses (vjsFiles site cfg.root)
  let inConnectors ← scan secretUses (connectorFiles site cfg.root)
  let uses := inFlows ++ inConnectors
  let refs := ((uses.map (·.1)).eraseDups).mergeSort fun a b => !strLt b a
  let entries := refs.map fun r => Value.obj [
    ("ref", .string r), ("used_by", strings ((uses.filter (·.1 == r)).map (·.2))),
    ("status", .string (if (site.secrets r).toBool then "ok" else "missing")),
    ("rotation_requested", .bool (proc.rotations.contains r))]
  pure (.obj [("backend", .string proc.storeKind), ("writable", .bool (proc.storeKind != "env")),
    ("secrets", .array entries)])

def rulesJson (cfg : Settings) (proc : Process) (file : String) : Gov Value := do
  let path ← guarded cfg file
  let src ← readFile path
  let prog ← .reads fun _ => parse src
  pure (.obj [("file", .string file), ("rules", .array (proc.flowRules prog src))])

def schemaType (name : String) : String :=
  let t := toAsciiLowercase name
  if ["number", "float", "double", "decimal"].contains t then "number"
  else if ["int", "integer"].contains t then "integer"
  else if ["bool", "boolean"].contains t then "boolean"
  else if ["array", "list"].contains t then "array"
  else if ["object", "map"].contains t then "object"
  else "string"

def typed (name : String) : Value := .obj [("type", .string name)]

def jsonSchemaFromLiteral : Value → Value
  | .object o => .obj [("type", .string "object"), ("properties", .obj (o.map fun p =>
      (p.1, typed (match p.2 with
        | .string s => schemaType s
        | .object _ => "object"
        | .array _ => "array"
        | _ => "string"))))]
  | _ => typed "object"

def Seg.asStr : Seg → String
  | lit l => l
  | param p => "\x7b" ++ p ++ "\x7d"

def Seg.paramJson : Seg → Option Value
  | lit _ => none
  | param p => some (.obj [("name", .string p), ("in", .string "path"), ("required", .bool true),
      ("schema", typed "string")])

def Seg.literal : Seg → Option String
  | lit l => some l
  | param _ => none

def content (schema : Value) : Value := .obj [("application/json", .obj [("schema", schema)])]

def operation (r : ApiRoute) : Value :=
  let schema (literal : Option Value) := (literal.map jsonSchemaFromLiteral).getD (typed "object")
  let params := r.segs.filterMap Seg.paramJson
  .obj ([("summary", .string r.summary), ("operationId", .string r.opId),
      ("tags", strings [((r.segs.findSome? Seg.literal)).getD "default"]),
      ("responses", .obj [
        ("200", .obj [("description", .string "OK"), ("content", content (schema r.respSchema))]),
        ("500", .obj [("description", .string "Flow error")])])] ++
    (if params.isEmpty then [] else [("parameters", .array params)]) ++
    if ["POST", "PUT", "PATCH"].contains r.method then
      [("requestBody", .obj [("required", .bool true), ("content", content (schema r.reqSchema))])]
    else [])

def addOperation (paths : Map) (r : ApiRoute) : Map :=
  let path := "/" ++ join "/" (r.segs.map Seg.asStr)
  let entry := ((Map.get? paths path).bind Value.asObject).getD []
  paths.insert path (.object (entry.insert (toAsciiLowercase r.method) (operation r)))

def openapiJson (cfg : Settings) (site : Site) (proc : Process) : Gov Value := do
  let routes ← apiRoutes site cfg.root
  pure (.obj [("openapi", .string "3.0.3"),
    ("info", .obj [("title", .string proc.apiTitle), ("version", .string proc.apiVersion),
      ("description", .string proc.apiDescription)]),
    ("servers", .array [.obj [("url", .string "/api")]]),
    ("paths", .object (routes.foldl addOperation []))])

def deadLetter (dlq : DlqStream) (seq : Nat) : List Value :=
  match (dlq.message seq).bind fun m => (fromStr m.2).map (m.1, ·) with
  | some (sequence, .object o) => [.object (Map.insert "seq" (.ofNat sequence) o)]
  | some (_, v) => [v]
  | none => []

def dlqFrom (dlq : DlqStream) (first limit : Nat) : Nat → List Value → List Value
  | 0, out => out ++ deadLetter dlq 0
  | seq + 1, out =>
    let out := out ++ deadLetter dlq (seq + 1)
    if seq + 1 ≤ first ∨ limit ≤ out.length then out else dlqFrom dlq first limit seq out

def dlqList (dlq : DlqStream) (limit : Nat) : Except String (List Value) := do
  dlq.connect
  let (first, last, messages) ← dlq.state
  if last = 0 ∨ messages = 0 then pure [] else pure (dlqFrom dlq first limit last [])

end

end Vejas.Http
