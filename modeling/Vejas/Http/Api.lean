import Vejas.Governance.Proposals
import Vejas.Http.Request
import Vejas.Vjs.Eval

/-! Flows that declare `api "VERB /path"`: the route of a request, the check whether its flow
writes to the bus, and the run that answers it. -/

namespace Vejas.Http
open Json Rust Vjs Governance

/-- What a request finds besides the world: the directories, the files that exist, the secret
store and what the JSON crate says about a text it rejects. -/
structure Site where
  readDir : String → Option (List String)
  fileExists : String → Bool
  secrets : SecretStore
  jsonError : String → String

inductive Seg
  | lit (s : String)
  | param (name : String)
  deriving DecidableEq

structure ApiRoute where
  method : String
  segs : List Seg
  file : String
  summary : String
  opId : String
  reqSchema : Option Value
  respSchema : Option Value

def caught {α : Type} (m : Gov α) : Gov (Except String α) := fun w =>
  match m w with
  | (.ok a, w) => (.ok (.ok a), w)
  | (.error (.err e), w) => (.ok (.error e), w)
  | (.error f, w) => (.error f, w)

def scriptsIn (site : Site) (dir pkg : String) : List (String × String) :=
  (((site.readDir dir).getD []).map (joinPath dir)).filterMap fun p =>
    if extension p = some "vjs" then some (p, pkg) else none

def scriptsUnder (site : Site) (root : String) (dirs : List String) : List (String × String) :=
  let packages := joinPath root "packages"
  dirs.flatMap (fun dir => scriptsIn site (joinPath root dir) "default") ++
    ((site.readDir packages).getD []).flatMap fun pkg =>
      dirs.flatMap fun dir => scriptsIn site (joinPath (joinPath packages pkg) dir) pkg

def sorted (files : List (String × String)) : List (String × String) :=
  files.mergeSort fun a b => pathLt a.1 b.1 || (!pathLt b.1 a.1 && !strLt b.2 a.2)

def vjsFiles (site : Site) (root : String) : List (String × String) :=
  sorted <| (scriptsUnder site root ["flows", "services"]).filter fun f =>
    fileName f.1 != some "package.vjs"

def connectorFiles (site : Site) (root : String) : List (String × String) :=
  sorted (scriptsUnder site root ["connectors"])

def segsOf (path : String) : List String := (split (trimMatches '/' path) "/").filter (· != "")

def segOf (s : String) : Seg :=
  if startsWith s "\x7b" && endsWith s "\x7d" then .param (onChars (fun cs => (cs.drop 1).dropLast) s)
  else .lit s

def parseApiSpec (spec : String) : Option (String × List Seg) :=
  match splitWhitespace spec with
  | method :: path :: _ => some (toAsciiUppercase method, (segsOf path).map segOf)
  | _ => none

def matchSegs : List Seg → List String → Option (List (String × String))
  | [], [] => some []
  | .lit l :: segs, part :: parts => if l = part then matchSegs segs parts else none
  | .param name :: segs, part :: parts => (matchSegs segs parts).map ((name, part) :: ·)
  | _, _ => none

section
variable [External]

def programAt (path : String) : Gov (Option Program) := attempt do
  let src ← readFile path
  .reads fun _ => parse src

def scan {α : Type} (visit : String → String → Program → List α) :
    List (String × String) → Gov (List α)
  | [] => pure []
  | (path, pkg) :: files => do
    let prog ← programAt path
    let rest ← scan visit files
    pure ((prog.map (visit path pkg)).getD [] ++ rest)

def stemOf (path : String) : String := (fileStem path).getD ""

def surfaceValue (prog : Program) (name : String) : Option Value :=
  (prog.surface.find? fun e => e.name == name).map (·.value)

def apiRoute (path _pkg : String) (prog : Program) : List ApiRoute :=
  match prog.api.bind parseApiSpec with
  | none => []
  | some (method, segs) =>
    [{ method, segs, file := path
       summary := prog.tool.getD (stemOf path)
       opId := stemOf path
       reqSchema := surfaceValue prog "API_REQUEST"
       respSchema := surfaceValue prog "API_RESPONSE" }]

def apiRoutes (site : Site) (root : String) : Gov (List ApiRoute) :=
  scan apiRoute (vjsFiles site root)

def matchApiRoute (cfg : Settings) (site : Site) (method rel : String) :
    Gov (Option (String × List (String × String))) := do
  let routes ← apiRoutes site cfg.root
  pure <| routes.findSome? fun route =>
    if route.method = method then (matchSegs route.segs (segsOf rel)).map (route.file, ·) else none

def flowWritesBus (cfg : Settings) (file : String) : Gov Bool := do
  let writes ← attempt do
    let path ← guarded cfg file
    let src ← readFile path
    let prog ← .reads fun _ => parse src
    pure prog.writesBus
  pure (writes.getD false)

def engineFiles (w : World) (path : String) : Option String := (w.files path).toOption

def runFlowCtx (cfg : Settings) (site : Site) (file : String) (input : Value) : Gov Ctx := do
  let path ← guarded cfg file
  let src ← readFile path
  let prog ← .reads fun _ => parse src
  .reads fun w =>
    (run prog input (.withSecrets (engineFiles w) cfg.root (pkgOfPath path) site.secrets)).1

def publishEach (sent : Nat → Fate) : Nat → List Emit → Gov Unit
  | _, [] => pure ()
  | n, (subject, payload) :: emits => do
    -- best effort: an emit that is refused or lost does not stop the others
    ignore (perform (sent n) fun w => w.publish subject payload.render)
    publishEach sent (n + 1) emits

def publishEmits (fates : Fates) (sent : Nat → Fate) (emits : List Emit) : Gov Unit :=
  if emits.isEmpty then pure ()
  else ignore do
    connect fates
    publishEach sent 0 emits

def statusCode (status : Value) : Nat :=
  ((status.asU64.or (status.asStr.bind parseU64)).getD 200) % 2 ^ 16

def emitsJson (emits : List Emit) : Value :=
  .array (emits.map fun e => .obj [("subject", .string e.1), ("payload", e.2)])

def runApiFlow (cfg : Settings) (site : Site) (fates : Fates) (sent : Nat → Fate) (file : String)
    (input : Value) : Gov (Nat × String) := do
  match ← caught (runFlowCtx cfg site file input) with
  | .error e => pure (500, (Value.obj [("error", .string e)]).render)
  | .ok ctx =>
    publishEmits fates sent ctx.emits
    match ctx.response with
    | some (status, body) => pure (statusCode status, body.render)
    | none => pure (200, (Value.obj [("ok", .bool true), ("emits", emitsJson ctx.emits)]).render)

def fixturePathFor (path : String) : String :=
  joinPath (joinPath ((parent path).getD ".") "fixtures") (stemOf path ++ ".json")

def previewJson (cfg : Settings) (site : Site) (file : String) : Gov String := do
  let path ← guarded cfg file
  let src ← readFile path
  let prog ← .reads fun _ => parse src
  let fixture := fixturePathFor path
  if !site.fileExists fixture then
    pure (Value.obj [("fixture", .null), ("entries", .object []), ("emits", .array []),
      ("error", .null)]).render
  else
    let text ← readFile fixture
    match fromStr text with
    | none => fail ("fixture: " ++ site.jsonError text)
    | some event =>
      let result ← caught <| .reads fun w =>
        (run prog event (.shadow (engineFiles w) cfg.root (pkgOfPath path) site.secrets)).1
      let (emits, error, pipeline) := match result with
        | .ok ctx => (emitsJson ctx.emits, .null, .object (Map.remove ctx.vars "event"))
        | .error e => (.array [], .string e, .null)
      pure (Value.obj [("fixture", .string fixture), ("input", event), ("entries", .object []),
        ("emits", emits), ("pipeline", pipeline), ("error", error),
        ("invokes", .array (prog.invokes.map .string))]).render

end

end Vejas.Http
