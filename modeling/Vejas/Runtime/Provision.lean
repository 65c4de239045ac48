import Vejas.Json.Reading
import Vejas.Rust.Split
import Vejas.Vjs.Filled

/-! Packages provisioned from templates: the files under a template's directory, rendered with the
tenant's parameters. What a parameter can change of the code it is rendered into. -/

namespace Vejas.Runtime
open Rust Json Vjs

def isParamChar (c : Char) : Bool := ('a' ≤ c && c ≤ 'z') || isAsciiDigit c || c == '_'

def validSlug (s : String) : Bool :=
  !s.toList.isEmpty && (bytesOf s).length ≤ 64 &&
    (s.toList.head?.map fun c => decide ('a' ≤ c) && decide (c ≤ 'z')).getD false && s.toList.all isParamChar

def validTemplateName (s : String) : Bool :=
  !s.toList.isEmpty && (bytesOf s).length ≤ 64 && s.toList.all fun c => isAsciiAlphanumeric c || c == '-' || c == '_'

def validParamValue (s : String) : Bool :=
  (bytesOf s).length ≤ 512 && s.toList.all fun c => isAsciiAlphanumeric c || "-_./:?=&%$@#+, ".toList.contains c

section
variable [External]

def checkParams : Map → Except String Unit
  | [] => .ok ()
  | (k, v) :: params =>
    if !k.toList.all isParamChar then .error ("invalid param name " ++ debugStr k)
    else
      match v.asStr with
      | some s =>
        if validParamValue s then checkParams params
        else .error ("param " ++ debugStr k ++ " contains forbidden characters")
      | none => .error ("param " ++ debugStr k ++ " must be a string")

def placeholder (k : String) : String := "$\x7b" ++ k ++ "\x7d"

def renderParams : Map → String → Except String String
  | [], out => .ok out
  | (k, v) :: params, out =>
    match v.asStr with
    | some v => renderParams params (replace out (placeholder k) v)
    | none => .error ("param " ++ debugStr k ++ " must be a string")

def missingParam : List Char → Option String
  | [] => none
  | '$' :: '\x7b' :: tail =>
    match splitOnceChars '\x7d' tail with
    | some (name, _) =>
      if !name.isEmpty && name.all isParamChar then some (String.ofList name) else missingParam tail
    | none => missingParam tail
  | _ :: rest => missingParam rest

def withSlug (src slug : String) : String := replace src "$\x7btenant_slug\x7d" slug

def renderTemplate (src slug : String) (params : Map) : Except String String := do
  let out ← renderParams params (withSlug src slug)
  match missingParam out.toList with
  | some name => .error ("missing param " ++ debugStr name)
  | none => .ok out

structure Site where
  templates : List (String × List (String × String))
  packages : List String

variable (jsonFault : String → String)

def renderFile (slug : String) (params : Map) (file : String × String) : Except Fault (String × String) := do
  let (rel, src) := file
  let body ← (renderTemplate src slug params).mapError fun e => .err (rel ++ ": " ++ e)
  if endsWith rel ".vjs" then
    match parse body with
    | .ok _ => pure ()
    | .error (.err e) => .error (.err (rel ++ ": " ++ e))
    | .error f => .error f
  else if endsWith rel ".json" then
    match fromStr body with
    | some _ => pure ()
    | none => .error (.err (rel ++ ": invalid JSON: " ++ jsonFault body))
  pure ("packages/" ++ slug ++ "/" ++ rel, body)

/-- The files a request creates: all of them rendered and checked before any is written. -/
def provision (site : Site) (template slug : String) (params : Map) (force : Bool) :
    Except Fault (List (String × String)) := do
  if !validTemplateName template then .error (.err "invalid template name")
  if !validSlug slug then .error (.err "invalid tenant_slug (lowercase [a-z0-9_], starts with a letter)")
  (checkParams params).mapError .err
  let some files := site.templates.lookup template
    | .error (.err ("unknown template " ++ debugStr template ++ " (no templates/" ++ template ++ "/)"))
  if site.packages.contains slug && !force then
    .error (.err ("package " ++ debugStr slug ++ " already exists — pass force to overwrite the " ++
      "template-rendered files (local corrections in them will be lost)"))
  if files.isEmpty then .error (.err ("template " ++ debugStr template ++ " is empty"))
  files.mapM (renderFile jsonFault slug params)

def HoldsParam (keys : List String) (text : String) (n : Nat) : Prop :=
  ∃ cs c, Cut cs ∧ spelled cs = bytesOf text ∧ (cs.filter (·.2.isSome))[n]? = some c ∧
    ∃ k ∈ keys, bytesOf (placeholder k) <:+: c.1

/-- The tokens of the first text are those of the second, and where the second's holds a placeholder,
within it. -/
def Follows (keys : List String) (file text : String) : Prop :=
  ∃ ts us, lex (bytesOf file) = .ok ts ∧ lex (bytesOf text) = .ok us ∧ Like (ts.map (·.1)) (us.map (·.1)) ∧
    ∀ n t u, ts[n]? = some t → us[n]? = some u → t.1 = u.1 ∨ HoldsParam keys text n

end

end Vejas.Runtime
