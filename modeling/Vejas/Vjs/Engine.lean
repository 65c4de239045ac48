import Vejas.Rust.Path
import Vejas.Vjs.Builtins

/-! The engine of a run: package-scoped service resolution, its caches and the
secret store. Files are read through a fixed map from paths to contents. -/

namespace Vejas.Vjs
open Json Rust

abbrev SecretStore := String → Except String String

def redactedStore (inner : SecretStore) : SecretStore := fun reference =>
  match inner reference with
  | .ok _ => .ok ("<secret:" ++ reference ++ ">")
  | .error e => .error e

inductive Owner
  | program (pkg : String)
  | service (pkg svc : String)
  deriving DecidableEq

def Owner.pkg : Owner → String
  | program pkg => pkg
  | service pkg _ => pkg

inductive Call
  | resolve (by_ : Owner) (name : String)
  | execute (by_ : Owner) (pkg svc : String) (body : List Stmt)

/-- `calls` and `gets` record what the run did and steer nothing. -/
structure Engine where
  projectRoot : String
  callerPkg : String
  cache : List (String × Program)
  exports : List (String × List String)
  secrets : SecretStore
  depth : Nat
  files : String → Option String
  calls : List Call
  gets : List (Owner × String)

namespace Engine

def withSecrets (files : String → Option String) (projectRoot callerPkg : String)
    (secrets : SecretStore) : Engine :=
  { projectRoot, callerPkg, cache := [], exports := [], secrets, depth := 0, files
    calls := [], gets := [] }

def shadow (files : String → Option String) (projectRoot callerPkg : String)
    (defaultStore : SecretStore) : Engine :=
  withSecrets files projectRoot callerPkg (redactedStore defaultStore)

def log (e : Engine) (c : Call) : Engine := { e with calls := e.calls ++ [c] }

def enter (e : Engine) (pkg : String) : Engine := { e with callerPkg := pkg }

def descend (e : Engine) : Engine := { e with depth := e.depth + 1 }

def leave (e : Engine) : Engine := { e with depth := e.depth - 1 }

def invalidate (e : Engine) : Engine := { e with cache := [], exports := [] }

end Engine

def pkgDir (root pkg : String) : String :=
  if pkg = "default" then root else joinPath (joinPath root "packages") pkg

def manifestPath (root pkg : String) : String := joinPath (pkgDir root pkg) "package.vjs"

def servicePath (root pkg svc : String) : String :=
  joinPath (joinPath (pkgDir root pkg) "services") (svc ++ ".vjs")

def exportsOf (manifest : Program) : List String :=
  match manifest.surface.find? fun e => e.name == "EXPORTS" with
  | some e => (e.value.asArray.getD []).filterMap Value.asStr
  | none => []

def validName (s : String) : Bool :=
  !s.toList.isEmpty && s.toList.all fun c => isAsciiAlphanumeric c || c == '_'

def Fault.within (pre : String) : Fault → Fault
  | .err e => .err (pre ++ e)
  | f => f

section
variable [External]

def manifestExports (files : String → Option String) (root pkg : String) :
    Except Fault (List String) :=
  match files (manifestPath root pkg) with
  | none => .error (.err ("package " ++ debugStr pkg ++
      " has no package.vjs manifest; cross-package invoke requires an EXPORTS list"))
  | some src =>
    match parse src with
    | .error f => .error (f.within ("package " ++ pkg ++ " manifest: "))
    | .ok prog => .ok (exportsOf prog)

def serviceProgram (files : String → Option String) (root pkg svc : String) :
    Except Fault Program :=
  let key := pkg ++ ":" ++ svc
  match files (servicePath root pkg svc) with
  | none => .error (.err ("unknown service " ++ debugStr key ++ " (no " ++
      servicePath root pkg svc ++ ")"))
  | some src =>
    match parse src with
    | .error f => .error (f.within ("service " ++ key ++ ": "))
    | .ok prog => .ok prog

namespace Engine

def lookupExports (e : Engine) (pkg : String) : Except Fault (List String) × Engine :=
  -- `Engine::exports_of`; an error is not cached
  match e.exports.lookup pkg with
  | some l => (.ok l, e)
  | none =>
    match manifestExports e.files e.projectRoot pkg with
    | .error f => (.error f, e)
    | .ok l => (.ok l, { e with exports := (pkg, l) :: e.exports })

def target (e : Engine) (name : String) : String × String :=
  (splitOnce name ':').getD (e.callerPkg, name)

def resolve (e : Engine) (name : String) : Except Fault (String × String) × Engine :=
  let (pkg, svc) := e.target name
  if !validName pkg || !validName svc then
    (.error (.err ("invalid service reference " ++ debugStr name)), e)
  else if pkg = e.callerPkg then (.ok (pkg, svc), e)
  else
    match e.lookupExports pkg with
    | (.error f, e) => (.error f, e)
    | (.ok exports, e) =>
      if exports.contains svc then (.ok (pkg, svc), e)
      else (.error (.err ("service " ++ pkg ++ ":" ++ svc ++ " is not exported by package " ++
        debugStr pkg ++ " (add " ++ debugStr svc ++
        " to EXPORTS in its package.vjs, or talk to it over the bus)")), e)

def serviceStmts (e : Engine) (pkg svc : String) : Except Fault (List Stmt) × Engine :=
  let key := pkg ++ ":" ++ svc
  match e.cache.lookup key with
  | some prog => (.ok prog.stmts, e)
  | none =>
    match serviceProgram e.files e.projectRoot pkg svc with
    | .error f => (.error f, e)
    | .ok prog => (.ok prog.stmts, { e with cache := (key, prog) :: e.cache })

theorem lookupExports_invalidate (e : Engine) (pkg : String) : (e.lookupExports pkg).2.invalidate = e.invalidate := by
  unfold lookupExports
  split
  · rfl
  · split
    · rfl
    · rfl

theorem resolve_invalidate (e : Engine) (name : String) : (e.resolve name).2.invalidate = e.invalidate := by
  unfold resolve
  rcases e.target name with ⟨pkg, svc⟩
  dsimp only
  split
  · rfl
  · split
    · rfl
    · have hload := lookupExports_invalidate e pkg
      rcases hx : e.lookupExports pkg with ⟨f | l, e'⟩
      · rw [hx] at hload
        exact hload
      · rw [hx] at hload
        dsimp only
        split
        · exact hload
        · exact hload

theorem serviceStmts_invalidate (e : Engine) (pkg svc : String) :
    (e.serviceStmts pkg svc).2.invalidate = e.invalidate := by
  unfold serviceStmts
  dsimp only
  split
  · rfl
  · split
    · rfl
    · rfl

end Engine

end

end Vejas.Vjs
