import Vejas.Lib.Fallible
import Vejas.Rust.Path
import Vejas.Vjs.Editing

/-! What the governed surface acts on: the project's files, the two buckets of the cluster
and the bus. Every call out of the process has a fate, given from outside. -/

namespace Vejas.Governance
open Json Rust Vjs

abbrev Kv := List (String × String)

namespace Kv

def get? (kv : Kv) (key : String) : Option String := (kv.find? (·.1 == key)).map (·.2)

def delete (kv : Kv) (key : String) : Kv := kv.filter (·.1 != key)

def put (kv : Kv) (key value : String) : Kv := kv.delete key ++ [(key, value)]

end Kv

/-- How a call out of the process ends: carried out; not carried out; or carried out with
the answer lost. -/
inductive Fate
  | ok
  | failed (e : String)
  | lost (e : String)

def Fate.isOk : Fate → Bool
  | ok => true
  | _ => false

inductive Op
  | connect | openVersions | getVersion | putVersion | deleteVersion
  | openProposals | listProposals | getProposal | putProposal
  | auditConnect | audit | event | writeFile

abbrev Fates := Op → Fate

inductive Bucket
  | versions
  | proposals
  deriving DecidableEq

/-- What reaches the outside, and the source text handed to `set_literal`. -/
inductive Effect
  | publish (subject payload : String)
  | write (path text : String)
  | put (bucket : Bucket) (key value : String)
  | delete (bucket : Bucket) (key : String)
  | rewrite (src : String)
  deriving DecidableEq

structure Settings where
  root : String
  subjRoot : String
  clustered : Bool
  writeToken : Option String
  approvalToken : Option String
  now : Nat

/-- The file system below the root, the buckets, and what was done so far, newest first. -/
structure World where
  files : String → Except String String
  canonicalize : String → Option String
  versions : Kv
  proposals : Kv
  log : List Effect

abbrev Gov (α : Type) := Fallible Fault World α

def fail {α : Type} (msg : String) : Gov α := .throw (.err msg)

def perform (fate : Fate) (act : World → World) : Gov Unit := fun w =>
  match fate with
  | .ok => (.ok (), act w)
  | .failed e => (.error (.err e), w)
  -- carried out, but the caller cannot tell
  | .lost e => (.error (.err e), act w)

def attempt {α : Type} (m : Gov α) : Gov (Option α) := fun w =>
  match m w with
  | (.ok a, w) => (.ok (some a), w)
  | (.error .panic, w) => (.error .panic, w)
  | (.error _, w) => (.ok none, w)

def ignore {α : Type} (m : Gov α) : Gov Unit := do
  let _ ← attempt m

namespace World

def note (w : World) (e : Effect) : World := { w with log := e :: w.log }

def putVersion (w : World) (key value : String) : World :=
  { w with versions := w.versions.put key value }.note (.put .versions key value)

def deleteVersion (w : World) (key : String) : World :=
  { w with versions := w.versions.delete key }.note (.delete .versions key)

def putProposal (w : World) (key value : String) : World :=
  { w with proposals := w.proposals.put key value }.note (.put .proposals key value)

def write (w : World) (path text : String) : World :=
  { w with files := fun p => if p = path then .ok text else w.files p }.note (.write path text)

/-- The message is out; what the server makes of it is for all that a request can reach to say. -/
def publish (w : World) (subject payload : String) : World := w.note (.publish subject payload)

end World

def readFile (path : String) : Gov String := .reads fun w => (w.files path).mapError .err

def connect (fates : Fates) : Gov Unit := fun w =>
  match fates .connect with
  | .ok => (.ok (), w)
  | .failed e | .lost e => (.error (.err ("NATS unreachable: " ++ e)), w)

def fnv (bytes : Bytes) : UInt64 :=
  bytes.foldl (fun h b => (h ^^^ b.toUInt64) * 0x100000001b3) 0xcbf29ce484222325

def hashContent (s : String) : String :=
  let digits := hexDigits (fnv (bytesOf s)).toNat
  String.ofList (List.replicate (16 - digits.length) '0') ++ digits

def keyOf (name : String) : String :=
  onChars (·.map fun c => if isAsciiAlphanumeric c || c == '_' then c else '_') name

def pkgOfPath (path : String) : String :=
  match split path "packages/" with
  | _ :: rest :: _ => (split rest "/").headD ""
  | _ => "default"

def flowProcName (path : String) : String :=
  let stem := (fileStem path).getD ""
  let pkg := pkgOfPath path
  if pkg = "default" then "flow:" ++ stem else "flow:" ++ pkg ++ ":" ++ stem

def guardPath (w : World) (root rel : String) : Option String := do
  if contains rel ".." then none
  let rel := onChars (fun cs => trimStartMatches "./".toList cs.length cs) rel
  let rel := (stripPath rel root).getD rel
  if !(["flows", "services", "connectors", "packages"].any (startsWith rel)) then none
  if !(endsWith rel ".vjs" || endsWith rel ".json") then none
  let p := joinPath root rel
  let canonRoot ← w.canonicalize root
  let resolved ← match w.canonicalize p with
    | some c => some c
    | none => do
      let up ← (parent p).bind w.canonicalize
      (fileName p).map (joinPath up)
  if pathStartsWith resolved canonRoot then some p else none

def guarded (cfg : Settings) (rel : String) : Gov String := fun w =>
  match guardPath w cfg.root rel with
  | some p => (.ok p, w)
  | none => (.error (.err "path not allowed"), w)

open Fallible

theorem leaves_perform {γ : Type} {f : World → γ} {fate : Fate} {act : World → World}
    (h : ∀ w, f (act w) = f w) : Leaves f (perform fate act) := by
  intro w
  cases fate with
  | ok => exact h w
  | failed e => rfl
  | lost e => exact h w

theorem leaves_attempt {α γ : Type} {f : World → γ} {m : Gov α} (h : Leaves f m) :
    Leaves f (attempt m) := by
  intro w
  have hw := h w
  unfold attempt
  split <;> simp_all

theorem leaves_ignore {α γ : Type} {f : World → γ} {m : Gov α} (h : Leaves f m) :
    Leaves f (ignore m) :=
  (closed_leaves f).bind (leaves_attempt h) fun _ => (closed_leaves f).pure ()

theorem leaves_connect {γ : Type} (f : World → γ) (fates : Fates) : Leaves f (connect fates) := by
  intro w
  unfold connect
  split <;> rfl

theorem leaves_guarded {γ : Type} (f : World → γ) (cfg : Settings) (rel : String) :
    Leaves f (guarded cfg rel) := by
  intro w
  unfold guarded
  split <;> rfl

end Vejas.Governance
