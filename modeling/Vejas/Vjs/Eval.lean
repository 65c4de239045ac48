import Vejas.Lib.Fallible
import Vejas.Vjs.Engine

/-! The interpreter. Expressions and blocks recurse on the syntax tree; an invoke
goes through a callback, which `runService` ties to itself below the depth limit. -/

namespace Vejas.Vjs
open Json Rust

abbrev Emit := String × Value

/-- The pipeline of a run; `owner` records whose statements it belongs to. -/
structure Ctx where
  vars : Map
  emits : List Emit
  response : Option (Value × Value)
  owner : Owner

abbrev Run (α : Type) := Fallible Fault (Ctx × Engine) α

namespace Run

def setVars (f : Map → Map) : Run Unit :=
  Fallible.modify fun s => ({ s.1 with vars := f s.1.vars }, s.2)

def pushEmit (m : Emit) : Run Unit :=
  Fallible.modify fun s => ({ s.1 with emits := s.1.emits ++ [m] }, s.2)

def setResponse (r : Value × Value) : Run Unit :=
  Fallible.modify fun s => ({ s.1 with response := some r }, s.2)

def vars : Run Map := Fallible.reads fun s => .ok s.1.vars

def noteGet (reference : String) : Run Unit :=
  Fallible.modify fun s => (s.1, { s.2 with gets := s.2.gets ++ [(s.1.owner, reference)] })

def secret (reference : String) : Run Value := do
  noteGet reference
  Fallible.reads fun s =>
    match s.2.secrets reference with
    | .ok v => .ok (.string v)
    | .error e => .error (.err e)

def lift {α : Type} (r : Except Fault α) : Run α := Fallible.reads fun _ => r

def shadowing {α : Type} (fields : Map) (m : Run α) : Run α := do
  let saved ← vars
  setVars (Map.extend fields)
  -- a failure here leaves the fields in place
  let a ← m
  setVars fun vs => fields.foldl (fun vs p =>
    match saved.get? p.1 with
    | some v => vs.insert p.1 v
    | none => vs.remove p.1) vs
  pure a

end Run

open Run

def filterItems (cond : Run Value) : List Value → Run (List Value)
  | [] => pure []
  | item :: items => do
    let keep ← shadowing (item.asObject.getD []) cond
    let out ← filterItems cond items
    pure (if truthy keep then item :: out else out)

def forItems (x : String) (body : Run Unit) : List Value → Run Unit
  | [] => pure ()
  | item :: items => do
    setVars (Map.insert x item)
    body
    forItems x body items

abbrev Invoke := String → Map → Run Value

section
variable [External]

def callBuiltin (name : String) (vals : List Value) : Run Value :=
  if name = "secret" then
    match vals.head?.bind Value.asStr with
    | some reference => secret reference
    | none => Fallible.throw
        (.err "secret() needs a string reference, e.g. secret(\"slack/webhook\")")
  else lift (builtin name vals)

mutual

def eval (inv : Invoke) : Expr → Run Value
  | .lit v => pure v
  | .var name => do pure (((← vars).get? name).getD .null)
  | .fString parts => do pure (.string (← evalParts inv parts))
  | .doc fields => do pure (.object (← evalFields inv [] fields))
  | .array items => do pure (.array (← evalList inv items))
  | .invoke name args => do
    let argMap ← evalFields inv [] args
    inv name argMap
  | .field base f safe => do
    let b ← eval inv base
    lift (readField b f safe)
  | .index base key => do
    let b ← eval inv base
    let k ← eval inv key
    pure (readIndex b k)
  | .projection base => eval inv base
  | .filter base cond => do
    let b ← eval inv base
    match b with
    | .array items => do pure (.array (← filterItems (eval inv cond) items))
    | _ => pure (.array [])
  | .call name args => do
    let vals ← evalList inv args
    callBuiltin name vals
  | .unary op e => do pure (unary op (← eval inv e))
  | .bin .and l r => do
    let lv ← eval inv l
    if truthy lv then eval inv r else pure lv
  | .bin .or l r => do
    let lv ← eval inv l
    if truthy lv then pure lv else eval inv r
  | .bin .coalesce l r => do
    let lv ← eval inv l
    if lv.isNull then eval inv r else pure lv
  | .bin op l r => do
    let lv ← eval inv l
    let rv ← eval inv r
    pure (binary op lv rv)

def evalParts (inv : Invoke) : List FStringPart → Run String
  | [] => pure ""
  | .lit l :: ps => do pure (l ++ (← evalParts inv ps))
  | .expr e :: ps => do
    let v ← eval inv e
    pure (toDisplay v ++ (← evalParts inv ps))

def evalFields (inv : Invoke) (m : Map) : List (String × Expr) → Run Map
  | [] => pure m
  | (k, e) :: fs => do
    let v ← eval inv e
    evalFields inv (m.insert k v) fs

def evalList (inv : Invoke) : List Expr → Run (List Value)
  | [] => pure []
  | e :: es => do
    let v ← eval inv e
    pure (v :: (← evalList inv es))

end

def assign (path : List String) (v : Value) : Run Unit :=
  match path with
  | [] => Fallible.throw .panic
  | [k] => setVars (Map.insert k v)
  | k :: ks => setVars fun vs =>
      vs.insert k (setPath ks v ((vs.get? k).getD (.object [])))

def subjectOf (v : Value) : Run String :=
  match v with
  | .string s =>
    if validSubject s then pure s
    else Fallible.throw (.err ("emit subject " ++ debugStr s ++ " is not a valid subject"))
  | other => Fallible.throw (.err ("emit subject must be a string, got " ++ other.render))

mutual

def execStmt (inv : Invoke) : Stmt → Run Unit
  | .assign path e => do
    let v ← eval inv e
    assign path v
  | .invokeMerge name args => do
    let argMap ← evalFields inv [] args
    let out ← inv name argMap
    setVars (Map.extend (out.asObject.getD []))
  | .ite arms otherwise => execArms inv (execElse inv otherwise) arms
  | .loop x iter body => do
    let items ← eval inv iter
    forItems x (execBlock inv body) (items.asArray.getD [])
  | .emit subject payload => do
    let s ← subjectOf (← eval inv subject)
    let v ← eval inv payload
    pushEmit (s, v)
  | .respond status body => do
    let st ← eval inv status
    let b ← eval inv body
    setResponse (st, b)

def execArms (inv : Invoke) (otherwise : Run Unit) : List (Expr × Span × List Stmt) → Run Unit
  | [] => otherwise
  | (cond, _, body) :: arms => do
    let c ← eval inv cond
    if truthy c then execBlock inv body else execArms inv otherwise arms

def execElse (inv : Invoke) : Option (List Stmt) → Run Unit
  | none => pure ()
  | some body => execBlock inv body

def execBlock (inv : Invoke) : List Stmt → Run Unit
  | [] => pure ()
  | s :: ss => do
    execStmt inv s
    execBlock inv ss

end

/-- What an invoke of `name` from the code of `owner` does to the engine. -/
abbrev Service := Owner → String → Map → Fallible Fault Engine (Value × List Emit)

def invokeBy (svc : Service) : Invoke := fun name args s =>
  match svc s.1.owner name args s.2 with
  | (.ok (out, emits), eng) => (.ok out, ({ s.1 with emits := s.1.emits ++ emits }, eng))
  | (.error f, eng) => (.error f, (s.1, eng))

def maxDepth : Nat := 32

def runBody (inv : Invoke) (owner : Owner) (pkg svc : String) (stmts : List Stmt) (args : Map) :
    Fallible Fault Engine (Value × List Emit) := fun eng =>
  let ctx : Ctx := ⟨args.insert "event" (.object args), [], none, .service pkg svc⟩
  match execBlock inv stmts (ctx, (eng.log (.execute owner pkg svc stmts)).enter pkg) with
  | (.error .panic, (_, eng')) => (.error .panic, eng')
  | (r, (ctx, eng')) =>
    let restored := (eng'.enter eng.callerPkg).leave
    match r with
    | .ok () => (.ok (.object (ctx.vars.remove "event"), ctx.emits), restored)
    | .error f => (.error f, restored)

def runService : Nat → Service
  | 0, _, _, _, eng => (.error .outOfFuel, eng)
  | fuel + 1, owner, name, args, eng =>
    if maxDepth ≤ eng.depth then (.error (.err ("invoke depth exceeded at " ++ name)), eng)
    else
      match (eng.log (.resolve owner name)).resolve name with
      | (.error f, eng) => (.error f, eng)
      | (.ok (pkg, svc), eng) =>
        match eng.descend.serviceStmts pkg svc with
        | (.error .panic, eng) => (.error .panic, eng)
        | (.error f, eng) => (.error f, eng.leave)
        | (.ok stmts, eng) => runBody (invokeBy (runService fuel)) owner pkg svc stmts args eng

def invoke : Invoke := invokeBy (runService (maxDepth + 1))

def startCtx (event : Value) (pkg : String) : Ctx :=
  ⟨(Map.extend (event.asObject.getD []) []).insert "event" event, [], none, .program pkg⟩

def run (prog : Program) (event : Value) : Fallible Fault Engine Ctx := fun eng =>
  match execBlock invoke prog.stmts (startCtx event eng.callerPkg, eng) with
  | (.ok (), (ctx, eng)) => (.ok ctx, eng)
  | (.error f, (_, eng)) => (.error f, eng)

end

end Vejas.Vjs
