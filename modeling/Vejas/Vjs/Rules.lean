import Vejas.Vjs.Parser

/-! The rules view: the arms of the top-level `if`s of a flow as sentences, or as the text of
their conditions where a sentence would not say all of it. -/

namespace Vejas.Vjs
open Json Rust

def collectSurfaceRefs (surface : List String) (out : List String) : Expr → List String
  | .var n => if surface.contains n then pushNew out n else out
  | .field b _ _ => collectSurfaceRefs surface out b
  | .index b i => collectSurfaceRefs surface (collectSurfaceRefs surface out b) i
  | _ => out

def cmpSymbol : BinOp → Option String
  | .eq => some "="
  | .ne => some "≠"
  | .lt => some "<"
  | .le => some "≤"
  | .gt => some ">"
  | .ge => some "≥"
  | .in_ => some "in"
  | _ => none

def resolveSubject (surface : List SurfaceEntry) : Expr → Option String
  | .lit (.string s) => some s
  | .var name => (surface.find? (·.name == name)).bind (·.value.asStr)
  | _ => none

section
variable [External]

def renderAtom : Expr → Option String
  | .var n => some n
  | .lit (.string s) => some ("\"" ++ s ++ "\"")
  | .lit v => some v.render
  -- an optional access is advanced
  | .field b name false => do pure ((← renderAtom b) ++ "." ++ name)
  | .index b idx => do pure ((← renderAtom b) ++ "[" ++ (← renderAtom idx) ++ "]")
  | _ => none

def renderGuard (surface : List String) : Expr → Option (String × List String)
  | .bin op a b => do
    let sym ← cmpSymbol op
    let la ← renderAtom a
    let lb ← renderAtom b
    pure (la ++ " " ++ sym ++ " " ++ lb, collectSurfaceRefs surface (collectSurfaceRefs surface [] a) b)
  | _ => none

/-- What one statement of a body shows; nested control flow makes the whole body raw. -/
def renderStmt (surface : List SurfaceEntry) : Stmt → Option (List String)
  | .emit subject _ => do pure ["→ " ++ (← resolveSubject surface subject)]
  | .respond (.lit v) _ => some ["respond " ++ v.render]
  | .respond _ _ => some ["respond"]
  | .assign _ _ => some []
  | .invokeMerge _ _ => some []
  | .ite _ _ => none
  | .loop _ _ _ => none

def renderStmts (surface : List SurfaceEntry) : List Stmt → Option (List String)
  | [] => some []
  | st :: body => do pure ((← renderStmt surface st) ++ (← renderStmts surface body))

def renderAction (surface : List SurfaceEntry) (body : List Stmt) : Option (List String) := do
  let acts ← renderStmts surface body
  if acts.isEmpty then none else pure acts

def rawText (src : String) (span : Span) : String :=
  match slice (bytesOf src) span.1 span.2 with
  | .ok text => trim (textOf text)
  | .error _ => ""

def strings (l : List String) : Value := .array (l.map .string)

def projected (kind : String) (sentence : Value) (action literals : List String) : Value :=
  .obj [("kind", .string kind), ("projectable", .bool true), ("when", sentence),
    ("then", strings action), ("literals", strings literals)]

def unprojected (kind raw : String) : Value :=
  .obj [("kind", .string kind), ("projectable", .bool false), ("raw", .string raw)]

def armRule (src : String) (surface : List SurfaceEntry) (kind : String) (arm : Expr × Span × List Stmt) :
    Value :=
  match renderGuard (surface.map (·.name)) arm.1, renderAction surface arm.2.2 with
  | some (sentence, literals), some action => projected kind (.string sentence) action literals
  | _, _ => unprojected kind (rawText src arm.2.1)

def armRules (src : String) (surface : List SurfaceEntry) : List (Expr × Span × List Stmt) → List Value
  | [] => []
  | arm :: arms => armRule src surface "if" arm :: arms.map (armRule src surface "elif")

def elseRule (surface : List SurfaceEntry) (body : List Stmt) : Value :=
  match renderAction surface body with
  | some action => projected "else" .null action []
  | none => unprojected "else" "…"

def stmtRules (src : String) (surface : List SurfaceEntry) : Stmt → List Value
  | .ite arms otherwise => armRules src surface arms ++ (otherwise.map (elseRule surface)).toList
  | _ => []

def flowRules (prog : Program) (src : String) (surface : List SurfaceEntry) : List Value :=
  prog.stmts.flatMap (stmtRules src surface)

end

end Vejas.Vjs
