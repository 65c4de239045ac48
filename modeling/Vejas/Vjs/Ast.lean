import Vejas.Json.Text
import Vejas.Vjs.Lexer

/-! The syntax trees of VejasScript and what is read off them without running:
the static subjects and invokes of a program, its secret references, and whether
it can write to the bus. -/

namespace Vejas.Vjs
open Json Rust

inductive UnOp
  | not
  | neg
  deriving DecidableEq

inductive BinOp
  | or | and | coalesce | eq | ne | lt | le | gt | ge | in_ | add | sub | mul | div
  deriving DecidableEq

mutual

inductive Expr
  | lit (v : Value)
  | fString (parts : List FStringPart)
  | var (name : String)
  | doc (fields : List (String × Expr))
  | array (items : List Expr)
  | field (base : Expr) (name : String) (safe : Bool)
  | index (base key : Expr)
  | projection (base : Expr)
  | filter (base cond : Expr)
  | call (name : String) (args : List Expr)
  | invoke (name : String) (args : List (String × Expr))
  | unary (op : UnOp) (e : Expr)
  | bin (op : BinOp) (l r : Expr)

inductive FStringPart
  | lit (s : String)
  | expr (e : Expr)

end

abbrev Span := Nat × Nat

inductive Stmt
  | assign (path : List String) (e : Expr)
  | ite (arms : List (Expr × Span × List Stmt)) (otherwise : Option (List Stmt))
  | loop (x : String) (iter : Expr) (body : List Stmt)
  | emit (subject payload : Expr)
  | respond (status body : Expr)
  | invokeMerge (name : String) (args : List (String × Expr))

structure SurfaceEntry where
  name : String
  value : Value
  valueSpan : Span
  entrySpans : List (String × Span)

structure Program where
  source : Option String
  tool : Option String
  api : Option String
  driver : Option String
  stmts : List Stmt
  surface : List SurfaceEntry
  emitSubjects : List String
  invokes : List String
  secretRefs : List (String × String)

def pushNew {α : Type} [BEq α] (v : List α) (x : α) : List α := if v.contains x then v else v ++ [x]

abbrev Statics := List String × List String

def staticSubject (consts : List (String × String)) : Expr → Option String
  | .lit (.string s) => some s
  | .var name => consts.lookup name
  | _ => none

mutual

def collectStmt (consts : List (String × String)) (acc : Statics) : Stmt → Statics
  | .emit subj _ =>
    match staticSubject consts subj with
    | some s => (pushNew acc.1 s, acc.2)
    | none => acc
  | .invokeMerge name _ => (acc.1, pushNew acc.2 name)
  | .assign _ (.invoke name _) => (acc.1, pushNew acc.2 name)
  | .assign _ _ => acc
  | .ite arms otherwise => collectElse consts (collectArms consts acc arms) otherwise
  | .loop _ _ body => collectStatic consts acc body
  | .respond _ _ => acc

def collectArms (consts : List (String × String)) (acc : Statics) :
    List (Expr × Span × List Stmt) → Statics
  | [] => acc
  | (_, _, body) :: arms => collectArms consts (collectStatic consts acc body) arms

def collectElse (consts : List (String × String)) (acc : Statics) : Option (List Stmt) → Statics
  | none => acc
  | some body => collectStatic consts acc body

def collectStatic (consts : List (String × String)) (acc : Statics) : List Stmt → Statics
  | [] => acc
  | s :: ss => collectStatic consts (collectStmt consts acc s) ss

end

abbrev Refs := List (String × String)

def secretArg : List Expr → Option String
  | .lit (.string r) :: _ => some r
  | _ => none

mutual

def walkExpr (ctx : String) (out : Refs) : Expr → Refs
  | .call name args =>
    let out := if name = "secret" then
        match secretArg args with
        | some r => pushNew out (ctx, r)
        | none => out
      else out
    walkExprs ctx out args
  | .fString parts => walkParts ctx out parts
  | .doc fields => walkFields ctx out fields
  | .array items => walkExprs ctx out items
  | .field b _ _ => walkExpr ctx out b
  | .projection b => walkExpr ctx out b
  | .unary _ b => walkExpr ctx out b
  | .index a b => walkExpr ctx (walkExpr ctx out a) b
  | .filter a b => walkExpr ctx (walkExpr ctx out a) b
  | .bin _ a b => walkExpr ctx (walkExpr ctx out a) b
  | .invoke _ args => walkFields ctx out args
  | .lit _ => out
  | .var _ => out

def walkParts (ctx : String) (out : Refs) : List FStringPart → Refs
  | [] => out
  | .lit _ :: ps => walkParts ctx out ps
  | .expr e :: ps => walkParts ctx (walkExpr ctx out e) ps

def walkFields (ctx : String) (out : Refs) : List (String × Expr) → Refs
  | [] => out
  | (_, e) :: fs => walkFields ctx (walkExpr ctx out e) fs

def walkExprs (ctx : String) (out : Refs) : List Expr → Refs
  | [] => out
  | e :: es => walkExprs ctx (walkExpr ctx out e) es

end

mutual

def walkStmt (out : Refs) : Stmt → Refs
  | .assign path e => walkExpr (join "." path) out e
  | .emit a b => walkExpr "emit" (walkExpr "emit" out a) b
  | .respond a b => walkExpr "respond" (walkExpr "respond" out a) b
  | .invokeMerge _ args => walkFields "invoke" out args
  | .ite arms otherwise => walkElse (walkArms out arms) otherwise
  | .loop _ iter body => walkStmts (walkExpr "for" out iter) body

def walkArms (out : Refs) : List (Expr × Span × List Stmt) → Refs
  | [] => out
  | (c, _, body) :: arms => walkArms (walkStmts (walkExpr "if" out c) body) arms

def walkElse (out : Refs) : Option (List Stmt) → Refs
  | none => out
  | some body => walkStmts out body

def walkStmts (out : Refs) : List Stmt → Refs
  | [] => out
  | s :: ss => walkStmts (walkStmt out s) ss

end

mutual

def exprWritesBus : Expr → Bool
  | .invoke _ _ => true
  | .lit _ => false
  | .var _ => false
  | .fString parts => partsWriteBus parts
  | .doc fields => fieldsWriteBus fields
  | .array items => exprsWriteBus items
  | .field b _ _ => exprWritesBus b
  | .index a b => exprWritesBus a || exprWritesBus b
  | .projection b => exprWritesBus b
  | .filter a b => exprWritesBus a || exprWritesBus b
  | .call _ args => exprsWriteBus args
  | .unary _ b => exprWritesBus b
  | .bin _ a b => exprWritesBus a || exprWritesBus b

def partsWriteBus : List FStringPart → Bool
  | [] => false
  | .lit _ :: ps => partsWriteBus ps
  | .expr e :: ps => exprWritesBus e || partsWriteBus ps

def fieldsWriteBus : List (String × Expr) → Bool
  | [] => false
  | (_, e) :: fs => exprWritesBus e || fieldsWriteBus fs

def exprsWriteBus : List Expr → Bool
  | [] => false
  | e :: es => exprWritesBus e || exprsWriteBus es

end

mutual

def stmtWritesBus : Stmt → Bool
  | .emit _ _ => true
  | .invokeMerge _ _ => true
  | .assign _ e => exprWritesBus e
  | .respond status body => exprWritesBus status || exprWritesBus body
  | .ite arms otherwise => armsWriteBus arms || elseWritesBus otherwise
  | .loop _ iter body => exprWritesBus iter || stmtsWriteBus body

def armsWriteBus : List (Expr × Span × List Stmt) → Bool
  | [] => false
  | (c, _, body) :: arms => (exprWritesBus c || stmtsWriteBus body) || armsWriteBus arms

def elseWritesBus : Option (List Stmt) → Bool
  | none => false
  | some body => stmtsWriteBus body

def stmtsWriteBus : List Stmt → Bool
  | [] => false
  | s :: ss => stmtWritesBus s || stmtsWriteBus ss

end

def Program.writesBus (p : Program) : Bool := stmtsWriteBus p.stmts

end Vejas.Vjs
