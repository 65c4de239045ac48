import Vejas.Vjs.Ast

/-! The parser of VejasScript: one token index as state, recursive descent with
binding powers. Loops and recursion count down a fuel that the length of the
source bounds. -/

namespace Vejas.Vjs
open Json Rust

def num (n : Float) : Value :=
  if F64.fractIsZero n && n.abs < 9e15 then .number (.ofI64 (F64.asI64 n))
  else ((Number.fromF64 n).map Value.number).getD .null

structure Input where
  toks : List Spanned
  src : Bytes

abbrev Parse (α : Type) := StateT Nat (Except Fault) α

namespace Input
variable (p : Input)

def tokAt? (i : Nat) : Option Tok := p.toks[i]?.map (·.1)

def tokAt (i : Nat) : Tok := (p.tokAt? i).getD (.sym .newline)

def posAt (i : Nat) : Nat := ((p.toks[i]?.or p.toks.getLast?).map (·.2)).getD 0

def peek : Parse Tok := fun i => .ok (p.tokAt i, i)

def peek2 : Parse (Option Tok) := fun i => .ok (p.tokAt? (i + 1), i)

def pos : Parse Nat := fun i => .ok (p.posAt i, i)

def next : Parse Tok := fun i => .ok (p.tokAt i, i + 1)

def advance : Parse Unit := fun i => .ok ((), i + 1)

def fail {α : Type} (msg : String) : Parse α := fun i => .error (errAt (p.posAt i) p.src msg)

def skipNewlines : Parse Unit := fun i =>
  .ok ((), i + ((p.toks.drop i).takeWhile fun t => t.1.is .newline).length)

def atEnd : Parse Bool := fun i => .ok (decide (p.toks.length - 1 ≤ i), i)

def sees (s : Sym) : Parse Bool := fun i => .ok ((p.tokAt i).is s, i)

def accept (s : Sym) : Parse Bool := fun i =>
  if (p.tokAt i).is s then .ok (true, i + 1) else .ok (false, i)

variable [External]

def eat (s : Sym) (what : String) : Parse Unit := do
  let t ← p.peek
  if t.is s then advance else p.fail ("expected " ++ what ++ ", found " ++ t.debug)

def word (what : String) : Parse String := do
  let t ← p.peek
  let w := match t with
    | .ident s => some s
    | .str s => some s
    | .sym s => (keywords.find? fun k => k.2 == s).map (·.1)
    | _ => none
  match w with
  | some w => do advance; pure w
  | none => p.fail ("expected " ++ what ++ ", found " ++ t.debug)

def itemEnd : Parse Unit := do
  -- the separator of list and document items: blank lines, an optional comma, blank lines
  p.skipNewlines
  if ← p.accept .comma then p.skipNewlines

end Input

section
variable [External]

abbrev Literal := Value × List (String × Span) × Nat

mutual

def literalValue (p : Input) : Nat → Parse Literal
  | 0 => throw .outOfFuel
  | fuel + 1 => do
    -- the source indexes the token it has just taken; past the end that is a newline, never one of these
    match ← p.next with
    | .str s => do pure (.string s, [], ← p.pos)
    | .num n => do pure (num n, [], ← p.pos)
    | .sym .true => do pure (.bool true, [], ← p.pos)
    | .sym .false => do pure (.bool false, [], ← p.pos)
    | .sym .null => do pure (.null, [], ← p.pos)
    | .sym .minus => do
      match ← p.next with
      | .num n => do pure (num (-n), [], ← p.pos)
      | _ => p.fail "expected number"
    | .sym .lBrack => do
      p.skipNewlines
      let items ← literalItems p fuel
      pure (.array items, [], ← p.pos)
    | .sym .lBrace => do
      p.skipNewlines
      let (map, spans) ← literalFields p fuel [] []
      pure (.object map, spans, ← p.pos)
    | _ => p.fail "not a literal"

def literalItems (p : Input) : Nat → Parse (List Value)
  | 0 => throw .outOfFuel
  | fuel + 1 => do
    if ← p.accept .rBrack then pure []
    else do
      let (v, _, _) ← literalValue p fuel
      p.itemEnd
      let vs ← literalItems p fuel
      pure (v :: vs)

def literalFields (p : Input) : Nat → Map → List (String × Span) →
    Parse (Map × List (String × Span))
  | 0, _, _ => throw .outOfFuel
  | fuel + 1, map, spans => do
    if ← p.accept .rBrace then pure (map, spans)
    else do
      let key ← p.word "key"
      p.eat .colon ":"
      let vstart ← p.pos
      let (v, _, _) ← literalValue p fuel
      let vend ← p.pos
      p.itemEnd
      literalFields p fuel (map.insert key v) (spans ++ [(key, (vstart, vend))])

end

/-- A literal up to the end of its line, or the index as it was. -/
def tryLiteral (p : Input) (fuel : Nat) : Parse (Option Literal) := fun save =>
  match literalValue p fuel save with
  | .ok (l, i) => if (p.tokAt i).is .newline then .ok (some l, i) else .ok (none, save)
  | .error (.err _) => .ok (none, save)
  | .error f => .error f

def isFilter : Expr → Bool
  | .bin op _ _ => op ∈ [.eq, .ne, .lt, .le, .gt, .ge, .in_, .and, .or]
  | .unary .not _ => true
  | _ => false

def bindingPower : Sym → Option (BinOp × Nat)
  | .or => some (.or, 1)
  | .and => some (.and, 2)
  | .qq => some (.coalesce, 3)
  | .eqEq => some (.eq, 4)
  | .ne => some (.ne, 4)
  | .lt => some (.lt, 4)
  | .le => some (.le, 4)
  | .gt => some (.gt, 4)
  | .ge => some (.ge, 4)
  | .in => some (.in_, 4)
  | .plus => some (.add, 5)
  | .minus => some (.sub, 5)
  | .star => some (.mul, 6)
  | .slash => some (.div, 6)
  | _ => none

def binaryOp : Tok → Option (BinOp × Nat)
  | .sym s => bindingPower s
  | _ => none

mutual

/-- `Parser::expr`: a prefix, its postfixes, then operators that bind tighter than `minBp`. -/
def expr (fuel : Nat) (p : Input) (minBp : Nat) : Parse Expr :=
  match fuel with
  | 0 => throw .outOfFuel
  | fuel + 1 => do
    let lhs ← primary fuel p
    let lhs ← postfixes fuel p lhs
    operators fuel p minBp lhs

def primary (fuel : Nat) (p : Input) : Parse Expr :=
  match fuel with
  | 0 => throw .outOfFuel
  | fuel + 1 => do
    match ← p.next with
    | .num n => pure (.lit (num n))
    | .str s => pure (.lit (.string s))
    | .sym .true => pure (.lit (.bool true))
    | .sym .false => pure (.lit (.bool false))
    | .sym .null => pure (.lit .null)
    | .fStr parts => do pure (.fString (← holes fuel p.src parts))
    | .sym .not => do pure (.unary .not (← expr fuel p 9))
    | .sym .minus => do pure (.unary .neg (← expr fuel p 9))
    | .sym .source => pure (.var "source")
    | .sym .tool => pure (.var "tool")
    | .sym .driver => pure (.var "driver")
    | .sym .api => pure (.var "api")
    | .sym .invoke => do
      let (name, args) ← invokeArgs fuel p
      pure (.invoke name args)
    | .sym .lParen => do
      let e ← expr fuel p 0
      p.eat .rParen ")"
      pure e
    | .sym .lBrack => do
      p.skipNewlines
      pure (.array (← exprItems fuel p))
    | .sym .lBrace => do
      p.skipNewlines
      pure (.doc (← exprFields fuel p))
    | .ident name => do
      if ← p.accept .lParen then pure (.call name (← callArgs fuel p)) else pure (.var name)
    | other => p.fail ("unexpected " ++ other.debug ++ " in expression")

def holes (fuel : Nat) (src : Bytes) (parts : List FPart) : Parse (List FStringPart) :=
  -- the tokens of a hole are parsed on their own, up to where its expression ends
  match fuel with
  | 0 => throw .outOfFuel
  | fuel + 1 =>
    match parts with
    | [] => pure []
    | .lit s :: ps => do pure (.lit s :: (← holes fuel src ps))
    | .expr toks :: ps => fun i =>
      match expr fuel ⟨toks, src⟩ 0 0 with
      | .ok (e, _) => (do pure (.expr e :: (← holes fuel src ps)) : Parse (List FStringPart)) i
      | .error f => .error f

def exprItems (fuel : Nat) (p : Input) : Parse (List Expr) :=
  match fuel with
  | 0 => throw .outOfFuel
  | fuel + 1 => do
    if ← p.accept .rBrack then pure []
    else do
      let e ← expr fuel p 0
      p.itemEnd
      pure (e :: (← exprItems fuel p))

def exprFields (fuel : Nat) (p : Input) : Parse (List (String × Expr)) :=
  match fuel with
  | 0 => throw .outOfFuel
  | fuel + 1 => do
    if ← p.accept .rBrace then pure []
    else do
      let key ← p.word "key"
      p.eat .colon ":"
      let e ← expr fuel p 0
      p.itemEnd
      pure ((key, e) :: (← exprFields fuel p))

def callArgs (fuel : Nat) (p : Input) : Parse (List Expr) :=
  match fuel with
  | 0 => throw .outOfFuel
  | fuel + 1 => do
    if ← p.accept .rParen then pure []
    else do
      let e ← expr fuel p 0
      let _ ← p.accept .comma
      pure (e :: (← callArgs fuel p))

def namedArgs (fuel : Nat) (p : Input) : Parse (List (String × Expr)) :=
  match fuel with
  | 0 => throw .outOfFuel
  | fuel + 1 => do
    if ← p.accept .rParen then pure []
    else do
      let key ← p.word "argument name"
      p.eat .colon ":"
      let e ← expr fuel p 0
      let _ ← p.accept .comma
      pure ((key, e) :: (← namedArgs fuel p))

def invokeArgs (fuel : Nat) (p : Input) : Parse (String × List (String × Expr)) :=
  match fuel with
  | 0 => throw .outOfFuel
  | fuel + 1 => do
    match ← p.next with
    | .ident n => do
      let name ← match ← p.sees .colon, ← p.peek2 with
        | true, some (.ident svc) => do
          Input.advance
          Input.advance
          pure (n ++ ":" ++ svc)
        | _, _ => pure n
      p.eat .lParen "("
      let args ← namedArgs fuel p
      pure (name, args)
    | _ => p.fail "expected service name after invoke"

def postfixes (fuel : Nat) (p : Input) (lhs : Expr) : Parse Expr :=
  match fuel with
  | 0 => throw .outOfFuel
  | fuel + 1 => do
    match ← p.peek with
    | .sym .dot => do
      Input.advance
      let f ← p.word "field name"
      postfixes fuel p (.field lhs f false)
    | .sym .qDot => do
      Input.advance
      let f ← p.word "field name"
      postfixes fuel p (.field lhs f true)
    | .sym .lBrack => do
      Input.advance
      if ← p.accept .rBrack then postfixes fuel p (.projection lhs)
      else do
        let inner ← expr fuel p 0
        p.eat .rBrack "]"
        postfixes fuel p (if isFilter inner then .filter lhs inner else .index lhs inner)
    | _ => pure lhs

def operators (fuel : Nat) (p : Input) (minBp : Nat) (lhs : Expr) : Parse Expr :=
  match fuel with
  | 0 => throw .outOfFuel
  | fuel + 1 => do
    match binaryOp (← p.peek) with
    | none => pure lhs
    | some (op, bp) =>
      if bp ≤ minBp then pure lhs
      else do
        Input.advance
        let rhs ← expr fuel p bp
        operators fuel p minBp (.bin op lhs rhs)

end

def pathTail (p : Input) : Nat → Parse (List String)
  | 0 => throw .outOfFuel
  | fuel + 1 => do
    if ← p.accept .dot then
      let w ← p.word "field name"
      pure (w :: (← pathTail p fuel))
    else pure []

def condition (p : Input) (fuel : Nat) : Parse (Expr × Span) := do
  let cstart ← p.pos
  let c ← expr fuel p 0
  let cend ← p.pos
  p.eat .colon ":"
  pure (c, (cstart, cend))

mutual

def stmt (p : Input) : Nat → Parse Stmt
  | 0 => throw .outOfFuel
  | fuel + 1 => do
    match ← p.peek with
    | .sym .emit => do
      Input.advance
      let subject ← expr fuel p 0
      p.eat .comma ","
      pure (.emit subject (← expr fuel p 0))
    | .sym .respond => do
      Input.advance
      let status ← expr fuel p 0
      p.eat .comma ","
      pure (.respond status (← expr fuel p 0))
    | .sym .invoke => do
      Input.advance
      let (name, args) ← invokeArgs fuel p
      pure (.invokeMerge name args)
    | .sym .if => do
      Input.advance
      let (c, span) ← condition p fuel
      let body ← block p fuel
      ifRest p fuel [(c, span, body)] none
    | .sym .for => do
      Input.advance
      match ← p.next with
      | .ident x => do
        p.eat .in "in"
        let iter ← expr fuel p 0
        p.eat .colon ":"
        let body ← block p fuel
        p.eat .end "end"
        pure (.loop x iter body)
      | _ => p.fail "expected loop variable"
    | .ident first => do
      Input.advance
      let tail ← pathTail p fuel
      p.eat .eq "="
      if ← p.accept .invoke then
        let (name, args) ← invokeArgs fuel p
        pure (.assign (first :: tail) (.invoke name args))
      else pure (.assign (first :: tail) (← expr fuel p 0))
    | _ => p.fail "expected a statement"

def ifRest (p : Input) : Nat → List (Expr × Span × List Stmt) → Option (List Stmt) → Parse Stmt
  -- what follows the first arm of an `if`; a later `else` replaces an earlier one
  | 0, _, _ => throw .outOfFuel
  | fuel + 1, arms, otherwise => do
    match ← p.peek with
    | .sym .elif => do
      Input.advance
      let (c, span) ← condition p fuel
      let body ← block p fuel
      ifRest p fuel (arms ++ [(c, span, body)]) otherwise
    | .sym .else => do
      Input.advance
      p.eat .colon ":"
      let body ← block p fuel
      ifRest p fuel arms (some body)
    | .sym .end => do
      Input.advance
      pure (.ite arms otherwise)
    | _ => p.fail "expected elif/else/end"

def block (p : Input) : Nat → Parse (List Stmt)
  | 0 => throw .outOfFuel
  | fuel + 1 => do
    p.skipNewlines
    if (← p.sees .end) || (← p.sees .elif) || (← p.sees .else) then pure []
    else if ← p.atEnd then p.fail "missing \x60end\x60"
    else do
      let s ← stmt p fuel
      pure (s :: (← block p fuel))

end

structure Draft where
  source : Option String := none
  tool : Option String := none
  api : Option String := none
  driver : Option String := none
  stmts : List Stmt := []
  surface : List SurfaceEntry := []

def isConstantName (name : String) : Bool :=
  name.toList.all (fun c => isAsciiUppercase c || c == '_' || isAsciiDigit c) &&
    name.toList.any isAsciiUppercase

def directive (p : Input) (msg : String) : Parse String := do
  Input.advance
  match ← p.next with
  | .str s => pure s
  | _ => p.fail msg

def surfaceEntry (p : Input) (fuel : Nat) : Parse (Option SurfaceEntry) := fun save =>
  match p.tokAt save, p.tokAt? (save + 1) with
  | .ident name, some (.sym .eq) =>
    if isConstantName name then
      match tryLiteral p fuel (save + 2) with
      | .ok (some (value, entrySpans, stop), i) =>
        .ok (some ⟨name, value, (p.posAt (save + 2), stop), entrySpans⟩, i)
      | .ok (none, _) => .ok (none, save)
      | .error f => .error f
    else .ok (none, save)
  | _, _ => .ok (none, save)

def topLevel (p : Input) (d : Draft) (fuel : Nat) : Parse Draft := do
  match ← p.peek with
  | .sym .source => do
    let s ← directive p "source expects a string subject"
    pure { d with source := some s }
  | .sym .tool => do
    let s ← directive p "tool expects a string description"
    pure { d with tool := some s }
  | .sym .driver => do
    let s ← directive p "driver expects a string driver name"
    pure { d with driver := some s }
  | .sym .api => do
    let s ← directive p "api expects a string like \"POST /orders\""
    pure { d with api := some s }
  | _ => do
    match ← surfaceEntry p fuel with
    | some e =>
      pure { d with
        stmts := d.stmts ++ [.assign [e.name] (.lit e.value)]
        surface := d.surface ++ [e] }
    | none => do
      let s ← stmt p fuel
      pure { d with stmts := d.stmts ++ [s] }

def items (p : Input) : Nat → Draft → Parse Draft
  | 0, _ => throw .outOfFuel
  | fuel + 1, d => do
    p.skipNewlines
    if ← p.atEnd then pure d
    else do
      let d ← topLevel p d fuel
      items p fuel d

def stringConsts (surface : List SurfaceEntry) : List (String × String) :=
  surface.filterMap fun e => e.value.asStr.map fun s => (e.name, s)

def Draft.finish (d : Draft) : Program :=
  let statics := collectStatic (stringConsts d.surface) ([], []) d.stmts
  { source := d.source
    tool := d.tool
    api := d.api
    driver := d.driver
    stmts := d.stmts
    surface := d.surface
    emitSubjects := statics.1
    invokes := statics.2
    secretRefs := walkStmts [] d.stmts }

/-- More than the recursion can use on a source of this length. -/
def parseFuel (src : Bytes) : Nat := 8 * src.length + 16

def parseBytes (src : Bytes) : Except Fault Program := do
  let toks ← lex src
  let (d, _) ← items ⟨toks, src⟩ (parseFuel src) {} 0
  pure d.finish

def parse (src : String) : Except Fault Program := parseBytes (bytesOf src)

end

end Vejas.Vjs
