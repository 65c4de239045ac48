import Vejas.Rust.F64
import Vejas.Rust.Str

/-! The lexer of VejasScript. It works on the bytes of the source and slices the
text at byte offsets, so a slice off a character boundary is an outcome of its own. -/

namespace Vejas.Vjs
open Rust

/-- How a computation of the front end or of the interpreter stops early. -/
inductive Fault
  | err (msg : String)
  | panic
  | outOfFuel
  deriving DecidableEq

abbrev Bytes := List UInt8

def byte (c : Char) : UInt8 := c.toNat.toUInt8

def bytesOf (s : String) : Bytes := s.toUTF8.data.toList

inductive Sym
  | «true» | «false» | null | «if» | elif | «else» | «end» | «for» | «in» | and | or | not
  | emit | invoke | source | tool | driver | api | respond
  | newline | colon | comma | dot | qDot | qq | lBrace | rBrace | lBrack | rBrack | lParen | rParen
  | eq | eqEq | ne | lt | le | gt | ge | plus | minus | star | slash
  deriving DecidableEq

mutual

inductive Tok
  | ident (name : String)
  | str (s : String)
  | fStr (parts : List FPart)
  | num (n : Float)
  | sym (s : Sym)

inductive FPart
  | lit (s : String)
  | expr (toks : List (Tok × Nat))

end

abbrev Spanned := Tok × Nat

def Tok.is (t : Tok) (s : Sym) : Bool :=
  match t with
  | .sym s' => s' == s
  | _ => false

def isCont (b : UInt8) : Bool := 0x80 ≤ b && b ≤ 0xBF

def replacement : Char := '\uFFFD'

def within (lo hi b : UInt8) : Bool := lo ≤ b && b ≤ hi

def bits6 (b : UInt8) : Nat := b.toNat % 64

def decodeLossy : Bytes → List Char
  -- `String::from_utf8_lossy`: a maximal invalid part becomes one replacement character
  | [] => []
  | a :: rest =>
    if a < 0x80 then Char.ofNat a.toNat :: decodeLossy rest
    else if within 0xC2 0xDF a then
      match rest with
      | b :: r =>
        if isCont b then Char.ofNat (a.toNat % 32 * 64 + bits6 b) :: decodeLossy r
        else replacement :: decodeLossy (b :: r)
      | [] => [replacement]
    else if within 0xE0 0xEF a then
      let lo : UInt8 := if a = 0xE0 then 0xA0 else 0x80
      let hi : UInt8 := if a = 0xED then 0x9F else 0xBF
      match rest with
      | b :: c :: r =>
        if !within lo hi b then replacement :: decodeLossy (b :: c :: r)
        else if isCont c then
          Char.ofNat ((a.toNat % 16 * 64 + bits6 b) * 64 + bits6 c) :: decodeLossy r
        else replacement :: decodeLossy (c :: r)
      | [b] => if within lo hi b then [replacement] else replacement :: decodeLossy [b]
      | [] => [replacement]
    else if within 0xF0 0xF4 a then
      let lo : UInt8 := if a = 0xF0 then 0x90 else 0x80
      let hi : UInt8 := if a = 0xF4 then 0x8F else 0xBF
      match rest with
      | b :: c :: d :: r =>
        if !within lo hi b then replacement :: decodeLossy (b :: c :: d :: r)
        else if !isCont c then replacement :: decodeLossy (c :: d :: r)
        else if isCont d then
          Char.ofNat (((a.toNat % 8 * 64 + bits6 b) * 64 + bits6 c) * 64 + bits6 d) :: decodeLossy r
        else replacement :: decodeLossy (d :: r)
      | [b, c] =>
        if !within lo hi b then replacement :: decodeLossy [b, c]
        else if isCont c then [replacement] else replacement :: decodeLossy [c]
      | [b] => if within lo hi b then [replacement] else replacement :: decodeLossy [b]
      | [] => [replacement]
    else replacement :: decodeLossy rest

def textOf (b : Bytes) : String := String.ofList (decodeLossy b)

def isCharBoundary (b : Bytes) (i : Nat) : Bool :=
  match b.drop i with
  | [] => i == b.length
  | c :: _ => !isCont c

def slice (src : Bytes) (i j : Nat) : Except Fault Bytes :=
  if i ≤ j ∧ isCharBoundary src i ∧ isCharBoundary src j then .ok ((src.drop i).take (j - i))
  else .error .panic

def errAt (pos : Nat) (src : Bytes) (msg : String) : Fault :=
  match slice src 0 (min pos src.length) with
  | .ok pre => .err ("line " ++ toString (pre.count (byte '\n') + 1) ++ ": " ++ msg)
  | .error f => f

def isDigitByte (b : UInt8) : Bool := byte '0' ≤ b && b ≤ byte '9'

def isAlphaByte (b : UInt8) : Bool :=
  (byte 'a' ≤ b && b ≤ byte 'z') || (byte 'A' ≤ b && b ≤ byte 'Z')

def isWordByte (b : UInt8) : Bool := isAlphaByte b || isDigitByte b || b == byte '_'

def keywords : List (String × Sym) :=
  [("if", .if), ("elif", .elif), ("else", .else), ("end", .end), ("for", .for), ("in", .in),
   ("and", .and), ("or", .or), ("not", .not), ("emit", .emit), ("invoke", .invoke),
   ("source", .source), ("tool", .tool), ("driver", .driver), ("api", .api),
   ("respond", .respond), ("true", .true), ("false", .false), ("null", .null)]

def wordTok (w : String) : Tok :=
  match keywords.lookup w with
  | some s => .sym s
  | none => .ident w

def twoByte : List (String × Sym) :=
  [("?.", .qDot), ("??", .qq), ("==", .eqEq), ("!=", .ne), ("<=", .le), (">=", .ge)]

def oneByte : List (Char × Sym) :=
  [(':', .colon), (',', .comma), ('.', .dot), ('\x7b', .lBrace), ('\x7d', .rBrace), ('[', .lBrack),
   (']', .rBrack), ('(', .lParen), (')', .rParen), ('=', .eq), ('<', .lt), ('>', .gt),
   ('+', .plus), ('-', .minus), ('*', .star), ('/', .slash)]

def unescape (c : UInt8) : UInt8 :=
  if c = byte 'n' then byte '\n' else if c = byte 't' then byte '\t' else c

def stringBody : Nat → Bytes → Bytes → Option (Bytes × Nat)
  | _, _, [] => none
  | i, acc, c :: cs =>
    if c = byte '"' then some (acc.reverse, i + 1)
    else if c = byte '\\' then
      match cs with
      | e :: cs => stringBody (i + 2) (unescape e :: acc) cs
      | [] => none
    else stringBody (i + 1) (c :: acc) cs

def lexString (src : Bytes) (start : Nat) : Except Fault (String × Nat) :=
  match stringBody (start + 1) [] (src.drop (start + 1)) with
  | some (s, ni) => .ok (textOf s, ni)
  | none => .error (errAt start src "unterminated string")

/-- The offset just after the brace that closes a hole. -/
def holeEnd : Nat → Nat → Bytes → Option Nat
  | 0, j, _ => some j
  | _ + 1, _, [] => none
  | depth + 1, j, c :: cs =>
    if c = byte '\x7b' then holeEnd (depth + 2) (j + 1) cs
    else if c = byte '\x7d' then holeEnd depth (j + 1) cs
    else holeEnd (depth + 1) (j + 1) cs

def flush (lit : Bytes) (parts : List FPart) : List FPart :=
  if lit.isEmpty then parts else parts ++ [.lit (textOf lit.reverse)]

section
variable [External]

mutual

def lexFrom (src : Bytes) : Nat → Nat → Except Fault (List Spanned)
  | 0, _ => .error .outOfFuel
  | fuel + 1, i =>
    match src.drop i with
    | [] => .ok [(.sym .newline, src.length)]
    | c :: rest =>
      if c = byte ' ' ∨ c = byte '\t' ∨ c = byte '\r' then lexFrom src fuel (i + 1)
      else if c = byte '\n' then do
        let ts ← lexFrom src fuel (i + 1)
        .ok ((.sym .newline, i) :: ts)
      else if c = byte '#' then
        lexFrom src fuel (i + ((c :: rest).takeWhile (· != byte '\n')).length)
      else if c = byte '"' then do
        let (s, ni) ← lexString src i
        let ts ← lexFrom src fuel ni
        .ok ((.str s, i) :: ts)
      else if c = byte 'f' ∧ rest.head? = some (byte '"') then do
        let (parts, ni) ← lexFstring src (i + 1) fuel [] [] (i + 2)
        let ts ← lexFrom src fuel ni
        .ok ((.fStr parts, i) :: ts)
      else if isDigitByte c then
        let w := (c :: rest).takeWhile fun b => isDigitByte b || b == byte '.'
        match F64.parse (textOf w) with
        | none => .error (errAt i src "bad number")
        | some n => do
          let ts ← lexFrom src fuel (i + w.length)
          .ok ((.num n, i) :: ts)
      else if isAlphaByte c ∨ c = byte '_' then do
        let w := (c :: rest).takeWhile isWordByte
        let ts ← lexFrom src fuel (i + w.length)
        .ok ((wordTok (textOf w), i) :: ts)
      else do
        let two ← if i + 1 < src.length then slice src i (i + 2) else .ok []
        let ch := Char.ofNat c.toNat
        let (s, len) ← match twoByte.lookup (textOf two), oneByte.lookup ch with
          | some s, _ => .ok (s, 2)
          | none, some s => .ok (s, 1)
          | none, none => .error (errAt i src ("unexpected character " ++ debugChar ch))
        let ts ← lexFrom src fuel (i + len)
        .ok ((.sym s, i) :: ts)

def lexFstring (src : Bytes) (quote : Nat) : Nat → List FPart → Bytes → Nat →
    Except Fault (List FPart × Nat)
  | 0, _, _, _ => .error .outOfFuel
  | fuel + 1, parts, lit, i =>
    match src.drop i with
    | [] => .error (errAt quote src "unterminated f-string")
    | c :: rest =>
      if c = byte '"' then .ok (flush lit parts, i + 1)
      else if (c = byte '\x7b' ∨ c = byte '\x7d') ∧ rest.head? = some c then
        lexFstring src quote fuel parts (c :: lit) (i + 2)
      else if c = byte '\x7b' then
        match holeEnd 1 (i + 1) rest with
        | none => .error (errAt i src "unterminated \x7b in f-string")
        | some j => do
          let hole ← slice src (i + 1) (j - 1)
          let inner ← lexFrom hole fuel 0
          lexFstring src quote fuel (flush lit parts ++ [.expr inner]) [] j
      else
        match c == byte '\\', rest with
        | true, e :: _ => lexFstring src quote fuel parts (unescape e :: lit) (i + 2)
        | _, _ => lexFstring src quote fuel parts (c :: lit) (i + 1)

end

def lex (src : Bytes) : Except Fault (List Spanned) := lexFrom src (src.length + 1) 0

end

def Sym.debug : Sym → String
  | .true => "True" | .false => "False" | .null => "Null" | .if => "If" | .elif => "Elif"
  | .else => "Else" | .end => "End" | .for => "For" | .in => "In" | .and => "And" | .or => "Or"
  | .not => "Not" | .emit => "Emit" | .invoke => "Invoke" | .source => "Source" | .tool => "Tool"
  | .driver => "Driver" | .api => "Api" | .respond => "Respond" | .newline => "Newline"
  | .colon => "Colon" | .comma => "Comma" | .dot => "Dot" | .qDot => "QDot" | .qq => "QQ"
  | .lBrace => "LBrace" | .rBrace => "RBrace" | .lBrack => "LBrack" | .rBrack => "RBrack"
  | .lParen => "LParen" | .rParen => "RParen" | .eq => "Eq" | .eqEq => "EqEq" | .ne => "Ne"
  | .lt => "Lt" | .le => "Le" | .gt => "Gt" | .ge => "Ge" | .plus => "Plus" | .minus => "Minus"
  | .star => "Star" | .slash => "Slash"

section
variable [External]

mutual

def Tok.debug : Tok → String
  | .ident s => "Ident(" ++ debugStr s ++ ")"
  | .str s => "Str(" ++ debugStr s ++ ")"
  | .fStr parts => "FStr([" ++ join ", " (debugParts parts) ++ "])"
  | .num n => "Num(" ++ F64.debug n ++ ")"
  | .sym s => s.debug

def FPart.debug : FPart → String
  | .lit s => "Lit(" ++ debugStr s ++ ")"
  | .expr toks => "Expr([" ++ join ", " (debugToks toks) ++ "])"

def debugParts : List FPart → List String
  | [] => []
  | p :: ps => FPart.debug p :: debugParts ps

def debugToks : List (Tok × Nat) → List String
  | [] => []
  | (t, pos) :: ts =>
    ("Spanned \x7b tok: " ++ Tok.debug t ++ ", pos: " ++ toString pos ++ " \x7d") :: debugToks ts

end

end

theorem of_bind_ok {ε α β : Type} {m : Except ε α} {f : α → Except ε β} {b : β} (h : m >>= f = .ok b) :
    ∃ a, m = .ok a ∧ f a = .ok b := by
  cases m with
  | error e => cases h
  | ok a => exact ⟨a, rfl, h⟩

end Vejas.Vjs
