import Vejas.Json.Value

/-! The text of a document, written and read as `serde_json` does. -/

namespace Vejas.Json
open Rust

def escapeChar (c : Char) : List Char :=
  if c = '"' then ['\\', '"']
  else if c = '\\' then ['\\', '\\']
  else if c = '\n' then ['\\', 'n']
  else if c = '\r' then ['\\', 'r']
  else if c = '\t' then ['\\', 't']
  else if c.toNat = 8 then ['\\', 'b']
  else if c.toNat = 12 then ['\\', 'f']
  else if c.toNat < 16 then "\\u000".toList ++ Nat.toDigits 16 c.toNat
  else if c.toNat < 32 then "\\u00".toList ++ Nat.toDigits 16 c.toNat
  else [c]

def renderStr (s : String) : String := "\"" ++ String.ofList (s.toList.flatMap escapeChar) ++ "\""

namespace Value
variable [External]

mutual

def render : Value → String
  | null => "null"
  | bool b => if b then "true" else "false"
  | number n => n.render
  | string s => renderStr s
  | array a => "[" ++ join "," (renderItems a) ++ "]"
  | object o => "\x7b" ++ join "," (renderFields o) ++ "\x7d"

def renderItems : List Value → List String
  | [] => []
  | v :: vs => render v :: renderItems vs

def renderFields : List (String × Value) → List String
  | [] => []
  | (k, v) :: fs => (renderStr k ++ ":" ++ render v) :: renderFields fs

end

end Value

def skipBlank (cs : List Char) : List Char :=
  cs.dropWhile fun c => c == ' ' || c == '\n' || c == '\t' || c == '\r'

def hexValue (c : Char) : Option Nat :=
  if '0' ≤ c ∧ c ≤ '9' then some (c.toNat - '0'.toNat)
  else if 'a' ≤ c ∧ c ≤ 'f' then some (c.toNat - 'a'.toNat + 10)
  else if 'A' ≤ c ∧ c ≤ 'F' then some (c.toNat - 'A'.toNat + 10)
  else none

def hex4 : List Char → Option (Nat × List Char)
  | a :: b :: c :: d :: rest => do
    let a ← hexValue a
    let b ← hexValue b
    let c ← hexValue c
    let d ← hexValue d
    some (((a * 16 + b) * 16 + c) * 16 + d, rest)
  | _ => none

def unicodeEscape (cs : List Char) : Option (Char × List Char) := do
  let (hi, rest) ← hex4 cs
  if 0xDC00 ≤ hi ∧ hi ≤ 0xDFFF then none
  else if 0xD800 ≤ hi ∧ hi ≤ 0xDBFF then
    match rest with
    | '\\' :: 'u' :: rest => do
      let (lo, rest) ← hex4 rest
      if 0xDC00 ≤ lo ∧ lo ≤ 0xDFFF then
        some (Char.ofNat (0x10000 + (hi - 0xD800) * 0x400 + (lo - 0xDC00)), rest)
      else none
    | _ => none
  else some (Char.ofNat hi, rest)

def shortEscape (c : Char) : Option Char :=
  if c = '"' ∨ c = '\\' ∨ c = '/' then some c
  else if c = 'b' then some '\x08'
  else if c = 'f' then some '\x0c'
  else if c = 'n' then some '\n'
  else if c = 'r' then some '\r'
  else if c = 't' then some '\t'
  else none

def readStr : Nat → List Char → List Char → Option (String × List Char)
  | 0, _, _ => none
  | _ + 1, _, [] => none
  | fuel + 1, acc, c :: cs =>
    if c = '"' then some (String.ofList acc.reverse, cs)
    else if c = '\\' then
      match cs with
      | 'u' :: cs => (unicodeEscape cs).bind fun p => readStr fuel (p.1 :: acc) p.2
      | e :: cs => (shortEscape e).bind fun c => readStr fuel (c :: acc) cs
      | [] => none
    else if c.toNat < 32 then none
    else readStr fuel (c :: acc) cs

/-- `f64_from_parts`: scale by powers of ten that are floats, dividing by `1e308`
while the exponent is out of the table. -/
def scaleParts : Nat → Float → Int → Option Float
  | 0, _, _ => none
  | fuel + 1, f, e =>
    if e.natAbs ≤ 308 then
      let pow := Float.ofScientific 1 false e.natAbs
      let r := if 0 ≤ e then f * pow else f / pow
      if r.isInf then none else some r
    else if f == 0.0 then some f
    else if 0 ≤ e then none
    else scaleParts fuel (f / 1e308) (e + 308)

def takeDigits (sig : Nat) (step : Int) : List Char → Nat × Int
  -- digits of the significand past what 64 bits hold only count for the exponent
  | [] => (sig, 0)
  | c :: cs =>
    let sig' := sig * 10 + (c.toNat - '0'.toNat)
    if sig' < 2 ^ 64 then
      let (s, e) := takeDigits sig' step cs
      (s, e + step)
    else (sig, if step = 0 then (cs.length + 1 : Int) else 0)

def mkFloat (neg : Bool) (sig : Nat) (e : Int) : Option Value :=
  (scaleParts (e.natAbs / 308 + 2) (Float.ofNat sig) e).bind fun f =>
    (Number.fromF64 (if neg then -f else f)).map Value.number

def mkInt (neg : Bool) (n : Nat) : Option Value :=
  if neg then
    if 0 < n ∧ n ≤ 2 ^ 63 then some (.number (.ofI64 (Int64.ofInt (-n))))
    else mkFloat true n 0
  else some (.number (.posInt (UInt64.ofNat n)))

def jsonExponent (cs : List Char) : Option (Int × List Char) :=
  let (neg, cs) := F64.unsign cs
  let (ds, rest) := F64.digitRun cs
  if ds.isEmpty then none else some (if neg then -(F64.natOf ds : Int) else F64.natOf ds, rest)

def readNumber (neg : Bool) (cs : List Char) : Option (Value × List Char) := do
  let (ip, rest) := F64.digitRun cs
  if ip.isEmpty ∨ (ip.head? = some '0' ∧ 1 < ip.length) then none
  let (sig, more) := takeDigits 0 0 ip
  let (fp, rest) ← match rest with
    | '.' :: r => let (fp, r) := F64.digitRun r; if fp.isEmpty then none else some (fp, r)
    | r => some ([], r)
  let (sig, shift) := takeDigits sig (-1) fp
  let (e, rest) ← match rest with
    | 'e' :: r => jsonExponent r
    | 'E' :: r => jsonExponent r
    | r => some (0, r)
  if fp.isEmpty ∧ rest = (F64.digitRun cs).2 ∧ more = 0 then (mkInt neg sig).map (·, rest)
  else (mkFloat neg sig (more + shift + e)).map (·, rest)

def readWord (word : String) (v : Value) (cs : List Char) : Option (Value × List Char) :=
  if word.toList.isPrefixOf cs then some (v, cs.drop word.toList.length) else none

mutual

def readValue : Nat → Nat → List Char → Option (Value × List Char)
  | 0, _, _ => none
  | fuel + 1, depth, cs =>
    match skipBlank cs with
    | [] => none
    | c :: cs =>
      if c = 'n' then readWord "ull" .null cs
      else if c = 't' then readWord "rue" (.bool true) cs
      else if c = 'f' then readWord "alse" (.bool false) cs
      else if c = '"' then (readStr fuel [] cs).map fun p => (.string p.1, p.2)
      else if c = '-' then readNumber true cs
      else if isAsciiDigit c then readNumber false (c :: cs)
      else if c = '[' then
        if depth ≤ 1 then none
        else match skipBlank cs with
          | ']' :: cs => some (.array [], cs)
          | cs => (readItems fuel (depth - 1) cs).map fun p => (.array p.1, p.2)
      else if c = '\x7b' then
        if depth ≤ 1 then none
        else match skipBlank cs with
          | '\x7d' :: cs => some (.object [], cs)
          | cs => (readFields fuel (depth - 1) [] cs).map fun p => (.object p.1, p.2)
      else none

def readItems : Nat → Nat → List Char → Option (List Value × List Char)
  | 0, _, _ => none
  | fuel + 1, depth, cs => do
    let (v, cs) ← readValue fuel depth cs
    match skipBlank cs with
    | ',' :: cs => (readItems fuel depth cs).map fun p => (v :: p.1, p.2)
    | ']' :: cs => some ([v], cs)
    | _ => none

def readFields : Nat → Nat → Map → List Char → Option (Map × List Char)
  | 0, _, _, _ => none
  | fuel + 1, depth, m, cs =>
    match skipBlank cs with
    | '"' :: cs => do
      let (k, cs) ← readStr fuel [] cs
      match skipBlank cs with
      | ':' :: cs => do
        let (v, cs) ← readValue fuel depth cs
        match skipBlank cs with
        | ',' :: cs => readFields fuel depth (Map.insert k v m) cs
        | '\x7d' :: cs => some (Map.insert k v m, cs)
        | _ => none
      | _ => none
    | _ => none

end

def fromStr (s : String) : Option Value := do
  let (v, rest) ← readValue (2 * s.toList.length + 2) 128 s.toList
  if (skipBlank rest).isEmpty then some v else none

end Vejas.Json
