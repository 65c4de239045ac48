import Vejas.Vjs.Parser

/-! Operators and builtin functions of VejasScript on values. -/

namespace Vejas.Vjs
open Json Rust

def truthy : Value → Bool
  | .null => false
  | .bool b => b
  | .number n => n.asF64 != 0.0
  | .string s => !s.toList.isEmpty
  | .array a => !a.isEmpty
  | .object _ => true

def validSubject (subject : String) : Bool :=
  !subject.toList.isEmpty && !subject.toList.any fun c => isWhitespace c || isControl c

def setPath : List String → Value → Value → Value
  | [], _, root => root
  | [k], v, root => .object (Map.insert k v (root.asObject.getD []))
  | k :: k' :: ks, v, root =>
    let obj := root.asObject.getD []
    let next := (Map.get? obj k).getD (.object [])
    .object (Map.insert k (setPath (k' :: ks) v next) obj)

def ordering : Value → Value → Option Ordering
  | .number a, .number b =>
    if a.asF64 < b.asF64 then some .lt
    else if b.asF64 < a.asF64 then some .gt
    else if a.asF64 == b.asF64 then some .eq
    else none
  | .string a, .string b => some (if a < b then .lt else if a = b then .eq else .gt)
  | _, _ => none

def compareOp (op : BinOp) (lv rv : Value) : Value :=
  match ordering lv rv with
  | none => .bool false
  | some o =>
    match op with
    | .lt => .bool (o == .lt)
    | .le => .bool (o != .gt)
    | .gt => .bool (o == .gt)
    | _ => .bool (o != .lt)

def memberOf (lv : Value) : Value → Bool
  | .array a => a.any fun x => x.eq lv
  | .string s => (lv.asStr.map fun needle => contains s needle).getD false
  | .object o => (lv.asStr.map fun k => Map.containsKey o k).getD false
  | _ => false

def arith (f : Float → Float → Value) (lv rv : Value) : Value :=
  match lv.asF64, rv.asF64 with
  | some a, some b => f a b
  | _, _ => .null

section
variable [External]

def toDisplay : Value → String
  | .null => ""
  | .string s => s
  | other => other.render

def addOp : Value → Value → Value
  | .number a, .number b => num (a.asF64 + b.asF64)
  | .array a, .array b => .array (a ++ b)
  | lv, rv => .string (toDisplay lv ++ toDisplay rv)

def binary (op : BinOp) (lv rv : Value) : Value :=
  match op with
  | .eq => .bool (lv.eq rv)
  | .ne => .bool (!lv.eq rv)
  | .lt => compareOp .lt lv rv
  | .le => compareOp .le lv rv
  | .gt => compareOp .gt lv rv
  | .ge => compareOp .ge lv rv
  | .in_ => .bool (memberOf lv rv)
  | .add => addOp lv rv
  | .sub => arith (fun a b => num (a - b)) lv rv
  | .mul => arith (fun a b => num (a * b)) lv rv
  | .div => arith (fun a b => if b == 0.0 then .null else num (a / b)) lv rv
  | .and => .null
  | .or => .null
  | .coalesce => .null

def unary (op : UnOp) (v : Value) : Value :=
  match op with
  | .not => .bool (!truthy v)
  | .neg => (v.asF64.map fun f => num (-f)).getD .null

def readField (b : Value) (f : String) (safe : Bool) : Except Fault Value :=
  match b with
  | .object o => .ok ((Map.get? o f).getD .null)
  | .array items => .ok (.array (items.map fun it => (it.get f).getD .null))
  | .null => .ok .null
  | other =>
    if safe then .ok .null
    else .error (.err ("cannot read field " ++ debugStr f ++ " of " ++ other.render))

def readIndex : Value → Value → Value
  | .object o, .string s => (Map.get? o s).getD .null
  | .array a, .number n =>
    let i := (n.asI64.getD (-1)).toInt
    if 0 ≤ i then (a[i.toNat]?).getD .null else .null
  | _, _ => .null

def roundTo (v : Value) (d : Value) : Value :=
  match v.asF64, d.asF64 with
  | some v, some d =>
    let f := F64.powi 10.0 (F64.asI32 d)
    num (F64.round (v * f) / f)
  | some v, none => num (F64.round v)
  | none, _ => .null

def caseMap (f : String → String) : Value → Value
  | .string s => .string (f s)
  | .null => .null
  | v => .string (f (toDisplay v))

def lenOf : Value → Value
  | .string s => num (Float.ofNat s.toList.length)
  | .array a => num (Float.ofNat a.length)
  | .object o => num (Float.ofNat o.length)
  | _ => num 0.0

def numOf : Value → Value
  | .number n => .number n
  | .string s => ((F64.parse (trim s)).map num).getD .null
  | .bool b => num (if b then 1.0 else 0.0)
  | _ => .null

def builtin (name : String) (args : List Value) : Except Fault Value :=
  let arg (i : Nat) := (args[i]?).getD .null
  if name = "upper" then .ok (caseMap toUppercase (arg 0))
  else if name = "lower" then .ok (caseMap toLowercase (arg 0))
  else if name = "trim" then .ok (match arg 0 with | .string s => .string (trim s) | v => v)
  else if name = "len" then .ok (lenOf (arg 0))
  else if name = "str" then .ok (.string (toDisplay (arg 0)))
  else if name = "num" then .ok (numOf (arg 0))
  else if name = "split" then
    .ok (match arg 0, arg 1 with
      | .string s, .string sep => .array ((split s sep).map Value.string)
      | _, _ => .null)
  else if name = "join" then
    .ok (match arg 0, arg 1 with
      | .array a, .string sep => .string (join sep (a.map toDisplay))
      | _, _ => .null)
  else if name = "replace" then
    .ok (match arg 0, arg 1, arg 2 with
      | .string s, .string old, .string new => .string (replace s old new)
      | _, _, _ => .null)
  else if name = "round" then .ok (roundTo (arg 0) (arg 1))
  else if name = "abs" then .ok (((arg 0).asF64.map fun f => num f.abs).getD .null)
  else .error (.err ("unknown function " ++ name ++ "()"))

end

end Vejas.Vjs
