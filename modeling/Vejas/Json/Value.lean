import Vejas.Rust.F64
import Vejas.Rust.Str

/-! JSON documents as `serde_json` holds them: three kinds of number, and objects
ordered by key. -/

namespace Vejas.Json
open Rust

/-- A natural number below `2^64`, a negative one down to `-2^63`, or a finite float. -/
inductive Number
  | posInt (n : UInt64)
  | negInt (n : Int64) (neg : n < 0)
  | float (x : Float) (finite : x.isFinite = true)
  deriving DecidableEq

namespace Number

def ofI64 (n : Int64) : Number := if h : n < 0 then .negInt n h else .posInt n.toUInt64

def fromF64 (x : Float) : Option Number :=
  if h : x.isFinite = true then some (.float x h) else none

def asF64 : Number → Float
  | posInt n => Float.ofNat n.toNat
  | negInt n _ => Float.ofInt n.toInt
  | float x _ => x

def asI64 : Number → Option Int64
  | posInt n => if n.toNat < 2 ^ 63 then some n.toInt64 else none
  | negInt n _ => some n
  | float _ _ => none

def eq : Number → Number → Bool
  | posInt a, posInt b => a == b
  | negInt a _, negInt b _ => a == b
  | float a _, float b _ => a == b
  | _, _ => false

def render [External] : Number → String
  | posInt n => toString n.toNat
  | negInt n _ => toString n.toInt
  | float x _ => External.formatFinite x

end Number

inductive Value
  | null
  | bool (b : Bool)
  | number (n : Number)
  | string (s : String)
  | array (items : List Value)
  | object (fields : List (String × Value))

instance : Inhabited Value := ⟨.null⟩

abbrev Map := List (String × Value)

namespace Map

def insert (k : String) (v : Value) : Map → Map
  | [] => [(k, v)]
  | (k', v') :: m =>
    if strLt k k' then (k, v) :: (k', v') :: m
    else if k = k' then (k, v) :: m
    else (k', v') :: insert k v m

theorem insert_cons (k : String) (v : Value) (p : String × Value) (m : Map) :
    insert k v (p :: m) =
      if strLt k p.1 then (k, v) :: p :: m
      else if k = p.1 then (k, v) :: m
      else p :: insert k v m := rfl

def get? (m : Map) (k : String) : Option Value := (m.find? fun p => p.1 == k).map (·.2)

def remove (m : Map) (k : String) : Map := m.filter fun p => p.1 != k

def containsKey (m : Map) (k : String) : Bool := m.any fun p => p.1 == k

def extend (new m : Map) : Map := new.foldl (fun m p => m.insert p.1 p.2) m

def ofEntries (es : List (String × Value)) : Map := extend es []

end Map

namespace Value

def obj (es : List (String × Value)) : Value := .object (Map.ofEntries es)

def isNull : Value → Bool
  | null => true
  | _ => false

def asBool : Value → Option Bool
  | bool b => some b
  | _ => none

def asStr : Value → Option String
  | string s => some s
  | _ => none

def asF64 : Value → Option Float
  | number n => some n.asF64
  | _ => none

def asArray : Value → Option (List Value)
  | array a => some a
  | _ => none

def asObject : Value → Option Map
  | object o => some o
  | _ => none

def asU64 : Value → Option Nat
  | number (.posInt n) => some n.toNat
  | _ => none

def get (v : Value) (key : String) : Option Value := v.asObject.bind fun o => Map.get? o key

def index (v : Value) (key : String) : Value := (v.get key).getD .null

def text (v : Value) (key : String) : Option String := (v.index key).asStr

def ofNat (n : Nat) : Value := .number (.posInt n.toUInt64)

mutual

def eq : Value → Value → Bool
  | null, null => true
  | bool a, bool b => a == b
  | number a, number b => a.eq b
  | string a, string b => a == b
  | array a, array b => eqItems a b
  | object a, object b => eqFields a b
  | _, _ => false

def eqItems : List Value → List Value → Bool
  | [], [] => true
  | a :: as, b :: bs => eq a b && eqItems as bs
  | _, _ => false

def eqFields : List (String × Value) → List (String × Value) → Bool
  | [], [] => true
  | (k, a) :: as, (l, b) :: bs => k == l && eq a b && eqFields as bs
  | _, _ => false

end

end Value

end Vejas.Json
