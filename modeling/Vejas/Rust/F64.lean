import Mathlib.Algebra.Group.Int.Defs
import Mathlib.Algebra.Group.Nat.Defs

/-! The operations of Rust's `f64` that `Float` leaves to foreign code, read off
the bits: truncation, rounding, integer casts, powers, decimal text both ways. -/

namespace Vejas.Rust.F64

/-- A finite float is `(-1)^neg * mant * 2^exp`. -/
structure Parts where
  neg : Bool
  mant : Nat
  exp : Int

def parts (x : Float) : Parts :=
  let b := x.toBits.toNat
  let e : Nat := b / 2 ^ 52 % 2 ^ 11
  let f := b % 2 ^ 52
  { neg := b / 2 ^ 63 == 1
    mant := if e = 0 then f else f + 2 ^ 52
    exp := (if e = 0 then 1 else (e : Int)) - 1075 }

def Parts.truncAbs (p : Parts) : Nat :=
  if 0 ≤ p.exp then p.mant * 2 ^ p.exp.toNat else p.mant / 2 ^ (-p.exp).toNat

def Parts.roundAbs (p : Parts) : Nat :=
  let k := (-p.exp).toNat
  if 0 ≤ p.exp then p.mant * 2 ^ p.exp.toNat else (2 * p.mant + 2 ^ k) / 2 ^ (k + 1)

def fractIsZero (x : Float) : Bool :=
  let p := parts x
  x.isFinite && (decide (0 ≤ p.exp) || p.mant % 2 ^ (-p.exp).toNat == 0)

def round (x : Float) : Float :=
  if x.isFinite then
    let r := Float.ofNat (parts x).roundAbs
    if (parts x).neg then -r else r
  else x

def saturate (lo hi : Int) (x : Float) : Int :=
  if x.isNaN then 0
  else if x.isInf then (if x < 0 then lo else hi)
  else
    let t := Int.ofNat (parts x).truncAbs
    max lo (min hi (if (parts x).neg then -t else t))

def asI64 (x : Float) : Int64 := Int64.ofInt (saturate (-2 ^ 63) (2 ^ 63 - 1) x)

def asI32 (x : Float) : Int := saturate (-2 ^ 31) (2 ^ 31 - 1) x

def powiLoop : Nat → Float → Float → Nat → Float
  | 0, r, _, _ => r
  | fuel + 1, r, a, b =>
    let r := if b % 2 = 1 then r * a else r
    if b / 2 = 0 then r else powiLoop fuel r (a * a) (b / 2)

def powi (a : Float) (b : Int) : Float :=
  -- `a.powi(b)`: square and multiply, inverted at the end for a negative power
  let r := powiLoop 32 1.0 a b.natAbs
  if b < 0 then 1.0 / r else r

def log10 (num den : Nat) : Int :=
  if den ≤ num then ((toString (num / den)).length : Int) - 1
  else -((toString ((den - 1) / num)).length : Int)

def ofDecimal (digits : Nat) (k : Int) : Float :=
  Float.ofScientific digits (decide (k < 0)) k.natAbs

def stripZeros : Nat → Nat → Int → Nat × Int
  | 0, d, k => (d, k)
  | fuel + 1, d, k => if d % 10 = 0 ∧ d ≠ 0 then stripZeros fuel (d / 10) (k + 1) else (d, k)

/-- The closest decimal of `n` digits that reads back as `x`, if there is one. -/
def digitsOf (x : Float) (num den n : Nat) : Option (Nat × Int) :=
  let k := log10 num den + 1 - n
  let p := if 0 ≤ k then num else num * 10 ^ (-k).toNat
  let q := if 0 ≤ k then den * 10 ^ k.toNat else den
  let lo := p / q
  let near := if 2 * (p % q) < q ∨ (2 * (p % q) = q ∧ lo % 2 = 0) then lo else lo + 1
  let far := if near = lo then lo + 1 else lo
  if ofDecimal near k == x then some (stripZeros 20 near k)
  else if ofDecimal far k == x then some (stripZeros 20 far k)
  else none

def shortest (x : Float) : Nat × Int :=
  let p := parts x
  let num := if 0 ≤ p.exp then p.mant * 2 ^ p.exp.toNat else p.mant
  let den := if 0 ≤ p.exp then 1 else 2 ^ (-p.exp).toNat
  ((List.range 17).findSome? fun n => digitsOf x num den (n + 1)).getD (0, 0)

def zeros (n : Nat) : String := String.ofList (List.replicate n '0')

def positional (ds : String) (k : Int) : String :=
  let point := (ds.length : Int) + k
  if 0 ≤ k then ds ++ zeros k.toNat ++ ".0"
  else if 0 < point then
    String.ofList (ds.toList.take point.toNat) ++ "." ++ String.ofList (ds.toList.drop point.toNat)
  else "0." ++ zeros (-point).toNat ++ ds

def scientific (ds : String) (k : Int) : String :=
  let e := toString ((ds.length : Int) + k - 1)
  match ds.toList with
  | [] => ""
  | [c] => String.ofList [c] ++ "e" ++ e
  | c :: cs => String.ofList [c] ++ "." ++ String.ofList cs ++ "e" ++ e

def debug (x : Float) : String :=
  if x.isNaN then "NaN"
  else
    let sign := if (parts x).neg then "-" else ""
    let a := x.abs
    if x.isInf then sign ++ "inf"
    else if a == 0.0 then sign ++ "0.0"
    else
      let (d, k) := shortest a
      sign ++ if 1e-4 ≤ a ∧ a < 1e16 then positional (toString d) k else scientific (toString d) k

def digitRun (cs : List Char) : List Char × List Char := cs.span Char.isDigit

def natOf (ds : List Char) : Nat := ds.foldl (fun n c => 10 * n + (c.toNat - '0'.toNat)) 0

def unsign : List Char → Bool × List Char
  | '-' :: cs => (true, cs)
  | '+' :: cs => (false, cs)
  | cs => (false, cs)

def exponentOf : List Char → Option Int
  | [] => some 0
  | c :: cs =>
    if c = 'e' ∨ c = 'E' then
      let (neg, ds) := unsign cs
      if ds.isEmpty || !ds.all Char.isDigit then none
      else some (if neg then -(natOf ds : Int) else natOf ds)
    else none

def decimalOf (cs : List Char) : Option Float :=
  let (ip, rest) := digitRun cs
  let (fp, rest) := match rest with
    | '.' :: r => digitRun r
    | r => ([], r)
  if ip.isEmpty && fp.isEmpty then none
  else (exponentOf rest).map fun e => ofDecimal (natOf (ip ++ fp)) (e - fp.length)

def parse (s : String) : Option Float :=
  let (neg, cs) := unsign s.toList
  let word := cs.map Char.toLower
  let mag :=
    if word = "inf".toList ∨ word = "infinity".toList then some (1.0 / 0.0)
    else if word = "nan".toList then some (0.0 / 0.0)
    else decimalOf cs
  mag.map fun x => if neg then -x else x

example : parse "1.50" = some 1.5 ∧ parse "1.2.3" = none ∧ parse "." = none := by decide +kernel

example : debug 0.1 = "0.1" ∧ debug 1e16 = "1e16" ∧ debug 1e-5 = "1e-5" ∧ debug 123456789012.5 = "123456789012.5" := by
  decide +kernel

end Vejas.Rust.F64
