import Vejas.Json.Text
import Vejas.Vjs.Parser

/-! Reading and rewriting one literal of the business surface in the text of a flow. -/

namespace Vejas.Vjs
open Json Rust
variable [External]

def wholeConstant (key : String) : Bool := key == "" || key == "-"

def getLiteral (src name key : String) : Option Value :=
  match parse src with
  | .error _ => none
  | .ok prog => do
    let entry ← prog.surface.find? (·.name == name)
    if wholeConstant key then some entry.value else entry.value.get key

def spanEnd (src : Bytes) (start : Nat) : Nat → Nat
  -- where a value ends, less the blanks after it: a span ends where the next token starts
  | 0 => 0
  | stop + 1 =>
    let c := src.getD stop 0
    if start < stop + 1 && (c == byte ' ' || c == byte '\t' || c == byte '\r') then
      spanEnd src start stop
    else stop + 1

def rfindByte (b : UInt8) (src : Bytes) : Option Nat :=
  (src.reverse.findIdx? (· == b)).map fun i => src.length - 1 - i

def splice (src : Bytes) (start stop : Nat) (new : String) : Except Fault String := do
  let front ← slice src 0 start
  let back ← slice src stop src.length
  let out := textOf (front ++ bytesOf new ++ back)
  let _ ← parse out
  pure out

def addEntry (src : Bytes) (entry : SurfaceEntry) (name key : String) (new : Value) :
    Except Fault String := do
  let (vstart, vend) := entry.valueSpan
  let text ← slice src vstart (min vend src.length)
  let valText := onChars trimEnd (textOf text)
  let some parsed := fromStr valText
    | .error (.err (name ++ " has no key " ++ debugStr key ++ " and is not an editable table"))
  let some obj := parsed.asObject
    | .error (.err (name ++ " has no key " ++ debugStr key ++ " and is not a table — cannot add a key"))
  let some brace := rfindByte (byte '\x7d') (bytesOf valText)
    | .error (.err (name ++ ": malformed table literal"))
  let pair := (Value.string key).render ++ ": " ++ new.render
  splice src (vstart + brace) (vstart + brace) (if obj.isEmpty then pair else ", " ++ pair)

/-- Rewrite one literal, or one entry of it, and nothing else; a table may gain an entry. -/
def setLiteral (src name key : String) (new : Value) : Except Fault String := do
  let prog ← parse src
  let some entry := prog.surface.find? (·.name == name)
    | .error (.err ("no literal assignment " ++ debugStr name))
  let bytes := bytesOf src
  let span := if wholeConstant key then some entry.valueSpan
    else (entry.entrySpans.find? (·.1 == key)).map (·.2)
  match span with
  | some (start, stop) => splice bytes start (spanEnd bytes start (min stop bytes.length)) new.render
  | none => addEntry bytes entry name key new

end Vejas.Vjs
