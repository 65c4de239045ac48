import Vejas.Json.Text
import Vejas.Vjs.Utf8

/-! What the connectors do with the bytes of a message. -/

namespace Vejas.Connectors
open Rust Json Vjs

def isUtf8 (b : Bytes) : Bool := bytesOf (textOf b) == b

def fromSlice (b : Bytes) : Option Value := if isUtf8 b then fromStr (textOf b) else none

theorem isUtf8_bytesOf (s : String) : isUtf8 (bytesOf s) = true := by
  unfold isUtf8
  rw [textOf_bytesOf]
  exact beq_self_eq_true _

theorem fromSlice_bytesOf (s : String) : fromSlice (bytesOf s) = fromStr s := by
  unfold fromSlice
  rw [if_pos (isUtf8_bytesOf s), textOf_bytesOf]

end Vejas.Connectors
