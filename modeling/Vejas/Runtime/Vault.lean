import Vejas.Connectors.Wire
import Vejas.Json.Reading

/-! The Vault secret store: one secret is written by reading its path, setting the key and writing
the whole path back. Either call may fail in any way, and the write may reach Vault all the same. -/

namespace Vejas.Runtime
open Rust Json Vjs Connectors

inductive Exchange
  | transport (fault : String)
  | answered (code : Nat) (body : Except String Bytes)

def httpRequest : Exchange → Except String (Nat × Bytes)
  | .transport fault => .error ("http: " ++ fault)
  | .answered _ (.error e) => .error e
  | .answered code (.ok body) => .ok (code, body)

def isSuccess (code : Nat) : Bool := 200 ≤ code && code < 300

structure HttpCall where
  method : String
  url : String
  headers : List (String × String)
  body : Option Bytes

structure VaultStore where
  addr : String
  token : String
  mount : String

/-- Vault as the store sees it: the content under each URL and the calls it was sent. -/
structure Vault where
  content : String → Map
  calls : List HttpCall

structure Outcome where
  read : Exchange
  write : Exchange
  taken : Bool

namespace Vault

def send (v : Vault) (c : HttpCall) : Vault := { v with calls := v.calls ++ [c] }

def replacePath (v : Vault) (url : String) (data : Map) : Vault :=
  { v with content := fun u => if u = url then data else v.content u }

end Vault

namespace VaultStore

def url (s : VaultStore) (path : String) : String := s.addr ++ "/v1/" ++ s.mount ++ "/data/" ++ path

def keysIn : Except String (Nat × Bytes) → Option Map
  | .ok (code, body) =>
    if isSuccess code then (fromSlice body).bind fun v => ((v.index "data").index "data").asObject else none
  | .error _ => none

def set [External] (s : VaultStore) (o : Outcome) (reference value : String) (v : Vault) : Except String Unit × Vault :=
  match rsplitOnce reference '/' with
  | none => (.error ("secret ref " ++ debugStr reference ++ " must be path/key"), v)
  | some (path, key) =>
    let token := ("X-Vault-Token", s.token)
    let v := v.send ⟨"GET", s.url path, [token], none⟩
    -- a path that cannot be read counts as one that holds nothing
    let data := ((keysIn (httpRequest o.read)).getD []).insert key (.string value)
    let body := (Value.obj [("data", .object data)]).render
    let v := v.send ⟨"POST", s.url path, [token, ("Content-Type", "application/json")], some (bytesOf body)⟩
    let v := if o.taken then v.replacePath (s.url path) data else v
    match httpRequest o.write with
    | .ok (code, _) =>
      (if isSuccess code then .ok ()
       else .error ("vault: HTTP " ++ toString code ++ " writing " ++ debugStr path), v)
    | .error e => (.error ("vault: " ++ e), v)

end VaultStore

def Alone (key : String) (m : Map) : Prop := ∀ k, key ≠ k → Map.get? m k = none

section
variable [External]

theorem set_content {s : VaultStore} (o : Outcome) {reference path key : String} (value : String) (v : Vault)
    (href : rsplitOnce reference '/' = some (path, key)) (url : String) :
    (s.set o reference value v).2.content url =
      if o.taken = true ∧ url = s.url path then
        ((VaultStore.keysIn (httpRequest o.read)).getD []).insert key (.string value)
      else v.content url := by
  unfold VaultStore.set
  rw [href]
  cases htaken : o.taken with
  | true =>
    by_cases hurl : url = s.url path
    · rw [if_pos ⟨rfl, hurl⟩]
      cases httpRequest o.write with
      | ok reply => exact if_pos hurl
      | error e => exact if_pos hurl
    · rw [if_neg fun h => hurl h.2]
      cases httpRequest o.write with
      | ok reply => exact if_neg hurl
      | error e => exact if_neg hurl
  | false =>
    rw [if_neg fun h => Bool.false_ne_true h.1]
    cases httpRequest o.write with
    | ok reply => rfl
    | error e => rfl

theorem set_elsewhere (s : VaultStore) (o : Outcome) (reference value : String) (v : Vault) {url : String}
    (hurl : ∀ path key, rsplitOnce reference '/' = some (path, key) → url ≠ s.url path) :
    (s.set o reference value v).2.content url = v.content url := by
  cases href : rsplitOnce reference '/' with
  | none =>
    unfold VaultStore.set
    rw [href]
  | some parts =>
    rw [set_content o value v href]
    exact if_neg fun h => hurl _ _ href h.2

end

end Vejas.Runtime
