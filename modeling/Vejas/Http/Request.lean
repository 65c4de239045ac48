import Mathlib.Data.Nat.Bitwise
import Vejas.Governance.World

/-! A request of the panel's server: its method and url, and the two credentials it may carry. -/

namespace Vejas.Http
open Json Rust Vjs Governance

inductive Method
  | get | head | post | put | delete | connect | options | trace | patch
  | nonStandard (name : String)
  deriving DecidableEq

structure Request where
  method : Method
  url : String
  headers : List (String × String)
  body : String

structure Response where
  code : Nat
  body : String
  ctype : String
  deriving DecidableEq

def toAsciiUppercase : String → String := onChars (·.map Char.toUpper)

def toAsciiLowercase : String → String := onChars (·.map Char.toLower)

def Method.asStr : Method → String
  | get => "GET"
  | head => "HEAD"
  | post => "POST"
  | put => "PUT"
  | delete => "DELETE"
  | connect => "CONNECT"
  | options => "OPTIONS"
  | trace => "TRACE"
  | patch => "PATCH"
  | nonStandard name => name

def methodStr (m : Method) : String := toAsciiUppercase m.asStr

def isReadMethod : Method → Bool
  | .get | .head => true
  | _ => false

def equiv (field name : String) : Bool := toAsciiLowercase field == toAsciiLowercase name

def ctEq (a b : String) : Bool :=
  let as := bytesOf a
  let bs := bytesOf b
  -- every byte counts, and so does a difference of the lengths; there is no early return
  let diff := (List.range (max as.length bs.length)).foldl
    (fun diff i => diff ||| (as.getD i 0 ^^^ bs.getD i 0).toNat) (as.length ^^^ bs.length)
  diff == 0

def bearerAuthorized (r : Request) (token : String) : Bool :=
  r.headers.any fun h =>
    equiv h.1 "authorization" && ((stripStart h.2 "Bearer ").map (ctEq · token)).getD false

def approvalAuthorized (cfg : Settings) (r : Request) : Bool :=
  match cfg.approvalToken with
  | some token => r.headers.any fun h => equiv h.1 "x-approval-token" && ctEq h.2 token
  | none => false

def isHumanRoute (path : String) : Bool :=
  ["/dlq/replay", "/dlq/purge"].contains path ||
    (startsWith path "/proposals/" && (endsWith path "/approve" || endsWith path "/reject"))

def headerActor (r : Request) (fallback : String) : String :=
  match r.headers.find? fun h => equiv h.1 "x-vejas-actor" with
  | some h =>
    let actor := trim h.2
    if actor != "" && (bytesOf actor).length ≤ 128 then actor else fallback
  | none => fallback

def pathOnly (url : String) : String := (split url "?").headD ""

def qparamGo (key : String) : List String → Option String
  | [] => none
  | pair :: pairs =>
    match splitOnce pair '=' with
    | some (k, v) =>
      if k = key then some (replace (replace v "%2F" "/") "%2f" "/") else qparamGo key pairs
    | none => qparamGo key pairs

def qparam (url key : String) : Option String :=
  (splitOnce url '?').bind fun p => qparamGo key (split p.2 "&")

def parseQuery (url : String) : Value :=
  let pairs := match split url "?" with
    | _ :: qs :: _ => split qs "&"
    | _ => []
  .object <| pairs.foldl (fun q pair =>
    let (k, v) := (splitOnce pair '=').getD (pair, "")
    if k = "" then q else Map.insert k (.string v) q) []

def readBody (r : Request) : Value := (fromStr r.body).getD .null

def CarriesBearer (r : Request) (token : String) : Prop :=
  ∃ h ∈ r.headers, equiv h.1 "authorization" = true ∧ h.2 = "Bearer " ++ token

def CarriesApproval (cfg : Settings) (r : Request) : Prop :=
  ∃ token, cfg.approvalToken = some token ∧
    ∃ h ∈ r.headers, equiv h.1 "x-approval-token" = true ∧ h.2 = token

theorem xor_toNat_eq_zero (a b : UInt8) : (a ^^^ b).toNat = 0 ↔ a = b := by
  rw [← UInt8.xor_eq_zero_iff, ← UInt8.toNat_inj]
  exact Iff.rfl

theorem foldl_or_eq_zero {α : Type} (f : α → Nat) (l : List α) (d : Nat) :
    l.foldl (fun diff i => diff ||| f i) d = 0 ↔ d = 0 ∧ ∀ i ∈ l, f i = 0 := by
  induction l generalizing d with
  | nil => simp
  | cons i l ih =>
    rw [List.foldl_cons, ih, Nat.or_eq_zero_iff, List.forall_mem_cons, and_assoc]

theorem bytesOf_inj {a b : String} (h : bytesOf a = bytesOf b) : a = b := by
  unfold bytesOf at h
  rw [Array.toList_inj] at h
  exact String.toByteArray_inj.mp (ByteArray.ext h)

theorem ctEq_iff (a b : String) : ctEq a b = true ↔ a = b := by
  unfold ctEq
  simp only [beq_iff_eq]
  rw [foldl_or_eq_zero, Nat.xor_eq_zero_iff]
  constructor
  · rintro ⟨hlen, hbytes⟩
    refine bytesOf_inj (List.ext_getElem hlen fun i ha hb => ?_)
    have hi := hbytes i (List.mem_range.mpr (Nat.lt_of_lt_of_le ha (Nat.le_max_left _ _)))
    rw [xor_toNat_eq_zero, List.getD_eq_getElem _ 0 ha, List.getD_eq_getElem _ 0 hb] at hi
    exact hi
  · rintro rfl
    exact ⟨rfl, fun i _ => (xor_toNat_eq_zero _ _).mpr rfl⟩

theorem bearerAuthorized_iff (r : Request) (token : String) :
    bearerAuthorized r token = true ↔ CarriesBearer r token := by
  unfold bearerAuthorized CarriesBearer
  rw [List.any_eq_true]
  refine exists_congr fun h => and_congr_right fun _ => ?_
  rw [Bool.and_eq_true]
  refine and_congr_right fun _ => ?_
  rw [← stripStart_eq_some_iff]
  cases stripStart h.2 "Bearer " with
  | none => simp
  | some t => simp [ctEq_iff]

theorem approvalAuthorized_iff (cfg : Settings) (r : Request) :
    approvalAuthorized cfg r = true ↔ CarriesApproval cfg r := by
  unfold approvalAuthorized CarriesApproval
  cases cfg.approvalToken with
  | none => simp
  | some token => simp [ctEq_iff]

end Vejas.Http
