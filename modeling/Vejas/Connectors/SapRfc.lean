import Vejas.Json.Value
import Vejas.Json.Reading
import Vejas.Lib.Transition
import Vejas.Rust.Str

/-! The SAP connector: IDocs sent into SAP under a transaction id, with the call replayed once on a
new connection when the conversation was lost. -/

namespace Vejas.SapRfc
open Rust Json

def fromUtf16Lossy : List UInt16 → List Char
  | [] => []
  | [u] => [if 0xD800 ≤ u ∧ u ≤ 0xDFFF then Char.ofNat 0xFFFD else Char.ofNat u.toNat]
  | u :: v :: rest =>
    if u < 0xD800 ∨ 0xDFFF < u then Char.ofNat u.toNat :: fromUtf16Lossy (v :: rest)
    else if u < 0xDC00 ∧ 0xDC00 ≤ v ∧ v ≤ 0xDFFF then
      Char.ofNat (0x10000 + (u.toNat - 0xD800) * 0x400 + (v.toNat - 0xDC00)) :: fromUtf16Lossy rest
    else Char.ofNat 0xFFFD :: fromUtf16Lossy (v :: rest)

def fromUc (buf : List UInt16) : String :=
  String.ofList (trimEnd (fromUtf16Lossy (buf.takeWhile (· ≠ 0))))

structure RfcErrorInfo where
  code : Int32
  group : Int32
  key : List UInt16
  message : List UInt16
  abapMsgClass : List UInt16
  abapMsgType : List UInt16
  abapMsgNumber : List UInt16
  abapMsgV1 : List UInt16
  abapMsgV2 : List UInt16
  abapMsgV3 : List UInt16
  abapMsgV4 : List UInt16

def RfcErrorInfo.toJson (e : RfcErrorInfo) (stage : String) : Value :=
  let cls := fromUc e.abapMsgClass
  .obj ([("ok", .bool false), ("stage", .string stage), ("code", .number (.ofI64 e.code.toInt64)),
    ("group", .number (.ofI64 e.group.toInt64)), ("key", .string (fromUc e.key)),
    ("message", .string (fromUc e.message))] ++
    if cls = "" then [] else [("abap_msg", .obj [
      ("class", .string cls), ("type", .string (fromUc e.abapMsgType)),
      ("number", .string (fromUc e.abapMsgNumber)), ("v1", .string (fromUc e.abapMsgV1)),
      ("v2", .string (fromUc e.abapMsgV2)), ("v3", .string (fromUc e.abapMsgV3)),
      ("v4", .string (fromUc e.abapMsgV4))])])

def rfcCommunicationFailure : Int64 := 1
def rfcClosed : Int64 := 6
def rfcInvalidHandle : Int64 := 13

def connectionLost (out : Value) : Bool :=
  match out.get "ok", out.get "code" with
  | some (.bool false), some (.number code) =>
    match code.asI64 with
    | some c => c == rfcCommunicationFailure || c == rfcClosed || c == rfcInvalidHandle
    | none => false
  | _, _ => false

def withId (req out : Value) : Value :=
  match req.get "id", out with
  | some id, .object m => .object (Map.insert "id" id m)
  | _, out => out

abbrev Tid := List UInt16

def tidOf (t : String) : Tid :=
  let us := (t.toList.take 24).map fun c => c.val.toUInt16
  us ++ List.replicate (25 - us.length) 0

/-- What SAP holds: the ids on record, each with the request that recorded it. The rest is history:
the requests whose IDoc it booked, the requests it did not book and whose record was in the way, the
submits it carried out, the confirms it carried out and the ids it gave. -/
structure Sap where
  recorded : List (Tid × Nat)
  booked : List Nat
  excluded : List (Nat × Nat)
  submitted : List Nat
  confirmed : List Tid
  issued : List Tid

namespace Sap

def submit (sap : Sap) (n : Nat) (tid : Tid) : Sap :=
  match sap.recorded.lookup tid with
  | some m => { sap with excluded := (n, m) :: sap.excluded, submitted := n :: sap.submitted }
  | none => { sap with
      recorded := (tid, n) :: sap.recorded
      booked := n :: sap.booked
      submitted := n :: sap.submitted }

def confirm (sap : Sap) (tid : Tid) : Sap :=
  { sap with
    recorded := sap.recorded.filter (·.1 != tid)
    confirmed := tid :: sap.confirmed }

end Sap

inductive Stage
  | getFuncDesc
  | createFunc
  | getTransactionId
  | createTransaction (tid : Tid)
  | invokeInTransaction (tid : Tid)
  | submitTransaction (tid : Tid)
  | confirmTransaction (tid : Tid)

namespace Stage

def name : Stage → String
  | getFuncDesc => "get_func_desc"
  | createFunc => "create_func"
  | getTransactionId => "get_transaction_id"
  | createTransaction _ => "create_transaction"
  | invokeInTransaction _ => "invoke_in_transaction"
  | submitTransaction _ => "submit_transaction"
  | confirmTransaction _ => "confirm_transaction"

def act (n : Nat) (sap : Sap) : Stage → Sap
  | submitTransaction tid => sap.submit n tid
  | confirmTransaction tid => sap.confirm tid
  | _ => sap

end Stage

inductive Pc
  | reading
  | calling (n : Nat) (replay : Bool) (stage : Stage)
  | setting (n : Nat) (replay : Bool)
  | reopening (n : Nat)

/-- The connector and SAP. A request is known by the number of its message on the bus; `read` are
the requests read so far. -/
structure State where
  pc : Pc
  sap : Sap
  read : List Nat
  replies : List (Nat × Value)

/-- `line`: a request is read, again where it is redelivered; an idle connection that does not answer
is opened anew, which can fail. `call`: an SDK call returns, and SAP carried it out or not. `fields`:
the records are set, or one is refused, under the name of the call that refused it. `issue`: SAP gives
an id. `died`: the process ends, and the next one begins. -/
inductive Event
  | line (n : Nat) (opened : Except RfcErrorInfo Unit)
  | call (acted : Bool) (rc : Except RfcErrorInfo Unit)
  | fields (r : Except (String × RfcErrorInfo) Unit)
  | issue (tid : Tid)
  | reopen (opened : Except RfcErrorInfo Unit)
  | died

section
-- the request each message of the bus holds
variable (bus : Nat → Value)

def tid? (n : Nat) : Option String := ((bus n).get "tid").bind Value.asStr

namespace State

def start : State := ⟨.reading, ⟨[], [], [], [], [], []⟩, [], []⟩

def reply (s : State) (n : Nat) (out : Value) : State :=
  { s with pc := .reading, replies := (n, withId (bus n) out) :: s.replies }

def finish (s : State) (n : Nat) (replay : Bool) (out : Value) : State :=
  if connectionLost out && !replay then { s with pc := .reopening n } else s.reply bus n out

def proceed (s : State) (n : Nat) (replay : Bool) : Stage → Option State
  | .getFuncDesc => some { s with pc := .calling n replay .createFunc }
  | .createFunc => some { s with pc := .setting n replay }
  | .getTransactionId => none
  | .createTransaction tid => some { s with pc := .calling n replay (.invokeInTransaction tid) }
  | .invokeInTransaction tid => some { s with pc := .calling n replay (.submitTransaction tid) }
  | .submitTransaction tid => some { s with pc := .calling n replay (.confirmTransaction tid) }
  | .confirmTransaction tid => some (s.finish bus n replay (.obj [("ok", .bool true),
      ("func", .string "IDOC_INBOUND_ASYNCHRONOUS"), ("tid", .string (fromUc tid))]))

def step (s : State) : Event → Option State
  | .line n opened =>
    match s.pc, opened with
    | .reading, .ok () => some { s with pc := .calling n false .getFuncDesc, read := n :: s.read }
    | .reading, .error e => some (reply bus { s with read := n :: s.read } n (e.toJson "open"))
    | _, _ => none
  | .call acted rc =>
    match s.pc, rc with
    | .calling n replay stage, .error e =>
      some (finish bus { s with sap := if acted then stage.act n s.sap else s.sap } n replay
        (e.toJson stage.name))
    -- a call that returns `RFC_OK` was carried out
    | .calling n replay stage, .ok () =>
      if acted then proceed bus { s with sap := stage.act n s.sap } n replay stage else none
    | _, _ => none
  | .fields r =>
    match s.pc, r with
    | .setting n replay, .error (stage, e) => some (s.finish bus n replay (e.toJson stage))
    | .setting n replay, .ok () =>
      match tid? bus n with
      | some t => some { s with pc := .calling n replay (.createTransaction (tidOf t)) }
      | none => some { s with pc := .calling n replay .getTransactionId }
    | _, _ => none
  | .issue tid =>
    match s.pc with
    | .calling n replay .getTransactionId =>
      -- SAP gives no id twice, and none a caller has used
      if tid ∉ s.sap.issued ∧ ∀ m ∈ s.read, (tid? bus m).map tidOf ≠ some tid then
        some { s with
          pc := .calling n replay (.createTransaction tid)
          sap := { s.sap with issued := tid :: s.sap.issued } }
      else none
    | _ => none
  | .reopen opened =>
    match s.pc, opened with
    | .reopening n, .ok () => some { s with pc := .calling n true .getFuncDesc }
    | .reopening n, .error e => some (s.reply bus n (e.toJson "open"))
    | _, _ => none
  | .died => some { s with pc := .reading }

def system : Transition State Event := .ofStep (step bus) (· = start)

end State
/-- The IDoc of the request is booked, by it or by one that carries the same id. -/
def Booked (sap : Sap) (n : Nat) : Prop :=
  ∃ m ∈ sap.booked, m = n ∨ ∃ t, tid? bus m = some t ∧ tid? bus n = some t

structure BookedOnce (s : State) : Prop where
  request : ∀ n, s.sap.booked.count n ≤ 1
  tid : ∀ t, (s.sap.booked.countP fun n => tid? bus n = some t) ≤ 1
  apart : ∀ n m, (n, m) ∈ s.sap.excluded → ∃ t, tid? bus n = some t ∧ tid? bus m = some t
  replies : ∀ n out, (n, out) ∈ s.replies → out.get "ok" = some (.bool true) → Booked bus s.sap n

def Unspent (sap : Sap) (n : Nat) : Stage → Prop
  | .submitTransaction tid => tid ∉ sap.confirmed ∧ (tid? bus n = none → n ∉ sap.submitted)
  | _ => True

/-- A request read brings no id that the id of another text, or one SAP gave, is cut to as well; and
every submit SAP carries out is unspent. -/
def Careful (s : State) : Event → Prop
  | .line n _ => ∀ t ∈ tid? bus n, tidOf t ∉ s.sap.issued ∧
      ∀ m ∈ s.read, ∀ t' ∈ tid? bus m, tidOf t' = tidOf t → t' = t
  | .call acted _ =>
    match acted, s.pc with
    | true, .calling n _ stage => Unspent bus s.sap n stage
    | _, _ => True
  | _ => True

instance (sap : Sap) (n : Nat) (stage : Stage) : Decidable (Unspent bus sap n stage) :=
  match stage with
  | .submitTransaction _ => inferInstanceAs (Decidable (_ ∧ _))
  | .getFuncDesc => .isTrue trivial
  | .createFunc => .isTrue trivial
  | .getTransactionId => .isTrue trivial
  | .createTransaction _ => .isTrue trivial
  | .invokeInTransaction _ => .isTrue trivial
  | .confirmTransaction _ => .isTrue trivial

instance (s : State) (e : Event) : Decidable (Careful bus s e) :=
  match e with
  | .line n _ => inferInstanceAs (Decidable (∀ t ∈ tid? bus n, tidOf t ∉ s.sap.issued ∧
      ∀ m ∈ s.read, ∀ t' ∈ tid? bus m, tidOf t' = tidOf t → t' = t))
  | .call acted _ => by
    unfold Careful
    dsimp only
    split <;> infer_instance
  | .fields _ => .isTrue trivial
  | .issue _ => .isTrue trivial
  | .reopen _ => .isTrue trivial
  | .died => .isTrue trivial

structure Under (issued : List Tid) (n : Nat) (tid : Tid) : Prop where
  carried : ∀ t, tid? bus n = some t → tid = tidOf t
  given : tid? bus n = none → tid ∈ issued

structure Books (read : List Nat) (sap : Sap) : Prop where
  texts : ∀ n ∈ read, ∀ m ∈ read, ∀ t t', tid? bus n = some t → tid? bus m = some t' →
    tidOf t = tidOf t' → t = t'
  given : ∀ n ∈ read, ∀ t, tid? bus n = some t → tidOf t ∉ sap.issued
  recorded : ∀ tid m, (tid, m) ∈ sap.recorded → m ∈ sap.booked ∧ m ∈ read ∧ Under bus sap.issued m tid
  booked : ∀ m ∈ sap.booked, ∀ t, tid? bus m = some t →
    (∃ r, (tidOf t, r) ∈ sap.recorded) ∨ tidOf t ∈ sap.confirmed
  submitted : ∀ m ∈ sap.booked, m ∈ sap.submitted
  request : ∀ n, sap.booked.count n ≤ 1
  tid : ∀ t, (sap.booked.countP fun n => tid? bus n = some t) ≤ 1
  apart : ∀ n m, (n, m) ∈ sap.excluded → ∃ t, tid? bus n = some t ∧ tid? bus m = some t

variable {bus}

theorem Books.line {read : List Nat} {sap : Sap} (h : Books bus read sap) {n : Nat}
    (hn : ∀ t, tid? bus n = some t → tidOf t ∉ sap.issued ∧
      ∀ m ∈ read, ∀ t', tid? bus m = some t' → tidOf t' = tidOf t → t' = t) :
    Books bus (n :: read) sap := by
  refine { h with texts := ?_, given := ?_, recorded := ?_ }
  · intro a ha b hb t t' hta htb heq
    rcases List.mem_cons.mp ha with rfl | ha' <;> rcases List.mem_cons.mp hb with rfl | hb'
    · exact Option.some.inj (hta.symm.trans htb)
    · exact ((hn t hta).2 b hb' t' htb heq.symm).symm
    · exact (hn t' htb).2 a ha' t hta heq
    · exact h.texts a ha' b hb' t t' hta htb heq
  · intro m hm t ht
    rcases List.mem_cons.mp hm with rfl | hm
    · exact (hn t ht).1
    · exact h.given m hm t ht
  · intro tid m hm
    obtain ⟨hb, hr, hu⟩ := h.recorded tid m hm
    exact ⟨hb, List.mem_cons_of_mem _ hr, hu⟩

theorem Books.issue {read : List Nat} {sap : Sap} (h : Books bus read sap) {tid : Tid}
    (hfree : ∀ m ∈ read, (tid? bus m).map tidOf ≠ some tid) :
    Books bus read { sap with issued := tid :: sap.issued } := by
  refine { h with given := ?_, recorded := ?_ }
  · intro n hn t ht hmem
    rcases List.mem_cons.mp hmem with heq | hmem
    · exact hfree n hn (by rw [ht, ← heq]; rfl)
    · exact h.given n hn t ht hmem
  · intro k m hm
    obtain ⟨hb, hr, hu⟩ := h.recorded k m hm
    exact ⟨hb, hr, hu.carried, fun ht => List.mem_cons_of_mem _ (hu.given ht)⟩

theorem Books.unrecorded {read : List Nat} {sap : Sap} (h : Books bus read sap) {tid : Tid}
    (hnew : tid ∉ sap.issued) (hfree : ∀ m ∈ read, (tid? bus m).map tidOf ≠ some tid) (m : Nat) :
    (tid, m) ∉ sap.recorded := by
  intro hm
  obtain ⟨-, hr, hu⟩ := h.recorded tid m hm
  cases ht : tid? bus m with
  | none => exact hnew (hu.given ht)
  | some t => exact hfree m hr (by rw [ht, hu.carried t ht]; rfl)

theorem Books.confirm {read : List Nat} {sap : Sap} (h : Books bus read sap) (tid : Tid) :
    Books bus read (sap.confirm tid) := by
  refine { h with recorded := ?_, booked := ?_ }
  · intro k m hm
    exact h.recorded k m (List.mem_filter.mp hm).1
  · intro m hm t ht
    by_cases heq : tidOf t = tid
    · exact .inr (heq ▸ List.mem_cons_self ..)
    · rcases h.booked m hm t ht with ⟨r, hr⟩ | hc
      · exact .inl ⟨r, List.mem_filter.mpr ⟨hr, bne_iff_ne.mpr heq⟩⟩
      · exact .inr (List.mem_cons_of_mem _ hc)

theorem Books.submit_excluded {read : List Nat} {sap : Sap} (h : Books bus read sap) {n m : Nat} {tid : Tid}
    (hn : n ∈ read) (hu : Under bus sap.issued n tid) (hnew : tid? bus n = none → ∀ m, (tid, m) ∉ sap.recorded)
    (hm : (tid, m) ∈ sap.recorded) : ∃ t, tid? bus n = some t ∧ tid? bus m = some t := by
  obtain ⟨-, hr, hum⟩ := h.recorded tid m hm
  cases ht : tid? bus n with
  | none => exact absurd hm (hnew ht m)
  | some t =>
    refine ⟨t, rfl, ?_⟩
    cases ht' : tid? bus m with
    | none => exact absurd (hum.given ht') (hu.carried t ht ▸ h.given n hn t ht)
    | some t' =>
      have heq : tidOf t = tidOf t' := (hu.carried t ht).symm.trans (hum.carried t' ht')
      rw [h.texts n hn m hr t t' ht ht' heq]

theorem mem_of_lookup {l : List (Tid × Nat)} {k : Tid} {m : Nat} (h : l.lookup k = some m) : (k, m) ∈ l := by
  obtain ⟨l₁, l₂, rfl, -⟩ := List.lookup_eq_some_iff.mp h
  exact List.mem_append_right _ (List.mem_cons_self ..)

theorem lookup_none {l : List (Tid × Nat)} {k : Tid} (h : l.lookup k = none) (m : Nat) : (k, m) ∉ l := by
  intro hm
  rw [List.lookup_eq_none_iff] at h
  simpa using h _ hm

theorem Books.submit {read : List Nat} {sap : Sap} (h : Books bus read sap) {n : Nat} {tid : Tid}
    (hn : n ∈ read) (hu : Under bus sap.issued n tid) (hnew : tid? bus n = none → ∀ m, (tid, m) ∉ sap.recorded)
    (hc : tid ∉ sap.confirmed) (hfirst : tid? bus n = none → n ∉ sap.submitted) :
    Books bus read (sap.submit n tid) ∧ Booked bus (sap.submit n tid) n := by
  unfold Sap.submit
  split
  next m hl =>
    have hm := mem_of_lookup hl
    have hsame := h.submit_excluded hn hu hnew hm
    refine ⟨{ h with submitted := ?_, apart := ?_ }, ?_⟩
    · intro k hk
      exact List.mem_cons_of_mem _ (h.submitted k hk)
    · intro a b hab
      rcases List.mem_cons.mp hab with heq | hab
      · cases heq
        exact hsame
      · exact h.apart a b hab
    · obtain ⟨t, hnt, hmt⟩ := hsame
      exact ⟨m, (h.recorded tid m hm).1, .inr ⟨t, hmt, hnt⟩⟩
  next hl =>
    have hfree := lookup_none hl
    -- no request with the text of this one has been booked
    have hnone : ∀ t, tid? bus n = some t → ∀ m ∈ sap.booked, tid? bus m ≠ some t := by
      intro t ht m hm hmt
      have heq := hu.carried t ht
      rcases h.booked m hm t hmt with ⟨r, hr⟩ | hconf
      · exact hfree r (heq ▸ hr)
      · exact hc (heq ▸ hconf)
    have hnot : n ∉ sap.booked := by
      intro hb
      cases ht : tid? bus n with
      | none => exact hfirst ht (h.submitted n hb)
      | some t => exact hnone t ht n hb ht
    refine ⟨⟨h.texts, h.given, ?_, ?_, ?_, ?_, ?_, h.apart⟩, n, List.mem_cons_self .., .inl rfl⟩
    · intro k m hm
      rcases List.mem_cons.mp hm with heq | hm
      · cases heq
        exact ⟨List.mem_cons_self .., hn, hu⟩
      · obtain ⟨hb, hr, hum⟩ := h.recorded k m hm
        exact ⟨List.mem_cons_of_mem _ hb, hr, hum⟩
    · intro m hm t ht
      rcases List.mem_cons.mp hm with rfl | hm
      · exact .inl ⟨m, hu.carried t ht ▸ List.mem_cons_self ..⟩
      · exact (h.booked m hm t ht).imp (fun ⟨r, hr⟩ => ⟨r, List.mem_cons_of_mem _ hr⟩) id
    · intro m hm
      rcases List.mem_cons.mp hm with rfl | hm
      · exact List.mem_cons_self ..
      · exact List.mem_cons_of_mem _ (h.submitted m hm)
    · intro m
      rw [List.count_cons]
      by_cases heq : n = m
      · rw [← heq, List.count_eq_zero_of_not_mem hnot]
        simp
      · have hle := h.request m
        simpa [heq] using hle
    · intro t
      rw [List.countP_cons]
      by_cases ht : tid? bus n = some t
      · have hzero : sap.booked.countP (fun n => tid? bus n = some t) = 0 := by
          rw [List.countP_eq_zero]
          intro m hm
          simpa using hnone t ht m hm
        rw [hzero]
        simp [ht]
      · have hle := h.tid t
        simpa [ht] using hle

theorem toJson_ok (e : RfcErrorInfo) (stage : String) : (e.toJson stage).get "ok" = some (.bool false) := by
  unfold RfcErrorInfo.toJson
  dsimp only
  split <;> simp [Value.get, Value.obj, Value.asObject, Map.ofEntries, Map.extend, Map.get?_insert]

theorem withId_ok (req out : Value) : (withId req out).get "ok" = out.get "ok" := by
  unfold withId
  split
  next => simp [Value.get, Value.asObject, Map.get?_insert]
  next => rfl

theorem Booked.mono {sap sap' : Sap} {n : Nat} (h : Booked bus sap n) (hsub : ∀ m ∈ sap.booked, m ∈ sap'.booked) :
    Booked bus sap' n := by
  obtain ⟨m, hm, hsame⟩ := h
  exact ⟨m, hsub m hm, hsame⟩

theorem booked_act (n : Nat) (sap : Sap) (stage : Stage) : ∀ m ∈ sap.booked, m ∈ (stage.act n sap).booked := by
  intro m hm
  cases stage with
  | submitTransaction tid =>
    unfold Stage.act Sap.submit
    dsimp only
    split
    next => exact hm
    next => exact List.mem_cons_of_mem _ hm
  | _ => exact hm

namespace State

def Going (bus : Nat → Value) (sap : Sap) (n : Nat) : Stage → Prop
  | .getFuncDesc => True
  | .createFunc => True
  | .getTransactionId => tid? bus n = none
  | .confirmTransaction _ => Booked bus sap n
  | .createTransaction tid => Under bus sap.issued n tid ∧ (tid? bus n = none → ∀ m, (tid, m) ∉ sap.recorded)
  | .invokeInTransaction tid => Under bus sap.issued n tid ∧ (tid? bus n = none → ∀ m, (tid, m) ∉ sap.recorded)
  | .submitTransaction tid => Under bus sap.issued n tid ∧ (tid? bus n = none → ∀ m, (tid, m) ∉ sap.recorded)

def At (bus : Nat → Value) (s : State) : Prop :=
  match s.pc with
  | .reading => True
  | .setting n _ => n ∈ s.read
  | .reopening n => n ∈ s.read
  | .calling n _ stage => n ∈ s.read ∧ Going bus s.sap n stage

structure Inv (bus : Nat → Value) (s : State) : Prop where
  books : Books bus s.read s.sap
  replies : ∀ n out, (n, out) ∈ s.replies → out.get "ok" = some (.bool true) → Booked bus s.sap n

variable {s s' : State}

theorem Inv.moved (h : s.Inv bus) (pc : Pc) : Inv bus { s with pc := pc } := ⟨h.books, h.replies⟩

theorem Inv.reply (h : s.Inv bus) {n : Nat} {out : Value} (hout : out.get "ok" = some (.bool true) → Booked bus s.sap n) :
    (s.reply bus n out).Inv bus ∧ (s.reply bus n out).At bus := by
  refine ⟨⟨h.books, ?_⟩, trivial⟩
  intro m o hm ho
  rcases List.mem_cons.mp hm with heq | hm
  · cases heq
    exact hout (by rwa [withId_ok] at ho)
  · exact h.replies m o hm ho

theorem Inv.finish (h : s.Inv bus) {n : Nat} {replay : Bool} {out : Value} (hn : n ∈ s.read)
    (hout : out.get "ok" = some (.bool true) → Booked bus s.sap n) :
    (s.finish bus n replay out).Inv bus ∧ (s.finish bus n replay out).At bus := by
  unfold State.finish
  split
  next => exact ⟨h.moved _, hn⟩
  next => exact h.reply hout

theorem Inv.failed (h : s.Inv bus) {n : Nat} {replay : Bool} {stage : String} {e : RfcErrorInfo} (hn : n ∈ s.read) :
    (s.finish bus n replay (e.toJson stage)).Inv bus ∧ (s.finish bus n replay (e.toJson stage)).At bus := by
  refine h.finish hn fun hok => ?_
  rw [toJson_ok] at hok
  cases hok

theorem Inv.act (h : s.Inv bus) {n : Nat} {stage : Stage} (hn : n ∈ s.read) (hg : Going bus s.sap n stage)
    (hc : Unspent bus s.sap n stage) : Inv bus { s with sap := stage.act n s.sap } := by
  refine ⟨?_, fun m out hm hok => (h.replies m out hm hok).mono (booked_act n s.sap stage)⟩
  cases stage with
  | submitTransaction tid => exact (h.books.submit hn hg.1 hg.2 hc.1 hc.2).1
  | confirmTransaction tid => exact h.books.confirm tid
  | _ => exact h.books

theorem Inv.proceed (h : s.Inv bus) {n : Nat} {replay : Bool} {stage : Stage} (hn : n ∈ s.read)
    (hg : Going bus s.sap n stage) (hc : Unspent bus s.sap n stage)
    (hs : State.proceed bus { s with sap := stage.act n s.sap } n replay stage = some s') :
    s'.Inv bus ∧ s'.At bus := by
  have hact := h.act hn hg hc
  cases stage with
  | getTransactionId => cases hs
  | confirmTransaction tid =>
    cases hs
    exact hact.finish hn fun _ => hg
  | submitTransaction tid =>
    cases hs
    exact ⟨hact.moved _, hn, (h.books.submit hn hg.1 hg.2 hc.1 hc.2).2⟩
  | getFuncDesc => cases hs; exact ⟨hact.moved _, hn, trivial⟩
  | createFunc => cases hs; exact ⟨hact.moved _, hn⟩
  | createTransaction tid => cases hs; exact ⟨hact.moved _, hn, hg⟩
  | invokeInTransaction tid => cases hs; exact ⟨hact.moved _, hn, hg⟩

theorem inv_step {e : Event} (h : s.Inv bus ∧ s.At bus) (hc : Careful bus s e) (hs : s.step bus e = some s') :
    s'.Inv bus ∧ s'.At bus := by
  obtain ⟨hi, hat⟩ := h
  unfold At at hat
  cases e with
  | line n opened =>
    have hline : Inv bus { s with read := n :: s.read } := ⟨hi.books.line hc, hi.replies⟩
    simp only [step] at hs
    split at hs
    next =>
      cases hs
      exact ⟨hline.moved _, List.mem_cons_self .., trivial⟩
    next e _ =>
      cases hs
      refine hline.reply fun hok => ?_
      rw [toJson_ok] at hok
      cases hok
    next => cases hs
  | call acted rc =>
    simp only [step] at hs
    split at hs
    next n replay stage e hpc =>
      cases hs
      rw [hpc] at hat
      cases acted with
      | false => exact hi.failed hat.1
      | true =>
        unfold Careful at hc
        rw [hpc] at hc
        exact (hi.act hat.1 hat.2 hc).failed hat.1
    next n replay stage hpc =>
      rw [hpc] at hat
      cases acted with
      | false => cases hs
      | true =>
        unfold Careful at hc
        rw [hpc] at hc
        exact hi.proceed hat.1 hat.2 hc hs
    next => cases hs
  | fields r =>
    simp only [step] at hs
    split at hs
    next n replay stage e hpc =>
      cases hs
      rw [hpc] at hat
      exact hi.failed hat
    next n replay hpc =>
      rw [hpc] at hat
      split at hs
      next t ht =>
        cases hs
        refine ⟨hi.moved _, hat, ⟨fun t' ht' => ?_, fun hnone => ?_⟩, fun hnone => ?_⟩
        · rw [Option.some.inj (ht.symm.trans ht')]
        · rw [hnone] at ht; cases ht
        · rw [hnone] at ht; cases ht
      next hnone =>
        cases hs
        exact ⟨hi.moved _, hat, hnone⟩
    next => cases hs
  | issue tid =>
    simp only [step] at hs
    split at hs
    next n replay hpc =>
      rw [hpc] at hat
      split at hs
      next hfree =>
        cases hs
        refine ⟨⟨hi.books.issue hfree.2, hi.replies⟩, hat.1, ⟨fun t ht => ?_, fun _ => List.mem_cons_self ..⟩, ?_⟩
        · rw [hat.2] at ht
          cases ht
        · exact fun _ => hi.books.unrecorded hfree.1 hfree.2
      next => cases hs
    next => cases hs
  | reopen opened =>
    simp only [step] at hs
    split at hs
    next n hpc =>
      cases hs
      rw [hpc] at hat
      exact ⟨hi.moved _, hat, trivial⟩
    next n e hpc =>
      cases hs
      refine hi.reply fun hok => ?_
      rw [toJson_ok] at hok
      cases hok
    next => cases hs
  | died =>
    cases hs
    exact ⟨hi.moved _, trivial⟩

theorem inv_start : start.Inv bus ∧ start.At bus := by
  refine ⟨⟨?_, nofun⟩, trivial⟩
  exact ⟨nofun, nofun, nofun, nofun, nofun, fun _ => Nat.zero_le _, fun _ => Nat.zero_le _, nofun⟩

end State

/-- However calls are lost and requests redelivered, as long as the run is careful: a request books its
IDoc at most once, so do the requests of one id together, only requests of one id exclude one another,
and an `ok` means the IDoc is booked. -/
theorem booked_once {s : State} (h : (State.system bus).ReachableUnder (Careful bus) s) : BookedOnce bus s := by
  have hinv : s.Inv bus ∧ s.At bus := by
    refine Transition.ReachableUnder.invariant (I := fun s => s.Inv bus ∧ s.At bus) ?_
      (fun _ _ _ hi hc hs => State.inv_step hi hc hs) h
    rintro _ rfl
    exact State.inv_start
  obtain ⟨⟨hb, hr⟩, -⟩ := hinv
  exact ⟨hb.request, hb.tid, hb.apart, hr⟩

end

def lost : RfcErrorInfo := ⟨1, 0, [], [], [], [], [], [], [], [], []⟩

def upToSubmit : List Event := [.call true (.ok ()), .call true (.ok ()), .fields (.ok ())]

def withTid (_ : Nat) : Value := .obj [("op", .string "send_idoc"), ("tid", .string "T1")]

def withoutTid (_ : Nat) : Value := .obj [("op", .string "send_idoc")]

def submitLost : List Event :=
  [.line 0 (.ok ())] ++ upToSubmit ++ [.call true (.ok ()), .call true (.ok ()), .call true (.error lost),
    .reopen (.ok ())] ++ upToSubmit ++ [.call true (.ok ()), .call true (.ok ()), .call true (.ok ()),
    .call true (.ok ())]

theorem booked_once_submitLost : ∃ s, Transition.run (State.step withTid) State.start submitLost = some s ∧
    s.sap.booked = [0] ∧ BookedOnce withTid s := by
  refine ⟨_, rfl, rfl, ?_⟩
  exact booked_once (Transition.ReachableUnder.run submitLost (.init rfl) (by decide) rfl)

def submitLostUnnamed : List Event :=
  [.line 0 (.ok ())] ++ upToSubmit ++ [.issue (tidOf "0A0000010000000000000001"), .call true (.ok ()),
    .call true (.ok ()), .call true (.error lost), .reopen (.ok ())] ++ upToSubmit ++
    [.issue (tidOf "0A0000010000000000000002"), .call true (.ok ()), .call true (.ok ()), .call true (.ok ()),
    .call true (.ok ())]

theorem unnamed_request_books_twice : ∃ s, (State.system withoutTid).Reachable s ∧
    s.sap.booked.count 0 = 2 ∧ ¬ BookedOnce withoutTid s := by
  refine ⟨_, Transition.Reachable.run submitLostUnnamed (.init rfl) rfl, by decide, ?_⟩
  intro h
  exact absurd (h.request 0) (by decide)

end Vejas.SapRfc
