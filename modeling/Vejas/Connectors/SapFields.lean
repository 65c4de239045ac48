import Mathlib.Data.List.TakeWhile
import Vejas.Connectors.SapRfc
import Vejas.Json.Text
import Vejas.Lib.Fallible

/-! JSON set into the containers of a function call: objects into structures, arrays into tables,
one row for each element, and the rest as text. -/

namespace Vejas.SapRfc
open Rust Json Fallible

/-- A name as the SDK reads it: up to the first NUL. -/
structure UcName where
  text : String
  ended : '\x00' ∉ text.toList
  deriving DecidableEq

theorem notMem_takeWhile (cs : List Char) : '\x00' ∉ cs.takeWhile (· ≠ '\x00') := by
  intro h
  have hne := List.mem_takeWhile_imp h
  simp at hne

def toUc (s : String) : UcName :=
  ⟨String.ofList (s.toList.takeWhile (· ≠ '\x00')), by rw [String.toList_ofList]; exact notMem_takeWhile _⟩

def UcName.whole (s : String) : Option UcName :=
  if h : '\x00' ∉ s.toList then some ⟨s, h⟩ else none

inductive Field
  | scalar (text : String)
  | structure (fields : List (UcName × Field))
  | table (rows : List (List (UcName × Field)))

abbrev Container := List (UcName × Field)

namespace Container

def put (c : Container) (n : UcName) (f : Field) : Container :=
  match c with
  | [] => [(n, f)]
  | (k, g) :: c => if k = n then (k, f) :: c else (k, g) :: put c n f

def structureAt (c : Container) (n : UcName) : Option Container :=
  match c.lookup n with
  | none => some []
  | some (.structure fields) => some fields
  | some _ => none

def tableAt (c : Container) (n : UcName) : Option (List Container) :=
  match c.lookup n with
  | none => some []
  | some (.table rows) => some rows
  | some _ => none

def isScalarAt (c : Container) (n : UcName) : Bool :=
  match c.lookup n with
  | none => true
  | some (.scalar _) => true
  | some _ => false

end Container

inductive SdkCall
  | getTable (n : UcName)
  | getStructure (n : UcName)
  | appendNewRow
  | setString (n : UcName) (text : String)

/-- How the SDK answers: which calls it refuses, after which calls, and the error of a call for a
field of another kind. -/
structure Sdk where
  refuses : List SdkCall → Option RfcErrorInfo
  mismatch : RfcErrorInfo

/-- The calls made so far, newest first, and the container a handle stands for. -/
structure Filling where
  calls : List SdkCall
  container : Container

abbrev Fill (α : Type) := Fallible Value Filling α

def sdkCall (sdk : Sdk) (c : SdkCall) (stage : String) (fits : Container → Bool) : Fill Unit := fun s =>
  match sdk.refuses (c :: s.calls) with
  | some e => (.error (e.toJson stage), { s with calls := c :: s.calls })
  | none =>
    if fits s.container then (.ok (), { s with calls := c :: s.calls })
    else (.error (sdk.mismatch.toJson stage), { s with calls := c :: s.calls })

def inside (sub : Container → Container) (back : Container → Container → Container) (m : Fill Unit) : Fill Unit :=
  fun s =>
    let (r, s') := m { s with container := sub s.container }
    (r, { s' with container := back s.container s'.container })

def inStructure (n : UcName) : Fill Unit → Fill Unit :=
  inside (fun c => (c.structureAt n).getD []) fun c sub => c.put n (.structure sub)

def inNewRow (n : UcName) : Fill Unit → Fill Unit :=
  inside (fun _ => []) fun c row => c.put n (.table ((c.tableAt n).getD [] ++ [row]))

section
variable [External]

def scalarText : Value → String
  | .string s => s
  | other => other.render

def setScalar (sdk : Sdk) (name text : String) : Fill Unit := do
  sdkCall sdk (.setString (toUc name) text) ("set_string:" ++ name) (·.isScalarAt (toUc name))
  modify fun s => { s with container := s.container.put (toUc name) (.scalar text) }

mutual

def setField (sdk : Sdk) (name : String) : Value → Fill Unit
  | .array rows => do
    sdkCall sdk (.getTable (toUc name)) ("get_table:" ++ name) (fun c => (c.tableAt (toUc name)).isSome)
    setRows sdk name rows
  | .object m => do
    sdkCall sdk (.getStructure (toUc name)) ("get_structure:" ++ name) (fun c => (c.structureAt (toUc name)).isSome)
    inStructure (toUc name) (setFields sdk m)
  | value => setScalar sdk name (scalarText value)

def setRows (sdk : Sdk) (name : String) : List Value → Fill Unit
  | [] => pure ()
  | .object m :: rows => do
    sdkCall sdk .appendNewRow ("append_row:" ++ name) (fun _ => true)
    inNewRow (toUc name) (setFields sdk m)
    setRows sdk name rows
  -- any other element is passed over
  | _ :: rows => setRows sdk name rows

def setFields (sdk : Sdk) : List (String × Value) → Fill Unit
  | [] => pure ()
  | (k, v) :: m => do
    setField sdk k v
    setFields sdk m

end

def setGiven (sdk : Sdk) (name : String) : Option Value → Fill Unit
  | some v => setField sdk name v
  | none => pure ()

def setRecords (sdk : Sdk) (req : Value) : Fill Unit := do
  setGiven sdk "IDOC_CONTROL_REC_40" ((req.get "control").map fun ctrl => .array [ctrl])
  setGiven sdk "IDOC_DATA_REC_40" (req.get "data")

mutual

def stored (c : Container) (name : String) : Value → Option Container
  | .array rows => do
    let n ← UcName.whole name
    let before ← c.tableAt n
    let new ← storedRows rows
    some (if new.isEmpty then c else c.put n (.table (before ++ new)))
  | .object m => do
    let n ← UcName.whole name
    let before ← c.structureAt n
    let fields ← storedFields before m
    some (c.put n (.structure fields))
  | value => (UcName.whole name).map fun n => c.put n (.scalar (scalarText value))

def storedRows : List Value → Option (List Container)
  | [] => some []
  | .object m :: rows => do
    let row ← storedFields [] m
    let rest ← storedRows rows
    some (row :: rest)
  | _ :: _ => none

def storedFields (c : Container) : List (String × Value) → Option Container
  | [] => some c
  | (k, v) :: m => do
    let c ← stored c k v
    storedFields c m

end

mutual

def leaves : Value → Nat
  | .array rows => leavesOfRows rows
  | .object m => leavesOfFields m
  | _ => 1

def leavesOfRows : List Value → Nat
  | [] => 0
  | v :: rows => leaves v + leavesOfRows rows

def leavesOfFields : List (String × Value) → Nat
  | [] => 0
  | (_, v) :: m => leaves v + leavesOfFields m

end

def isSetString : SdkCall → Bool
  | .setString .. => true
  | _ => false

/-- The container holds exactly the value, each of its scalars set once. -/
def Holds (name : String) (v : Value) (s s' : Filling) : Prop :=
  stored s.container name v = some s'.container ∧
    s'.calls.countP isSetString = s.calls.countP isSetString + leaves v

mutual

def Plain (name : String) : Value → Prop
  | .array rows => '\x00' ∉ name.toList ∧ PlainRows rows
  | .object m => '\x00' ∉ name.toList ∧ PlainFields m
  | _ => '\x00' ∉ name.toList

def PlainRows : List Value → Prop
  | [] => True
  | .object m :: rows => PlainFields m ∧ PlainRows rows
  | _ :: _ => False

def PlainFields : List (String × Value) → Prop
  | [] => True
  | (k, v) :: m => Plain k v ∧ PlainFields m

end

omit [External] in
theorem whole_of_ended {name : String} (h : '\x00' ∉ name.toList) : UcName.whole name = some (toUc name) := by
  have htake : name.toList.takeWhile (· ≠ '\x00') = name.toList := by
    rw [List.takeWhile_eq_self_iff]
    intro c hc
    exact decide_eq_true fun heq => h (heq ▸ hc)
  unfold UcName.whole toUc
  rw [dif_pos h]
  congr 1
  rw [UcName.mk.injEq, htake, String.ofList_toList]

omit [External] in
theorem ended_of_whole {name : String} {n : UcName} (h : UcName.whole name = some n) : '\x00' ∉ name.toList := by
  unfold UcName.whole at h
  by_cases hname : '\x00' ∉ name.toList
  · exact hname
  · rw [dif_neg hname] at h
    cases h

omit [External] in
theorem Container.lookup_put (c : Container) (n : UcName) (f : Field) : (c.put n f).lookup n = some f := by
  induction c with
  | nil => simp [Container.put]
  | cons p c ih =>
    obtain ⟨k, g⟩ := p
    rw [Container.put]
    by_cases hk : k = n
    · rw [if_pos hk, hk, List.lookup_cons_self]
    · rw [if_neg hk, List.lookup_cons, beq_false_of_ne (Ne.symm hk)]
      exact ih

omit [External] in
theorem Container.put_put (c : Container) (n : UcName) (f g : Field) : (c.put n f).put n g = c.put n g := by
  induction c with
  | nil => simp [Container.put]
  | cons p c ih =>
    obtain ⟨k, h⟩ := p
    rw [Container.put, Container.put]
    by_cases hk : k = n
    · rw [if_pos hk, if_pos hk, Container.put, if_pos hk]
    · rw [if_neg hk, if_neg hk, Container.put, if_neg hk, ih]

omit [External] in
theorem Container.tableAt_put (c : Container) (n : UcName) (rows : List Container) :
    (c.put n (.table rows)).tableAt n = some rows := by
  unfold Container.tableAt
  rw [Container.lookup_put]

omit [External] in
theorem sdkCall_ok {sdk : Sdk} {c : SdkCall} {stage : String} {fits : Container → Bool} {s s' : Filling}
    (h : sdkCall sdk c stage fits s = (.ok (), s')) : fits s.container = true ∧ s' = { s with calls := c :: s.calls } := by
  unfold sdkCall at h
  split at h
  · cases h
  · split at h
    · cases h
      exact ⟨by assumption, rfl⟩
    · cases h

omit [External] in
theorem inside_ok {sub : Container → Container} {back : Container → Container → Container} {m : Fill Unit}
    {s s' : Filling} (h : inside sub back m s = (.ok (), s')) :
    ∃ s₁, m { s with container := sub s.container } = (.ok (), s₁) ∧
      s' = { s₁ with container := back s.container s₁.container } := by
  unfold inside at h
  rcases hm : m { s with container := sub s.container } with ⟨r, s₁⟩
  rw [hm] at h
  cases h
  exact ⟨s₁, rfl, rfl⟩

omit [External] in
theorem setScalar_ok {sdk : Sdk} {name text : String} {s s' : Filling} (h : setScalar sdk name text s = (.ok (), s')) :
    s' = ⟨.setString (toUc name) text :: s.calls, s.container.put (toUc name) (.scalar text)⟩ := by
  obtain ⟨_, s₁, hcall, hrest⟩ := of_bind_ok h
  obtain ⟨-, rfl⟩ := sdkCall_ok hcall
  cases hrest
  rfl

theorem setScalar_holds {sdk : Sdk} {name : String} {v : Value} {s s' : Filling}
    (h : setScalar sdk name (scalarText v) s = (.ok (), s')) (hname : '\x00' ∉ name.toList) :
    (UcName.whole name).map (fun n => s.container.put n (.scalar (scalarText v))) = some s'.container ∧
      s'.calls.countP isSetString = s.calls.countP isSetString + 1 := by
  obtain rfl := setScalar_ok h
  rw [whole_of_ended hname]
  exact ⟨rfl, List.countP_cons_of_pos rfl⟩

mutual

theorem setField_holds {sdk : Sdk} {name : String} : ∀ (v : Value) {s s' : Filling},
    setField sdk name v s = (.ok (), s') → Plain name v → Holds name v s s'
  | .null, _, _, h, hp => setScalar_holds h hp
  | .bool _, _, _, h, hp => setScalar_holds h hp
  | .number _, _, _, h, hp => setScalar_holds h hp
  | .string _, _, _, h, hp => setScalar_holds h hp
  | .array rows, s, s', h, hp => by
    obtain ⟨_, s₁, hcall, hrest⟩ := of_bind_ok h
    obtain ⟨hfits, rfl⟩ := sdkCall_ok hcall
    obtain ⟨before, hbefore⟩ := Option.isSome_iff_exists.mp hfits
    obtain ⟨new, hnew, hcontainer, hcount⟩ := setRows_holds rows hrest hp.2 hbefore
    refine ⟨?_, hcount⟩
    simp only [stored, whole_of_ended hp.1, Option.bind_eq_bind, Option.bind_some, hbefore, hnew, hcontainer]
  | .object m, s, s', h, hp => by
    obtain ⟨_, s₁, hcall, hrest⟩ := of_bind_ok h
    obtain ⟨hfits, rfl⟩ := sdkCall_ok hcall
    obtain ⟨before, hbefore⟩ := Option.isSome_iff_exists.mp hfits
    obtain ⟨s₂, hfields, rfl⟩ := inside_ok hrest
    obtain ⟨hstored, hcount⟩ := setFields_holds m hfields hp.2
    refine ⟨?_, hcount⟩
    simp only [hbefore, Option.getD_some] at hstored
    simp only [stored, whole_of_ended hp.1, Option.bind_eq_bind, Option.bind_some, hbefore, hstored]

theorem setRows_holds {sdk : Sdk} {name : String} : ∀ (rows : List Value) {s s' : Filling} {before : List Container},
    setRows sdk name rows s = (.ok (), s') → PlainRows rows → s.container.tableAt (toUc name) = some before →
    ∃ new, storedRows rows = some new ∧
      s'.container = (if new.isEmpty then s.container else s.container.put (toUc name) (.table (before ++ new))) ∧
      s'.calls.countP isSetString = s.calls.countP isSetString + leavesOfRows rows
  | [], _, _, _, h, _, _ => by
    cases h
    exact ⟨[], rfl, rfl, rfl⟩
  | .object m :: rows, s, s', before, h, hp, hbefore => by
    obtain ⟨_, s₁, hcall, h⟩ := of_bind_ok h
    obtain ⟨-, rfl⟩ := sdkCall_ok hcall
    obtain ⟨_, s₂, hrow, hrest⟩ := of_bind_ok h
    obtain ⟨s₃, hfields, rfl⟩ := inside_ok hrow
    obtain ⟨hstored, hcount⟩ := setFields_holds m hfields hp.1
    simp only [hbefore, Option.getD_some] at hrest
    obtain ⟨new, hnew, hcontainer, hcount'⟩ := setRows_holds rows hrest hp.2 (Container.tableAt_put ..)
    refine ⟨s₃.container :: new, ?_, ?_, ?_⟩
    · simp only [storedRows, hstored, hnew, Option.bind_eq_bind, Option.bind_some]
    · rw [hcontainer]
      cases new with
      | nil => rfl
      | cons row new => simp [Container.put_put]
    · rw [hcount', hcount]
      simp only [leavesOfRows, leaves, List.countP_cons_of_neg (show ¬ isSetString .appendNewRow = true by decide)]
      omega
  | .null :: _, _, _, _, _, hp, _ => hp.elim
  | .bool _ :: _, _, _, _, _, hp, _ => hp.elim
  | .number _ :: _, _, _, _, _, hp, _ => hp.elim
  | .string _ :: _, _, _, _, _, hp, _ => hp.elim
  | .array _ :: _, _, _, _, _, hp, _ => hp.elim

theorem setFields_holds {sdk : Sdk} : ∀ (m : List (String × Value)) {s s' : Filling},
    setFields sdk m s = (.ok (), s') → PlainFields m →
    storedFields s.container m = some s'.container ∧
      s'.calls.countP isSetString = s.calls.countP isSetString + leavesOfFields m
  | [], _, _, h, _ => by
    cases h
    exact ⟨rfl, rfl⟩
  | (k, v) :: m, s, s', h, hp => by
    obtain ⟨_, s₁, hfield, hrest⟩ := of_bind_ok h
    obtain ⟨hstored, hcount⟩ := setField_holds v hfield hp.1
    obtain ⟨hstored', hcount'⟩ := setFields_holds m hrest hp.2
    refine ⟨?_, ?_⟩
    · simp only [storedFields, hstored, Option.bind_eq_bind, Option.bind_some, hstored']
    · rw [hcount', hcount, leavesOfFields, Nat.add_assoc]

end

mutual

theorem plain_of_stored {name : String} : ∀ (v : Value) {c c' : Container}, stored c name v = some c' → Plain name v
  | .null, _, _, h => by
    obtain ⟨n, hn, -⟩ := Option.map_eq_some_iff.mp h
    exact ended_of_whole hn
  | .bool _, _, _, h => by
    obtain ⟨n, hn, -⟩ := Option.map_eq_some_iff.mp h
    exact ended_of_whole hn
  | .number _, _, _, h => by
    obtain ⟨n, hn, -⟩ := Option.map_eq_some_iff.mp h
    exact ended_of_whole hn
  | .string _, _, _, h => by
    obtain ⟨n, hn, -⟩ := Option.map_eq_some_iff.mp h
    exact ended_of_whole hn
  | .array rows, _, _, h => by
    obtain ⟨n, hn, h⟩ := Option.bind_eq_some_iff.mp h
    obtain ⟨before, -, h⟩ := Option.bind_eq_some_iff.mp h
    obtain ⟨new, hnew, -⟩ := Option.bind_eq_some_iff.mp h
    exact ⟨ended_of_whole hn, plain_of_storedRows rows hnew⟩
  | .object m, _, _, h => by
    obtain ⟨n, hn, h⟩ := Option.bind_eq_some_iff.mp h
    obtain ⟨before, -, h⟩ := Option.bind_eq_some_iff.mp h
    obtain ⟨fields, hfields, -⟩ := Option.bind_eq_some_iff.mp h
    exact ⟨ended_of_whole hn, plain_of_storedFields m hfields⟩

theorem plain_of_storedRows : ∀ (rows : List Value) {new : List Container}, storedRows rows = some new → PlainRows rows
  | [], _, _ => trivial
  | .object m :: rows, _, h => by
    obtain ⟨row, hrow, h⟩ := Option.bind_eq_some_iff.mp h
    obtain ⟨rest, hrest, -⟩ := Option.bind_eq_some_iff.mp h
    exact ⟨plain_of_storedFields m hrow, plain_of_storedRows rows hrest⟩
  | .null :: _, _, h => by cases h
  | .bool _ :: _, _, h => by cases h
  | .number _ :: _, _, h => by cases h
  | .string _ :: _, _, h => by cases h
  | .array _ :: _, _, h => by cases h

theorem plain_of_storedFields : ∀ (m : List (String × Value)) {c c' : Container},
    storedFields c m = some c' → PlainFields m
  | [], _, _, _ => trivial
  | (k, v) :: m, _, _, h => by
    obtain ⟨c, hc, h⟩ := Option.bind_eq_some_iff.mp h
    exact ⟨plain_of_stored v hc, plain_of_storedFields m h⟩

end

def isObject : Value → Bool
  | .object _ => true
  | _ => false

omit [External] in
theorem Container.lookup_put_of_ne (c : Container) {n k : UcName} (f : Field) (h : k ≠ n) :
    (c.put n f).lookup k = c.lookup k := by
  induction c with
  | nil => simp [Container.put, h]
  | cons p c ih =>
    obtain ⟨n', g⟩ := p
    rw [Container.put]
    by_cases hn : n' = n
    · rw [if_pos hn, List.lookup_cons, List.lookup_cons, beq_false_of_ne (hn ▸ h)]
    · rw [if_neg hn, List.lookup_cons, List.lookup_cons, ih]

theorem setRows_count {sdk : Sdk} {name : String} {rows : List Value} {s s' : Filling} {before : List Container}
    (h : setRows sdk name rows s = (.ok (), s')) (hbefore : s.container.tableAt (toUc name) = some before) :
    ∃ after, s'.container.tableAt (toUc name) = some after ∧ after.length = before.length + rows.countP isObject := by
  induction rows generalizing s before with
  | nil =>
    rw [setRows] at h
    cases h
    exact ⟨before, hbefore, rfl⟩
  | cons v rows ih =>
    cases v with
    | object m =>
      rw [setRows] at h
      obtain ⟨_, s₁, hcall, h⟩ := of_bind_ok h
      obtain ⟨-, rfl⟩ := sdkCall_ok hcall
      obtain ⟨_, s₂, hrow, hrest⟩ := of_bind_ok h
      obtain ⟨s₃, -, rfl⟩ := inside_ok hrow
      simp only [hbefore, Option.getD_some] at hrest
      obtain ⟨after, hafter, hlen⟩ := ih hrest (Container.tableAt_put ..)
      refine ⟨after, hafter, ?_⟩
      rw [hlen, List.length_append, List.length_singleton, List.countP_cons_of_pos rfl]
      omega
    | null | bool | number | string | array =>
      rw [setRows] at h
      · obtain ⟨after, hafter, hlen⟩ := ih h hbefore
        exact ⟨after, hafter, by rw [hlen, List.countP_cons_of_neg (by simp [isObject])]⟩
      · intro m heq
        cases heq

theorem setRows_elsewhere {sdk : Sdk} {name : String} {k : UcName} (hk : k ≠ toUc name) {rows : List Value} {s s' : Filling}
    (h : setRows sdk name rows s = (.ok (), s')) : s'.container.lookup k = s.container.lookup k := by
  induction rows generalizing s with
  | nil =>
    rw [setRows] at h
    cases h
    rfl
  | cons v rows ih =>
    cases v with
    | object m =>
      rw [setRows] at h
      obtain ⟨_, s₁, hcall, h⟩ := of_bind_ok h
      obtain ⟨-, rfl⟩ := sdkCall_ok hcall
      obtain ⟨_, s₂, hrow, hrest⟩ := of_bind_ok h
      obtain ⟨s₃, -, rfl⟩ := inside_ok hrow
      rw [ih hrest]
      exact Container.lookup_put_of_ne _ _ hk
    | null | bool | number | string | array =>
      rw [setRows] at h
      · exact ih h
      · intro m heq
        cases heq

theorem setField_array {sdk : Sdk} {name : String} {rows : List Value} {s s' : Filling}
    (h : setField sdk name (.array rows) s = (.ok (), s')) :
    ∃ before, s.container.tableAt (toUc name) = some before ∧
      setRows sdk name rows { s with calls := .getTable (toUc name) :: s.calls } = (.ok (), s') := by
  rw [setField] at h
  obtain ⟨_, s₁, hcall, hrest⟩ := of_bind_ok h
  obtain ⟨hfits, rfl⟩ := sdkCall_ok hcall
  obtain ⟨before, hbefore⟩ := Option.isSome_iff_exists.mp hfits
  exact ⟨before, hbefore, hrest⟩

theorem setRecords_count {sdk : Sdk} {req : Value} {rows : List Value} {s' : Filling}
    (h : setRecords sdk req ⟨[], []⟩ = (.ok (), s')) (hdata : req.get "data" = some (.array rows)) :
    ∃ table, s'.container.tableAt (toUc "IDOC_DATA_REC_40") = some table ∧ table.length = rows.countP isObject := by
  have hother : toUc "IDOC_DATA_REC_40" ≠ toUc "IDOC_CONTROL_REC_40" := by decide
  unfold setRecords at h
  obtain ⟨_, s₁, hctrl, hrest⟩ := of_bind_ok h
  have hnone : s₁.container.lookup (toUc "IDOC_DATA_REC_40") = none := by
    cases hc : req.get "control" with
    | none =>
      rw [hc] at hctrl
      cases hctrl
      rfl
    | some ctrl =>
      rw [hc] at hctrl
      obtain ⟨before, -, hrows⟩ := setField_array hctrl
      rw [setRows_elsewhere hother hrows]
      rfl
  rw [hdata] at hrest
  obtain ⟨before, hbefore, hrows⟩ := setField_array hrest
  have hempty : before = [] := by
    unfold Container.tableAt at hbefore
    rw [hnone] at hbefore
    exact (Option.some.inj hbefore).symm
  obtain ⟨table, htable, hlen⟩ := setRows_count hrows hbefore
  exact ⟨table, htable, by rw [hlen, hempty, List.length_nil, Nat.zero_add]⟩

/-- What was set without an error is the value exactly if every element of its arrays is an object
and no name holds a NUL; an IDoc has all the rows of its request exactly if they are objects. -/
theorem set_field_holds_iff (sdk : Sdk) :
    (∀ name v s s', setField sdk name v s = (.ok (), s') → (Holds name v s s' ↔ Plain name v)) ∧
    (∀ m s s', setFields sdk m s = (.ok (), s') → (storedFields s.container m = some s'.container ↔ PlainFields m)) ∧
    ∀ req rows s', setRecords sdk req ⟨[], []⟩ = (.ok (), s') → req.get "data" = some (.array rows) →
      ∃ table, s'.container.tableAt (toUc "IDOC_DATA_REC_40") = some table ∧
        (table.length = rows.length ↔ ∀ v ∈ rows, isObject v = true) := by
  refine ⟨fun name v s s' h => ⟨fun hh => plain_of_stored v hh.1, setField_holds v h⟩,
    fun m s s' h => ⟨plain_of_storedFields m, fun hp => (setFields_holds m h hp).1⟩, fun req rows s' h hdata => ?_⟩
  obtain ⟨table, htable, hlen⟩ := setRecords_count h hdata
  refine ⟨table, htable, ?_⟩
  rw [hlen]
  exact List.countP_eq_length

end

def willing : Sdk := ⟨fun _ => none, lost⟩

def segment (text : String) : Value := .object [("SDATA", .string text)]

theorem set_field_holds_iff_rows :
    ∃ s', @setField ascii willing "T" (.array [segment "1", segment "2"]) ⟨[], []⟩ = (.ok (), s') ∧
      @Holds ascii "T" (.array [segment "1", segment "2"]) ⟨[], []⟩ s' := by
  refine ⟨_, rfl, ((@set_field_holds_iff ascii willing).1 _ _ _ _ rfl).mpr ?_⟩
  refine ⟨by decide, ⟨?_, trivial⟩, ⟨?_, trivial⟩, trivial⟩ <;> exact (by decide : '\x00' ∉ "SDATA".toList)

/-- A data array with an element that is no object: the request is accepted with a row less. -/
theorem element_is_skipped :
    (∃ s', @setRecords ascii willing (.object [("data", .array [segment "1", .string "2"])]) ⟨[], []⟩ = (.ok (), s') ∧
      (s'.container.tableAt (toUc "IDOC_DATA_REC_40")).map List.length = some 1) ∧
    ¬ ∀ name v s s', @setField ascii willing name v s = (.ok (), s') → @Holds ascii name v s s' := by
  refine ⟨⟨_, rfl, rfl⟩, fun hall => ?_⟩
  have hholds := hall "T" (.array [segment "1", .string "2"]) ⟨[], []⟩ _ rfl
  have hplain : PlainRows [segment "1", .string "2"] := (@plain_of_stored ascii _ _ _ _ hholds.1).2
  exact hplain.2

end Vejas.SapRfc
