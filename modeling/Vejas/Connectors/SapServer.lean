import Mathlib.Data.List.Forall2
import Mathlib.Data.List.Nodup
import Vejas.Connectors.SapRfc

/-! Calls that SAP makes: the parameters are read one by one, a failed read leaves a null or nothing
in the line that is written, and the call is acknowledged. -/

namespace Vejas.SapRfc
open Rust Json

def RFC_OK : Int := 0
def RFC_IMPORT : Nat := 1
def RFC_CHANGING : Nat := 3
def RFC_TABLES : Nat := 7
def RFCTYPE_STRUCTURE : Nat := 17

structure Column where
  name : List UInt16
  elementary : Bool

structure Layout where
  columns : List Column
  distinct : (columns.map fun c => fromUc c.name).Nodup

abbrev Row := String → List UInt16

inductive Content
  | elementary (text : List UInt16)
  | record (layout : Layout) (row : Row)
  | table (layout : Layout) (rows : List Row) (bound : rows.length < 2 ^ 32)

structure Param where
  name : List UInt16
  direction : Nat
  rtype : Nat
  content : Content

structure Interface where
  name : List UInt16
  params : List Param
  distinct : (params.map fun p => fromUc p.name).Nodup

inductive Place
  | func
  | record (p : String)
  | firstRow (p : String)
  | row (p : String) (r : Nat)

inductive ReadCall
  | describeFunction
  | functionName
  | paramCount
  | paramDesc (i : Nat)
  /-- the call for the length; a buffer too small is what it expects -/
  | probe (w : Place) (field : String)
  | getString (w : Place) (field : String)
  | describeType (w : Place)
  | fieldCount (w : Place)
  | fieldDesc (w : Place) (i : Nat)
  | getStructure (p : String)
  | getTable (p : String)
  | rowCount (p : String)
  | firstMove (p : String)
  | getFirstRow (p : String)
  | moveTo (p : String) (r : Nat)
  | currentRow (p : String) (r : Nat)

/-- Which reads fail, and how a read of a field of another kind does. -/
structure Reader where
  refuses : ReadCall → Option RfcErrorInfo
  mismatch : RfcErrorInfo

def ask (sdk : Reader) (c : ReadCall) (stage : String) : Except Value Unit :=
  match sdk.refuses c with
  | some e => .error (e.toJson stage)
  | none => .ok ()

def getString (sdk : Reader) (w : Place) (field : String) (held : Option (List UInt16)) : Except Value String := do
  ask sdk (.probe w field) ("get_string:" ++ field)
  ask sdk (.getString w field) ("get_string:" ++ field)
  match held with
  | some text => .ok (fromUc text)
  | none => .error (sdk.mismatch.toJson ("get_string:" ++ field))

def namesFrom (sdk : Reader) (w : Place) : Nat → List Column → Except Value (List String)
  | _, [] => .ok []
  | i, c :: cs => do
    ask sdk (.fieldDesc w i) "get_field_desc"
    let rest ← namesFrom sdk w (i + 1) cs
    .ok (fromUc c.name :: rest)

def fieldNames (sdk : Reader) (w : Place) (layout : Layout) : Except Value (List String) := do
  ask sdk (.describeType w) "describe_type"
  ask sdk (.fieldCount w) "get_field_count"
  namesFrom sdk w 0 layout.columns

def valueOf : Except Value String → Value
  | .ok s => .string s
  | .error _ => .null

def Layout.held (layout : Layout) (row : Row) (field : String) : Option (List UInt16) :=
  (layout.columns.find? fun c => fromUc c.name == field).bind fun c => if c.elementary then some (row field) else none

def readFields (sdk : Reader) (w : Place) (layout : Layout) (row : Row) (cols : List String) : Value :=
  .obj (cols.map fun c => (c, valueOf (getString sdk w c (layout.held row c))))

def readStructure (sdk : Reader) (w : Place) (layout : Layout) (row : Row) : Except Value Value := do
  let cols ← fieldNames sdk w layout
  .ok (readFields sdk w layout row cols)

def marshalStructure (sdk : Reader) (name : String) (content : Content) : Except Value Value := do
  ask sdk (.getStructure name) ("get_structure:" ++ name)
  match content with
  | .record layout row => readStructure sdk (.record name) layout row
  | _ => .error (sdk.mismatch.toJson ("get_structure:" ++ name))

def rowsFrom (sdk : Reader) (name : String) (layout : Layout) (cols : List String) :
    Nat → List Row → Except Value (List Value)
  | _, [] => .ok []
  | r, row :: rows => do
    ask sdk (.moveTo name r) ("move_to:" ++ name)
    match sdk.refuses (.currentRow name r) with
    | some _ => .ok []
    | none =>
      let rest ← rowsFrom sdk name layout cols (r + 1) rows
      .ok (readFields sdk (.row name r) layout row cols :: rest)

def tableRows (sdk : Reader) (name : String) (layout : Layout) (rows : List Row) (maxRows : Nat) : Except Value Value := do
  ask sdk (.firstMove name) ("move_to:" ++ name)
  match sdk.refuses (.getFirstRow name) with
  | some _ => .error (.obj [("ok", .bool false), ("stage", .string ("get_current_row:" ++ name))])
  | none =>
    let cols ← fieldNames sdk (.firstRow name) layout
    let limit := min rows.length maxRows
    let arr ← rowsFrom sdk name layout cols 0 (rows.take limit)
    .ok (.obj [("rows", .array arr), ("total", .ofNat rows.length), ("returned", .ofNat limit)])

def marshalTable (sdk : Reader) (name : String) (content : Content) (maxRows : Nat) : Except Value Value := do
  ask sdk (.getTable name) ("get_table:" ++ name)
  match content with
  | .table layout rows _ =>
    ask sdk (.rowCount name) ("get_row_count:" ++ name)
    if rows.isEmpty then .ok (.array []) else tableRows sdk name layout rows maxRows
  | _ => .error (sdk.mismatch.toJson ("get_table:" ++ name))

def descsFrom (sdk : Reader) : Nat → List Param → Except Value (List Param)
  | _, [] => .ok []
  | i, p :: ps => do
    ask sdk (.paramDesc i) "get_param_desc"
    let rest ← descsFrom sdk (i + 1) ps
    .ok (p :: rest)

def parameters (sdk : Reader) (f : Interface) : Except Value (List Param) := do
  ask sdk .paramCount "get_param_count"
  descsFrom sdk 0 f.params

def usizeMax : Nat := 2 ^ 64 - 1

def isInput (p : Param) : Bool := p.direction == RFC_IMPORT || p.direction == RFC_CHANGING

def Content.text : Content → Option (List UInt16)
  | .elementary text => some text
  | _ => none

def inputOf (sdk : Reader) (p : Param) : Value :=
  let pn := fromUc p.name
  if p.rtype = RFCTYPE_STRUCTURE then
    match marshalStructure sdk pn p.content with
    | .ok v => v
    | .error _ => .null
  else valueOf (getString sdk .func pn p.content.text)

def tableOf (sdk : Reader) (p : Param) : Option Value :=
  (marshalTable sdk (fromUc p.name) p.content usizeMax).toOption

def importEntry (sdk : Reader) (p : Param) : Option (String × Value) :=
  if isInput p then some (fromUc p.name, inputOf sdk p) else none

def tableEntry (sdk : Reader) (p : Param) : Option (String × Value) :=
  if p.direction = RFC_TABLES then (tableOf sdk p).map fun v => (fromUc p.name, v) else none

def seen (sdk : Reader) (f : Interface) : List Param :=
  if (sdk.refuses .describeFunction).isNone then
    match parameters sdk f with
    | .ok params => params
    | .error _ => []
  else []

def callLine (sdk : Reader) (f : Interface) : Value :=
  let described := (sdk.refuses .describeFunction).isNone
  let name := if described && (sdk.refuses .functionName).isNone then fromUc f.name else "?"
  .obj [("stream", .bool true), ("kind", .string "call"), ("func", .string name),
    ("import", .object (Map.ofEntries ((seen sdk f).filterMap (importEntry sdk)))),
    ("tables", .object (Map.ofEntries ((seen sdk f).filterMap (tableEntry sdk))))]

def onServerCall (sdk : Reader) (stdout : Bool) (f : Interface) : Option Value × Int :=
  (if stdout then some (callLine sdk f) else none, RFC_OK)

def ShowsRow (layout : Layout) (row : Row) (v : Value) : Prop :=
  ∀ c ∈ layout.columns, c.elementary = true → v.get (fromUc c.name) = some (.string (fromUc (row (fromUc c.name))))

def ShowsRows (layout : Layout) (rows : List Row) (v : Value) : Prop :=
  if rows = [] then v = .array []
  else ∃ arr, v.get "rows" = some (.array arr) ∧ List.Forall₂ (ShowsRow layout) rows arr

def Content.Shown (v : Value) : Content → Prop
  | .elementary text => v = .string (fromUc text)
  | .record layout row => v.asObject.isSome = true ∧ ShowsRow layout row v
  | .table layout rows _ => ShowsRows layout rows v

/-- The line has every parameter that came in, with what it holds. -/
def Whole (f : Interface) (line : Value) : Prop :=
  ∀ p ∈ f.params,
    (isInput p = true → ∃ v, (line.index "import").get (fromUc p.name) = some v ∧ p.content.Shown v) ∧
    (p.direction = RFC_TABLES → ∃ v, (line.index "tables").get (fromUc p.name) = some v ∧ p.content.Shown v)

def Reader.Answers (sdk : Reader) (c : ReadCall) : Prop := sdk.refuses c = none

def TextServed (sdk : Reader) (w : Place) (field : String) : Prop :=
  sdk.Answers (.probe w field) ∧ sdk.Answers (.getString w field)

def NamesServed (sdk : Reader) (w : Place) (layout : Layout) : Prop :=
  sdk.Answers (.describeType w) ∧ sdk.Answers (.fieldCount w) ∧
    ∀ i < layout.columns.length, sdk.Answers (.fieldDesc w i)

def RowServed (sdk : Reader) (w : Place) (layout : Layout) : Prop :=
  ∀ c ∈ layout.columns, c.elementary = true → TextServed sdk w (fromUc c.name)

def InputServed (sdk : Reader) (p : Param) : Prop :=
  let pn := fromUc p.name
  if p.rtype = RFCTYPE_STRUCTURE then
    match p.content with
    | .record layout _ =>
      sdk.Answers (.getStructure pn) ∧ NamesServed sdk (.record pn) layout ∧ RowServed sdk (.record pn) layout
    | _ => False
  else
    match p.content with
    | .elementary _ => TextServed sdk .func pn
    | _ => False

def RowsServed (sdk : Reader) (pn : String) (layout : Layout) (count : Nat) : Prop :=
  sdk.Answers (.firstMove pn) ∧ sdk.Answers (.getFirstRow pn) ∧ NamesServed sdk (.firstRow pn) layout ∧
    ∀ r < count, sdk.Answers (.moveTo pn r) ∧ sdk.Answers (.currentRow pn r) ∧ RowServed sdk (.row pn r) layout

def TableServed (sdk : Reader) (p : Param) : Prop :=
  let pn := fromUc p.name
  match p.content with
  | .table layout rows _ =>
    sdk.Answers (.getTable pn) ∧ sdk.Answers (.rowCount pn) ∧ (rows ≠ [] → RowsServed sdk pn layout rows.length)
  | _ => False

def ListServed (sdk : Reader) (f : Interface) : Prop :=
  sdk.Answers .describeFunction ∧ sdk.Answers .paramCount ∧ ∀ i < f.params.length, sdk.Answers (.paramDesc i)

/-- Every read that the parameters coming in call for succeeds. -/
def Served (sdk : Reader) (f : Interface) : Prop :=
  ∀ p ∈ f.params, (isInput p = true → ListServed sdk f ∧ InputServed sdk p) ∧
    (p.direction = RFC_TABLES → ListServed sdk f ∧ TableServed sdk p)

variable {sdk : Reader}

theorem ask_ok {c : ReadCall} {stage : String} (h : sdk.Answers c) : ask sdk c stage = .ok () := by
  unfold ask
  rw [h]

theorem of_ask_ok {c : ReadCall} {stage : String} {u : Unit} (h : ask sdk c stage = .ok u) : sdk.Answers c := by
  unfold ask at h
  split at h
  · cases h
  · assumption

theorem of_read_bind {α β : Type} {m : Except Value α} {k : α → Except Value β} {b : β} (h : (m >>= k) = .ok b) :
    ∃ a, m = .ok a ∧ k a = .ok b := by
  cases m with
  | error e => cases h
  | ok a => exact ⟨a, rfl, h⟩

theorem getString_iff {w : Place} {field : String} {held : Option (List UInt16)} {s : String} :
    getString sdk w field held = .ok s ↔ TextServed sdk w field ∧ ∃ text, held = some text ∧ s = fromUc text := by
  constructor
  · intro h
    obtain ⟨_, hprobe, h⟩ := of_read_bind h
    obtain ⟨_, hget, h⟩ := of_read_bind h
    refine ⟨⟨of_ask_ok hprobe, of_ask_ok hget⟩, ?_⟩
    cases held with
    | none => cases h
    | some text =>
      cases h
      exact ⟨text, rfl, rfl⟩
  · rintro ⟨⟨hprobe, hget⟩, text, rfl, rfl⟩
    unfold getString
    rw [ask_ok hprobe, ask_ok hget]
    rfl

theorem valueOf_string {r : Except Value String} {s : String} : valueOf r = .string s ↔ r = .ok s := by
  cases r <;> simp [valueOf]

theorem namesFrom_served {w : Place} {i : Nat} {cs : List Column}
    (h : ∀ j < cs.length, sdk.Answers (.fieldDesc w (i + j))) :
    namesFrom sdk w i cs = .ok (cs.map fun c => fromUc c.name) := by
  induction cs generalizing i with
  | nil => rfl
  | cons c cs ih =>
    have hrest : ∀ j < cs.length, sdk.Answers (.fieldDesc w (i + 1 + j)) := by
      intro j hj
      rw [show i + 1 + j = i + (j + 1) by omega]
      exact h (j + 1) (Nat.succ_lt_succ hj)
    have hfirst : sdk.Answers (.fieldDesc w i) := h 0 (Nat.zero_lt_succ _)
    rw [namesFrom, ask_ok hfirst, ih hrest]
    rfl

theorem of_namesFrom {w : Place} {i : Nat} {cs : List Column} {names : List String} (h : namesFrom sdk w i cs = .ok names) :
    ∀ j < cs.length, sdk.Answers (.fieldDesc w (i + j)) := by
  induction cs generalizing i names with
  | nil =>
    intro j hj
    cases hj
  | cons c cs ih =>
    obtain ⟨_, hdesc, h⟩ := of_read_bind h
    obtain ⟨rest, hrest, -⟩ := of_read_bind h
    intro j hj
    cases j with
    | zero => exact of_ask_ok hdesc
    | succ j =>
      rw [show i + (j + 1) = i + 1 + j by omega]
      exact ih hrest j (Nat.lt_of_succ_lt_succ hj)

theorem fieldNames_served {w : Place} {layout : Layout} (h : NamesServed sdk w layout) :
    fieldNames sdk w layout = .ok (layout.columns.map fun c => fromUc c.name) := by
  obtain ⟨htype, hcount, hdescs⟩ := h
  unfold fieldNames
  rw [ask_ok htype, ask_ok hcount, namesFrom_served (i := 0) (by simpa using hdescs)]
  rfl

theorem of_fieldNames {w : Place} {layout : Layout} {names : List String} (h : fieldNames sdk w layout = .ok names) :
    NamesServed sdk w layout := by
  obtain ⟨_, htype, h⟩ := of_read_bind h
  obtain ⟨_, hcount, h⟩ := of_read_bind h
  exact ⟨of_ask_ok htype, of_ask_ok hcount, by simpa using of_namesFrom h⟩

theorem Layout.held_column {layout : Layout} {c : Column} (hc : c ∈ layout.columns) (row : Row) :
    layout.held row (fromUc c.name) = if c.elementary then some (row (fromUc c.name)) else none := by
  unfold Layout.held
  have hfind : layout.columns.find? (fun c' => fromUc c'.name == fromUc c.name) = some c := by
    cases hf : layout.columns.find? (fun c' => fromUc c'.name == fromUc c.name) with
    | none =>
      have hnot := List.find?_eq_none.mp hf c hc
      exact absurd (beq_self_eq_true _) hnot
    | some c' =>
      have heq := List.find?_some hf
      have hsame := List.inj_on_of_nodup_map layout.distinct (List.mem_of_find?_eq_some hf) hc (eq_of_beq heq)
      rw [hsame]
  rw [hfind]
  rfl

theorem get_readFields {w : Place} {layout : Layout} {c : Column} (hc : c ∈ layout.columns) (row : Row) :
    (readFields sdk w layout row (layout.columns.map fun c => fromUc c.name)).get (fromUc c.name) =
      some (valueOf (getString sdk w (fromUc c.name) (layout.held row (fromUc c.name)))) := by
  apply Map.get?_ofEntries
  · rw [List.map_map, List.map_map]
    exact layout.distinct
  · rw [List.map_map]
    exact List.mem_map.mpr ⟨c, hc, rfl⟩

theorem showsRow_readFields {w : Place} {layout : Layout} {row : Row} :
    ShowsRow layout row (readFields sdk w layout row (layout.columns.map fun c => fromUc c.name)) ↔
      RowServed sdk w layout := by
  refine forall_congr' fun c => forall_congr' fun hc => forall_congr' fun helem => ?_
  rw [get_readFields hc, Layout.held_column hc, if_pos helem, Option.some.injEq, valueOf_string, getString_iff]
  exact ⟨fun h => h.1, fun h => ⟨h, _, rfl, rfl⟩⟩

theorem rowsFrom_shown {pn : String} {layout : Layout} {r : Nat} {rows : List Row} :
    (∃ arr, rowsFrom sdk pn layout (layout.columns.map fun c => fromUc c.name) r rows = .ok arr ∧
      List.Forall₂ (ShowsRow layout) rows arr) ↔
    ∀ j < rows.length, sdk.Answers (.moveTo pn (r + j)) ∧ sdk.Answers (.currentRow pn (r + j)) ∧
      RowServed sdk (.row pn (r + j)) layout := by
  induction rows generalizing r with
  | nil => exact iff_of_true ⟨[], rfl, .nil⟩ fun j hj => absurd hj (Nat.not_lt_zero _)
  | cons row rows ih =>
    constructor
    · rintro ⟨arr, harr, hall⟩
      obtain ⟨_, hmove, harr⟩ := of_read_bind harr
      cases hcur : sdk.refuses (.currentRow pn r) with
      | some e =>
        -- the loop ends here, and the row is missing
        rw [hcur] at harr
        cases harr
        cases hall
      | none =>
        rw [hcur] at harr
        obtain ⟨rest, hrest, harr⟩ := of_read_bind harr
        cases harr
        rcases hall with _ | ⟨hrow, htail⟩
        have hserved := ih.mp ⟨rest, hrest, htail⟩
        intro j hj
        cases j with
        | zero => exact ⟨of_ask_ok hmove, hcur, showsRow_readFields.mp hrow⟩
        | succ j =>
          rw [show r + (j + 1) = r + 1 + j by omega]
          exact hserved j (Nat.lt_of_succ_lt_succ hj)
    · intro h
      have hfirst : sdk.Answers (.moveTo pn r) ∧ sdk.Answers (.currentRow pn r) ∧ RowServed sdk (.row pn r) layout :=
        h 0 (Nat.zero_lt_succ _)
      obtain ⟨hmove, hcur, hrow⟩ := hfirst
      obtain ⟨rest, hrest, htail⟩ := (ih (r := r + 1)).mpr fun j hj => by
        rw [show r + 1 + j = r + (j + 1) by omega]
        exact h (j + 1) (Nat.succ_lt_succ hj)
      refine ⟨_ :: rest, ?_, .cons (showsRow_readFields.mpr hrow) htail⟩
      have hcur' : sdk.refuses (.currentRow pn r) = none := hcur
      rw [rowsFrom, ask_ok hmove, hrest]
      simp only [hcur']
      rfl

theorem get_rows {arr : List Value} {total returned : Value} :
    (Value.obj [("rows", .array arr), ("total", total), ("returned", returned)]).get "rows" = some (.array arr) :=
  Map.get?_ofEntries (by simp) (List.mem_cons_self ..)

theorem tableRows_shown {pn : String} {layout : Layout} {rows : List Row} (hbound : rows.length < 2 ^ 32) (hne : rows ≠ []) :
    (∃ v, tableRows sdk pn layout rows usizeMax = .ok v ∧ ShowsRows layout rows v) ↔ RowsServed sdk pn layout rows.length := by
  have htake : rows.take (min rows.length usizeMax) = rows := by
    have hle : rows.length ≤ usizeMax := by
      unfold usizeMax
      omega
    rw [Nat.min_eq_left hle, List.take_length]
  constructor
  · rintro ⟨v, hv, hshown⟩
    obtain ⟨_, hmove, hv⟩ := of_read_bind hv
    cases hrow : sdk.refuses (.getFirstRow pn) with
    | some e =>
      rw [hrow] at hv
      cases hv
    | none =>
      rw [hrow] at hv
      obtain ⟨cols, hcols, hv⟩ := of_read_bind hv
      have hnames := of_fieldNames hcols
      rw [fieldNames_served hnames] at hcols
      cases hcols
      obtain ⟨arr, harr, hv⟩ := of_read_bind hv
      cases hv
      unfold ShowsRows at hshown
      rw [if_neg hne] at hshown
      obtain ⟨arr', harr', hall⟩ := hshown
      rw [get_rows] at harr'
      cases harr'
      rw [htake] at harr
      refine ⟨of_ask_ok hmove, hrow, hnames, fun r hr => ?_⟩
      have hserved := rowsFrom_shown.mp ⟨arr, harr, hall⟩ r hr
      rwa [Nat.zero_add] at hserved
  · rintro ⟨hmove, hrow, hnames, hrows⟩
    have hrow' : sdk.refuses (.getFirstRow pn) = none := hrow
    obtain ⟨arr, harr, hall⟩ := (rowsFrom_shown (r := 0)).mpr fun j hj => by
      rw [Nat.zero_add]
      exact hrows j hj
    refine ⟨.obj [("rows", .array arr), ("total", .ofNat rows.length), ("returned", .ofNat (min rows.length usizeMax))], ?_, ?_⟩
    · unfold tableRows
      rw [ask_ok hmove, fieldNames_served hnames]
      simp only [hrow', htake]
      show (rowsFrom sdk pn layout _ 0 rows >>= _) = _
      rw [harr]
      rfl
    · unfold ShowsRows
      rw [if_neg hne]
      exact ⟨arr, get_rows, hall⟩

theorem tableOf_shown {p : Param} : (∃ v, tableOf sdk p = some v ∧ p.content.Shown v) ↔ TableServed sdk p := by
  have hsome : ∀ v, tableOf sdk p = some v ↔ marshalTable sdk (fromUc p.name) p.content usizeMax = .ok v := by
    intro v
    unfold tableOf
    cases marshalTable sdk (fromUc p.name) p.content usizeMax <;> simp [Except.toOption]
  simp only [hsome]
  unfold TableServed
  cases hp : p.content with
  | elementary | record =>
    refine iff_of_false ?_ id
    rintro ⟨v, hv, -⟩
    obtain ⟨_, -, hv⟩ := of_read_bind hv
    cases hv
  | table layout rows bound =>
    constructor
    · rintro ⟨v, hv, hshown⟩
      obtain ⟨_, htable, hv⟩ := of_read_bind hv
      obtain ⟨_, hcount, hv⟩ := of_read_bind hv
      refine ⟨of_ask_ok htable, of_ask_ok hcount, fun hne => ?_⟩
      rw [if_neg (by simpa using hne)] at hv
      exact (tableRows_shown bound hne).mp ⟨v, hv, hshown⟩
    · rintro ⟨htable, hcount, hrows⟩
      by_cases hne : rows = []
      · refine ⟨.array [], ?_, ?_⟩
        · unfold marshalTable
          rw [ask_ok htable, ask_ok hcount]
          show (if rows.isEmpty then Except.ok (.array []) else tableRows sdk (fromUc p.name) layout rows usizeMax) = _
          rw [if_pos (by rw [hne]; rfl)]
        · show ShowsRows layout rows (.array [])
          unfold ShowsRows
          rw [if_pos hne]
      · obtain ⟨v, hv, hshown⟩ := (tableRows_shown bound hne).mpr (hrows hne)
        refine ⟨v, ?_, hshown⟩
        unfold marshalTable
        rw [ask_ok htable, ask_ok hcount]
        show (if rows.isEmpty then Except.ok (.array []) else tableRows sdk (fromUc p.name) layout rows usizeMax) = _
        rw [if_neg (by simpa using hne), hv]

theorem null_not_shown (content : Content) : ¬ content.Shown .null := by
  intro h
  cases content with
  | elementary text => cases h
  | record layout row => cases h.1
  | table layout rows bound =>
    have h : ShowsRows layout rows .null := h
    unfold ShowsRows at h
    split at h
    · cases h
    · obtain ⟨arr, harr, -⟩ := h
      cases harr

theorem marshalStructure_served {pn : String} {layout : Layout} {row : Row} (hget : sdk.Answers (.getStructure pn))
    (hnames : NamesServed sdk (.record pn) layout) : marshalStructure sdk pn (.record layout row) =
      .ok (readFields sdk (.record pn) layout row (layout.columns.map fun c => fromUc c.name)) := by
  unfold marshalStructure
  rw [ask_ok hget]
  show readStructure sdk (.record pn) layout row = _
  unfold readStructure
  rw [fieldNames_served hnames]
  rfl

theorem of_marshalStructure {pn : String} {content : Content} {v : Value} (h : marshalStructure sdk pn content = .ok v) :
    ∃ layout row, content = .record layout row ∧ sdk.Answers (.getStructure pn) ∧ NamesServed sdk (.record pn) layout := by
  obtain ⟨_, hget, h⟩ := of_read_bind h
  cases content with
  | elementary | table => cases h
  | record layout row =>
    obtain ⟨cols, hcols, -⟩ := of_read_bind h
    exact ⟨layout, row, rfl, of_ask_ok hget, of_fieldNames hcols⟩

theorem inputOf_shown {p : Param} : p.content.Shown (inputOf sdk p) ↔ InputServed sdk p := by
  unfold inputOf InputServed
  by_cases hr : p.rtype = RFCTYPE_STRUCTURE
  · simp only [if_pos hr]
    cases hm : marshalStructure sdk (fromUc p.name) p.content with
    | error e =>
      refine iff_of_false (null_not_shown _) fun h => ?_
      cases hp : p.content with
      | elementary | table =>
        rw [hp] at h
        exact h
      | record layout row =>
        rw [hp] at h hm
        rw [marshalStructure_served h.1 h.2.1] at hm
        cases hm
    | ok v =>
      obtain ⟨layout, row, hp, hget, hnames⟩ := of_marshalStructure hm
      rw [hp] at hm ⊢
      rw [marshalStructure_served hget hnames] at hm
      cases hm
      constructor
      · rintro ⟨-, hrow⟩
        exact ⟨hget, hnames, showsRow_readFields.mp hrow⟩
      · rintro ⟨-, -, hrow⟩
        exact ⟨rfl, showsRow_readFields.mpr hrow⟩
  · simp only [if_neg hr]
    have hread : ∀ held, (getString sdk .func (fromUc p.name) held).toOption.isSome = true ∨
        valueOf (getString sdk .func (fromUc p.name) held) = .null := by
      intro held
      cases getString sdk .func (fromUc p.name) held with
      | ok s => exact .inl rfl
      | error e => exact .inr rfl
    cases hp : p.content with
    | elementary text =>
      show valueOf (getString sdk .func (fromUc p.name) (some text)) = .string (fromUc text) ↔ _
      rw [valueOf_string, getString_iff]
      exact ⟨fun h => h.1, fun h => ⟨h, text, rfl, rfl⟩⟩
    | record | table =>
      refine iff_of_false ?_ id
      have hnull : valueOf (getString sdk .func (fromUc p.name) none) = .null := by
        rcases hread none with h | h
        · cases hs : getString sdk .func (fromUc p.name) none with
          | ok s =>
            obtain ⟨-, text, htext, -⟩ := getString_iff.mp hs
            cases htext
          | error e => rfl
        · exact h
      show ¬ Content.Shown (valueOf (getString sdk .func (fromUc p.name) none)) _
      rw [hnull]
      exact null_not_shown _

theorem descsFrom_served {i : Nat} {ps : List Param} (h : ∀ j < ps.length, sdk.Answers (.paramDesc (i + j))) :
    descsFrom sdk i ps = .ok ps := by
  induction ps generalizing i with
  | nil => rfl
  | cons p ps ih =>
    have hfirst : sdk.Answers (.paramDesc i) := h 0 (Nat.zero_lt_succ _)
    have hrest : ∀ j < ps.length, sdk.Answers (.paramDesc (i + 1 + j)) := by
      intro j hj
      rw [show i + 1 + j = i + (j + 1) by omega]
      exact h (j + 1) (Nat.succ_lt_succ hj)
    rw [descsFrom, ask_ok hfirst, ih hrest]
    rfl

theorem of_descsFrom {i : Nat} {ps qs : List Param} (h : descsFrom sdk i ps = .ok qs) :
    ∀ j < ps.length, sdk.Answers (.paramDesc (i + j)) := by
  induction ps generalizing i qs with
  | nil =>
    intro j hj
    cases hj
  | cons p ps ih =>
    obtain ⟨_, hdesc, h⟩ := of_read_bind h
    obtain ⟨rest, hrest, -⟩ := of_read_bind h
    intro j hj
    cases j with
    | zero => exact of_ask_ok hdesc
    | succ j =>
      rw [show i + (j + 1) = i + 1 + j by omega]
      exact ih hrest j (Nat.lt_of_succ_lt_succ hj)

variable {f : Interface}

theorem seen_served (h : ListServed sdk f) : seen sdk f = f.params := by
  obtain ⟨hdescribe, hcount, hdescs⟩ := h
  have hparams : parameters sdk f = .ok f.params := by
    unfold parameters
    rw [ask_ok hcount]
    exact descsFrom_served (by simpa using hdescs)
  unfold seen
  rw [hparams, show sdk.refuses .describeFunction = none from hdescribe]
  rfl

theorem seen_unserved (h : ¬ ListServed sdk f) : seen sdk f = [] := by
  unfold seen
  cases hdescribe : sdk.refuses .describeFunction with
  | some e => rfl
  | none =>
    cases hparams : parameters sdk f with
    | error e => rfl
    | ok ps =>
      obtain ⟨_, hcount, hdescs⟩ := of_read_bind hparams
      exact absurd ⟨hdescribe, of_ask_ok hcount, by simpa using of_descsFrom hdescs⟩ h

theorem keys_nodup {entry : Param → Option (String × Value)}
    (hentry : ∀ p e, entry p = some e → e.1 = fromUc p.name) {ps : List Param}
    (h : (ps.map fun p => fromUc p.name).Nodup) : ((ps.filterMap entry).map (·.1)).Nodup := by
  have hsub : ((ps.filterMap entry).map (·.1)).Sublist (ps.map fun p => fromUc p.name) := by
    clear h
    induction ps with
    | nil => exact .slnil
    | cons p ps ih =>
      cases he : entry p with
      | none =>
        rw [List.filterMap_cons_none he]
        exact ih.cons _
      | some e =>
        rw [List.filterMap_cons_some he, List.map_cons, List.map_cons, hentry p e he]
        exact ih.cons_cons _
  exact h.sublist hsub

theorem get?_entries {entry : Param → Option (String × Value)} (hentry : ∀ p e, entry p = some e → e.1 = fromUc p.name)
    {p : Param} (hp : p ∈ f.params) :
    Map.get? (Map.ofEntries (f.params.filterMap entry)) (fromUc p.name) = (entry p).map (·.2) := by
  cases he : entry p with
  | some e =>
    have hmem : (fromUc p.name, e.2) ∈ f.params.filterMap entry := by
      rw [← hentry p e he]
      exact List.mem_filterMap.mpr ⟨p, hp, he⟩
    exact Map.get?_ofEntries (keys_nodup hentry f.distinct) hmem
  | none =>
    refine Map.get?_eq_none fun e hin heq => ?_
    rcases Map.mem_extend _ _ hin with hin | hin
    · obtain ⟨q, hq, hqe⟩ := List.mem_filterMap.mp hin
      have hsame := List.inj_on_of_nodup_map f.distinct hq hp ((hentry q e hqe).symm.trans heq)
      rw [hsame, he] at hqe
      cases hqe
    · cases hin

theorem importEntry_name {p : Param} {e : String × Value} (h : importEntry sdk p = some e) : e.1 = fromUc p.name := by
  unfold importEntry at h
  split at h
  · cases h
    rfl
  · cases h

theorem tableEntry_name {p : Param} {e : String × Value} (h : tableEntry sdk p = some e) : e.1 = fromUc p.name := by
  unfold tableEntry at h
  split at h
  · obtain ⟨v, -, rfl⟩ := Option.map_eq_some_iff.mp h
    rfl
  · cases h

theorem index_callLine :
    (callLine sdk f).index "import" = .object (Map.ofEntries ((seen sdk f).filterMap (importEntry sdk))) ∧
      (callLine sdk f).index "tables" = .object (Map.ofEntries ((seen sdk f).filterMap (tableEntry sdk))) := by
  have hget : ∀ k v, (k, v) ∈ [("stream", Value.bool true), ("kind", .string "call"),
      ("func", .string (if (sdk.refuses .describeFunction).isNone && (sdk.refuses .functionName).isNone then
        fromUc f.name else "?")),
      ("import", .object (Map.ofEntries ((seen sdk f).filterMap (importEntry sdk)))),
      ("tables", .object (Map.ofEntries ((seen sdk f).filterMap (tableEntry sdk))))] →
      (callLine sdk f).index k = v := by
    intro k v h
    show (Map.get? (Map.ofEntries _) k).getD .null = v
    rw [Map.get?_ofEntries (by simp) h]
    rfl
  exact ⟨hget _ _ (by simp), hget _ _ (by simp)⟩

theorem whole_iff_served : Whole f (callLine sdk f) ↔ Served sdk f := by
  obtain ⟨himport, htables⟩ := @index_callLine sdk f
  unfold Whole Served
  refine forall_congr' fun p => forall_congr' fun hp => ?_
  rw [himport, htables]
  by_cases hlist : ListServed sdk f
  · rw [seen_served hlist]
    have hin := get?_entries (fun _ _ => @importEntry_name sdk _ _) hp
    have htab := get?_entries (fun _ _ => @tableEntry_name sdk _ _) hp
    refine and_congr (forall_congr' fun hinput => ?_) (forall_congr' fun htable => ?_)
    · show (∃ v, Map.get? _ _ = some v ∧ _) ↔ _
      rw [hin, importEntry, if_pos hinput]
      constructor
      · rintro ⟨v, hv, hshown⟩
        cases hv
        exact ⟨hlist, inputOf_shown.mp hshown⟩
      · rintro ⟨-, hserved⟩
        exact ⟨_, rfl, inputOf_shown.mpr hserved⟩
    · show (∃ v, Map.get? _ _ = some v ∧ _) ↔ _
      rw [htab, tableEntry, if_pos htable, Option.map_map]
      rw [show ((fun e : String × Value => e.2) ∘ fun v => (fromUc p.name, v)) = id from rfl, Option.map_id, id,
        tableOf_shown]
      exact ⟨fun h => ⟨hlist, h⟩, fun h => h.2⟩
  · rw [seen_unserved hlist]
    refine and_congr (forall_congr' fun _ => ?_) (forall_congr' fun _ => ?_) <;>
    · refine iff_of_false ?_ fun h => hlist h.1
      rintro ⟨v, hv, -⟩
      cases hv

/-- A call is acknowledged with a whole line exactly if the line could be written and every read of
what came in succeeded. -/
theorem acknowledged_whole_iff (sdk : Reader) (stdout : Bool) (f : Interface) :
    ((onServerCall sdk stdout f).2 = RFC_OK → ∃ line, (onServerCall sdk stdout f).1 = some line ∧ Whole f line) ↔
      stdout = true ∧ Served sdk f := by
  cases stdout with
  | false =>
    refine iff_of_false (fun h => ?_) fun h => Bool.noConfusion h.1
    obtain ⟨line, hline, -⟩ := h rfl
    cases hline
  | true =>
    rw [← whole_iff_served]
    constructor
    · intro h
      obtain ⟨line, hline, hwhole⟩ := h rfl
      cases hline
      exact ⟨rfl, hwhole⟩
    · exact fun h _ => ⟨_, rfl, h.2⟩

def units (s : String) : List UInt16 := s.toList.map fun c => c.val.toUInt16

def oneRecord : Interface where
  name := units "IDOC_INBOUND_ASYNCHRONOUS"
  params := [⟨units "IDOC_DATA_REC_40", RFC_TABLES, 5,
    .table ⟨[⟨units "SDATA", true⟩], List.nodup_singleton _⟩ [fun _ => units "1"] (by decide)⟩]
  distinct := List.nodup_singleton _

def noTable : Reader where
  refuses
    | .getTable _ => some lost
    | _ => none
  mismatch := lost

theorem incomplete_call_is_acknowledged :
    (onServerCall noTable true oneRecord).2 = RFC_OK ∧
      (onServerCall noTable true oneRecord).1.map (fun line => ((line.index "tables").get "IDOC_DATA_REC_40").isSome) =
        some false ∧
      ¬ ∀ sdk f, (onServerCall sdk true f).2 = RFC_OK → ∃ line, (onServerCall sdk true f).1 = some line ∧ Whole f line := by
  refine ⟨rfl, by decide +kernel, fun hall => ?_⟩
  obtain ⟨line, hline, hwhole⟩ := hall noTable oneRecord rfl
  cases hline
  obtain ⟨-, htable, -⟩ := (whole_iff_served.mp hwhole _ (List.mem_cons_self ..)).2 rfl
  cases htable

end Vejas.SapRfc
