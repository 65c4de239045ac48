import Mathlib.Data.List.Nodup
import Vejas.Json.Reading
import Vejas.Lib.Csv
import Vejas.Rust.Split

/-! Salesforce's tables as CSV: `parse_csv` reads a document, `rows_to_csv` writes one, and
`stream_results` emits the rows of an export page by page. -/

namespace Vejas.Salesforce
open Rust Json

structure Scan where
  records : List (List String)
  record : List String
  field : String
  inQuotes : Bool

namespace Scan

def start : Scan := ⟨[], [], "", false⟩

def push (s : Scan) (c : Char) : Scan := { s with field := s.field.push c }

def quotes (s : Scan) (b : Bool) : Scan := { s with inQuotes := b }

def endField (s : Scan) : Scan := { s with record := s.record ++ [s.field], field := "" }

def endRecord (s : Scan) : Scan :=
  { s with records := s.records ++ [s.record ++ [s.field]], record := [], field := "" }

def finish (s : Scan) : List (List String) :=
  if !s.field.isEmpty || !s.record.isEmpty then s.records ++ [s.record ++ [s.field]] else s.records

end Scan

def scan (s : Scan) : List Char → Scan
  | [] => s
  | c :: cs =>
    if s.inQuotes then
      if c = '"' then
        match cs with
        | [] => s.quotes false
        | d :: rest => if d = '"' then scan (s.push '"') rest else scan (s.quotes false) (d :: rest)
      else scan (s.push c) cs
    else if c = '"' then scan (s.quotes true) cs
    else if c = ',' then scan s.endField cs
    else if c = '\n' then scan s.endRecord cs
    else if c = '\r' then scan s cs
    else scan (s.push c) cs

def parseCsv (data : String) : List (List String) := (scan .start data.toList).finish

def addColumn (cols : List String) (k : String) : List String := if cols.any (· == k) then cols else cols ++ [k]

def columns (rows : List Map) : List String :=
  rows.foldl (fun cols r => (r.map (·.1)).foldl addColumn cols) []

section
variable [External]

def cellText : Value → String
  | .string s => s
  | .null => ""
  | other => other.render

def csvCell (v : Value) : String :=
  let s := cellText v
  if s.toList.any (fun c => [',', '"', '\n', '\r'].contains c) then "\"" ++ replace s "\"" "\"\"" ++ "\"" else s

def csvLine (cells : List Value) : String := join "," (cells.map csvCell) ++ "\n"

def rowsToCsv (rows : List Map) : List String × String :=
  let cols := columns rows
  let header := csvLine (cols.map .string)
  (cols, rows.foldl (fun out r => out ++ csvLine (cols.map fun c => (Map.get? r c).getD .null)) header)

end

def percent (b : UInt8) : String :=
  let hex := (Nat.toDigits 16 b.toNat).map Char.toUpper
  "%" ++ String.ofList (if hex.length < 2 then '0' :: hex else hex)

def enc (s : String) : String :=
  String.join (s.toUTF8.data.toList.map fun b =>
    let c := Char.ofNat b.toNat
    if isAsciiAlphanumeric c || ['-', '_', '.', '~'].contains c then c.toString else percent b)

structure Reply where
  code : UInt16
  headers : List (String × String)
  body : String

def eqIgnoreAsciiCase (a b : String) : Bool := a.toList.map Char.toLower == b.toList.map Char.toLower

def header (headers : List (String × String)) (name : String) : Option String :=
  (headers.find? fun h => eqIgnoreAsciiCase h.1 name).map (·.2)

/-- Where the results of a job are, and what a GET with the session's token answers. -/
structure Job where
  base : String
  maxRecords : UInt64
  get : String → Except String Reply

def Job.url (job : Job) (locator : Option String) : String :=
  let url := job.base ++ "?maxRecords=" ++ toString job.maxRecords.toNat
  match locator with
  | some l => url ++ "&locator=" ++ enc l
  | none => url

def rowObject (head r : List String) : Map :=
  head.zipIdx.foldl (fun obj p => Map.insert p.1 (.string (r[p.2]?.getD "")) obj) []

def rowLine (head r : List String) : Value :=
  .obj [("stream", .bool true), ("source", .string "salesforce"), ("row", .object (rowObject head r))]

def pageLines : List (List String) → List Value
  | [] => []
  | head :: data => data.map (rowLine head)

def nextLocator (headers : List (String × String)) : Option String :=
  (header headers "Sforce-Locator").filter fun l => !l.isEmpty && l != "null"

def streamFrom (job : Job) : Nat → Option String → UInt64 → List Value × Option (Except String UInt64)
  | 0, _, _ => ([], none)
  | fuel + 1, locator, total =>
    match job.get (job.url locator) with
    | .error e => ([], some (.error e))
    | .ok reply =>
      if reply.code ≠ 200 then
        ([], some (.error ("results failed (" ++ toString reply.code.toNat ++ "): " ++ trim reply.body)))
      else
        let lines := pageLines (parseCsv reply.body)
        let total := total + UInt64.ofNat lines.length
        match nextLocator reply.headers with
        | some l =>
          let (later, res) := streamFrom job fuel (some l) total
          (lines ++ later, res)
        | none => (lines, some (.ok total))

def streamResults (job : Job) (fuel : Nat) : List Value × Option (Except String UInt64) := streamFrom job fuel none 0

theorem scan_outside {s : Scan} (hs : s.inQuotes = false) (c : Char) (cs : List Char) :
    scan s (c :: cs) =
      if c = '"' then scan (s.quotes true) cs
      else if c = ',' then scan s.endField cs
      else if c = '\n' then scan s.endRecord cs
      else if c = '\r' then scan s cs
      else scan (s.push c) cs := by
  rw [scan.eq_def]
  simp [hs]

theorem scan_inside {s : Scan} (hs : s.inQuotes = true) {c : Char} (hc : c ≠ '"') (cs : List Char) :
    scan s (c :: cs) = scan (s.push c) cs := by
  rw [scan.eq_def]
  simp [hs, hc]

theorem scan_pair {s : Scan} (hs : s.inQuotes = true) (cs : List Char) :
    scan s ('"' :: '"' :: cs) = scan (s.push '"') cs := by
  rw [scan.eq_def]
  simp [hs]

theorem scan_leave {s : Scan} (hs : s.inQuotes = true) {rest : List Char} (hrest : rest.head? ≠ some '"') :
    scan s ('"' :: rest) = scan (s.quotes false) rest := by
  cases rest with
  | nil =>
    rw [scan.eq_def]
    simp [hs, scan]
  | cons d ds =>
    have hd : d ≠ '"' := fun heq => hrest (by rw [heq]; rfl)
    rw [scan.eq_def]
    simp [hs, hd]

theorem push_append (s : Scan) (c : Char) (f : List Char) :
    (s.push c).field ++ String.ofList f = s.field ++ String.ofList (c :: f) := by
  apply String.toList_inj.mp
  simp [Scan.push]

theorem scan_bare {f : List Char} (h : ∀ c ∈ f, Csv.special ',' '"' c = false) {s : Scan} (hs : s.inQuotes = false)
    (rest : List Char) : scan s (f ++ rest) = scan { s with field := s.field ++ String.ofList f } rest := by
  induction f generalizing s with
  | nil => simp
  | cons c f ih =>
    have hc := h c (List.mem_cons_self ..)
    simp only [Csv.special, Bool.or_eq_false_iff, beq_eq_false_iff_ne] at hc
    obtain ⟨⟨⟨hsep, hquote⟩, hlf⟩, hcr⟩ := hc
    have hpush : (s.push c).inQuotes = false := hs
    rw [List.cons_append, scan_outside hs, if_neg hquote, if_neg hsep, if_neg hlf, if_neg hcr,
      ih (fun d hd => h d (List.mem_cons_of_mem _ hd)) hpush, push_append]
    rfl

theorem scan_quoted {f rest : List Char} (hrest : rest.head? ≠ some '"') {s : Scan} (hs : s.inQuotes = true) :
    scan s (Csv.doubled '"' f ++ '"' :: rest) =
      scan { s with field := s.field ++ String.ofList f, inQuotes := false } rest := by
  induction f generalizing s with
  | nil => simpa [Csv.doubled, Scan.quotes] using scan_leave hs hrest
  | cons c f ih =>
    have hpush : scan (s.push c) (Csv.doubled '"' f ++ '"' :: rest) =
        scan { s with field := s.field ++ String.ofList (c :: f), inQuotes := false } rest := by
      have hin : (s.push c).inQuotes = true := hs
      rw [ih hin, push_append]
      rfl
    rw [← hpush]
    by_cases hc : c = '"'
    · subst hc
      exact scan_pair hs _
    · have hone : Csv.doubled '"' (c :: f) = c :: Csv.doubled '"' f := by
        simp [Csv.doubled, hc]
      rw [hone]
      exact scan_inside hs hc _

section
variable {done : List (List String)} {before : List String} {rest : List Char}

theorem scan_field {f : String} {t : List Char} (h : Csv.Field ',' '"' f t) (hrest : rest.head? ≠ some '"') :
    scan ⟨done, before, "", false⟩ (t ++ rest) = scan ⟨done, before, f, false⟩ rest := by
  have hempty : "" ++ String.ofList f.toList = f := by simp
  cases h with
  | bare hbare =>
    rw [scan_bare hbare rfl, hempty]
  | quoted =>
    have hopen := @scan_outside ⟨done, before, "", false⟩ rfl '"' (Csv.doubled '"' f.toList ++ '"' :: rest)
    rw [List.cons_append, List.append_assoc, List.singleton_append, hopen, if_pos rfl, scan_quoted hrest rfl]
    simp only [Scan.quotes, hempty]

theorem scan_record {fs : List String} {t : List Char} (h : Csv.Record ',' '"' fs t) (hrest : rest.head? ≠ some '"') :
    ∃ front last, fs = front ++ [last] ∧
      scan ⟨done, before, "", false⟩ (t ++ rest) = scan ⟨done, before ++ front, last, false⟩ rest := by
  induction h generalizing before with
  | @last f t hf => exact ⟨[], f, rfl, by rw [scan_field hf hrest, List.append_nil]⟩
  | @cons f t fs u hf hfs ih =>
    obtain ⟨front, last, hfront, hscan⟩ := @ih (before ++ [f])
    refine ⟨f :: front, last, by rw [hfront, List.cons_append], ?_⟩
    have hcomma : (',' :: (u ++ rest)).head? ≠ some '"' := by simp
    have hend : scan ⟨done, before, f, false⟩ (',' :: (u ++ rest)) =
        scan ⟨done, before ++ [f], "", false⟩ (u ++ rest) := by
      rw [scan_outside rfl]
      simp [Scan.endField]
    rw [List.append_assoc, List.cons_append, scan_field hf hcomma, hend, hscan, List.append_assoc, List.singleton_append]

theorem scan_line {fs : List String} {t b : List Char} (h : Csv.Record ',' '"' fs t) (hb : Csv.Break b) :
    scan ⟨done, [], "", false⟩ (t ++ (b ++ rest)) = scan ⟨done ++ [fs], [], "", false⟩ rest := by
  have hmark : (b ++ rest).head? ≠ some '"' := by cases hb <;> simp
  obtain ⟨front, last, hfs, hscan⟩ := scan_record h hmark
  have hlf : scan ⟨done, front, last, false⟩ ('\n' :: rest) = scan ⟨done ++ [fs], [], "", false⟩ rest := by
    rw [scan_outside rfl, hfs]
    simp [Scan.endRecord]
  have hbreak : scan ⟨done, front, last, false⟩ (b ++ rest) = scan ⟨done, front, last, false⟩ ('\n' :: rest) := by
    cases hb with
    | lf => rfl
    | crlf =>
      rw [List.cons_append, scan_outside rfl]
      simp
  rw [hscan, List.nil_append, hbreak, hlf]

/-- The records that are read: all, unless the last one is an empty field in quotes at the end. -/
def kept (closed : Bool) (rs : List (List String)) : List (List String) :=
  if !closed && rs.getLast? == some [""] then rs.dropLast else rs

theorem kept_cons {closed : Bool} {r : List String} {rs : List (List String)} (hrs : rs ≠ []) :
    kept closed (r :: rs) = r :: kept closed rs := by
  unfold kept
  rw [List.getLast?_cons_of_ne_nil hrs, List.dropLast_cons_of_ne_nil hrs]
  split <;> rfl

theorem scan_document {closed : Bool} {rs : List (List String)} {t : List Char} (h : Csv.Document ',' '"' closed rs t) :
    (scan ⟨done, [], "", false⟩ t).finish = done ++ kept closed rs := by
  induction h generalizing done with
  | @closed r t b hr hb =>
    have hline := @scan_line done [] _ _ _ hr hb
    rw [List.append_nil] at hline
    rw [hline, scan]
    simp [Scan.finish, kept]
  | @unclosed r t hr ht =>
    obtain ⟨front, last, hr, hscan⟩ := @scan_record done [] [] _ _ hr (by simp)
    rw [List.append_nil] at hscan
    rw [hscan, List.nil_append, scan, hr]
    cases front with
    | nil =>
      by_cases hlast : last = "" <;> simp [Scan.finish, kept, hlast]
    | cons f fs =>
      simp [Scan.finish, kept]
  | @cons closed r t b rs u hr hb hrs ih =>
    rw [scan_line hr hb, ih, kept_cons hrs.ne_nil, List.append_assoc, List.singleton_append]

theorem parseCsv_document {closed : Bool} {rs : List (List String)} {data : String}
    (h : Csv.Document ',' '"' closed rs data.toList) : parseCsv data = kept closed rs := scan_document h

theorem kept_eq_iff {closed : Bool} {rs : List (List String)} :
    kept closed rs = rs ↔ ¬ (closed = false ∧ rs.getLast? = some [""]) := by
  unfold kept
  by_cases hlost : closed = false ∧ rs.getLast? = some [""]
  · obtain ⟨rfl, hlast⟩ := hlost
    have hne : rs ≠ [] := by
      intro heq
      rw [heq] at hlast
      cases hlast
    have hpos := List.length_pos_iff.mpr hne
    rw [hlast]
    refine iff_of_false (fun heq => ?_) (fun h => h ⟨rfl, rfl⟩)
    have hlen := congrArg List.length heq
    simp at hlen
    omega
  · refine iff_of_true (if_neg fun h => hlost ?_) hlost
    simpa using h

end

theorem mem_addColumn {cols : List String} {k k' : String} : k' ∈ addColumn cols k ↔ k' ∈ cols ∨ k' = k := by
  unfold addColumn
  by_cases hk : k ∈ cols
  · have hin : cols.any (· == k) = true := by simpa using hk
    rw [if_pos hin]
    refine ⟨.inl, fun h => h.elim id fun heq => ?_⟩
    rw [heq]
    exact hk
  · have hout : ¬ cols.any (· == k) = true := by simpa using hk
    rw [if_neg hout]
    simp

theorem addColumn_nodup {cols : List String} (h : cols.Nodup) (k : String) : (addColumn cols k).Nodup := by
  unfold addColumn
  by_cases hk : k ∈ cols
  · have hin : cols.any (· == k) = true := by simpa using hk
    rw [if_pos hin]
    exact h
  · have hout : ¬ cols.any (· == k) = true := by simpa using hk
    rw [if_neg hout, ← List.concat_eq_append]
    exact h.concat hk

theorem columns_eq (rows : List Map) : columns rows = (rows.flatMap fun r => r.map (·.1)).foldl addColumn [] :=
  (List.foldl_flatMap ..).symm

theorem mem_addColumns {ks cols : List String} {k : String} : k ∈ ks.foldl addColumn cols ↔ k ∈ cols ∨ k ∈ ks := by
  induction ks generalizing cols with
  | nil => simp
  | cons k' ks ih =>
    rw [List.foldl_cons, ih, mem_addColumn, List.mem_cons, or_assoc]

theorem addColumns_nodup {ks cols : List String} (h : cols.Nodup) : (ks.foldl addColumn cols).Nodup := by
  induction ks generalizing cols with
  | nil => exact h
  | cons k ks ih => exact ih (addColumn_nodup h k)

theorem columns_spec (rows : List Map) :
    (columns rows).Nodup ∧ ∀ k, k ∈ columns rows ↔ ∃ r ∈ rows, k ∈ r.map (·.1) := by
  rw [columns_eq]
  exact ⟨addColumns_nodup .nil, fun k => by simp [mem_addColumns]⟩

theorem join_replaced (acc cs : List Char) :
    (join "\"\"" ((splitGo ['"'] 0 acc cs).map String.ofList)).toList = acc.reverse ++ Csv.doubled '"' cs := by
  induction cs generalizing acc with
  | nil => simp [splitGo_nil, join, Csv.doubled]
  | cons c cs ih =>
    by_cases hc : c = '"'
    · subst hc
      have hcut : splitGo ['"'] 0 acc ('"' :: cs) = acc.reverse :: splitGo ['"'] 0 [] cs := by
        simp [splitGo_cons]
      obtain ⟨more, pieces, hne⟩ := splitGo_head ['"'] 0 [] cs
      have hrest := ih []
      rw [hne] at hrest
      rw [hcut, hne, List.map_cons, List.map_cons, join, String.toList_append, String.toList_append, ← List.map_cons, hrest]
      simp [Csv.doubled]
    · have hcut : splitGo ['"'] 0 acc (c :: cs) = splitGo ['"'] 0 (c :: acc) cs := by
        simp [splitGo_cons, Ne.symm hc]
      rw [hcut, ih]
      simp [Csv.doubled, hc]

theorem toList_join (ss : List String) : (join "," ss).toList = [','].intercalate (ss.map String.toList) := by
  induction ss with
  | nil => rfl
  | cons s ss ih =>
    cases ss with
    | nil => simp [join, List.intercalate]
    | cons t ss =>
      rw [join, String.toList_append, String.toList_append, ih]
      simp [List.intercalate]

section
variable [External]

theorem csvCell_field (v : Value) : Csv.Field ',' '"' (cellText v) (csvCell v).toList := by
  unfold csvCell
  by_cases hs : (cellText v).toList.any (fun c => [',', '"', '\n', '\r'].contains c) = true
  · have htext : ("\"" ++ replace (cellText v) "\"" "\"\"" ++ "\"").toList =
        '"' :: (Csv.doubled '"' (cellText v).toList ++ ['"']) := by
      have hall : (replace (cellText v) "\"" "\"\"").toList = Csv.doubled '"' (cellText v).toList := join_replaced [] _
      simp [hall]
    rw [if_pos hs, htext]
    exact .quoted _
  · rw [if_neg hs]
    refine .bare fun c hc => ?_
    have hno : ∀ c ∈ (cellText v).toList, ¬ (c = ',' ∨ c = '"' ∨ c = '\n' ∨ c = '\r') := by
      simpa using hs
    have hspecial := hno c hc
    simp only [not_or] at hspecial
    simp [Csv.special, hspecial]

def cellsText (cells : List Value) : List Char := [','].intercalate ((cells.map csvCell).map String.toList)

theorem csvLine_toList (cells : List Value) : (csvLine cells).toList = cellsText cells ++ ['\n'] := by
  rw [csvLine, String.toList_append, toList_join]
  rfl

theorem cellsText_record {cells : List Value} (hne : cells ≠ []) :
    Csv.Record ',' '"' (cells.map cellText) (cellsText cells) := by
  have hfields : List.Forall₂ (Csv.Field ',' '"') (cells.map cellText) ((cells.map csvCell).map String.toList) := by
    rw [List.map_map, List.forall₂_map_left_iff, List.forall₂_map_right_iff, List.forall₂_same]
    exact fun v _ => csvCell_field v
  exact .of_fields hfields (by simpa using hne)

def record (cols : List String) (r : Map) : List String := cols.map fun c => cellText ((Map.get? r c).getD .null)

theorem rowsToCsv_document {rows : List Map} (hkey : ∃ r ∈ rows, r ≠ []) :
    Csv.Document ',' '"' true (columns rows :: rows.map (record (columns rows))) (rowsToCsv rows).2.toList := by
  obtain ⟨r, hr, hne⟩ := hkey
  obtain ⟨p, hp⟩ := List.exists_mem_of_ne_nil r hne
  have hcol : p.1 ∈ columns rows := ((columns_spec rows).2 p.1).mpr ⟨r, hr, List.mem_map_of_mem hp⟩
  have hcols : columns rows ≠ [] := List.ne_nil_of_mem hcol
  let cells (r : Map) : List Value := (columns rows).map fun c => (Map.get? r c).getD .null
  have hheader : Csv.Record ',' '"' (columns rows) (cellsText ((columns rows).map .string)) := by
    have hne : (columns rows).map Value.string ≠ [] := by simpa using hcols
    have hrec := cellsText_record hne
    rw [List.map_map, show cellText ∘ Value.string = id from rfl, List.map_id] at hrec
    exact hrec
  have hrow : ∀ r : Map, Csv.Record ',' '"' (record (columns rows) r) (cellsText (cells r)) := by
    intro r
    have hne : cells r ≠ [] := by simpa [cells] using hcols
    have hrec := cellsText_record hne
    rw [List.map_map] at hrec
    exact hrec
  have hrecords : List.Forall₂ (Csv.Record ',' '"') (columns rows :: rows.map (record (columns rows)))
      (cellsText ((columns rows).map .string) :: rows.map fun r => cellsText (cells r)) := by
    refine .cons hheader ?_
    rw [List.forall₂_map_left_iff, List.forall₂_map_right_iff, List.forall₂_same]
    exact fun r _ => hrow r
  have htext : ∀ (rs : List Map) (out : String), (rs.foldl (fun out r => out ++ csvLine (cells r)) out).toList =
      out.toList ++ (rs.map fun r => cellsText (cells r)).flatMap fun t => t ++ ['\n'] := by
    intro rs
    induction rs with
    | nil => simp
    | cons r rs ih =>
      intro out
      rw [List.foldl_cons, ih, String.toList_append, csvLine_toList]
      simp
  have hdoc := Csv.Document.of_records hrecords .lf (List.cons_ne_nil _ _)
  rw [List.flatMap_cons, ← csvLine_toList, ← htext] at hdoc
  exact hdoc

end

structure Page where
  rows : List (List String)
  closed : Bool

/-- The last row of a page is one empty field in quotes, with no line break after it. -/
def Page.Cut (page : Page) : Prop := page.closed = false ∧ page.rows.getLast? = some [""]

inductive Serves (job : Job) (cols : List String) : Option String → List Page → Prop
  | last {locator : Option String} {headers : List (String × String)} {body : String} {page : Page}
      (hget : job.get (job.url locator) = .ok ⟨200, headers, body⟩)
      (hbody : Csv.Document ',' '"' page.closed (cols :: page.rows) body.toList)
      (hend : ∀ l, header headers "Sforce-Locator" = some l → l = "" ∨ l = "null") : Serves job cols locator [page]
  | more {locator : Option String} {headers : List (String × String)} {body : String} {page : Page} {l : String}
      {pages : List Page} (hget : job.get (job.url locator) = .ok ⟨200, headers, body⟩)
      (hbody : Csv.Document ',' '"' page.closed (cols :: page.rows) body.toList)
      (hnext : header headers "Sforce-Locator" = some l) (hl : l ≠ "" ∧ l ≠ "null") (hpages : Serves job cols (some l) pages) :
      Serves job cols locator (page :: pages)

def Shows (cols row : List String) (line : Value) : Prop :=
  ∃ obj, line.index "row" = .object obj ∧ (∀ p ∈ cols.zip row, Map.get? obj p.1 = some (.string p.2)) ∧
    ∀ k, k ∉ cols → Map.get? obj k = none

theorem rowObject_eq (head r : List String) :
    rowObject head r = Map.ofEntries (head.zipIdx.map fun p => (p.1, .string (r[p.2]?.getD ""))) := by
  unfold rowObject Map.ofEntries Map.extend
  rw [List.foldl_map]

theorem rowLine_row (head r : List String) : (rowLine head r).index "row" = .object (rowObject head r) := by
  show (Map.get? (Map.ofEntries _) "row").getD .null = _
  rw [Map.get?_ofEntries (by simp) (by simp : ("row", Value.object (rowObject head r)) ∈ _)]
  rfl

theorem rowLine_shows {cols row : List String} (hn : cols.Nodup) (hlen : row.length = cols.length) :
    Shows cols row (rowLine cols row) := by
  refine ⟨_, rowLine_row .., fun p hp => ?_, fun k hk => ?_⟩
  · rw [rowObject_eq]
    refine Map.get?_ofEntries ?_ ?_
    · simpa [Function.comp_def] using hn
    · obtain ⟨i, hi, heq⟩ := List.getElem_of_mem hp
      rw [List.getElem_zip] at heq
      have hi' : i < cols.length := by
        rw [List.length_zip] at hi
        omega
      refine List.mem_map.mpr ⟨(cols[i], i), ?_, ?_⟩
      · exact List.mk_mem_zipIdx_iff_getElem?.mpr (List.getElem?_eq_getElem hi')
      · rw [← heq]
        simp [hlen, hi']
  · rw [rowObject_eq]
    refine Map.get?_eq_none fun e he heq => ?_
    rcases Map.mem_extend _ _ he with he | he
    · obtain ⟨p, hp, rfl⟩ := List.mem_map.mp he
      refine hk ?_
      rw [← heq]
      exact List.mem_of_getElem? (List.mem_zipIdx_iff_getElem?.mp hp)
    · cases he

theorem pageLines_document {cols : List String} {page : Page} {body : String}
    (h : Csv.Document ',' '"' page.closed (cols :: page.rows) body.toList) :
    pageLines (parseCsv body) = (kept page.closed page.rows).map (rowLine cols) := by
  rw [parseCsv_document h]
  by_cases hrows : page.rows = []
  · rw [hrows]
    unfold kept
    split <;> simp [pageLines]
  · rw [kept_cons hrows]
    rfl

def exported (cols : List String) (pages : List Page) : List Value :=
  pages.flatMap fun page => (kept page.closed page.rows).map (rowLine cols)

theorem streamFrom_serves {job : Job} {cols : List String} {locator : Option String} {pages : List Page}
    (h : Serves job cols locator pages) {fuel : Nat} (hfuel : pages.length ≤ fuel) (total : UInt64) :
    streamFrom job fuel locator total =
      (exported cols pages, some (.ok (total + UInt64.ofNat (exported cols pages).length))) := by
  induction h generalizing fuel total with
  | @last locator headers body page hget hbody hend =>
    obtain ⟨fuel, rfl⟩ := Nat.exists_eq_succ_of_ne_zero (Nat.ne_of_gt hfuel)
    have hnone : nextLocator headers = none := by
      rw [nextLocator, Option.filter_eq_none_iff]
      intro l hl
      rcases hend l hl with rfl | rfl <;> decide
    have hall : exported cols [page] = (kept page.closed page.rows).map (rowLine cols) := by simp [exported]
    rw [streamFrom, hget, hall]
    simp [pageLines_document hbody, hnone]
  | @more locator headers body page l pages hget hbody hnext hl hpages ih =>
    obtain ⟨fuel, rfl⟩ := Nat.exists_eq_succ_of_ne_zero (Nat.ne_of_gt (Nat.lt_of_lt_of_le (Nat.succ_pos _) hfuel))
    have hsome : nextLocator headers = some l := by
      rw [nextLocator, hnext, Option.filter_some]
      simp [hl]
    have hall : exported cols (page :: pages) = (kept page.closed page.rows).map (rowLine cols) ++ exported cols pages := by
      simp [exported]
    rw [streamFrom, hget, hall]
    simp [pageLines_document hbody, hsome, ih (Nat.le_of_succ_le_succ hfuel), UInt64.add_assoc]

theorem kept_sublist (closed : Bool) (rs : List (List String)) : (kept closed rs).Sublist rs := by
  unfold kept
  split
  · exact List.dropLast_sublist rs
  · exact List.Sublist.refl rs

theorem exported_length {cols : List String} {pages : List Page} :
    (exported cols pages).length ≤ (pages.flatMap Page.rows).length ∧
      ((exported cols pages).length = (pages.flatMap Page.rows).length → ∀ page ∈ pages, kept page.closed page.rows = page.rows) := by
  induction pages with
  | nil => simp [exported]
  | cons page pages ih =>
    have hle := (kept_sublist page.closed page.rows).length_le
    have hsplit : (exported cols (page :: pages)).length = (kept page.closed page.rows).length + (exported cols pages).length := by
      simp [exported]
    have hrows : ((page :: pages).flatMap Page.rows).length = page.rows.length + (pages.flatMap Page.rows).length := by
      simp
    rw [hsplit, hrows]
    refine ⟨Nat.add_le_add hle ih.1, fun heq => List.forall_mem_cons.mpr ⟨?_, ih.2 ?_⟩⟩
    · exact (kept_sublist page.closed page.rows).eq_of_length (by have := ih.1; omega)
    · have := ih.1
      omega

theorem exported_shows_iff {cols : List String} {pages : List Page} (hn : cols.Nodup)
    (hlen : ∀ page ∈ pages, ∀ row ∈ page.rows, row.length = cols.length) :
    List.Forall₂ (Shows cols) (pages.flatMap Page.rows) (exported cols pages) ↔ ∀ page ∈ pages, ¬ page.Cut := by
  constructor
  · intro h page hpage
    exact kept_eq_iff.mp (exported_length.2 h.length_eq.symm page hpage)
  · intro h
    have hkept : exported cols pages = (pages.flatMap Page.rows).map (rowLine cols) := by
      rw [List.map_flatMap]
      refine List.flatMap_congr fun page hpage => ?_
      rw [kept_eq_iff.mpr (h page hpage)]
    rw [hkept, List.forall₂_map_right_iff, List.forall₂_same]
    intro row hrow
    obtain ⟨page, hpage, hrow⟩ := List.mem_flatMap.mp hrow
    exact rowLine_shows hn (hlen page hpage row hrow)

/-- A document is read back unless it ends in an empty field in quotes that is a record of its own;
what is written is a document with all its breaks; an export has every row unless a page is cut. -/
theorem csv_faithful_iff [External] :
    (∀ closed rs (data : String), Csv.Document ',' '"' closed rs data.toList →
      (parseCsv data = rs ↔ ¬ (closed = false ∧ rs.getLast? = some [""]))) ∧
    (∀ rows : List Map, (∃ r ∈ rows, r ≠ []) → ∃ cols, (rowsToCsv rows).1 = cols ∧ cols.Nodup ∧
      (∀ k, k ∈ cols ↔ ∃ r ∈ rows, k ∈ r.map (·.1)) ∧
      Csv.Document ',' '"' true (cols :: rows.map (record cols)) (rowsToCsv rows).2.toList) ∧
    ∀ job cols pages, cols.Nodup → (∀ page ∈ pages, ∀ row ∈ page.rows, row.length = cols.length) →
      Serves job cols none pages → ∃ lines, (∀ fuel, pages.length ≤ fuel →
        streamResults job fuel = (lines, some (.ok (UInt64.ofNat lines.length)))) ∧
        (List.Forall₂ (Shows cols) (pages.flatMap Page.rows) lines ↔ ∀ page ∈ pages, ¬ page.Cut) := by
  refine ⟨fun closed rs data h => ?_, fun rows hkey => ?_, fun job cols pages hn hlen h => ?_⟩
  · rw [parseCsv_document h]
    exact kept_eq_iff
  · exact ⟨_, rfl, (columns_spec rows).1, (columns_spec rows).2, rowsToCsv_document hkey⟩
  · refine ⟨_, fun fuel hfuel => ?_, exported_shows_iff hn hlen⟩
    rw [streamResults, streamFrom_serves h hfuel, UInt64.zero_add]

theorem field_of_all {f : String} (h : (f.toList.all fun c => !Csv.special ',' '"' c) = true) : Csv.Field ',' '"' f f.toList :=
  .bare (by simpa using h)

def accounts : Job where
  base := "results"
  maxRecords := 1
  get url :=
    if url = "results?maxRecords=1" then
      .ok ⟨200, [("sforce-locator", "b")], String.ofList (['I', 'd', ',', 'N'] ++ (['\n'] ++ (['1', ',', 'x'] ++ ['\n'])))⟩
    else if url = "results?maxRecords=1&locator=b" then
      .ok ⟨200, [], String.ofList (['I', 'd', ',', 'N'] ++ (['\r', '\n'] ++ ['2', ',', '"', '"']))⟩
    else .error "curl"

theorem csv_faithful_iff_accounts :
    ∃ lines, streamResults accounts 2 = (lines, some (.ok (UInt64.ofNat lines.length))) ∧
      List.Forall₂ (Shows ["Id", "N"]) [["1", "x"], ["2", ""]] lines := by
  have hhead : Csv.Record ',' '"' ["Id", "N"] ['I', 'd', ',', 'N'] :=
    .cons (@field_of_all "Id" (by decide)) (.last (@field_of_all "N" (by decide)))
  have hone : Csv.Record ',' '"' ["1", "x"] ['1', ',', 'x'] :=
    .cons (@field_of_all "1" (by decide)) (.last (@field_of_all "x" (by decide)))
  have htwo : Csv.Record ',' '"' ["2", ""] ['2', ',', '"', '"'] :=
    .cons (@field_of_all "2" (by decide)) (.last (.quoted ""))
  have hfirst : accounts.get (accounts.url none) = .ok ⟨200, [("sforce-locator", "b")],
      String.ofList (['I', 'd', ',', 'N'] ++ (['\n'] ++ (['1', ',', 'x'] ++ ['\n'])))⟩ := by
    have heq : accounts.url none = "results?maxRecords=1" := by decide
    rw [heq]
    rfl
  have hsecond : accounts.get (accounts.url (some "b")) = .ok ⟨200, [],
      String.ofList (['I', 'd', ',', 'N'] ++ (['\r', '\n'] ++ ['2', ',', '"', '"']))⟩ := by
    have heq : accounts.url (some "b") = "results?maxRecords=1&locator=b" := by decide
    rw [heq]
    rfl
  have hserves : Serves accounts ["Id", "N"] none [⟨[["1", "x"]], true⟩, ⟨[["2", ""]], false⟩] := by
    refine .more hfirst ?_ rfl (by decide) (.last hsecond ?_ fun l hl => by cases hl)
    · rw [String.toList_ofList]
      exact .cons hhead .lf (.closed hone .lf)
    · rw [String.toList_ofList]
      exact .cons hhead .crlf (.unclosed htwo (List.cons_ne_nil _ _))
  obtain ⟨lines, hrun, hshows⟩ := (@csv_faithful_iff ascii).2.2 accounts _ _ (by decide) (by decide) hserves
  exact ⟨lines, hrun 2 (Nat.le_refl 2), hshows.mpr (by simp [Page.Cut])⟩

/-- A last record of one empty field is not read. -/
theorem quoted_empty_field_is_dropped :
    parseCsv "a\n\"\"" = [["a"]] ∧
      ¬ ∀ closed rs (data : String), Csv.Document ',' '"' closed rs data.toList → parseCsv data = rs := by
  have hread : parseCsv "a\n\"\"" = [["a"]] := by decide
  refine ⟨hread, fun hall => ?_⟩
  have hdoc : Csv.Document ',' '"' false [["a"], [""]] (['a'] ++ (['\n'] ++ ['"', '"'])) :=
    .cons (.last (@field_of_all "a" (by decide))) .lf (.unclosed (.last (.quoted "")) (List.cons_ne_nil _ _))
  have heq := hall _ _ "a\n\"\"" hdoc
  rw [hread] at heq
  cases heq

end Vejas.Salesforce
