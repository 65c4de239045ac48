import Mathlib.Data.List.Forall2

/-! Records of text fields as lines: a field stands bare or in quotes, a mark goes between two
fields and a break after a record. One list of records can be written in many ways. -/

namespace Csv
variable (sep quote : Char)

def special (c : Char) : Bool := c == sep || c == quote || c == '\n' || c == '\r'

def doubled (cs : List Char) : List Char := cs.flatMap fun c => if c = quote then [c, c] else [c]

inductive Field : String → List Char → Prop
  | bare {f : String} (h : ∀ c ∈ f.toList, special sep quote c = false) : Field f f.toList
  | quoted (f : String) : Field f (quote :: (doubled quote f.toList ++ [quote]))

inductive Record : List String → List Char → Prop
  | last {f : String} {t : List Char} (h : Field sep quote f t) : Record [f] t
  | cons {f : String} {t : List Char} {fs : List String} {u : List Char} (h : Field sep quote f t)
      (hs : Record fs u) : Record (f :: fs) (t ++ sep :: u)

inductive Break : List Char → Prop
  | lf : Break ['\n']
  | crlf : Break ['\r', '\n']

/-- The records in order. The last one may go without its break, if it leaves something to read. -/
inductive Document : Bool → List (List String) → List Char → Prop
  | closed {r : List String} {t b : List Char} (hr : Record sep quote r t) (hb : Break b) : Document true [r] (t ++ b)
  | unclosed {r : List String} {t : List Char} (hr : Record sep quote r t) (ht : t ≠ []) : Document false [r] t
  | cons {closed : Bool} {r : List String} {t b : List Char} {rs : List (List String)} {u : List Char}
      (hr : Record sep quote r t) (hb : Break b) (hrs : Document closed rs u) :
      Document closed (r :: rs) (t ++ (b ++ u))

variable {sep quote}

theorem Record.ne_nil {fs : List String} {t : List Char} (h : Record sep quote fs t) : fs ≠ [] := by
  cases h <;> exact List.cons_ne_nil _ _

theorem Document.ne_nil {closed : Bool} {rs : List (List String)} {t : List Char} (h : Document sep quote closed rs t) :
    rs ≠ [] := by
  cases h <;> exact List.cons_ne_nil _ _

theorem Record.of_fields {fs : List String} {ts : List (List Char)} (h : List.Forall₂ (Field sep quote) fs ts)
    (hne : fs ≠ []) : Record sep quote fs ([sep].intercalate ts) := by
  induction h with
  | nil => exact absurd rfl hne
  | @cons f t fs ts hf hfs ih =>
    cases hfs with
    | nil =>
      have hone : [sep].intercalate [t] = t := by simp [List.intercalate]
      rw [hone]
      exact .last hf
    | @cons g u fs ts hg hrest =>
      have hmore : [sep].intercalate (t :: u :: ts) = t ++ sep :: [sep].intercalate (u :: ts) := by
        simp [List.intercalate]
      rw [hmore]
      exact .cons hf (ih (List.cons_ne_nil _ _))

theorem Document.of_records {rs : List (List String)} {ts : List (List Char)} {b : List Char}
    (h : List.Forall₂ (Record sep quote) rs ts) (hb : Break b) (hne : rs ≠ []) :
    Document sep quote true rs (ts.flatMap fun t => t ++ b) := by
  induction h with
  | nil => exact absurd rfl hne
  | @cons r t rs ts hr hrs ih =>
    rw [List.flatMap_cons]
    cases hrs with
    | nil =>
      rw [List.flatMap_nil, List.append_nil]
      exact .closed hr hb
    | cons hr' hrs' =>
      rw [List.append_assoc]
      exact .cons hr hb (ih (List.cons_ne_nil _ _))

end Csv
