import Vejas.Json.Reading
import Vejas.Vjs.Occurrence
import Vejas.Vjs.Rules

/-! When a sentence of the rules view determines its guard. A sentence is read back from the left:
a word ends at a point, a bracket or a blank, and a quoted text at the next quotation mark. -/

namespace Vejas.Vjs
open Json Rust

/-- What can be seen in the text of an operand; a number with a point looks like a field of a number. -/
inductive Reading
  | word (cs : List Char)
  | quoted (cs : List Char)
  | field (base : Reading) (name : List Char)
  | index (base key : Reading)

def endsWord (c : Char) : Bool := c == '.' || c == '[' || c == ']' || c == ' '

mutual

def readAtom : Nat → List Char → Option (Reading × List Char)
  | 0, _ => none
  | fuel + 1, '"' :: cs =>
    readSuffixes fuel (.quoted (cs.takeWhile (· != '"'))) ((cs.dropWhile (· != '"')).drop 1)
  | fuel + 1, cs => readSuffixes fuel (.word (cs.takeWhile (!endsWord ·))) (cs.dropWhile (!endsWord ·))

def readSuffixes : Nat → Reading → List Char → Option (Reading × List Char)
  | 0, _, _ => none
  | fuel + 1, r, '.' :: cs =>
    readSuffixes fuel (.field r (cs.takeWhile (!endsWord ·))) (cs.dropWhile (!endsWord ·))
  | fuel + 1, r, '[' :: cs =>
    (readAtom fuel cs).bind fun found => readSuffixes fuel (.index r found.1) (found.2.drop 1)
  | _ + 1, r, cs => some (r, cs)

end

def Settles {α : Type} (m : Nat → α) (x : α) : Prop := ∃ least, ∀ fuel, least ≤ fuel → m fuel = x

theorem Settles.unique {α : Type} {m : Nat → α} {x y : α} (h : Settles m x) (h' : Settles m y) : x = y := by
  obtain ⟨n, hn⟩ := h
  obtain ⟨n', hn'⟩ := h'
  rw [← hn (max n n') (Nat.le_max_left _ _), hn' (max n n') (Nat.le_max_right _ _)]

theorem Settles.succ {α : Type} {m m' : Nat → α} {x : α} (h : Settles m x) (hm : ∀ fuel, m' (fuel + 1) = m fuel) :
    Settles m' x := by
  obtain ⟨n, hn⟩ := h
  refine ⟨n + 1, fun fuel hfuel => ?_⟩
  obtain ⟨k, rfl⟩ : ∃ k, fuel = k + 1 := ⟨fuel - 1, by omega⟩
  rw [hm, hn k (by omega)]

def Ended (cs : List Char) : Prop := ∀ c, cs.head? = some c → endsWord c = true

theorem ended_cons {c : Char} {cs : List Char} (h : endsWord c = true) : Ended (c :: cs) := by
  intro c' hc
  cases hc
  exact h

theorem takeWhile_word {w rest : List Char} (hw : ∀ c ∈ w, endsWord c = false) (hr : Ended rest) :
    (w ++ rest).takeWhile (!endsWord ·) = w ∧ (w ++ rest).dropWhile (!endsWord ·) = rest := by
  have hall : ∀ c ∈ w, (!endsWord c) = true := fun c hc => by rw [hw c hc]; rfl
  rw [List.takeWhile_append_of_pos hall, List.dropWhile_append_of_pos hall]
  cases rest with
  | nil => simp
  | cons c rest =>
    have hc := hr c rfl
    simp [hc]

theorem takeWhile_quoted {w rest : List Char} (hw : '"' ∉ w) :
    (w ++ '"' :: rest).takeWhile (· != '"') = w ∧ (w ++ '"' :: rest).dropWhile (· != '"') = '"' :: rest := by
  have hall : ∀ c ∈ w, (c != '"') = true := by
    intro c hc
    rw [bne_iff_ne]
    rintro rfl
    exact hw hc
  rw [List.takeWhile_append_of_pos hall, List.dropWhile_append_of_pos hall]
  simp

theorem read_word {w rest : List Char} {x : Option (Reading × List Char)} (hw : ∀ c ∈ w, endsWord c = false)
    (hq : w.head? ≠ some '"') (hr : Ended rest) (h : Settles (fun fuel => readSuffixes fuel (.word w) rest) x) :
    Settles (fun fuel => readAtom fuel (w ++ rest)) x := by
  refine h.succ fun fuel => ?_
  have hhead : ∀ cs, w ++ rest ≠ '"' :: cs := by
    intro cs heq
    cases w with
    | nil => exact absurd (hr '"' (by rw [← List.nil_append rest, heq]; rfl)) (by decide)
    | cons c w =>
      obtain ⟨rfl, -⟩ := List.cons.inj heq
      exact hq rfl
  obtain ⟨htake, hdrop⟩ := takeWhile_word hw hr
  rw [readAtom, htake, hdrop]
  exact hhead

theorem read_quoted {w rest : List Char} {x : Option (Reading × List Char)} (hw : '"' ∉ w)
    (h : Settles (fun fuel => readSuffixes fuel (.quoted w) rest) x) :
    Settles (fun fuel => readAtom fuel ('"' :: (w ++ '"' :: rest))) x := by
  refine h.succ fun fuel => ?_
  obtain ⟨htake, hdrop⟩ := @takeWhile_quoted w rest hw
  rw [readAtom, htake, hdrop]
  rfl

theorem read_field {r : Reading} {w rest : List Char} {x : Option (Reading × List Char)} (hw : ∀ c ∈ w, endsWord c = false)
    (hr : Ended rest) (h : Settles (fun fuel => readSuffixes fuel (.field r w) rest) x) :
    Settles (fun fuel => readSuffixes fuel r ('.' :: (w ++ rest))) x := by
  refine h.succ fun fuel => ?_
  obtain ⟨htake, hdrop⟩ := takeWhile_word hw hr
  rw [readSuffixes, htake, hdrop]

theorem read_index {r key : Reading} {cs rest : List Char} {x : Option (Reading × List Char)}
    (hkey : Settles (fun fuel => readAtom fuel cs) (some (key, ']' :: rest)))
    (h : Settles (fun fuel => readSuffixes fuel (.index r key) rest) x) :
    Settles (fun fuel => readSuffixes fuel r ('[' :: cs)) x := by
  obtain ⟨n, hn⟩ := hkey
  obtain ⟨n', hn'⟩ := h
  refine ⟨max n n' + 1, fun fuel hfuel => ?_⟩
  obtain ⟨k, rfl⟩ : ∃ k, fuel = k + 1 := ⟨fuel - 1, by omega⟩
  have hk : readAtom k cs = some (key, ']' :: rest) := hn k (by omega)
  have hk' := hn' k (by omega)
  show (readAtom k cs).bind _ = x
  rw [hk]
  exact hk'

theorem read_done {r : Reading} {rest : List Char} (h : ∀ c, rest.head? = some c → c = ' ' ∨ c = ']') :
    Settles (fun fuel => readSuffixes fuel r rest) (some (r, rest)) := by
  refine ⟨1, fun fuel hfuel => ?_⟩
  obtain ⟨k, rfl⟩ : ∃ k, fuel = k + 1 := ⟨fuel - 1, by omega⟩
  cases rest with
  | nil => rfl
  | cons c rest =>
    rcases h c rfl with rfl | rfl
    · rfl
    · rfl

/-- The text of a number as far as the reading depends on it: one point at most, and a digit after it. -/
structure NumberText (cs : List Char) : Prop where
  opens : ∃ c rest, cs = c :: rest ∧ (c.isDigit = true ∨ c = '-')
  chars : ∀ c ∈ cs, c.isDigit = true ∨ c = '-' ∨ c = '.' ∨ c = 'e' ∨ c = '+'
  point : ∀ as bs, cs = as ++ '.' :: bs → '.' ∉ bs ∧ ∃ c rest, bs = c :: rest ∧ c.isDigit = true

structure NameText (cs : List Char) : Prop where
  opens : ∃ c rest, cs = c :: rest ∧ (c.isAlpha = true ∨ c = '_')
  chars : ∀ c ∈ cs, c.isAlphanum = true ∨ c = '_'

def plainReading (cs : List Char) : Reading :=
  match splitOnceChars '.' cs with
  | some (as, bs) => .field (.word as) bs
  | none => .word cs

theorem endsWord_digit {c : Char} (h : c.isDigit = true) : endsWord c = false := by
  cases he : endsWord c with
  | false => rfl
  | true =>
    have hc : c = '.' ∨ c = '[' ∨ c = ']' ∨ c = ' ' := by simpa [endsWord, or_assoc] using he
    rcases hc with rfl | rfl | rfl | rfl <;> cases h

theorem endsWord_name {c : Char} (h : c.isAlphanum = true ∨ c = '_') : endsWord c = false := by
  cases he : endsWord c with
  | false => rfl
  | true =>
    have hc : c = '.' ∨ c = '[' ∨ c = ']' ∨ c = ' ' := by simpa [endsWord, or_assoc] using he
    rcases hc with rfl | rfl | rfl | rfl
    all_goals
      rcases h with h | h
      · cases h
      · exact absurd h (by decide)

theorem plainReading_word {w : List Char} (h : '.' ∉ w) : plainReading w = .word w := by
  unfold plainReading
  cases hsplit : splitOnceChars '.' w with
  | none => rfl
  | some p =>
    obtain ⟨hw, -⟩ := splitOnceChars_some hsplit
    exact absurd (by rw [hw]; simp) h

theorem NumberText.word {cs : List Char} (h : NumberText cs) {c : Char} (hc : c ∈ cs) (hp : c ≠ '.') : endsWord c = false := by
  rcases h.chars c hc with hd | rfl | rfl | rfl | rfl
  · exact endsWord_digit hd
  · rfl
  · exact absurd rfl hp
  · rfl
  · rfl

theorem read_number {cs rest : List Char} {x : Option (Reading × List Char)} (hn : NumberText cs) (hr : Ended rest)
    (h : Settles (fun fuel => readSuffixes fuel (plainReading cs) rest) x) :
    Settles (fun fuel => readAtom fuel (cs ++ rest)) x := by
  obtain ⟨c, cs', hopen, hc⟩ := hn.opens
  have hquote : c ≠ '"' := by
    rintro rfl
    rcases hc with hc | hc
    · cases hc
    · exact absurd hc (by decide)
  unfold plainReading at h
  cases hsplit : splitOnceChars '.' cs with
  | none =>
    rw [hsplit] at h
    have hnone := splitOnceChars_none hsplit
    refine read_word (fun c hc => hn.word hc ?_) ?_ hr h
    · rintro rfl
      exact hnone hc
    · rw [hopen]
      exact fun he => hquote (Option.some.inj he)
  | some p =>
    obtain ⟨as, bs⟩ := p
    rw [hsplit] at h
    obtain ⟨hcs, hsep⟩ := splitOnceChars_some hsplit
    obtain ⟨hbs, -⟩ := hn.point as bs hcs
    have hfield := read_field (fun c hc => hn.word (by rw [hcs]; simp [hc]) fun he => hbs (he ▸ hc)) hr h
    rw [hcs, List.append_assoc]
    refine read_word (fun c hc => hn.word (by rw [hcs]; simp [hc]) fun he => hsep (he ▸ hc)) ?_ (ended_cons rfl) hfield
    cases as with
    | nil =>
      rw [hcs] at hopen
      cases hopen
      rcases hc with hc | hc
      · cases hc
      · exact absurd hc (by decide)
    | cons a as =>
      rw [hcs] at hopen
      cases hopen
      exact fun he => hquote (Option.some.inj he)

section
variable [External]

def reading : Expr → Reading
  | .var n => .word n.toList
  | .lit (.string s) => .quoted s.toList
  | .lit v => plainReading v.render.toList
  | .field b n _ => .field (reading b) n.toList
  | .index b k => .index (reading b) (reading k)
  | _ => .word []

def LegibleLiteral : Value → Prop
  | .string s => '"' ∉ s.toList
  | .number n => NumberText n.render.toList
  | .array _ => False
  | .object _ => False
  | _ => True

def Legible : Expr → Prop
  | .var n => NameText n.toList
  | .lit v => LegibleLiteral v
  | .field b n _ => Legible b ∧ ∀ c ∈ n.toList, endsWord c = false
  | .index b k => Legible b ∧ Legible k
  | _ => True

def literalWords : List (List Char) := ["null".toList, "true".toList, "false".toList]

theorem render_keyword {v : Value} (h : v = .null ∨ ∃ b, v = .bool b) : v.render.toList ∈ literalWords := by
  rcases h with rfl | ⟨_ | _, rfl⟩
  · simp [Value.render, literalWords]
  · simp [Value.render, literalWords]
  · simp [Value.render, literalWords]

theorem read_keyword {v : Value} {rest : List Char} {x : Option (Reading × List Char)}
    (hv : v = .null ∨ ∃ b, v = .bool b) (hr : Ended rest)
    (h : Settles (fun fuel => readSuffixes fuel (plainReading v.render.toList) rest) x) :
    Settles (fun fuel => readAtom fuel (v.render.toList ++ rest)) x := by
  have hword : ∀ w ∈ literalWords, (w.all fun c => !endsWord c) = true ∧ w.head? ≠ some '"' ∧ '.' ∉ w := by decide
  obtain ⟨hall, hquote, hpoint⟩ := hword _ (render_keyword hv)
  rw [plainReading_word hpoint] at h
  exact read_word (by simpa using hall) hquote hr h

theorem read_atom : ∀ {a : Expr} {t : String} {rest : List Char} {x : Option (Reading × List Char)}, Legible a →
    renderAtom a = some t → Ended rest → Settles (fun fuel => readSuffixes fuel (reading a) rest) x →
    Settles (fun fuel => readAtom fuel (t.toList ++ rest)) x
  | .var n, t, rest, x, hl, ht, hr, h => by
    cases ht
    obtain ⟨c, cs, hopen, hc⟩ := hl.opens
    refine read_word (fun c hc => endsWord_name (hl.chars c hc)) ?_ hr h
    rw [hopen]
    intro he
    cases he
    rcases hc with hc | hc
    · cases hc
    · exact absurd hc (by decide)
  | .lit (.string s), t, rest, x, hl, ht, hr, h => by
    cases ht
    have htext : ("\"" ++ s ++ "\"").toList ++ rest = '"' :: (s.toList ++ '"' :: rest) := by simp
    rw [htext]
    exact read_quoted hl h
  | .lit .null, t, rest, x, hl, ht, hr, h => by
    cases ht
    exact read_keyword (.inl rfl) hr h
  | .lit (.bool b), t, rest, x, hl, ht, hr, h => by
    cases ht
    exact read_keyword (.inr ⟨b, rfl⟩) hr h
  | .lit (.number n), t, rest, x, hl, ht, hr, h => by
    cases ht
    exact read_number hl hr h
  | .field b n safe, t, rest, x, hl, ht, hr, h => by
    cases safe with
    | true => cases ht
    | false =>
      obtain ⟨tb, hb, ht⟩ := Option.bind_eq_some_iff.mp ht
      cases ht
      have htext : (tb ++ "." ++ n).toList ++ rest = tb.toList ++ '.' :: (n.toList ++ rest) := by simp
      rw [htext]
      exact read_atom hl.1 hb (ended_cons rfl) (read_field hl.2 hr h)
  | .index b k, t, rest, x, hl, ht, hr, h => by
    obtain ⟨tb, hb, ht⟩ := Option.bind_eq_some_iff.mp ht
    obtain ⟨tk, hk, ht⟩ := Option.bind_eq_some_iff.mp ht
    cases ht
    have htext : (tb ++ "[" ++ tk ++ "]").toList ++ rest = tb.toList ++ '[' :: (tk.toList ++ ']' :: rest) := by simp
    rw [htext]
    have hdone := @read_done (reading k) (']' :: rest) (by simp)
    have hkey := read_atom hl.2 hk (ended_cons rfl) hdone
    exact read_atom hl.1 hb (ended_cons rfl) (read_index hkey h)

def Distinct : Expr → Prop
  | .var n => n.toList ∉ literalWords
  | .field b n _ => Distinct b ∧ ∀ k, b = .lit (.number k) → ∀ c, n.toList.head? = some c → c.isDigit = false
  | .index b k => Distinct b ∧ Distinct k
  | _ => True

/-- An operand that the rules view shows, of which every part can be told from the others. -/
structure Clear (e : Expr) : Prop where
  shown : ∃ t, renderAtom e = some t
  legible : Legible e
  distinct : Distinct e

theorem Clear.base {b : Expr} {n : String} {safe : Bool} (h : Clear (.field b n safe)) : Clear b := by
  obtain ⟨t, ht⟩ := h.shown
  cases safe with
  | true => cases ht
  | false =>
    obtain ⟨tb, hb, -⟩ := Option.bind_eq_some_iff.mp ht
    exact ⟨⟨tb, hb⟩, h.legible.1, h.distinct.1⟩

theorem Clear.plain {b : Expr} {n : String} {safe : Bool} (h : Clear (.field b n safe)) : safe = false := by
  obtain ⟨t, ht⟩ := h.shown
  cases safe with
  | true => cases ht
  | false => rfl

theorem Clear.indexed {b k : Expr} (h : Clear (.index b k)) : Clear b ∧ Clear k := by
  obtain ⟨t, ht⟩ := h.shown
  obtain ⟨tb, hb, ht⟩ := Option.bind_eq_some_iff.mp ht
  obtain ⟨tk, hk, -⟩ := Option.bind_eq_some_iff.mp ht
  exact ⟨⟨⟨tb, hb⟩, h.legible.1, h.distinct.1⟩, ⟨tk, hk⟩, h.legible.2, h.distinct.2⟩

inductive Seen : Reading → Expr → Prop
  | name {w n} : w = n.toList → NameText w → w ∉ literalWords → Seen (.word w) (.var n)
  | keyword {w v} : w = v.render.toList → (v = .null ∨ ∃ b, v = .bool b) → Seen (.word w) (.lit v)
  | whole {w} {k : Number} : w = k.render.toList → NumberText w → Seen (.word w) (.lit (.number k))
  | decimal {as bs} {k : Number} : as ++ '.' :: bs = k.render.toList → NumberText (as ++ '.' :: bs) →
      Seen (.field (.word as) bs) (.lit (.number k))
  | quoted {w s} : w = s.toList → Seen (.quoted w) (.lit (.string s))
  | field {r w b n} : w = n.toList → Seen r b →
      (∀ k, b = .lit (.number k) → ∀ c, n.toList.head? = some c → c.isDigit = false) → Seen (.field r w) (.field b n false)
  | index {r r' b k} : Seen r b → Seen r' k → Seen (.index r r') (.index b k)

theorem seen_number {k : Number} (h : NumberText k.render.toList) : Seen (plainReading k.render.toList) (.lit (.number k)) := by
  unfold plainReading
  cases hsplit : splitOnceChars '.' k.render.toList with
  | none => exact .whole rfl h
  | some p =>
    obtain ⟨hcs, -⟩ := splitOnceChars_some hsplit
    exact .decimal hcs.symm (hcs ▸ h)

theorem seen_keyword {v : Value} (h : v = .null ∨ ∃ b, v = .bool b) : Seen (plainReading v.render.toList) (.lit v) := by
  have hpoint : ∀ w ∈ literalWords, '.' ∉ w := by decide
  rw [plainReading_word (hpoint _ (render_keyword h))]
  exact .keyword rfl h

theorem Clear.seen : ∀ {e : Expr}, Clear e → Seen (reading e) e
  | .var _, h => .name rfl h.legible h.distinct
  | .lit .null, _ => seen_keyword (.inl rfl)
  | .lit (.bool b), _ => seen_keyword (.inr ⟨b, rfl⟩)
  | .lit (.number _), h => seen_number h.legible
  | .lit (.string _), _ => .quoted rfl
  | .lit (.array _), h => h.legible.elim
  | .lit (.object _), h => h.legible.elim
  | .field _ _ safe, h => by
    cases h.plain
    exact .field rfl h.base.seen h.distinct.2
  | .index _ _, h => .index h.indexed.1.seen h.indexed.2.seen
  | .fString _, h => nomatch h.shown.choose_spec
  | .doc _, h => nomatch h.shown.choose_spec
  | .array _, h => nomatch h.shown.choose_spec
  | .projection _, h => nomatch h.shown.choose_spec
  | .filter _ _, h => nomatch h.shown.choose_spec
  | .call _ _, h => nomatch h.shown.choose_spec
  | .invoke _ _, h => nomatch h.shown.choose_spec
  | .unary _ _, h => nomatch h.shown.choose_spec
  | .bin _ _ _, h => nomatch h.shown.choose_spec

omit [External] in
theorem not_digit_of_alpha {c : Char} (h : c.isAlpha = true) : c.isDigit = false := by
  rw [Bool.eq_false_iff]
  intro hd
  have hdigit := (Char.isDigit_iff_toNat.mp hd).2
  have halpha : (decide ('A'.val ≤ c.val ∧ c.val ≤ 'Z'.val) ||
      (decide ('a'.val ≤ c.val) && decide (c.val ≤ 'z'.val))) = true := h
  rw [Bool.or_eq_true, Bool.and_eq_true, decide_eq_true_iff, decide_eq_true_iff] at halpha
  rcases halpha with ⟨hA, -⟩ | ⟨ha, -⟩
  · exact absurd (Nat.le_trans (UInt32.le_iff_toNat_le.mp hA) hdigit) (by decide)
  · exact absurd (Nat.le_trans (UInt32.le_iff_toNat_le.mp ha) hdigit) (by decide)

omit [External] in
theorem NameText.not_number {w : List Char} (h : NameText w) : ¬ NumberText w := by
  intro h'
  obtain ⟨c, cs, rfl, hc⟩ := h.opens
  obtain ⟨c', cs', heq, hc'⟩ := h'.opens
  cases heq
  rcases hc with hc | rfl
  · rcases hc' with hc' | rfl
    · rw [not_digit_of_alpha hc] at hc'
      cases hc'
    · cases hc
  · rcases hc' with hc' | hc'
    · cases hc'
    · exact absurd hc' (by decide)

omit [External] in
theorem not_number_of_literalWord {w : List Char} (h : w ∈ literalWords) : ¬ NumberText w := by
  intro h'
  obtain ⟨c, cs, rfl, hc⟩ := h'.opens
  have hfirst : ∀ w ∈ literalWords, ∀ c, w.head? = some c → c.isDigit = false ∧ c ≠ '-' := by
    intro w hw c hc
    have hin : w = "null".toList ∨ w = "true".toList ∨ w = "false".toList := by simpa [literalWords] using hw
    rcases hin with rfl | rfl | rfl
    all_goals
      cases hc
      decide
  obtain ⟨hdigit, hminus⟩ := hfirst _ h c rfl
  rcases hc with hc | hc
  · rw [hdigit] at hc
    cases hc
  · exact hminus hc

theorem keyword_inj {v v' : Value} (h : v = .null ∨ ∃ b, v = .bool b) (h' : v' = .null ∨ ∃ b, v' = .bool b)
    (heq : v.render.toList = v'.render.toList) : v = v' := by
  rw [String.toList_inj] at heq
  rcases h with rfl | ⟨_ | _, rfl⟩
  all_goals
    rcases h' with rfl | ⟨_ | _, rfl⟩
    all_goals
      first
      | rfl
      | exact absurd heq (by simp [Value.render])

omit [External] in
theorem NumberText.front {as bs : List Char} (h : NumberText (as ++ '.' :: bs)) : NumberText as where
  opens := by
    obtain ⟨c, cs, heq, hc⟩ := h.opens
    cases as with
    | nil =>
      cases heq
      rcases hc with hc | hc
      · cases hc
      · exact absurd hc (by decide)
    | cons a as =>
      cases heq
      exact ⟨_, _, rfl, hc⟩
  chars c hc := h.chars c (List.mem_append_left _ hc)
  point as' bs' heq := by
    have hin := (h.point as' (bs' ++ '.' :: bs) (by rw [heq, List.append_assoc]; rfl)).1
    exact absurd (by simp) hin

theorem Seen.not_decimal {as bs : List Char} {b : Expr} {n : String} (hb : Seen (.word as) b) (hw : bs = n.toList)
    (hnumber : NumberText (as ++ '.' :: bs))
    (hdigit : ∀ k, b = .lit (.number k) → ∀ c, n.toList.head? = some c → c.isDigit = false) : False := by
  cases hb with
  | name _ hname _ => exact hname.not_number hnumber.front
  | keyword hw' hv => exact not_number_of_literalWord (hw' ▸ render_keyword hv) hnumber.front
  | whole _ _ =>
    obtain ⟨-, c, rest, hbs, hc⟩ := hnumber.point as bs rfl
    have hfalse := hdigit _ rfl c (by rw [← hw, hbs]; rfl)
    rw [hfalse] at hc
    cases hc

theorem Seen.unique {r : Reading} {a b : Expr} (ha : Seen r a) (hb : Seen r b)
    (hnum : ∀ k k', Occurs (.lit (.number k)) a → Occurs (.lit (.number k')) b → k.render = k'.render → k = k') : a = b := by
  induction ha generalizing b with
  | name hw hname hword =>
    cases hb with
    | name hw' _ _ => rw [String.toList_inj.mp (hw.symm.trans hw')]
    | keyword hw' hv => exact absurd (hw' ▸ render_keyword hv) hword
    | whole _ hnumber => exact absurd hnumber hname.not_number
  | keyword hw hv =>
    cases hb with
    | name hw' _ hword => exact absurd (hw ▸ render_keyword hv) hword
    | keyword hw' hv' => rw [keyword_inj hv hv' (hw.symm.trans hw')]
    | whole _ hnumber => exact absurd hnumber (not_number_of_literalWord (hw ▸ render_keyword hv))
  | whole hw hnumber =>
    cases hb with
    | name _ hname _ => exact absurd hnumber hname.not_number
    | keyword hw' hv => exact absurd hnumber (not_number_of_literalWord (hw' ▸ render_keyword hv))
    | whole hw' _ => rw [hnum _ _ .refl .refl (String.toList_inj.mp (hw.symm.trans hw'))]
  | decimal hw hnumber =>
    cases hb with
    | decimal hw' _ => rw [hnum _ _ .refl .refl (String.toList_inj.mp (hw.symm.trans hw'))]
    | field hw' hbase hdigit => exact (hbase.not_decimal hw' hnumber hdigit).elim
  | quoted hw =>
    cases hb with
    | quoted hw' => rw [String.toList_inj.mp (hw.symm.trans hw')]
  | field hw hbase hdigit ih =>
    cases hb with
    | decimal hw' hnumber => exact (hbase.not_decimal hw hnumber hdigit).elim
    | field hw' hbase' _ =>
      rw [ih hbase' fun k k' hk hk' => hnum k k' (hk.tail .fieldBase) (hk'.tail .fieldBase),
        String.toList_inj.mp (hw.symm.trans hw')]
  | index _ _ ih ih' =>
    cases hb with
    | index hbase hkey =>
      rw [ih hbase fun k k' hk hk' => hnum k k' (hk.tail .indexBase) (hk'.tail .indexBase),
        ih' hkey fun k k' hk hk' => hnum k k' (hk.tail .indexKey) (hk'.tail .indexKey)]

/-- What is documented of the printer of floats, on the floats it is used for: the text is that of a number
with a point or an exponent, and two floats have two texts. -/
structure PrintsFloats (used : Float → Prop) : Prop where
  text : ∀ x, used x → NumberText (External.formatFinite x).toList
  real : ∀ x, used x → '.' ∈ (External.formatFinite x).toList ∨ 'e' ∈ (External.formatFinite x).toList
  inj : ∀ x y, used x → used y → External.formatFinite x = External.formatFinite y → x = y

omit [External] in
theorem isDigit_of_toDigits {n : Nat} {c : Char} (h : c ∈ Nat.toDigits 10 n) : c.isDigit = true :=
  Nat.isDigit_of_mem_toDigits (by decide) (by decide) h

omit [External] in
theorem numberText_digits {cs : List Char} (hopen : ∃ c rest, cs = c :: rest ∧ (c.isDigit = true ∨ c = '-'))
    (h : ∀ c ∈ cs, c.isDigit = true ∨ c = '-') : NumberText cs where
  opens := hopen
  chars c hc := (h c hc).imp id .inl
  point as bs heq := by
    rcases h '.' (by rw [heq]; simp) with hc | hc
    · cases hc
    · exact absurd hc (by decide)

theorem toList_posInt (n : UInt64) : (Number.posInt n).render.toList = Nat.toDigits 10 n.toNat := by
  simp [Number.render]

theorem toList_negInt (n : Int64) (h : n < 0) :
    (Number.negInt n h).render.toList = '-' :: Nat.toDigits 10 (-n.toInt).toNat := chars_negInt n h

theorem numberText_render {used : Float → Prop} (hf : PrintsFloats used) {k : Number}
    (hk : ∀ x hx, k = .float x hx → used x) : NumberText k.render.toList := by
  cases k with
  | posInt n =>
    rw [toList_posInt]
    obtain ⟨c, cs, hcs, hc⟩ := toDigits_cons n.toNat
    exact numberText_digits ⟨c, cs, hcs, .inl hc⟩ fun c hc => .inl (isDigit_of_toDigits hc)
  | negInt n h =>
    rw [toList_negInt]
    refine numberText_digits ⟨_, _, rfl, .inr rfl⟩ fun c hc => ?_
    rcases List.mem_cons.mp hc with rfl | hc
    · exact .inr rfl
    · exact .inl (isDigit_of_toDigits hc)
  | float x hx => exact hf.text x (hk x hx rfl)

theorem integer_text {k : Number} (hk : ∀ x hx, k ≠ .float x hx) : '.' ∉ k.render.toList ∧ 'e' ∉ k.render.toList := by
  have hdigits : ∀ n, '.' ∉ Nat.toDigits 10 n ∧ 'e' ∉ Nat.toDigits 10 n :=
    fun _ => ⟨fun h => (nomatch isDigit_of_toDigits h), fun h => (nomatch isDigit_of_toDigits h)⟩
  cases k with
  | posInt n =>
    rw [toList_posInt]
    exact hdigits _
  | negInt n h =>
    rw [toList_negInt]
    obtain ⟨hpoint, hexp⟩ := hdigits (-n.toInt).toNat
    exact ⟨by simp [hpoint], by simp [hexp]⟩
  | float x hx => exact absurd rfl (hk x hx)

omit [External] in
theorem toDigits_inj {m n : Nat} (h : Nat.toDigits 10 m = Nat.toDigits 10 n) : m = n := by
  rw [← Nat.ofDigitChars_ten_toDigits (n := m), h, Nat.ofDigitChars_ten_toDigits]

theorem float_text_ne {used : Float → Prop} (hf : PrintsFloats used) {x : Float} (hx : used x) {k : Number}
    (hk : ∀ y hy, k ≠ .float y hy) : External.formatFinite x ≠ k.render := by
  intro heq
  obtain ⟨hpoint, hexp⟩ := integer_text hk
  rw [← heq] at hpoint hexp
  exact (hf.real x hx).elim hpoint hexp

theorem number_unique {used : Float → Prop} (hf : PrintsFloats used) {k k' : Number}
    (hk : ∀ x hx, k = .float x hx → used x) (hk' : ∀ x hx, k' = .float x hx → used x) (h : k.render = k'.render) : k = k' := by
  have htext : k.render.toList = k'.render.toList := congrArg String.toList h
  have hminus : ∀ {m n : Nat}, Nat.toDigits 10 m ≠ '-' :: Nat.toDigits 10 n := by
    intro m n heq
    have hdigit : Char.isDigit '-' = true := @isDigit_of_toDigits m _ (by rw [heq]; simp)
    cases hdigit
  cases k with
  | posInt n =>
    cases k' with
    | posInt n' =>
      rw [toList_posInt, toList_posInt] at htext
      rw [UInt64.toNat_inj.mp (toDigits_inj htext)]
    | negInt n' hn' =>
      rw [toList_posInt, toList_negInt] at htext
      exact absurd htext hminus
    | float x hx => exact absurd h.symm (float_text_ne hf (hk' x hx rfl) nofun)
  | negInt n hn =>
    cases k' with
    | posInt n' =>
      rw [toList_posInt, toList_negInt] at htext
      exact absurd htext.symm hminus
    | negInt n' hn' =>
      rw [toList_negInt, toList_negInt] at htext
      have hnat := toDigits_inj (List.cons.inj htext).2
      have hneg : n.toInt < 0 := Int64.lt_iff_toInt_lt.mp hn
      have hneg' : n'.toInt < 0 := Int64.lt_iff_toInt_lt.mp hn'
      have hsame : n = n' := Int64.toInt_inj.mp (by omega)
      subst hsame
      rfl
    | float x hx => exact absurd h.symm (float_text_ne hf (hk' x hx rfl) nofun)
  | float x hx =>
    cases k' with
    | float y hy =>
      have hsame := hf.inj x y (hk x hx rfl) (hk' y hy rfl) h
      subst hsame
      rfl
    | posInt n' => exact absurd h (float_text_ne hf (hk x hx rfl) nofun)
    | negInt n' hn' => exact absurd h (float_text_ne hf (hk x hx rfl) nofun)

def Written : Expr → Prop
  | .var n => NameText n.toList ∧ n.toList ∉ literalWords
  | .lit v => v.asArray = none ∧ v.asObject = none
  | .field b _ _ => Written b
  | .index b k => Written b ∧ Written k
  | .bin _ l r => Written l ∧ Written r
  | _ => True

def ShownLeaf : Expr → Prop
  | .lit (.string s) => '"' ∉ s.toList
  | .field b n _ => (∀ c ∈ n.toList, endsWord c = false) ∧
      ∀ k, b = .lit (.number k) → ∀ c, n.toList.head? = some c → c.isDigit = false
  | _ => True

/-- Every part of the expression shows as itself in a sentence. -/
def ShowsItself (e : Expr) : Prop := ∀ c, Occurs c e → ShownLeaf c

def FloatIn (e : Expr) (x : Float) : Prop := ∃ hx, Occurs (.lit (.number (.float x hx))) e

theorem legible_of_shown {used : Float → Prop} (hf : PrintsFloats used) : ∀ {e : Expr} {t : String},
    renderAtom e = some t → Written e → ShowsItself e → (∀ x, FloatIn e x → used x) → Legible e ∧ Distinct e
  | .var n, _, _, hw, _, _ => hw
  | .lit .null, _, _, _, _, _ => ⟨trivial, trivial⟩
  | .lit (.bool _), _, _, _, _, _ => ⟨trivial, trivial⟩
  | .lit (.number k), _, _, _, _, hu => by
    refine ⟨numberText_render hf fun x hx hk => hu x ⟨hx, ?_⟩, trivial⟩
    rw [hk]
  | .lit (.string _), _, _, _, hs, _ => ⟨hs _ .refl, trivial⟩
  | .lit (.array _), _, _, hw, _, _ => nomatch hw.1
  | .lit (.object _), _, _, hw, _, _ => nomatch hw.2
  | .field b n safe, t, ht, hw, hs, hu => by
    cases safe with
    | true => cases ht
    | false =>
      obtain ⟨tb, hb, -⟩ := Option.bind_eq_some_iff.mp ht
      obtain ⟨hl, hd⟩ := legible_of_shown hf hb hw
        (fun c hc => hs c (hc.tail .fieldBase)) fun x ⟨hx, hc⟩ => hu x ⟨hx, hc.tail .fieldBase⟩
      obtain ⟨hname, hdigit⟩ := hs _ .refl
      exact ⟨⟨hl, hname⟩, hd, hdigit⟩
  | .index b k, t, ht, hw, hs, hu => by
    obtain ⟨tb, hb, ht⟩ := Option.bind_eq_some_iff.mp ht
    obtain ⟨tk, hk, -⟩ := Option.bind_eq_some_iff.mp ht
    obtain ⟨hl, hd⟩ := legible_of_shown hf hb hw.1
      (fun c hc => hs c (hc.tail .indexBase)) fun x ⟨hx, hc⟩ => hu x ⟨hx, hc.tail .indexBase⟩
    obtain ⟨hl', hd'⟩ := legible_of_shown hf hk hw.2
      (fun c hc => hs c (hc.tail .indexKey)) fun x ⟨hx, hc⟩ => hu x ⟨hx, hc.tail .indexKey⟩
    exact ⟨⟨hl, hl'⟩, hd, hd'⟩
  | .fString _, _, ht, _, _, _ => nomatch ht
  | .doc _, _, ht, _, _, _ => nomatch ht
  | .array _, _, ht, _, _, _ => nomatch ht
  | .projection _, _, ht, _, _, _ => nomatch ht
  | .filter _ _, _, ht, _, _, _ => nomatch ht
  | .call _ _, _, ht, _, _, _ => nomatch ht
  | .invoke _ _, _, ht, _, _, _ => nomatch ht
  | .unary _ _, _, ht, _, _, _ => nomatch ht
  | .bin _ _ _, _, ht, _, _, _ => nomatch ht

theorem clear_operand {used : Float → Prop} (hf : PrintsFloats used) {c e : Expr} {t : String} (ht : renderAtom c = some t)
    (hc : Operand c e) (hw : Written c) (hs : ShowsItself e) (hu : ∀ x, FloatIn e x → used x) : Clear c := by
  obtain ⟨hl, hd⟩ := legible_of_shown hf ht hw (fun d hd => hs d (hd.tail hc))
    fun x ⟨hx, hd⟩ => hu x ⟨hx, hd.tail hc⟩
  exact ⟨⟨t, ht⟩, hl, hd⟩

omit [External] in
theorem cmpSymbol_text {op : BinOp} {sym : String} (h : cmpSymbol op = some sym) : ' ' ∉ sym.toList := by
  cases op
  all_goals
    cases h
    try decide

omit [External] in
theorem cmpSymbol_inj {op op' : BinOp} {sym : String} (h : cmpSymbol op = some sym) (h' : cmpSymbol op' = some sym) :
    op = op' := by
  cases op
  all_goals
    cases h
    try cases op'
    all_goals first
      | rfl
      | exact absurd h' (by decide)

theorem atom_unique {a b : Expr} {ta tb : String} {rest rest' : List Char} (ha : Clear a) (hb : Clear b)
    (hta : renderAtom a = some ta) (htb : renderAtom b = some tb) (htext : ta.toList ++ rest = tb.toList ++ rest')
    (hr : ∀ c, rest.head? = some c → c = ' ' ∨ c = ']') (hr' : ∀ c, rest'.head? = some c → c = ' ' ∨ c = ']')
    (hnum : ∀ k k', Occurs (.lit (.number k)) a → Occurs (.lit (.number k')) b → k.render = k'.render → k = k') :
    a = b ∧ rest = rest' := by
  have hended : ∀ {cs : List Char}, (∀ c, cs.head? = some c → c = ' ' ∨ c = ']') → Ended cs := by
    intro cs h c hc
    rcases h c hc with rfl | rfl
    · rfl
    · rfl
  have hread := read_atom ha.legible hta (hended hr) (read_done hr)
  have hread' := read_atom hb.legible htb (hended hr') (read_done hr')
  rw [htext] at hread
  have hsame := Option.some.inj (hread.unique hread')
  obtain ⟨hreading, hrest⟩ := Prod.mk.inj hsame
  have hseen := ha.seen
  rw [hreading] at hseen
  exact ⟨hseen.unique hb.seen hnum, hrest⟩

theorem renderGuard_some {names refs : List String} {e : Expr} {t : String} (h : renderGuard names e = some (t, refs)) :
    ∃ op a b sym ta tb, e = .bin op a b ∧ cmpSymbol op = some sym ∧ renderAtom a = some ta ∧ renderAtom b = some tb ∧
      t = ta ++ " " ++ sym ++ " " ++ tb := by
  cases e with
  | bin op a b =>
    obtain ⟨sym, hsym, h⟩ := Option.bind_eq_some_iff.mp h
    obtain ⟨ta, hta, h⟩ := Option.bind_eq_some_iff.mp h
    obtain ⟨tb, htb, h⟩ := Option.bind_eq_some_iff.mp h
    cases h
    exact ⟨op, a, b, sym, ta, tb, rfl, hsym, hta, htb, rfl⟩
  | _ => cases h

theorem guard_unique {names names' refs refs' : List String} {e e' : Expr} {t : String}
    (h : renderGuard names e = some (t, refs)) (h' : renderGuard names' e' = some (t, refs')) (hw : Written e)
    (hw' : Written e') (hs : ShowsItself e) (hs' : ShowsItself e')
    (hf : PrintsFloats fun x => FloatIn e x ∨ FloatIn e' x) : e = e' := by
  obtain ⟨op, a, b, sym, ta, tb, rfl, hsym, hta, htb, rfl⟩ := renderGuard_some h
  obtain ⟨op', a', b', sym', ta', tb', rfl, hsym', hta', htb', htext⟩ := renderGuard_some h'
  have hclear : ∀ {c : Expr} {tc : String}, renderAtom c = some tc → Operand c (.bin op a b) → Written c → Clear c :=
    fun htc hc hwc => clear_operand hf htc hc hwc hs fun x hx => .inl hx
  have hclear' : ∀ {c : Expr} {tc : String}, renderAtom c = some tc → Operand c (.bin op' a' b') → Written c → Clear c :=
    fun htc hc hwc => clear_operand hf htc hc hwc hs' fun x hx => .inr hx
  have hnum : ∀ k k', Occurs (.lit (.number k)) (.bin op a b) → Occurs (.lit (.number k')) (.bin op' a' b') →
      k.render = k'.render → k = k' := by
    intro k k' hk hk' heq
    refine number_unique hf (fun x hx hkx => .inl ⟨hx, ?_⟩) (fun x hx hkx => .inr ⟨hx, ?_⟩) heq
    · exact hkx ▸ hk
    · exact hkx ▸ hk'
  have hlists : ta.toList ++ ' ' :: (sym.toList ++ ' ' :: tb.toList) = ta'.toList ++ ' ' :: (sym'.toList ++ ' ' :: tb'.toList) := by
    simpa using congrArg String.toList htext
  obtain ⟨rfl, hrest⟩ := atom_unique (hclear hta .left hw.1) (hclear' hta' .left hw'.1) hta hta' hlists (by simp) (by simp)
    fun k k' hk hk' => hnum k k' (hk.tail .left) (hk'.tail .left)
  -- the symbol ends at its blank
  have hsplit := splitOnceChars_append (cmpSymbol_text hsym) tb.toList
  rw [(List.cons.inj hrest).2, splitOnceChars_append (cmpSymbol_text hsym') tb'.toList, Option.some.injEq, Prod.mk.injEq,
    String.toList_inj, String.toList_inj] at hsplit
  obtain ⟨rfl, rfl⟩ := hsplit
  have hend : tb'.toList ++ [] = tb'.toList ++ [] := rfl
  obtain ⟨rfl, -⟩ := atom_unique (hclear htb .right hw.2) (hclear' htb' .right hw'.2) htb htb' hend (by simp) (by simp)
    fun k k' hk hk' => hnum k k' (hk.tail .right) (hk'.tail .right)
  rw [cmpSymbol_inj hsym hsym']

end

end Vejas.Vjs
