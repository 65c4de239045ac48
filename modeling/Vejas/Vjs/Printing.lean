import Vejas.Vjs.Occurrence
import Vejas.Vjs.Parser
import Vejas.Vjs.Spelling

/-! The text of an expression, with the parentheses that the binding powers need and no others.
Each word of it is followed by a blank, so that the lexer finds the words again. -/

namespace Vejas.Vjs
open Json Rust

inductive Word
  | sym (s : Sym)
  | name (w : String)
  | quoted (s : String)
  | numeral (w : String)

def Sym.text (s : Sym) : List Char :=
  match keywords.find? (·.2 == s), twoByte.find? (·.2 == s), oneByte.find? (·.2 == s) with
  | some k, _, _ => k.1.toList
  | none, some k, _ => k.1.toList
  | none, none, some k => [k.1]
  | none, none, none => ['\n']

def quoteChar (c : Char) : List Char := if c = '"' ∨ c = '\\' then ['\\', c] else [c]

def Word.text : Word → List Char
  | .sym s => s.text
  | .name w => w.toList
  | .quoted s => '"' :: (s.toList.flatMap quoteChar ++ ['"'])
  | .numeral w => w.toList

def Word.tok : Word → Tok
  | .sym s => .sym s
  | .name w => wordTok w
  | .quoted s => .str s
  | .numeral w => .num ((F64.parse w).getD 0)

def wordsText (ws : List Word) : List Char := ws.flatMap fun w => w.text ++ [' ']

def wordsToks (ws : List Word) : List Tok := ws.map Word.tok

def isName (w : String) : Bool :=
  match bytesOf w with
  | [] => false
  | c :: cs => (isAlphaByte c || c == byte '_') && cs.all isWordByte

def isNumeral (w : String) : Bool :=
  match bytesOf w with
  | [] => false
  | c :: cs => isDigitByte c && cs.all isNumByte && (F64.parse w).isSome

def Word.Legal : Word → Prop
  | .name w => isName w = true
  | .numeral w => isNumeral w = true
  | _ => True

def BinOp.sym : BinOp → Sym
  | .or => .or
  | .and => .and
  | .coalesce => .qq
  | .eq => .eqEq
  | .ne => .ne
  | .lt => .lt
  | .le => .le
  | .gt => .gt
  | .ge => .ge
  | .in_ => .in
  | .add => .plus
  | .sub => .minus
  | .mul => .star
  | .div => .slash

def UnOp.sym : UnOp → Sym
  | .not => .not
  | .neg => .minus

def BinOp.power : BinOp → Nat
  | .or => 1
  | .and => 2
  | .coalesce => 3
  | .eq | .ne | .lt | .le | .gt | .ge | .in_ => 4
  | .add | .sub => 5
  | .mul | .div => 6

def Expr.power : Expr → Nat
  | .bin op _ _ => op.power
  | .unary .. => 10
  | _ => 11

def parens (least : Nat) (e : Expr) (ws : List Word) : List Word :=
  if e.power < least then .sym .lParen :: (ws ++ [.sym .rParen]) else ws

def keyWord (k : String) : Word := if isName k then .name k else .quoted k

section
variable (numeral : Number → String)

def valueWords : Value → List Word
  | .null => [.sym .null]
  | .bool b => [.sym (if b then .true else .false)]
  | .number n => [.numeral (numeral n)]
  | .string s => [.quoted s]
  | .array _ | .object _ => []

mutual

def words : Expr → List Word
  | .lit v => valueWords numeral v
  | .var name => [.name name]
  | .doc fields => .sym .lBrace :: (fieldsWords fields ++ [.sym .rBrace])
  | .array items => .sym .lBrack :: (itemsWords items ++ [.sym .rBrack])
  | .field b name safe => parens 11 b (words b) ++ [.sym (if safe then .qDot else .dot), keyWord name]
  | .index b k => parens 11 b (words b) ++ .sym .lBrack :: (words k ++ [.sym .rBrack])
  | .projection b => parens 11 b (words b) ++ [.sym .lBrack, .sym .rBrack]
  | .filter b c => parens 11 b (words b) ++ .sym .lBrack :: (words c ++ [.sym .rBrack])
  | .call name args => .name name :: .sym .lParen :: (itemsWords args ++ [.sym .rParen])
  | .unary op e => .sym op.sym :: parens 10 e (words e)
  | .bin op l r => parens op.power l (words l) ++ .sym op.sym :: parens (op.power + 1) r (words r)
  | .fString _ | .invoke .. => []

def itemsWords : List Expr → List Word
  | [] => []
  | [e] => words e
  | e :: es => words e ++ .sym .comma :: itemsWords es

def fieldsWords : List (String × Expr) → List Word
  | [] => []
  | [(k, e)] => keyWord k :: .sym .colon :: words e
  | (k, e) :: fs => keyWord k :: .sym .colon :: (words e ++ .sym .comma :: fieldsWords fs)

end

def print (e : Expr) : String := String.ofList (wordsText (words numeral e))

/-- The expression itself, its parts apart, can be written down: names are identifiers, a literal
is one token, and what stands in brackets is a condition exactly if they filter. -/
def Expr.Sayable : Expr → Prop
  | .lit (.number n) => isNumeral (numeral n) = true ∧ (F64.parse (numeral n)).map num = some (.number n)
  | .lit (.array _) | .lit (.object _) => False
  | .var name => isName name = true ∧
      (keywords.lookup name = none ∨ name ∈ ["source", "tool", "driver", "api"])
  | .call name _ => isName name = true ∧ keywords.lookup name = none
  | .index _ k => isFilter k = false
  | .filter _ c => isFilter c = true
  | .fString _ | .invoke .. => False
  | _ => True

/-- Every part of the expression can be written down. -/
def Printable (e : Expr) : Prop := ∀ c, Occurs c e → c.Sayable numeral

end

section
variable {numeral : Number → String}

theorem Printable.here {e : Expr} (h : Printable numeral e) : e.Sayable numeral := h e .refl

theorem Printable.operand {c e : Expr} (h : Printable numeral e) (hc : Operand c e) : Printable numeral c :=
  fun d hd => h d (hd.tail hc)

theorem printable_of {e : Expr} (h : e.Sayable numeral) (h' : ∀ c, Operand c e → Printable numeral c) :
    Printable numeral e := by
  intro d hd
  rcases Relation.ReflTransGen.cases_tail hd with rfl | ⟨c, hdc, hc⟩
  · exact h
  · exact h' c hc d hdc

theorem legal_keyWord (k : String) : (keyWord k).Legal := by
  unfold keyWord
  split
  next h => exact h
  next => trivial

theorem legal_parens {n : Nat} {e : Expr} {ws : List Word} (h : ∀ w ∈ ws, w.Legal) :
    ∀ w ∈ parens n e ws, w.Legal := by
  intro w hw
  unfold parens at hw
  split at hw
  · rcases List.mem_cons.mp hw with rfl | hw
    · trivial
    · rcases List.mem_append.mp hw with hw | hw
      · exact h w hw
      · rw [List.mem_singleton.mp hw]
        trivial
  · exact h w hw

theorem legal_items : ∀ {es : List Expr}, (∀ e ∈ es, ∀ w ∈ words numeral e, w.Legal) →
    ∀ w ∈ itemsWords numeral es, w.Legal
  | [], _ => fun _ hw => absurd hw List.not_mem_nil
  | [e], h => h e (List.mem_cons_self ..)
  | e :: e' :: es, h => by
    have htail := legal_items fun c hc => h c (List.mem_cons_of_mem e hc)
    intro w hw
    rw [itemsWords.eq_3 _ _ _ (by simp), List.mem_append, List.mem_cons] at hw
    rcases hw with hw | rfl | hw
    · exact h e (List.mem_cons_self ..) w hw
    · trivial
    · exact htail w hw

theorem legal_fields : ∀ {fs : List (String × Expr)}, (∀ f ∈ fs, ∀ w ∈ words numeral f.2, w.Legal) →
    ∀ w ∈ fieldsWords numeral fs, w.Legal
  | [], _ => fun _ hw => absurd hw List.not_mem_nil
  | [(k, e)], h => by
    intro w hw
    rw [fieldsWords, List.mem_cons, List.mem_cons] at hw
    rcases hw with rfl | rfl | hw
    · exact legal_keyWord k
    · trivial
    · exact h (k, e) (List.mem_cons_self ..) w hw
  | (k, e) :: f :: fs, h => by
    have htail := legal_fields fun c hc => h c (List.mem_cons_of_mem (k, e) hc)
    intro w hw
    rw [fieldsWords.eq_3 _ _ _ _ (by simp), List.mem_cons, List.mem_cons, List.mem_append, List.mem_cons] at hw
    rcases hw with rfl | rfl | hw | rfl | hw
    · exact legal_keyWord k
    · trivial
    · exact h (k, e) (List.mem_cons_self ..) w hw
    · trivial
    · exact htail w hw

theorem legal_words {e : Expr} (h : Printable numeral e) : ∀ w ∈ words numeral e, w.Legal := by
  induction e using Expr.induct with
  | h e ih =>
    have hpart : ∀ c, Operand c e → ∀ w ∈ words numeral c, w.Legal := fun c hc => ih c hc (h.operand hc)
    have hhere := h.here
    cases e with
    | lit v =>
      cases v with
      | number n => exact List.forall_mem_singleton.mpr hhere.1
      | array vs => exact absurd hhere id
      | object fs => exact absurd hhere id
      | _ => exact List.forall_mem_singleton.mpr trivial
    | fString parts => exact absurd hhere id
    | invoke name args => exact absurd hhere id
    | var name => exact List.forall_mem_singleton.mpr hhere.1
    | doc fields =>
      rw [words, List.forall_mem_cons, List.forall_mem_append, List.forall_mem_singleton]
      exact ⟨trivial, legal_fields fun f hf => hpart f.2 (.docField hf), trivial⟩
    | array items =>
      rw [words, List.forall_mem_cons, List.forall_mem_append, List.forall_mem_singleton]
      exact ⟨trivial, legal_items fun c hc => hpart c (.item hc), trivial⟩
    | field b name safe =>
      rw [words, List.forall_mem_append, List.forall_mem_cons, List.forall_mem_singleton]
      exact ⟨legal_parens (hpart b .fieldBase), trivial, legal_keyWord name⟩
    | index b k =>
      rw [words, List.forall_mem_append, List.forall_mem_cons, List.forall_mem_append, List.forall_mem_singleton]
      exact ⟨legal_parens (hpart b .indexBase), trivial, hpart k .indexKey, trivial⟩
    | projection b =>
      rw [words, List.forall_mem_append, List.forall_mem_cons, List.forall_mem_singleton]
      exact ⟨legal_parens (hpart b .projected), trivial, trivial⟩
    | filter b c =>
      rw [words, List.forall_mem_append, List.forall_mem_cons, List.forall_mem_append, List.forall_mem_singleton]
      exact ⟨legal_parens (hpart b .filterBase), trivial, hpart c .filterCond, trivial⟩
    | call name args =>
      rw [words, List.forall_mem_cons, List.forall_mem_cons, List.forall_mem_append, List.forall_mem_singleton]
      exact ⟨hhere.1, trivial, legal_items fun c hc => hpart c (.callArg hc), trivial⟩
    | unary op b =>
      rw [words, List.forall_mem_cons]
      exact ⟨trivial, legal_parens (hpart b .unary)⟩
    | bin op l r =>
      rw [words, List.forall_mem_append, List.forall_mem_cons]
      exact ⟨legal_parens (hpart l .left), trivial, legal_parens (hpart r .right)⟩

end

section
variable [External]

omit [External] in
theorem stringBody_quoteChar (c : Char) (i : Nat) (acc rest : Bytes) :
    stringBody i acc (utf8 (quoteChar c) ++ rest) =
      stringBody (i + (utf8 (quoteChar c)).length) ((utf8 [c]).reverse ++ acc) rest := by
  by_cases hquote : c = '"'
  · subst hquote
    rfl
  by_cases hslash : c = '\\'
  · subst hslash
    rfl
  have hplain : quoteChar c = [c] := if_neg (not_or.mpr ⟨hquote, hslash⟩)
  rw [hplain]
  exact stringBody_plain (plain_char hquote hslash) i acc rest

omit [External] in
theorem stringBody_quoted (cs : List Char) (i : Nat) (acc rest : Bytes) :
    stringBody i acc (utf8 (cs.flatMap quoteChar) ++ byte '"' :: rest) =
      some (acc.reverse ++ utf8 cs, i + (utf8 (cs.flatMap quoteChar)).length + 1) := by
  induction cs generalizing i acc with
  | nil =>
    show stringBody i acc (byte '"' :: rest) = _
    rw [stringBody.eq_def]
    simp [utf8]
  | cons c cs ih =>
    have hcons : utf8 (c :: cs) = utf8 [c] ++ utf8 cs := utf8_append [c] cs
    rw [List.flatMap_cons, utf8_append, List.append_assoc, stringBody_quoteChar, ih, hcons]
    simp only [List.reverse_append, List.reverse_reverse, List.append_assoc, List.length_append, Nat.add_assoc]

theorem lexeme_quoted (s : String) (r : Bytes) :
    Lexeme (utf8 (Word.quoted s).text) (some (.str s)) r := by
  have htext : utf8 (Word.quoted s).text =
      byte '"' :: (utf8 (s.toList.flatMap quoteChar) ++ [byte '"']) := by
    rw [Word.text, utf8_ascii_cons _ (by decide), utf8_append, utf8_ascii_cons _ (by decide)]
    rfl
  have hbody := stringBody_quoted s.toList 1 [] []
  have hback : textOf (utf8 s.toList) = s := by rw [textOf_utf8, String.ofList_toList]
  have hlexeme : Lexeme (byte '"' :: (utf8 (s.toList.flatMap quoteChar) ++ [byte '"']))
      (some (.str (textOf (utf8 s.toList)))) r := by
    refine .string r (hbody.trans ?_)
    simp [Nat.add_assoc]
  rw [hback] at hlexeme
  rwa [htext]

theorem lexeme_name {w : String} (h : isName w = true) (rs : List Char) :
    Lexeme (utf8 w.toList) (some (wordTok w)) (utf8 (' ' :: rs)) := by
  have hword : wordTok w = wordTok (textOf (bytesOf w)) := by rw [textOf_bytesOf]
  rw [hword, ← bytesOf_eq_utf8]
  unfold isName at h
  cases hw : bytesOf w with
  | nil =>
    rw [hw] at h
    cases h
  | cons c cs =>
    rw [hw] at h
    have h : ((isAlphaByte c || c == byte '_') && cs.all isWordByte) = true := h
    rw [Bool.and_eq_true, Bool.or_eq_true, beq_iff_eq, List.all_eq_true] at h
    have hblank : (utf8 (' ' :: rs)).head? = some (byte ' ') := by
      rw [utf8_ascii_cons _ (by decide)]
      rfl
    refine .word h.1 h.2 ?_ ?_
    · intro b hb
      rw [hblank] at hb
      cases hb
      decide
    · intro _ _
      rw [hblank]
      decide

omit [External] in
theorem isCont_ascii {c : Char} (h : c.toNat < 128) : isCont (byte c) = false := by
  have hall : ∀ n < 128, isCont (UInt8.ofNat n) = false := by decide
  exact hall c.toNat h

omit [External] in
theorem textOf_pair {c d : Char} (hc : c.toNat < 128) (hd : d.toNat < 128) :
    textOf [byte c, byte d] = String.ofList [c, d] := by
  rw [← textOf_utf8, utf8_ascii_cons _ hc, utf8_ascii_cons _ hd]
  rfl

theorem lexeme_keyword {k : String × Sym} (h : k ∈ keywords) (rs : List Char) :
    Lexeme (utf8 k.1.toList) (some (.sym k.2)) (utf8 (' ' :: rs)) := by
  have hall : ∀ k ∈ keywords, isName k.1 = true ∧ keywords.lookup k.1 = some k.2 := by decide
  obtain ⟨hname, hlookup⟩ := hall k h
  have hlexeme := lexeme_name hname rs
  have htok : wordTok k.1 = .sym k.2 := by rw [wordTok, hlookup]
  rwa [htok] at hlexeme

theorem lexeme_two {c d : Char} {s : Sym} (hc : c.toNat < 128) (hd : d.toNat < 128)
    (hsym : symbolic (byte c) = true) (h : twoByte.lookup (String.ofList [c, d]) = some s) (rs : List Char) :
    Lexeme (utf8 [c, d]) (some (.sym s)) (utf8 rs) := by
  rw [utf8_ascii_cons _ hc, utf8_ascii_cons _ hd]
  exact .two ⟨hsym, isCont_ascii hc⟩ (by rw [textOf_pair hc hd, h]) (starts_utf8 rs)

theorem lexeme_one {c : Char} {s : Sym} (hs : oneByte.lookup c = some s) (hc : symbolic (byte c) = true)
    (rs : List Char) : Lexeme (utf8 [c]) (some (.sym s)) (utf8 (' ' :: rs)) := by
  have hascii := oneByte_ascii hs
  rw [utf8_ascii_cons _ hascii, utf8_ascii_cons _ (by decide)]
  refine .one ⟨hc, isCont_ascii hascii⟩ (by rw [char_of_byte hascii, hs]) ?_
  intro d r hr
  cases hr
  refine ⟨starts_utf8 rs, ?_⟩
  rw [textOf_pair hascii (by decide), List.lookup_eq_none_iff]
  rintro ⟨w, sym⟩ hmem
  rw [bne_iff_ne]
  rintro rfl
  have hall : ∀ k ∈ twoByte, k.1.toList.getLast? ≠ some ' ' := by decide
  refine hall _ hmem ?_
  rw [String.toList_ofList]
  rfl

omit [External] in
theorem of_find? {α : Type} {table : List (α × Sym)} {k : α × Sym} {s : Sym}
    (h : table.find? (·.2 == s) = some k) : k ∈ table ∧ k.2 = s := by
  have hsym : (k.2 == s) = true := @List.find?_some _ (fun k => k.2 == s) k table h
  exact ⟨List.mem_of_find?_eq_some h, beq_iff_eq.mp hsym⟩

theorem lexeme_sym (s : Sym) (rs : List Char) :
    Lexeme (utf8 s.text) (some (.sym s)) (utf8 (' ' :: rs)) := by
  unfold Sym.text
  cases hk : keywords.find? (·.2 == s) with
  | some k =>
    obtain ⟨hmem, rfl⟩ := of_find? hk
    exact lexeme_keyword hmem rs
  | none =>
    cases htwo : twoByte.find? (·.2 == s) with
    | some k =>
      obtain ⟨hmem, rfl⟩ := of_find? htwo
      simp only [twoByte, List.mem_cons, List.not_mem_nil, or_false] at hmem
      rcases hmem with rfl | rfl | rfl | rfl | rfl | rfl <;>
        exact lexeme_two (by decide) (by decide) (by decide) (by decide) _
    | none =>
      cases hone : oneByte.find? (·.2 == s) with
      | some k =>
        obtain ⟨hmem, rfl⟩ := of_find? hone
        have hall : ∀ k ∈ oneByte, oneByte.lookup k.1 = some k.2 ∧ symbolic (byte k.1) = true := by decide
        obtain ⟨hlookup, hsymbolic⟩ := hall k hmem
        exact lexeme_one hlookup hsymbolic rs
      | none =>
        have hnewline : s = .newline := by
          revert hk htwo hone
          cases s <;> decide
        subst hnewline
        exact .newline _

theorem lexeme_numeral {w : String} (h : isNumeral w = true) (rs : List Char) :
    Lexeme (utf8 w.toList) (some (Word.numeral w).tok) (utf8 (' ' :: rs)) := by
  have hback := textOf_bytesOf w
  rw [← bytesOf_eq_utf8]
  unfold isNumeral at h
  cases hw : bytesOf w with
  | nil =>
    rw [hw] at h
    cases h
  | cons c cs =>
    rw [hw] at h hback
    have h : (isDigitByte c && cs.all isNumByte && (F64.parse w).isSome) = true := h
    rw [Bool.and_eq_true, Bool.and_eq_true, List.all_eq_true, Option.isSome_iff_exists] at h
    obtain ⟨⟨hc, hcs⟩, x, hx⟩ := h
    have htok : (Word.numeral w).tok = .num x := by rw [Word.tok, hx]; rfl
    rw [htok]
    refine .number hc hcs ?_ (by rw [hback, hx])
    intro b hb
    rw [utf8_ascii_cons _ (by decide)] at hb
    cases hb
    decide

theorem lexeme_of_legal {w : Word} (h : w.Legal) (rs : List Char) :
    Lexeme (utf8 w.text) (some w.tok) (utf8 (' ' :: rs)) := by
  cases w with
  | sym s => exact lexeme_sym s rs
  | name w => exact lexeme_name h rs
  | quoted s => exact lexeme_quoted s _
  | numeral w => exact lexeme_numeral h rs

theorem path_of_legal {ws : List Word} (h : ∀ w ∈ ws, w.Legal) (i : Nat) :
    ∃ ts, Path i (utf8 (wordsText ws)) ts [] ∧ ts.map (·.1) = wordsToks ws := by
  induction ws generalizing i with
  | nil => exact ⟨[], .nil i [], rfl⟩
  | cons w ws ih =>
    have hblank : utf8 (' ' :: wordsText ws) = byte ' ' :: utf8 (wordsText ws) :=
      utf8_ascii_cons _ (by decide)
    obtain ⟨ts, hpath, hts⟩ := ih (fun v hv => h v (List.mem_cons_of_mem _ hv)) (i + (utf8 w.text).length + 1)
    have hlexeme := lexeme_of_legal (h w (List.mem_cons_self ..)) (wordsText ws)
    have htail : Path (i + (utf8 w.text).length) (byte ' ' :: utf8 (wordsText ws)) ts [] :=
      Path.cons (.blank _ (.inl rfl)) hpath
    refine ⟨(w.tok, i) :: ts, ?_, by rw [List.map_cons, hts]; rfl⟩
    have htext : wordsText (w :: ws) = w.text ++ ' ' :: wordsText ws := by simp [wordsText]
    rw [htext, utf8_append, hblank]
    rw [hblank] at hlexeme
    exact Path.cons (by rwa [List.append_nil]) htail

theorem lex_of_legal {ws : List Word} (h : ∀ w ∈ ws, w.Legal) :
    ∃ ts, lex (utf8 (wordsText ws)) = .ok (ts ++ [(.sym .newline, (utf8 (wordsText ws)).length)]) ∧
      ts.map (·.1) = wordsToks ws := by
  obtain ⟨ts, hpath, hts⟩ := path_of_legal h 0
  exact ⟨ts, lex_iff.mpr ⟨ts, rfl, hpath⟩, hts⟩

end

end Vejas.Vjs
