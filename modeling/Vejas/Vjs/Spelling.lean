import Mathlib.Data.Bool.AllAny
import Vejas.Json.Reading
import Vejas.Vjs.Tokens

/-! The lexemes of the text that `serde_json` writes. The lexer of the flow language undoes only
some of the escapes of a JSON string: a backslash it does not know is dropped and what follows it
stays. -/

namespace Vejas.Vjs
open Json Rust

theorem utf8_ascii_cons {c : Char} (cs : List Char) (h : c.toNat < 128) :
    utf8 (c :: cs) = byte c :: utf8 cs := by
  rw [utf8_cons, encode_ascii h]
  rfl

theorem utf8_ascii {cs : List Char} (h : ∀ c ∈ cs, c.toNat < 128) : utf8 cs = cs.map byte := by
  induction cs with
  | nil => rfl
  | cons c cs ih =>
    rw [utf8_ascii_cons cs (h c (List.mem_cons_self ..)), ih fun d hd => h d (List.mem_cons_of_mem _ hd)]
    rfl

theorem byte_toNat_ascii {c : Char} (h : c.toNat < 128) : (byte c).toNat = c.toNat :=
  byte_toNat (by omega)

theorem char_of_byte {c : Char} (h : c.toNat < 128) : Char.ofNat (byte c).toNat = c := by
  rw [byte_toNat_ascii h]
  exact Char.ofNat_toNat c

theorem starts_utf8 (cs : List Char) : Starts (utf8 cs) := by
  intro b hb
  cases hcs : utf8 cs with
  | nil =>
    rw [hcs] at hb
    cases hb
  | cons d ds =>
    rw [hcs] at hb
    cases hb
    exact utf8_head hcs

def Ascii : List Char → Prop
  | [] => True
  | c :: _ => c.toNat < 128

def Calm : List Char → Prop
  | [] => True
  | c :: _ => c.toNat < 128 ∧ isWordByte (byte c) = false ∧ c ≠ '.'

def Begins (cs : List Char) : Prop := ∃ c tail, cs = c :: tail ∧ c.toNat < 128

theorem Calm.ascii {cs : List Char} (h : Calm cs) : Ascii cs := by
  cases cs with
  | nil => trivial
  | cons c cs => exact h.1

theorem oneByte_ascii {c : Char} {s : Sym} (h : oneByte.lookup c = some s) : c.toNat < 128 := by
  have hall : ∀ p ∈ oneByte, p.1.toNat < 128 := by decide
  obtain ⟨pre, post, hmem, -⟩ := List.lookup_eq_some_iff.mp h
  refine hall (c, s) ?_
  rw [hmem]
  exact List.mem_append_right _ (List.mem_cons_self ..)

section
variable [External]

theorem lexeme_symbol {c : Char} {s : Sym} {cs : List Char} (hs : oneByte.lookup c = some s)
    (hc : symbolic (byte c) = true) (hfirst : ∀ p ∈ twoByte, p.1.toList.head? ≠ some c)
    (hcs : Ascii cs) : Lexeme [byte c] (some (.sym s)) (utf8 cs) := by
  have hascii := oneByte_ascii hs
  have hback := char_of_byte hascii
  have hone : oneByte.lookup (Char.ofNat (byte c).toNat) = some s := by rw [hback, hs]
  refine .one ⟨hc, isCont_of_oneByte hone⟩ hone ?_
  intro d r hr
  cases cs with
  | nil => cases hr
  | cons e cs =>
    rw [utf8_ascii_cons cs hcs] at hr
    cases hr
    refine ⟨starts_utf8 cs, ?_⟩
    have htext : textOf [byte c, byte e] = String.ofList [c, e] := by
      rw [← textOf_utf8, utf8_ascii_cons _ hascii, utf8_ascii_cons _ hcs]
      rfl
    rw [htext, List.lookup_eq_none_iff]
    rintro ⟨s', sym⟩ hmem
    rw [bne_iff_ne]
    intro heq
    refine hfirst _ hmem ?_
    rw [← heq, String.toList_ofList]
    rfl

end

/-- What the lexer makes of a character that `serde_json` wrote. -/
def reread (c : Char) : List Char :=
  if c = '\n' ∨ c = '\t' ∨ 32 ≤ c.toNat then [c] else (escapeChar c).drop 1

def rereadStr (s : String) : String := String.ofList (s.toList.flatMap reread)

theorem stringBody_plain {bs : Bytes} (h : ∀ b ∈ bs, b ≠ byte '"' ∧ b ≠ byte '\\') (i : Nat)
    (acc rest : Bytes) :
    stringBody i acc (bs ++ rest) = stringBody (i + bs.length) (bs.reverse ++ acc) rest := by
  induction bs generalizing i acc with
  | nil => rfl
  | cons b bs ih =>
    obtain ⟨hquote, hslash⟩ := h b (List.mem_cons_self ..)
    rw [List.cons_append, stringBody.eq_def]
    dsimp only
    rw [if_neg hquote, if_neg hslash, ih fun x hx => h x (List.mem_cons_of_mem _ hx), List.length_cons,
      List.reverse_cons, List.append_assoc, show i + 1 + bs.length = i + (bs.length + 1) by omega]
    rfl

theorem escape_control {c : Char} (h : c.toNat < 32) :
    ∃ e tail, escapeChar c = '\\' :: e :: tail ∧ (∀ d ∈ e :: tail, d.toNat < 128) ∧
      (∀ d ∈ tail, byte d ≠ byte '"' ∧ byte d ≠ byte '\\') ∧
      utf8 (reread c) = unescape (byte e) :: tail.map byte := by
  have hall : ∀ n, n < 32 → ∀ c, c = Char.ofNat n →
      (escapeChar c).head? = some '\\' ∧ (escapeChar c).tail ≠ [] ∧
      (∀ d ∈ (escapeChar c).tail, d.toNat < 128) ∧
      (∀ d ∈ (escapeChar c).tail.tail, byte d ≠ byte '"' ∧ byte d ≠ byte '\\') ∧
      (∀ d ∈ reread c, d.toNat < 128) ∧
      (reread c).map byte =
        unescape (byte ((escapeChar c).tail.headD ' ')) :: (escapeChar c).tail.tail.map byte := by
    simp only [forall_eq, ← List.all_iff_forall_prop]
    decide
  obtain ⟨hhead, hne, hascii, hplain, hreread, hbytes⟩ :=
    hall c.toNat h c (Char.ofNat_toNat c).symm
  cases hc : escapeChar c with
  | nil =>
    rw [hc] at hhead
    cases hhead
  | cons b cs =>
    rw [hc] at hhead hne hascii hplain hbytes
    cases hhead
    cases cs with
    | nil => exact absurd rfl hne
    | cons e tail => exact ⟨e, tail, rfl, hascii, hplain, (utf8_ascii hreread).trans hbytes⟩

theorem plain_char {c : Char} (hquote : c ≠ '"') (hslash : c ≠ '\\') :
    ∀ b ∈ utf8 [c], b ≠ byte '"' ∧ b ≠ byte '\\' := by
  intro b hb
  have hmem : b ∈ String.utf8EncodeChar c := by simpa [utf8] using hb
  by_cases hascii : c.toNat < 128
  · -- an ASCII character is its own byte
    have hne : ∀ d : Char, d.toNat < 128 → c ≠ d → b ≠ byte d := by
      rintro d hd hcd rfl
      rw [encode_ascii hascii, List.mem_singleton] at hmem
      have hsame : Char.ofNat (byte d).toNat = Char.ofNat (byte c).toNat :=
        congrArg (fun b => Char.ofNat b.toNat) hmem
      rw [char_of_byte hd, char_of_byte hascii] at hsame
      exact hcd hsame.symm
    exact ⟨hne _ (by decide) hquote, hne _ (by decide) hslash⟩
  · have hhigh := encode_high (by omega) hmem
    constructor
    · rintro rfl
      exact absurd hhigh (by decide)
    · rintro rfl
      exact absurd hhigh (by decide)

theorem stringBody_escape (c : Char) (i : Nat) (acc rest : Bytes) :
    stringBody i acc (utf8 (escapeChar c) ++ rest) =
      stringBody (i + (utf8 (escapeChar c)).length) ((utf8 (reread c)).reverse ++ acc) rest := by
  by_cases hctl : c.toNat < 32
  · obtain ⟨e, tail, hescape, hascii, hplain, hreread⟩ := escape_control hctl
    have htext : utf8 (escapeChar c) = byte '\\' :: byte e :: tail.map byte := by
      rw [hescape, utf8_ascii_cons _ (by decide), utf8_ascii hascii]
      rfl
    have hbytes : ∀ b ∈ tail.map byte, b ≠ byte '"' ∧ b ≠ byte '\\' := by
      intro b hb
      obtain ⟨d, hd, rfl⟩ := List.mem_map.mp hb
      exact hplain d hd
    rw [htext, hreread, List.cons_append, List.cons_append, stringBody.eq_def]
    dsimp only
    rw [if_neg (by decide), if_pos rfl, stringBody_plain hbytes, List.reverse_cons, List.append_assoc,
      show i + 2 + (tail.map byte).length = i + (tail.map byte).length.succ.succ by omega]
    rfl
  have hreread : reread c = [c] := if_pos (.inr (.inr (by omega)))
  by_cases hquote : c = '"'
  · subst hquote
    rfl
  by_cases hslash : c = '\\'
  · subst hslash
    rfl
  rw [escapeChar_plain hctl hquote hslash, hreread]
  exact stringBody_plain (plain_char hquote hslash) i acc rest

theorem stringBody_escaped (cs : List Char) (i : Nat) (acc rest : Bytes) :
    stringBody i acc (utf8 (cs.flatMap escapeChar) ++ byte '"' :: rest) =
      some (acc.reverse ++ utf8 (cs.flatMap reread), i + (utf8 (cs.flatMap escapeChar)).length + 1) := by
  induction cs generalizing i acc with
  | nil =>
    show stringBody i acc (byte '"' :: rest) = _
    rw [stringBody.eq_def]
    simp [utf8]
  | cons c cs ih =>
    rw [List.flatMap_cons, List.flatMap_cons, utf8_append, List.append_assoc, stringBody_escape, ih]
    simp only [List.reverse_append, List.reverse_reverse, utf8_append, List.append_assoc,
      List.length_append, Nat.add_assoc]

theorem lexeme_string [External] (s : String) (r : Bytes) :
    Lexeme (utf8 (renderStr s).toList) (some (.str (rereadStr s))) r := by
  have htext : utf8 (renderStr s).toList =
      byte '"' :: (utf8 (s.toList.flatMap escapeChar) ++ [byte '"']) := by
    rw [renderStr_toList, utf8_ascii_cons _ (by decide), utf8_append, utf8_ascii_cons _ (by decide)]
    rfl
  have hbody := stringBody_escaped s.toList 1 [] []
  rw [htext, rereadStr, ← textOf_utf8]
  refine .string r (hbody.trans ?_)
  simp [Nat.add_assoc]

section
variable [External]

omit [External] in
theorem head_utf8 {cs : List Char} {b : UInt8} (ha : Ascii cs) (hb : (utf8 cs).head? = some b) :
    ∃ c rest, cs = c :: rest ∧ b = byte c := by
  cases cs with
  | nil => cases hb
  | cons c cs =>
    rw [utf8_ascii_cons cs ha] at hb
    cases hb
    exact ⟨c, cs, rfl, rfl⟩

omit [External] in
theorem Calm.head {cs : List Char} {b : UInt8} (h : Calm cs) (hb : (utf8 cs).head? = some b) :
    isWordByte b = false ∧ isNumByte b = false := by
  obtain ⟨c, rest, rfl, rfl⟩ := head_utf8 h.ascii hb
  obtain ⟨hascii, hword, hdot⟩ := h
  refine ⟨hword, ?_⟩
  unfold isWordByte at hword
  unfold isNumByte
  simp only [Bool.or_eq_false_iff] at hword ⊢
  refine ⟨hword.1.2, beq_eq_false_iff_ne.mpr ?_⟩
  intro hsame
  have : c = '.' := by
    rw [← char_of_byte hascii, hsame]
    rfl
  exact hdot this

theorem lexeme_word {c : Char} {cs : List Char} {r : Bytes} (hc : isAlphaByte (byte c) = true)
    (hcs : ∀ d ∈ cs, isWordByte (byte d) = true) (hascii : ∀ d ∈ c :: cs, d.toNat < 128)
    (hf : c = 'f' → cs ≠ []) (hr : ∀ b, r.head? = some b → isWordByte b = false) :
    Lexeme (utf8 (c :: cs)) (some (wordTok (String.ofList (c :: cs)))) r := by
  have htext : utf8 (c :: cs) = byte c :: cs.map byte := utf8_ascii hascii
  rw [← textOf_utf8, htext]
  refine .word (.inl hc) ?_ hr ?_
  · intro b hb
    obtain ⟨d, hd, rfl⟩ := List.mem_map.mp hb
    exact hcs d hd
  · intro hcf hnil
    have hfc : c = 'f' := by
      rw [← char_of_byte (hascii c (List.mem_cons_self ..)), hcf]
      rfl
    exact absurd (List.map_eq_nil_iff.mp hnil) (hf hfc)

omit [External] in
theorem digit_ascii {c : Char} (h : c.isDigit = true) : c.toNat < 128 := by
  simp only [Char.isDigit, Bool.and_eq_true, decide_eq_true_eq] at h
  have hle : c.val.toNat ≤ 57 := h.2
  have hval : c.toNat = c.val.toNat := rfl
  omega

omit [External] in
theorem isDigitByte_of_isDigit {c : Char} (h : c.isDigit = true) : isDigitByte (byte c) = true := by
  have hascii := digit_ascii h
  simp only [Char.isDigit, Bool.and_eq_true, decide_eq_true_eq] at h
  have hlo : 48 ≤ c.val.toNat := h.1
  have hhi : c.val.toNat ≤ 57 := h.2
  have hval : (byte c).toNat = c.val.toNat := byte_toNat_ascii hascii
  have hbytes : (byte '0').toNat = 48 ∧ (byte '9').toNat = 57 := by decide
  unfold isDigitByte
  rw [Bool.and_eq_true, decide_eq_true_eq, decide_eq_true_eq, UInt8.le_iff_toNat_le,
    UInt8.le_iff_toNat_le]
  omega

theorem lexeme_number {c : Char} {cs : List Char} {r : Bytes} {x : Float} (hc : c.isDigit = true)
    (hcs : ∀ d ∈ cs, d.isDigit = true ∨ d = '.') (hx : F64.parse (String.ofList (c :: cs)) = some x)
    (hr : ∀ b, r.head? = some b → isNumByte b = false) :
    Lexeme (utf8 (c :: cs)) (some (.num x)) r := by
  have hascii : ∀ d ∈ c :: cs, d.toNat < 128 := by
    intro d hd
    rcases List.mem_cons.mp hd with rfl | hd
    · exact digit_ascii hc
    · rcases hcs d hd with h | rfl
      · exact digit_ascii h
      · decide
  have htext : utf8 (c :: cs) = byte c :: cs.map byte := utf8_ascii hascii
  rw [← textOf_utf8, htext] at hx
  rw [htext]
  refine .number (isDigitByte_of_isDigit hc) ?_ hr hx
  intro b hb
  obtain ⟨d, hd, rfl⟩ := List.mem_map.mp hb
  unfold isNumByte
  rcases hcs d hd with h | rfl
  · simp [isDigitByte_of_isDigit h]
  · simp

/-- Before anything quiet the text `cs` is cut into lexemes that leave the tokens `toks`. -/
def Spells (cs : List Char) (toks : List Tok) : Prop :=
  ∀ i rs, Calm rs → ∃ ts, Path i (utf8 cs) ts (utf8 rs) ∧ ts.map (·.1) = toks

theorem spells_lexeme {cs : List Char} {t : Tok}
    (h : ∀ rs, Calm rs → Lexeme (utf8 cs) (some t) (utf8 rs)) : Spells cs [t] :=
  fun _ rs hrs => ⟨_, .one (h rs hrs), rfl⟩

theorem spells_nil : Spells [] [] := fun i _ _ => ⟨[], .nil i _, rfl⟩

theorem Spells.append {cs ds : List Char} {ts us : List Tok} (h : Spells cs ts) (h' : Spells ds us)
    (hq : ∀ rs, Calm rs → Calm (ds ++ rs)) : Spells (cs ++ ds) (ts ++ us) := by
  intro i rs hrs
  obtain ⟨ts', hpath, hts⟩ := h i (ds ++ rs) (hq rs hrs)
  obtain ⟨us', hpath', hus⟩ := h' (i + (utf8 cs).length) rs hrs
  rw [utf8_append] at hpath
  refine ⟨ts' ++ us', ?_, by rw [List.map_append, hts, hus]⟩
  rw [utf8_append]
  exact hpath.append hpath'

def Lone (c : Char) (s : Sym) : Prop :=
  oneByte.lookup c = some s ∧ symbolic (byte c) = true ∧ ∀ p ∈ twoByte, p.1.toList.head? ≠ some c

instance (c : Char) (s : Sym) : Decidable (Lone c s) := inferInstanceAs (Decidable (_ ∧ _ ∧ _))

theorem Spells.symbol {c : Char} {s : Sym} {cs : List Char} {toks : List Tok} (hc : Lone c s)
    (h : Spells cs toks) (ha : ∀ rs, Calm rs → Ascii (cs ++ rs)) :
    Spells (c :: cs) (.sym s :: toks) := by
  intro i rs hrs
  have hlex := lexeme_symbol hc.1 hc.2.1 hc.2.2 (ha rs hrs)
  rw [utf8_append] at hlex
  obtain ⟨ts, hpath, hts⟩ := h (i + 1) rs hrs
  refine ⟨(.sym s, i) :: ts, ?_, by rw [List.map_cons, hts]⟩
  rw [utf8_ascii_cons _ (oneByte_ascii hc.1)]
  exact Path.cons hlex hpath

def numToks (n : Number) : List Tok :=
  match lex (bytesOf n.render) with
  | .ok toks => toks.dropLast.map (·.1)
  | .error _ => []

def commas : List (List Tok) → List Tok
  | [] => []
  | [ts] => ts
  | ts :: us :: tss => ts ++ .sym .comma :: commas (us :: tss)

mutual

def litToks : Value → List Tok
  | .null => [.sym .null]
  | .bool b => [.sym (if b then .true else .false)]
  | .number n => numToks n
  | .string s => [.str (rereadStr s)]
  | .array vs => .sym .lBrack :: (commas (itemToks vs) ++ [.sym .rBrack])
  | .object fs => .sym .lBrace :: (commas (fieldToks fs) ++ [.sym .rBrace])

def itemToks : List Value → List (List Tok)
  | [] => []
  | v :: vs => litToks v :: itemToks vs

def fieldToks : List (String × Value) → List (List Tok)
  | [] => []
  | (k, v) :: fs => (.str (rereadStr k) :: .sym .colon :: litToks v) :: fieldToks fs

end

omit [External] in
theorem Begins.append {cs : List Char} (h : Begins cs) (rs : List Char) : Begins (cs ++ rs) := by
  obtain ⟨c, tail, rfl, hc⟩ := h
  exact ⟨c, tail ++ rs, rfl, hc⟩

omit [External] in
theorem Begins.ascii {cs : List Char} (h : Begins cs) : Ascii cs := by
  obtain ⟨c, tail, rfl, hc⟩ := h
  exact hc

structure Tidy (v : Value) : Prop where
  spells : Spells (chars v) (litToks v)
  begins : Begins (chars v)

theorem tidy_word {v : Value} {c : Char} {cs : List Char} (hchars : chars v = c :: cs)
    (htoks : litToks v = [wordTok (String.ofList (c :: cs))]) (hc : isAlphaByte (byte c) = true)
    (hcs : cs.all (fun d => isWordByte (byte d)) = true) (hascii : (c :: cs).all (·.toNat < 128) = true)
    (hne : cs ≠ []) : Tidy v := by
  have hall : ∀ d ∈ c :: cs, d.toNat < 128 := List.all_iff_forall_prop.mp hascii
  refine ⟨?_, ?_⟩
  · rw [hchars, htoks]
    refine spells_lexeme fun rs hrs => ?_
    exact lexeme_word hc (List.all_eq_true.mp hcs) hall (fun _ => hne) fun b hb => (hrs.head hb).1
  · exact ⟨c, cs, hchars, hall c (List.mem_cons_self ..)⟩

theorem tidy_null : Tidy .null :=
  tidy_word chars_null rfl (by decide) (by decide) (by decide) (by decide)

theorem tidy_bool (b : Bool) : Tidy (.bool b) := by
  cases b with
  | true => exact tidy_word (chars_bool true) rfl (by decide) (by decide) (by decide) (by decide)
  | false => exact tidy_word (chars_bool false) rfl (by decide) (by decide) (by decide) (by decide)

theorem spells_str (s : String) : Spells (renderStr s).toList [.str (rereadStr s)] :=
  spells_lexeme fun _ _ => lexeme_string s _

omit [External] in
theorem begins_str (s : String) : Begins (renderStr s).toList :=
  ⟨_, _, renderStr_toList s, by decide⟩

theorem tidy_string (s : String) : Tidy (.string s) := by
  have hchars : chars (.string s) = (renderStr s).toList := by rw [chars, Value.render]
  exact ⟨by rw [hchars]; exact spells_str s, by rw [hchars]; exact begins_str s⟩

theorem spells_commas {cs ds : List Char} {ts us : List Tok} (h : Spells cs ts) (h' : Spells ds us)
    (hb : Begins ds) : Spells (cs ++ ',' :: ds) (ts ++ .sym .comma :: us) :=
  h.append (.symbol (by decide) h' fun rs _ => (hb.append rs).ascii) fun _ _ => by
    exact ⟨by decide, by decide, by decide⟩

theorem spells_items : ∀ {vs : List Value}, (∀ v ∈ vs, Tidy v) →
    Spells (itemChars vs) (commas (itemToks vs)) ∧ (vs ≠ [] → Begins (itemChars vs))
  | [], _ => ⟨spells_nil, fun h => absurd rfl h⟩
  | [v], h => by
    have hv := h v (List.mem_cons_self ..)
    exact ⟨hv.spells, fun _ => hv.begins⟩
  | v :: w :: vs, h => by
    have hv := h v (List.mem_cons_self ..)
    obtain ⟨htail, hbegins⟩ := spells_items fun u hu => h u (List.mem_cons_of_mem v hu)
    exact ⟨spells_commas hv.spells htail (hbegins nofun), fun _ => hv.begins.append _⟩

theorem spells_field (k : String) {v : Value} (h : Tidy v) :
    Spells ((renderStr k).toList ++ ':' :: chars v) (.str (rereadStr k) :: .sym .colon :: litToks v) :=
  (spells_str k).append (.symbol (by decide) h.spells fun rs _ => (h.begins.append rs).ascii)
    fun _ _ => by exact ⟨by decide, by decide, by decide⟩

theorem spells_fields : ∀ {fs : List (String × Value)}, (∀ p ∈ fs, Tidy p.2) →
    Spells (fieldChars fs) (commas (fieldToks fs)) ∧ (fs ≠ [] → Begins (fieldChars fs))
  | [], _ => ⟨spells_nil, fun h => absurd rfl h⟩
  | [(k, v)], h => by
    have hv := h (k, v) (List.mem_cons_self ..)
    exact ⟨spells_field k hv, fun _ => (begins_str k).append _⟩
  | (k, v) :: p :: fs, h => by
    have hv := h (k, v) (List.mem_cons_self ..)
    obtain ⟨htail, hbegins⟩ := spells_fields fun u hu => h u (List.mem_cons_of_mem (k, v) hu)
    have hcomma := spells_commas (spells_field k hv) htail (hbegins nofun)
    rw [List.append_assoc] at hcomma
    exact ⟨hcomma, fun _ => (begins_str k).append _⟩

theorem spells_between {a b : Char} {s t : Sym} {cs : List Char} {toks : List Tok} (ha : Lone a s)
    (hb : Lone b t) (hquiet : isWordByte (byte b) = false ∧ b ≠ '.') (h : Spells cs toks)
    (hcs : cs ≠ [] → Begins cs) : Spells (a :: (cs ++ [b])) (.sym s :: (toks ++ [.sym t])) := by
  have hbyte := oneByte_ascii hb.1
  refine .symbol ha (h.append (.symbol hb spells_nil fun rs hrs => hrs.ascii) fun rs _ => ?_) ?_
  · exact ⟨hbyte, hquiet⟩
  · intro rs _
    rw [List.append_assoc]
    cases cs with
    | nil => exact hbyte
    | cons c cs => exact ((hcs nofun).append _).ascii

theorem tidy_array {vs : List Value} (h : ∀ v ∈ vs, Tidy v) : Tidy (.array vs) := by
  obtain ⟨hspells, hbegins⟩ := spells_items h
  refine ⟨?_, ?_⟩
  · rw [chars_array]
    refine spells_between (by decide) (by decide) (by decide) hspells fun hne => hbegins ?_
    rintro rfl
    exact hne rfl
  · rw [chars_array]
    exact ⟨_, _, rfl, by decide⟩

theorem tidy_object {fs : List (String × Value)} (h : ∀ p ∈ fs, Tidy p.2) : Tidy (.object fs) := by
  obtain ⟨hspells, hbegins⟩ := spells_fields h
  refine ⟨?_, ?_⟩
  · rw [chars_object]
    refine spells_between (by decide) (by decide) (by decide) hspells fun hne => hbegins ?_
    rintro rfl
    exact hne rfl
  · rw [chars_object]
    exact ⟨_, _, rfl, by decide⟩

theorem lex_of_spells {cs : List Char} {toks : List Tok} (h : Spells cs toks) :
    ∃ ts, lex (utf8 cs) = .ok (ts ++ [(.sym .newline, (utf8 cs).length)]) ∧ ts.map (·.1) = toks := by
  obtain ⟨ts, hpath, hts⟩ := h 0 [] trivial
  exact ⟨ts, lex_iff.mpr ⟨ts, rfl, hpath⟩, hts⟩

theorem numToks_eq {n : Number} {toks : List Tok} (h : Spells n.render.toList toks) : numToks n = toks := by
  obtain ⟨ts, hlex, hts⟩ := lex_of_spells h
  unfold numToks
  rw [bytesOf_eq_utf8, hlex]
  simp [hts]

theorem tidy_number {n : Number} {toks : List Tok} (h : Spells n.render.toList toks)
    (hb : Begins n.render.toList) : Tidy (.number n) := by
  have hchars : chars (.number n) = n.render.toList := by rw [chars, Value.render]
  refine ⟨?_, by rwa [hchars]⟩
  rw [hchars, litToks, numToks_eq h]
  exact h

omit [External] in
theorem parse_of_digit {c : Char} (cs : List Char) (hc : c.isDigit = true) :
    F64.parse (String.ofList (c :: cs)) = F64.decimalOf (c :: cs) := by
  have hunsign : F64.unsign (c :: cs) = (false, c :: cs) := by
    obtain ⟨-, -, -, -, -, hminus⟩ := digit_ne hc
    have hplus : c ≠ '+' := by
      rintro rfl
      revert hc
      decide
    unfold F64.unsign
    split
    · next heq => exact absurd (List.cons.inj heq).1 hminus
    · next heq => exact absurd (List.cons.inj heq).1 hplus
    · rfl
  have hlower : c.toLower = c := by
    simp only [Char.isDigit, Bool.and_eq_true, decide_eq_true_eq] at hc
    have hle : c.val.toNat ≤ 57 := hc.2
    unfold Char.toLower
    refine dif_neg ?_
    rintro ⟨hge, -⟩
    have : 65 ≤ c.val.toNat := hge
    omega
  have hword : ∀ w : String, w.toList.head?.map Char.isDigit = some false →
      (c :: cs).map Char.toLower ≠ w.toList := by
    intro w hw heq
    rw [← heq, List.map_cons, hlower] at hw
    simp [hc] at hw
  unfold F64.parse
  rw [String.toList_ofList, hunsign]
  dsimp only
  rw [if_neg (not_or.mpr ⟨hword _ (by decide), hword _ (by decide)⟩), if_neg (hword _ (by decide))]
  simp

omit [External] in
theorem parse_digits {c : Char} {ds : List Char} (h : ∀ d ∈ c :: ds, d.isDigit = true) :
    F64.parse (String.ofList (c :: ds)) = some (F64.ofDecimal (F64.natOf (c :: ds)) 0) := by
  rw [parse_of_digit ds (h c (List.mem_cons_self ..))]
  have hrun : F64.digitRun (c :: ds) = (c :: ds, []) := by
    have hnil : ∀ d, ([] : List Char).head? = some d → d.isDigit = false := nofun
    have hall := digitRun_append h hnil
    rwa [List.append_nil] at hall
  unfold F64.decimalOf
  rw [hrun]
  simp [F64.exponentOf]

omit [External] in
theorem natOf_toDigits (n : Nat) : F64.natOf (Nat.toDigits 10 n) = n := by
  have h := Nat.ofDigitChars_ten_toDigits (n := n)
  unfold Nat.ofDigitChars at h
  exact h

theorem lexeme_digits (n : Nat) {rs : List Char} (hrs : Calm rs) :
    Lexeme (utf8 (Nat.toDigits 10 n)) (some (.num (F64.ofDecimal n 0))) (utf8 rs) := by
  obtain ⟨c, cs, hdigits, hc⟩ := toDigits_cons n
  have hall : ∀ d ∈ c :: cs, d.isDigit = true := by
    intro d hd
    rw [← hdigits] at hd
    exact Nat.isDigit_of_mem_toDigits (by decide) (by decide) hd
  have hparse := parse_digits hall
  rw [← hdigits, natOf_toDigits] at hparse
  rw [hdigits] at hparse ⊢
  exact lexeme_number hc (fun d hd => .inl (hall d (List.mem_cons_of_mem _ hd))) hparse
    fun b hb => (hrs.head hb).2

omit [External] in
theorem begins_digits (n : Nat) : Begins (Nat.toDigits 10 n) := by
  obtain ⟨c, cs, hdigits, hc⟩ := toDigits_cons n
  exact ⟨c, cs, hdigits, digit_ascii hc⟩

theorem spells_posInt (n : UInt64) :
    Spells (Number.posInt n).render.toList [.num (F64.ofDecimal n.toNat 0)] := by
  have hchars := chars_posInt n
  rw [chars, Value.render] at hchars
  rw [hchars]
  exact spells_lexeme fun rs hrs => lexeme_digits n.toNat hrs

theorem spells_negInt (n : Int64) (h : n < 0) :
    Spells (Number.negInt n h).render.toList
      [.sym .minus, .num (F64.ofDecimal (-n.toInt).toNat 0)] := by
  have hchars := chars_negInt n h
  rw [chars, Value.render] at hchars
  rw [hchars]
  refine .symbol (by decide) (spells_lexeme fun rs hrs => lexeme_digits _ hrs) fun rs _ => ?_
  exact ((begins_digits _).append rs).ascii

theorem tidy_posInt (n : UInt64) : Tidy (.number (.posInt n)) := by
  have hchars := chars_posInt n
  rw [chars, Value.render] at hchars
  exact tidy_number (spells_posInt n) (by rw [hchars]; exact begins_digits _)

theorem tidy_negInt (n : Int64) (h : n < 0) : Tidy (.number (.negInt n h)) := by
  have hchars := chars_negInt n h
  rw [chars, Value.render] at hchars
  exact tidy_number (spells_negInt n h) (by rw [hchars]; exact ⟨_, _, rfl, by decide⟩)

end

end Vejas.Vjs
