import Mathlib.Data.List.Infix
import Vejas.Vjs.Parser
import Vejas.Vjs.Slices
import Vejas.Vjs.Spelling

/-! The holes of f-strings. The text of a hole is cut out by counting braces before any of it is
lexed, so a brace inside a string of the hole counts as much as one of a document. -/

namespace Vejas.Vjs
open Rust

/-- No prefix closes more braces than it opens, and the whole closes as many. -/
def Balanced (b : Bytes) : Prop :=
  (∀ w ∈ b.inits, w.count (byte '\x7d') ≤ w.count (byte '\x7b')) ∧ b.count (byte '\x7d') = b.count (byte '\x7b')

instance (b : Bytes) : Decidable (Balanced b) := inferInstanceAs (Decidable (_ ∧ _))

theorem count_open_cons (b : Bytes) : (byte '\x7b' :: b).count (byte '\x7b') = b.count (byte '\x7b') + 1 ∧
    (byte '\x7b' :: b).count (byte '\x7d') = b.count (byte '\x7d') :=
  ⟨List.count_cons_self, List.count_cons_of_ne (by decide)⟩

theorem count_close_cons (b : Bytes) : (byte '\x7d' :: b).count (byte '\x7b') = b.count (byte '\x7b') ∧
    (byte '\x7d' :: b).count (byte '\x7d') = b.count (byte '\x7d') + 1 :=
  ⟨List.count_cons_of_ne (by decide), List.count_cons_self⟩

theorem holeEnd_append {b : Bytes} {depth : Nat} (j : Nat) (rest : Bytes)
    (h : ∀ w ∈ b.inits, w.count (byte '\x7d') ≤ w.count (byte '\x7b') + depth) :
    holeEnd (depth + 1) j (b ++ rest) =
      holeEnd (b.count (byte '\x7b') + depth - b.count (byte '\x7d') + 1) (j + b.length) rest := by
  induction b generalizing depth j with
  | nil => simp
  | cons c b ih =>
    have htail : ∀ w ∈ b.inits, c :: w ∈ (c :: b).inits := by
      intro w hw
      rw [List.mem_inits] at hw ⊢
      exact (List.prefix_cons_inj c).mpr hw
    rw [List.cons_append, holeEnd, List.length_cons]
    by_cases hopen : c = byte '\x7b'
    · subst hopen
      rw [if_pos rfl, @ih (depth + 1), (count_open_cons b).1, (count_open_cons b).2]
      · congr 1 <;> omega
      · intro w hw
        have hw := h _ (htail w hw)
        rw [(count_open_cons w).1, (count_open_cons w).2] at hw
        omega
    · rw [if_neg hopen]
      by_cases hclose : c = byte '\x7d'
      · subst hclose
        have hone := h [byte '\x7d'] (htail [] (by simp))
        rw [(count_close_cons []).1, (count_close_cons []).2, List.count_nil, List.count_nil] at hone
        obtain ⟨depth, rfl⟩ : ∃ d, depth = d + 1 := ⟨depth - 1, by omega⟩
        rw [if_pos rfl, @ih depth, (count_close_cons b).1, (count_close_cons b).2]
        · congr 1 <;> omega
        · intro w hw
          have hw := h _ (htail w hw)
          rw [(count_close_cons w).1, (count_close_cons w).2] at hw
          omega
      · rw [if_neg hclose, @ih depth, List.count_cons_of_ne hopen, List.count_cons_of_ne hclose]
        · congr 1
          omega
        · intro w hw
          have hw := h _ (htail w hw)
          rwa [List.count_cons_of_ne hopen, List.count_cons_of_ne hclose] at hw

theorem inits_of_holeEnd {b rest : Bytes} {depth j k : Nat} (h : holeEnd (depth + 1) j (b ++ rest) = some k)
    (hk : j + b.length < k) : ∀ w ∈ b.inits, w.count (byte '\x7d') ≤ w.count (byte '\x7b') + depth := by
  induction b generalizing depth j with
  | nil =>
    intro w hw
    cases List.mem_singleton.mp hw
    exact Nat.zero_le _
  | cons c b ih =>
    rw [List.length_cons] at hk
    intro w hw
    obtain ⟨r, hr⟩ := (List.mem_inits _ _).mp hw
    cases w with
    | nil => exact Nat.zero_le _
    | cons d w =>
      obtain ⟨rfl, htail⟩ := List.cons.inj hr
      have hmem : w ∈ b.inits := (List.mem_inits _ _).mpr ⟨r, htail⟩
      rw [List.cons_append, holeEnd] at h
      split at h
      next hopen =>
        subst hopen
        have := ih h (by omega) w hmem
        rw [(count_open_cons w).1, (count_open_cons w).2]
        omega
      next hopen =>
        split at h
        next hclose =>
          subst hclose
          cases depth with
          | zero =>
            rw [holeEnd] at h
            cases h
            omega
          | succ depth =>
            have := ih h (by omega) w hmem
            rw [(count_close_cons w).1, (count_close_cons w).2]
            omega
        next hclose =>
          have := ih h (by omega) w hmem
          rwa [List.count_cons_of_ne hopen, List.count_cons_of_ne hclose]

theorem holeEnd_none {rest : Bytes} (h : byte '\x7d' ∉ rest) (depth j : Nat) :
    holeEnd (depth + 1) j rest = none := by
  cases hend : holeEnd (depth + 1) j rest with
  | none => rfl
  | some k =>
    obtain ⟨inner, r, rfl, -⟩ := holeEnd_close hend (Nat.succ_pos _)
    exact absurd (List.mem_append_right _ List.mem_cons_self) h

theorem holeEnd_iff_balanced {b rest : Bytes} (hrest : byte '\x7d' ∉ rest) :
    holeEnd 1 0 (b ++ byte '\x7d' :: rest) = some (b.length + 1) ↔ Balanced b := by
  constructor
  · intro h
    have hinits := @inits_of_holeEnd _ _ 0 _ _ h (by omega)
    refine ⟨hinits, ?_⟩
    rw [holeEnd_append 0 _ hinits] at h
    have hwhole := hinits b ((List.mem_inits _ _).mpr (List.prefix_refl b))
    -- a brace still open would be looked for in the rest
    cases hleft : b.count (byte '\x7b') + 0 - b.count (byte '\x7d') with
    | zero => omega
    | succ n =>
      rw [hleft, holeEnd, if_neg (by decide), if_pos rfl, holeEnd_none hrest] at h
      cases h
  · rintro ⟨hinits, hcount⟩
    rw [holeEnd_append 0 _ hinits, hcount, Nat.add_zero (List.count _ _), Nat.sub_self, holeEnd, if_neg (by decide),
      if_pos rfl, holeEnd, Nat.zero_add]

def Verbatim (s : String) : Prop := ∀ c ∈ s.toList, c ∉ ['"', '\x7b', '\x7d', '\\']

theorem Verbatim.bytes {s : String} (h : Verbatim s) {b : UInt8} (hb : b ∈ bytesOf s) :
    b ≠ byte '"' ∧ b ≠ byte '\x7b' ∧ b ≠ byte '\x7d' ∧ b ≠ byte '\\' := by
  have habsent : ∀ c : Char, c.toNat < 128 → c ∈ ['"', '\x7b', '\x7d', '\\'] → b ≠ byte c := by
    rintro c hc hmem rfl
    rw [bytesOf_eq_utf8] at hb
    have hin := mem_utf8_ascii hb (by rwa [byte_toNat_ascii hc])
    rw [char_of_byte hc] at hin
    exact h c hin hmem
  exact ⟨habsent _ (by decide) (by decide), habsent _ (by decide) (by decide), habsent _ (by decide) (by decide),
    habsent _ (by decide) (by decide)⟩

theorem head_of_bytes {s : String} {c : Char} (hc : c.toNat < 128) (h : (bytesOf s).head? = some (byte c)) :
    s.toList.head? = some c := by
  rw [bytesOf_eq_utf8] at h
  cases hs : s.toList with
  | nil =>
    rw [hs] at h
    cases h
  | cons d ds =>
    rw [hs] at h
    by_cases hd : d.toNat < 128
    · rw [utf8_ascii_cons ds hd, List.head?_cons, Option.some.injEq] at h
      rw [List.head?_cons, ← char_of_byte hd, h, char_of_byte hc]
    · obtain ⟨b, bs, henc, -⟩ := encode_cons d
      rw [utf8_cons, henc, List.cons_append, List.head?_cons, Option.some.injEq] at h
      have hhigh := encode_high (Nat.le_of_not_lt hd) (henc ▸ List.mem_cons_self : b ∈ _)
      rw [h, byte_toNat_ascii hc] at hhigh
      omega

section
variable [External]

theorem lexFstring_verbatim {src b r : Bytes}
    (hb : ∀ c ∈ b, c ≠ byte '"' ∧ c ≠ byte '\x7b' ∧ c ≠ byte '\x7d' ∧ c ≠ byte '\\') (quote fuel : Nat) (parts : List FPart) (lit : Bytes)
    {i : Nat} (hd : src.drop i = b ++ r) : lexFstring src quote (fuel + b.length) parts lit i =
      lexFstring src quote fuel parts (b.reverse ++ lit) (i + b.length) := by
  induction b generalizing i lit with
  | nil => rfl
  | cons c b ih =>
    obtain ⟨hquote, hopen, hclose, hslash⟩ := hb c List.mem_cons_self
    have htail := ih (fun d hd => hb d (List.mem_cons_of_mem _ hd)) (c :: lit) (i := i + 1) (drop_past (w := [c]) hd)
    rw [List.length_cons, ← Nat.add_assoc, lexFstring, hd]
    dsimp only [List.cons_append]
    rw [if_neg hquote, if_neg (by rintro ⟨h | h, -⟩ <;> contradiction), if_neg hopen, beq_false_of_ne hslash]
    dsimp only
    rw [htail, List.reverse_cons, List.append_assoc, List.singleton_append]
    congr 1
    omega

theorem lexFstring_parts : ∀ (fuel : Nat) {src : Bytes} {quote i ni : Nat} {parts ps : List FPart} {lit : Bytes},
    lexFstring src quote fuel parts lit i = .ok (ps, ni) → ∃ more, ps = parts ++ more
  | 0, _, _, _, _, _, _, _, h => by cases h
  | fuel + 1, src, quote, i, ni, parts, ps, lit, h => by
    have hflush : ∃ more, flush lit parts = parts ++ more := by
      unfold flush
      split
      · exact ⟨[], (List.append_nil _).symm⟩
      · exact ⟨_, rfl⟩
    rw [lexFstring] at h
    split at h
    · cases h
    split at h
    · cases h
      exact hflush
    split at h
    · exact lexFstring_parts fuel h
    split at h
    · split at h
      · cases h
      · obtain ⟨_, -, h⟩ := of_bind_ok h
        obtain ⟨_, -, h⟩ := of_bind_ok h
        obtain ⟨more, rfl⟩ := lexFstring_parts fuel h
        obtain ⟨mid, hmid⟩ := hflush
        exact ⟨mid ++ ([.expr _] ++ more), by rw [hmid, List.append_assoc, List.append_assoc]⟩
    split at h
    · exact lexFstring_parts fuel h
    · exact lexFstring_parts fuel h

omit [External] in
def holed (before inner after : String) : String := "f\"" ++ before ++ "\x7b" ++ inner ++ "\x7d" ++ after ++ "\""

omit [External] in
def litParts (s : String) : List FPart := if s = "" then [] else [.lit s]

omit [External] in
theorem bytesOf_holed (before inner after : String) : bytesOf (holed before inner after) =
    byte 'f' :: byte '"' :: (bytesOf before ++ byte '\x7b' :: (bytesOf inner ++ byte '\x7d' :: (bytesOf after ++ [byte '"']))) := by
  have hf : bytesOf "f\"" = [byte 'f', byte '"'] := by decide
  have ho : bytesOf "\x7b" = [byte '\x7b'] := by decide
  have hc : bytesOf "\x7d" = [byte '\x7d'] := by decide
  have hq : bytesOf "\"" = [byte '"'] := by decide
  simp only [holed, bytesOf_append, hf, ho, hc, hq, List.append_assoc, List.cons_append, List.nil_append]

omit [External] in
theorem flush_bytesOf (s : String) (parts : List FPart) : flush (bytesOf s).reverse parts = parts ++ litParts s := by
  unfold flush litParts
  by_cases hs : s = ""
  · subst hs
    rw [if_pos rfl, if_pos (by decide), List.append_nil]
  · have hne : (bytesOf s).reverse.isEmpty = false := by
      rw [List.isEmpty_reverse]
      cases hb : bytesOf s with
      | cons b bs => rfl
      | nil =>
        have htext := textOf_bytesOf s
        rw [hb] at htext
        exact absurd htext.symm hs
    rw [if_neg hs, hne, List.reverse_reverse, textOf_bytesOf]
    rfl

section
variable {before inner after : String}

omit [External] in
theorem drop_holed : (bytesOf (holed before inner after)).drop (2 + (bytesOf before).length) =
    byte '\x7b' :: (bytesOf inner ++ byte '\x7d' :: (bytesOf after ++ [byte '"'])) := by
  rw [bytesOf_holed]
  exact drop_past (i := 2) rfl

theorem lexFstring_before (hb : Verbatim before) (fuel : Nat) :
    lexFstring (bytesOf (holed before inner after)) 1 (fuel + (bytesOf before).length) [] [] 2 =
      lexFstring (bytesOf (holed before inner after)) 1 fuel [] (bytesOf before).reverse (2 + (bytesOf before).length) := by
  rw [lexFstring_verbatim (fun c hc => hb.bytes hc), List.append_nil]
  rw [bytesOf_holed]
  rfl

theorem lexFstring_holed {toks : List Spanned} (hb : Verbatim before) (ha : Verbatim after)
    (hole : Hole (bytesOf inner) (bytesOf after ++ [byte '"'])) (hlex : lex (bytesOf inner) = .ok toks) :
    ∃ fuel, lexFstring (bytesOf (holed before inner after)) 1 fuel [] [] 2 =
      .ok (litParts before ++ [.expr toks] ++ litParts after, (bytesOf (holed before inner after)).length) := by
  have hrest := drop_hole (@drop_holed before inner after)
  refine ⟨(bytesOf inner).length + 1 + (bytesOf after).length + 1 + (bytesOf before).length, ?_⟩
  unfold lex at hlex
  rw [lexFstring_before hb, lexFstring_hole (whole_bytesOf _) drop_holed hole,
    lexFrom_eq (Nat.le_add_right _ _) (by rw [hlex]; intro h; cases h), hlex]
  show lexFstring _ _ _ _ _ _ = _
  rw [lexFstring_verbatim (fun c hc => ha.bytes hc) _ _ _ _ hrest, List.append_nil, lexFstring, drop_past hrest]
  dsimp only
  rw [if_pos rfl, flush_bytesOf, flush_bytesOf, List.nil_append, bytesOf_holed]
  congr 2
  simp only [List.length_cons, List.length_append, List.length_nil]
  omega

omit [External] in
theorem holed_head (hopen : inner.toList.head? ≠ some '\x7b') :
    (bytesOf inner ++ byte '\x7d' :: (bytesOf after ++ [byte '"'])).head? ≠ some (byte '\x7b') := by
  intro hbrace
  cases hi : bytesOf inner with
  | nil =>
    rw [hi] at hbrace
    exact absurd (Option.some.inj hbrace) (by decide)
  | cons c cs =>
    rw [hi] at hbrace
    exact hopen (head_of_bytes (by decide) (by rw [hi]; exact hbrace))

theorem holeEnd_of_holed {toks : List Spanned} {fuel ni : Nat} {more : List FPart} (hb : Verbatim before)
    (hopen : inner.toList.head? ≠ some '\x7b') (hlex : lex (bytesOf inner) = .ok toks)
    (h : lexFstring (bytesOf (holed before inner after)) 1 (fuel + (bytesOf before).length) [] [] 2 =
      .ok (litParts before ++ [.expr toks] ++ more, ni)) :
    holeEnd 1 0 (bytesOf inner ++ byte '\x7d' :: (bytesOf after ++ [byte '"'])) = some ((bytesOf inner).length + 1) := by
  rw [lexFstring_before hb] at h
  cases fuel with
  | zero => cases h
  | succ fuel =>
    have hhead := @holed_head inner after hopen
    cases hend : holeEnd 1 (2 + (bytesOf before).length + 1)
        (bytesOf inner ++ byte '\x7d' :: (bytesOf after ++ [byte '"'])) with
    | none =>
      rw [lexFstring, drop_holed] at h
      dsimp only at h
      rw [if_neg (by decide), if_neg fun hc => hhead hc.2, if_pos rfl, hend] at h
      cases h
    | some k =>
      obtain ⟨cut, r, hcut, -, hole⟩ := hole_of_holeEnd hend hhead
      rw [lexFstring_hole (whole_bytesOf _) (by rw [drop_holed, hcut]) hole] at h
      obtain ⟨toks', hlex', h⟩ := of_bind_ok h
      obtain ⟨more', hparts⟩ := lexFstring_parts _ h
      rw [flush_bytesOf, List.nil_append, List.append_assoc, List.append_assoc] at hparts
      obtain ⟨heq, -⟩ := List.cons.inj (List.append_cancel_left hparts)
      cases heq
      obtain ⟨ts, hts, -⟩ := path_of_lexFrom _ hlex' (Nat.zero_le _)
      obtain ⟨ts', hts', -⟩ := lex_iff.mp hlex
      have hlast := congrArg List.getLast? (hts.symm.trans hts')
      rw [List.getLast?_concat, List.getLast?_concat, Option.some.injEq, Prod.mk.injEq] at hlast
      rw [hcut, hole.2, hlast.2]

/-- A hole holds the tokens its text has on its own exactly if the braces of the text are balanced,
those in its strings and comments included. -/
theorem hole_is_inner_iff {toks : List Spanned} (hlex : lex (bytesOf inner) = .ok toks)
    (hopen : inner.toList.head? ≠ some '\x7b') (hb : Verbatim before) (ha : Verbatim after) :
    lex (bytesOf (holed before inner after)) = .ok
        [(.fStr (litParts before ++ [.expr toks] ++ litParts after), 0),
          (.sym .newline, (bytesOf (holed before inner after)).length)] ↔
      Balanced (bytesOf inner) := by
  have hclose : byte '\x7d' ∉ bytesOf after ++ [byte '"'] := by
    rw [List.mem_append]
    rintro (h | h)
    · exact (ha.bytes h).2.2.1 rfl
    · exact absurd h (by decide)
  rw [← holeEnd_iff_balanced hclose]
  constructor
  · intro h
    obtain ⟨fuel, hfuel⟩ : ∃ fuel, (bytesOf (holed before inner after)).length = fuel + (bytesOf before).length := by
      rw [bytesOf_holed]
      refine ⟨2 + (1 + ((bytesOf inner).length + (1 + ((bytesOf after).length + 1)))), ?_⟩
      simp only [List.length_cons, List.length_append, List.length_nil]
      omega
    unfold lex at h
    rw [lexFrom_succ _ (by rw [List.drop_zero, bytesOf_holed]), lexOne_fstring _ _ rfl] at h
    obtain ⟨⟨t, ni⟩, hone, h⟩ := of_bind_ok h
    obtain ⟨⟨parts, ni'⟩, hparts, hone⟩ := of_bind_ok hone
    cases hone
    obtain ⟨ts, -, h⟩ := of_bind_ok h
    have hfirst := (List.cons.inj (Except.ok.inj h)).1
    have htok := (Prod.mk.inj hfirst).1
    cases htok
    rw [hfuel] at hparts
    exact holeEnd_of_holed hb hopen hlex hparts
  · intro hend
    have hole : Hole (bytesOf inner) (bytesOf after ++ [byte '"']) := ⟨holed_head hopen, hend⟩
    obtain ⟨fuel, hrun⟩ := lexFstring_holed hb ha hole hlex
    rw [lex_iff]
    refine ⟨[(.fStr (litParts before ++ [.expr toks] ++ litParts after), 0)], rfl, ?_⟩
    have hshape := bytesOf_holed before inner after
    rw [hshape] at hrun ⊢
    exact Path.one (.fstring [] (hrun.trans (by rw [List.length_cons, List.length_cons, Nat.add_comm 2])))

end

end

theorem hole_is_inner_upper :
    @lex ascii (bytesOf (holed "at " "upper(\"\x7bx\x7d\")" "")) = .ok
      [(.fStr [.lit "at ", .expr [(.ident "upper", 0), (.sym .lParen, 5), (.str "\x7bx\x7d", 6), (.sym .rParen, 11),
        (.sym .newline, 12)]], 0), (.sym .newline, 20)] := by
  have hbefore : Verbatim "at " := by
    intro c hc
    have hall : ("at ".toList.all fun c => !(['"', '\x7b', '\x7d', '\\'].contains c)) = true := by decide
    simpa using List.all_eq_true.mp hall c hc
  exact (@hole_is_inner_iff ascii "at " "upper(\"\x7bx\x7d\")" "" _ rfl (by decide) hbefore
    (fun c hc => nomatch hc)).mpr (by decide)

/-- The expression `"}"` is read on its own; in a hole its brace ends the hole inside the string. -/
theorem hole_ends_inside_string :
    @lex ascii (bytesOf "\"\x7d\"") = .ok [(.str "\x7d", 0), (.sym .newline, 3)] ∧
    @expr ascii 3 ⟨[(.str "\x7d", 0), (.sym .newline, 3)], bytesOf "\"\x7d\""⟩ 0 0 = .ok (.lit (.string "\x7d"), 1) ∧
    @lex ascii (bytesOf (holed "" "\"\x7d\"" "")) = .error (.err "line 1: unterminated string") ∧
    @lex ascii (bytesOf (holed "" "\"\x7d\"" "")) ≠ .ok
      [(.fStr (litParts "" ++ [.expr [(.str "\x7d", 0), (.sym .newline, 3)]] ++ litParts ""), 0),
        (.sym .newline, (bytesOf (holed "" "\"\x7d\"" "")).length)] := by
  have hfails : @lex ascii (bytesOf (holed "" "\"\x7d\"" "")) = .error (.err "line 1: unterminated string") := rfl
  refine ⟨rfl, rfl, hfails, ?_⟩
  rw [hfails]
  nofun

end Vejas.Vjs
