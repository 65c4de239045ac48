import Vejas.Vjs.Lexer

/-! The bytes of a text and back: decoding what was encoded gives the text, and a character above
ASCII has no byte below 128. -/

namespace Vejas.Vjs
open Rust

def utf8 (cs : List Char) : Bytes := cs.flatMap String.utf8EncodeChar

theorem bytesOf_ofList (cs : List Char) : bytesOf (String.ofList cs) = utf8 cs := by
  unfold bytesOf utf8
  simp [String.toUTF8, List.utf8Encode]

theorem bytesOf_eq_utf8 (s : String) : bytesOf s = utf8 s.toList := by
  rw [← bytesOf_ofList, String.ofList_toList]

theorem bytesOf_append (s t : String) : bytesOf (s ++ t) = bytesOf s ++ bytesOf t := by
  unfold bytesOf
  simp

theorem utf8_append (cs ds : List Char) : utf8 (cs ++ ds) = utf8 cs ++ utf8 ds := List.flatMap_append

theorem utf8_cons (c : Char) (cs : List Char) : utf8 (c :: cs) = String.utf8EncodeChar c ++ utf8 cs :=
  List.flatMap_cons

theorem char_toNat_lt (c : Char) : c.val.toNat < 0xD800 ∨ 0xDFFF < c.val.toNat ∧ c.val.toNat < 0x110000 :=
  c.valid

theorem encode_ascii {c : Char} (h : c.toNat < 128) :
    String.utf8EncodeChar c = [UInt8.ofNat c.toNat] := by
  unfold String.utf8EncodeChar
  exact if_pos (Nat.le_of_lt_succ h)

theorem decode_one {a : UInt8} (rest : Bytes) (h : a.toNat < 0x80) :
    decodeLossy (a :: rest) = Char.ofNat a.toNat :: decodeLossy rest := by
  rw [decodeLossy.eq_def]
  exact if_pos (UInt8.lt_iff_toNat_lt.mpr h)

theorem within_iff (lo hi b : UInt8) : within lo hi b = true ↔ lo.toNat ≤ b.toNat ∧ b.toNat ≤ hi.toNat := by
  unfold within
  rw [Bool.and_eq_true, decide_eq_true_iff, decide_eq_true_iff, UInt8.le_iff_toNat_le,
    UInt8.le_iff_toNat_le]

theorem isCont_iff (b : UInt8) : isCont b = true ↔ 0x80 ≤ b.toNat ∧ b.toNat ≤ 0xBF :=
  within_iff 0x80 0xBF b

theorem not_ascii {a : UInt8} (h : 0x80 ≤ a.toNat) : ¬ a < 0x80 := by
  rw [UInt8.lt_iff_toNat_lt]
  exact Nat.not_lt_of_le h

theorem not_within {lo hi a : UInt8} (h : hi.toNat < a.toNat) : ¬ within lo hi a = true := by
  rw [within_iff]
  omega

theorem decode_two {a b : UInt8} (rest : Bytes) (ha : 0xC2 ≤ a.toNat ∧ a.toNat ≤ 0xDF)
    (hb : isCont b = true) :
    decodeLossy (a :: b :: rest) =
      Char.ofNat (a.toNat % 32 * 64 + bits6 b) :: decodeLossy rest := by
  rw [decodeLossy.eq_def]
  dsimp only
  rw [if_neg (not_ascii (by omega)), if_pos ((within_iff 0xC2 0xDF a).mpr ha), if_pos hb]

theorem decode_three {a b c : UInt8} (rest : Bytes) (ha : 0xE0 ≤ a.toNat ∧ a.toNat ≤ 0xEF)
    (hb : within (if a = 0xE0 then 0xA0 else 0x80) (if a = 0xED then 0x9F else 0xBF) b = true)
    (hc : isCont c = true) :
    decodeLossy (a :: b :: c :: rest) =
      Char.ofNat ((a.toNat % 16 * 64 + bits6 b) * 64 + bits6 c) :: decodeLossy rest := by
  have htwo : ¬ within 0xC2 0xDF a = true := not_within (Nat.lt_of_lt_of_le (by decide) ha.1)
  rw [decodeLossy.eq_def]
  dsimp only
  rw [if_neg (not_ascii (by omega)), if_neg htwo, if_pos ((within_iff 0xE0 0xEF a).mpr ha), hb, hc]
  rfl

theorem decode_four {a b c d : UInt8} (rest : Bytes) (ha : 0xF0 ≤ a.toNat ∧ a.toNat ≤ 0xF4)
    (hb : within (if a = 0xF0 then 0x90 else 0x80) (if a = 0xF4 then 0x8F else 0xBF) b = true)
    (hc : isCont c = true) (hd : isCont d = true) :
    decodeLossy (a :: b :: c :: d :: rest) =
      Char.ofNat (((a.toNat % 8 * 64 + bits6 b) * 64 + bits6 c) * 64 + bits6 d) ::
        decodeLossy rest := by
  have htwo : ¬ within 0xC2 0xDF a = true := not_within (Nat.lt_of_lt_of_le (by decide) ha.1)
  have hthree : ¬ within 0xE0 0xEF a = true := not_within (Nat.lt_of_lt_of_le (by decide) ha.1)
  rw [decodeLossy.eq_def]
  dsimp only
  rw [if_neg (not_ascii (by omega)), if_neg htwo, if_neg hthree,
    if_pos ((within_iff 0xF0 0xF4 a).mpr ha), hb, hc, hd]
  rfl

theorem byte_toNat {n : Nat} (h : n < 256) : (UInt8.ofNat n).toNat = n := by
  rw [UInt8.toNat_ofNat']
  exact Nat.mod_eq_of_lt h

theorem isCont_ofNat {n : Nat} : isCont (UInt8.ofNat (n % 0x40 + 0x80)) = true := by
  rw [isCont_iff, byte_toNat (by omega)]
  omega

theorem bits6_ofNat {n : Nat} : bits6 (UInt8.ofNat (n % 0x40 + 0x80)) = n % 0x40 := by
  unfold bits6
  rw [byte_toNat (by omega)]
  omega

theorem within_second (lo hi : Nat) {a b : Nat} {lo' hi' : UInt8} (ha : a < 256) (hlo : lo < 256)
    (hhi : hi < 256) (hb : b % 0x40 + 0x80 ≤ 0xBF)
    (hmin : a = lo → lo'.toNat ≤ b % 0x40 + 0x80) (hmax : a = hi → b % 0x40 + 0x80 ≤ hi'.toNat) :
    within (if UInt8.ofNat a = UInt8.ofNat lo then lo' else 0x80)
      (if UInt8.ofNat a = UInt8.ofNat hi then hi' else 0xBF) (UInt8.ofNat (b % 0x40 + 0x80)) = true := by
  have hinj : ∀ {m n : Nat}, m < 256 → n < 256 → UInt8.ofNat m = UInt8.ofNat n → m = n := by
    intro m n hm hn h
    rw [← byte_toNat hm, ← byte_toNat hn, h]
  rw [within_iff, byte_toNat (by omega)]
  constructor
  · split
    next h => exact hmin (hinj ha hlo h)
    · exact Nat.le_add_left _ _
  · split
    next h => exact hmax (hinj ha hhi h)
    · exact hb

theorem decode_encode (c : Char) (rest : Bytes) :
    decodeLossy (String.utf8EncodeChar c ++ rest) = c :: decodeLossy rest := by
  have hvalid := char_toNat_lt c
  have hback : ∀ {n}, n = c.val.toNat → Char.ofNat n = c := by
    rintro _ rfl
    exact Char.ofNat_toNat c
  unfold String.utf8EncodeChar
  dsimp only
  split
  · rw [List.singleton_append, decode_one _ (by rw [byte_toNat (by omega)]; omega)]
    rw [hback (byte_toNat (by omega))]
  split
  · rw [List.cons_append, List.singleton_append,
      decode_two _ (by rw [byte_toNat (by omega)]; omega) isCont_ofNat, bits6_ofNat,
      byte_toNat (by omega), hback (by omega)]
  split
  · rw [List.cons_append, List.cons_append, List.singleton_append,
      decode_three _ (by rw [byte_toNat (by omega)]; omega) ?_ isCont_ofNat, bits6_ofNat,
      bits6_ofNat, byte_toNat (by omega), hback (by omega)]
    refine within_second 0xE0 0xED (by omega) (by decide) (by decide) (by omega) ?_ ?_
    · intro h
      show 0xA0 ≤ _
      omega
    · intro h
      show _ ≤ 0x9F
      omega
  · rw [List.cons_append, List.cons_append, List.cons_append, List.singleton_append,
      decode_four _ (by rw [byte_toNat (by omega)]; omega) ?_ isCont_ofNat isCont_ofNat, bits6_ofNat,
      bits6_ofNat, bits6_ofNat, byte_toNat (by omega), hback (by omega)]
    refine within_second 0xF0 0xF4 (by omega) (by decide) (by decide) (by omega) ?_ ?_
    · intro h
      show 0x90 ≤ _
      omega
    · intro h
      show _ ≤ 0x8F
      omega

theorem decodeLossy_utf8 (cs : List Char) (rest : Bytes) :
    decodeLossy (utf8 cs ++ rest) = cs ++ decodeLossy rest := by
  induction cs with
  | nil => rfl
  | cons c cs ih => rw [utf8_cons, List.append_assoc, decode_encode, ih, List.cons_append]

theorem textOf_utf8 (cs : List Char) : textOf (utf8 cs) = String.ofList cs := by
  unfold textOf
  rw [← List.append_nil (utf8 cs), decodeLossy_utf8]
  simp [decodeLossy]

theorem textOf_bytesOf (s : String) : textOf (bytesOf s) = s := by
  rw [bytesOf_eq_utf8, textOf_utf8, String.ofList_toList]

theorem encode_cons (c : Char) : ∃ b bs, String.utf8EncodeChar c = b :: bs ∧ isCont b = false ∧
    ∀ x ∈ bs, isCont x = true := by
  have hvalid := char_toNat_lt c
  have hnot : ∀ {n : Nat}, n < 256 → n < 0x80 ∨ 0xBF < n → isCont (UInt8.ofNat n) = false := by
    intro n hn h
    rw [← Bool.not_eq_true, isCont_iff, byte_toNat hn]
    omega
  unfold String.utf8EncodeChar
  dsimp only
  split
  · exact ⟨_, _, rfl, hnot (by omega) (by omega), nofun⟩
  split
  · refine ⟨_, _, rfl, hnot (by omega) (by omega), ?_⟩
    intro x hx
    rw [List.mem_singleton.mp hx]
    exact isCont_ofNat
  split
  · refine ⟨_, _, rfl, hnot (by omega) (by omega), ?_⟩
    intro x hx
    simp only [List.mem_cons, List.not_mem_nil, or_false] at hx
    rcases hx with rfl | rfl
    · exact isCont_ofNat
    · exact isCont_ofNat
  · refine ⟨_, _, rfl, hnot (by omega) (by omega), ?_⟩
    intro x hx
    simp only [List.mem_cons, List.not_mem_nil, or_false] at hx
    rcases hx with rfl | rfl | rfl
    · exact isCont_ofNat
    · exact isCont_ofNat
    · exact isCont_ofNat

theorem encode_high {c : Char} (h : 128 ≤ c.toNat) {b : UInt8} (hb : b ∈ String.utf8EncodeChar c) :
    128 ≤ b.toNat := by
  have hvalid := char_toNat_lt c
  have hval : c.toNat = c.val.toNat := rfl
  have hcont : ∀ n : Nat, 128 ≤ (UInt8.ofNat (n % 0x40 + 0x80)).toNat := by
    intro n
    rw [byte_toNat (by omega)]
    omega
  have hlead : ∀ {n : Nat}, 128 ≤ n → n < 256 → 128 ≤ (UInt8.ofNat n).toNat := by
    intro n hlo hhi
    rw [byte_toNat hhi]
    exact hlo
  unfold String.utf8EncodeChar at hb
  dsimp only at hb
  split at hb
  · omega
  split at hb
  · simp only [List.mem_cons, List.not_mem_nil, or_false] at hb
    rcases hb with rfl | rfl
    · exact hlead (by omega) (by omega)
    · exact hcont _
  split at hb
  · simp only [List.mem_cons, List.not_mem_nil, or_false] at hb
    rcases hb with rfl | rfl | rfl
    · exact hlead (by omega) (by omega)
    · exact hcont _
    · exact hcont _
  · simp only [List.mem_cons, List.not_mem_nil, or_false] at hb
    rcases hb with rfl | rfl | rfl | rfl
    · exact hlead (by omega) (by omega)
    · exact hcont _
    · exact hcont _
    · exact hcont _

theorem mem_utf8_ascii {cs : List Char} {b : UInt8} (hb : b ∈ utf8 cs) (h : b.toNat < 128) :
    Char.ofNat b.toNat ∈ cs := by
  obtain ⟨c, hc, hbc⟩ := List.mem_flatMap.mp hb
  by_cases hlow : c.toNat < 128
  · rw [encode_ascii hlow, List.mem_singleton] at hbc
    rw [hbc, byte_toNat (by omega), Char.ofNat_toNat]
    exact hc
  · have := encode_high (Nat.le_of_not_lt hlow) hbc
    omega

theorem utf8_head {cs : List Char} {b : UInt8} {bs : Bytes} (h : utf8 cs = b :: bs) :
    isCont b = false := by
  cases cs with
  | nil => cases h
  | cons c cs =>
    obtain ⟨b', bs', henc, hb, -⟩ := encode_cons c
    rw [utf8_cons, henc, List.cons_append] at h
    cases h
    exact hb

theorem split_at_boundary {cs : List Char} {i : Nat} (h : isCharBoundary (utf8 cs) i = true) :
    ∃ as bs, cs = as ++ bs ∧ i = (utf8 as).length := by
  induction cs generalizing i with
  | nil =>
    refine ⟨[], [], rfl, ?_⟩
    have hnil : utf8 [] = [] := rfl
    unfold isCharBoundary at h
    rw [hnil, List.drop_nil] at h
    rw [hnil]
    simpa using h
  | cons c cs ih =>
    obtain ⟨b, bs, henc, -, hcont⟩ := encode_cons c
    cases Nat.eq_zero_or_pos i with
    | inl h0 => exact ⟨[], c :: cs, rfl, h0⟩
    | inr hpos =>
      -- inside the character every byte is a continuation
      by_cases hin : i < (b :: bs).length
      · exfalso
        unfold isCharBoundary at h
        rw [utf8_cons, henc, List.drop_append_of_le_length (Nat.le_of_lt hin),
          List.drop_eq_getElem_cons hin] at h
        have hmem : (b :: bs)[i] ∈ bs := by
          obtain ⟨j, rfl⟩ : ∃ j, i = j + 1 := ⟨i - 1, by omega⟩
          exact List.getElem_mem _
        simp [hcont _ hmem] at h
      · have hlen : (b :: bs).length ≤ i := Nat.le_of_not_lt hin
        have hrest : isCharBoundary (utf8 cs) (i - (b :: bs).length) = true := by
          unfold isCharBoundary at h ⊢
          rw [utf8_cons, henc, List.drop_append, List.drop_eq_nil_of_le hlen, List.nil_append] at h
          cases hd : (utf8 cs).drop (i - (b :: bs).length) with
          | cons x xs =>
            rw [hd] at h
            exact h
          | nil =>
            rw [hd] at h
            simp only [beq_iff_eq, List.length_append] at h ⊢
            omega
        obtain ⟨as, ds, rfl, hi⟩ := ih hrest
        refine ⟨c :: as, ds, rfl, ?_⟩
        rw [utf8_cons, henc, List.length_append]
        omega

end Vejas.Vjs
