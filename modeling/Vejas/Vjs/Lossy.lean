import Vejas.Vjs.Utf8

/-! Bytes that need not be a text: a byte below 128 is a character of its own in what a lossy decoding
makes of them, and such a character comes from its byte. -/

namespace Vejas.Vjs
open Rust

theorem not_within_ascii {a lo hi : UInt8} (ha : a.toNat < 0x80) (hlo : 0x80 ≤ lo.toNat) : within lo hi a = false := by
  rw [← Bool.not_eq_true, within_iff]
  omega

theorem decodeLossy_append_ascii (xs : Bytes) {a : UInt8} (ha : a.toNat < 0x80) (rest : Bytes) :
    decodeLossy (xs ++ a :: rest) = decodeLossy xs ++ Char.ofNat a.toNat :: decodeLossy rest := by
  have hcont : isCont a = false := not_within_ascii ha (Nat.le_refl _)
  have hthree : ∀ x : UInt8, within (if x = 0xE0 then 0xA0 else 0x80) (if x = 0xED then 0x9F else 0xBF) a = false :=
    fun x => not_within_ascii ha (by split <;> decide)
  have hfour : ∀ x : UInt8, within (if x = 0xF0 then 0x90 else 0x80) (if x = 0xF4 then 0x8F else 0xBF) a = false :=
    fun x => not_within_ascii ha (by split <;> decide)
  have hone := decode_one rest ha
  fun_induction decodeLossy xs with
  | case1 => exact hone
  | case11 x h₁ h₂ h₃ =>
    rw [List.singleton_append, List.singleton_append, decodeLossy.eq_def, ← hone]
    dsimp only
    rw [if_neg h₁, if_neg h₂, if_pos h₃]
    cases rest with
    | nil => simp [hthree]
    | cons b rest => simp [hthree]
  | case21 x h₁ h₂ h₃ h₄ =>
    rw [List.singleton_append, List.singleton_append, decodeLossy.eq_def, ← hone]
    dsimp only
    rw [if_neg h₁, if_neg h₂, if_neg h₃, if_pos h₄]
    rcases rest with _ | ⟨b, _ | ⟨c, rest⟩⟩
    · simp [hfour]
    · simp [hfour]
    · simp [hfour]
  | _ =>
    simp only [List.cons_append, List.nil_append]
    rw [decodeLossy.eq_def]
    grind
theorem textOf_append_ascii (xs : Bytes) {a : UInt8} (ha : a.toNat < 0x80) (rest : Bytes) :
    (textOf (xs ++ a :: rest)).toList = (textOf xs).toList ++ Char.ofNat a.toNat :: (textOf rest).toList := by
  unfold textOf
  rw [String.toList_ofList, String.toList_ofList, String.toList_ofList, decodeLossy_append_ascii xs ha]

theorem char_ofNat_toNat_or (n : Nat) : (Char.ofNat n).toNat = n ∨ (Char.ofNat n).toNat = 0 := by
  unfold Char.ofNat
  by_cases h : n.isValidChar
  · rw [dif_pos h]
    exact .inl rfl
  · rw [dif_neg h]
    exact .inr rfl

theorem two_bytes_large {a b : UInt8} (ha : within 0xC2 0xDF a = true) : 128 ≤ a.toNat % 32 * 64 + bits6 b := by
  have ha := (within_iff 0xC2 0xDF a).mp ha
  have hlo : (0xC2 : UInt8).toNat = 0xC2 := rfl
  have hhi : (0xDF : UInt8).toNat = 0xDF := rfl
  omega

theorem three_bytes_large {a b c hi : UInt8} (ha : within 0xE0 0xEF a = true)
    (hb : within (if a = 0xE0 then 0xA0 else 0x80) hi b = true) (hhi : hi.toNat ≤ 0xBF) :
    128 ≤ (a.toNat % 16 * 64 + bits6 b) * 64 + bits6 c := by
  have ha := (within_iff 0xE0 0xEF a).mp ha
  have hb := (within_iff _ _ b).mp hb
  have hlo : (0xE0 : UInt8).toNat = 0xE0 := rfl
  have hmax : (0xEF : UInt8).toNat = 0xEF := rfl
  have hsecond : (0xA0 : UInt8).toNat = 0xA0 := rfl
  unfold bits6
  split at hb
  · omega
  next hne =>
    have : a.toNat ≠ 0xE0 := fun h => hne (UInt8.toNat_inj.mp h)
    omega

theorem four_bytes_large {a b c d hi : UInt8} (ha : within 0xF0 0xF4 a = true)
    (hb : within (if a = 0xF0 then 0x90 else 0x80) hi b = true) (hhi : hi.toNat ≤ 0xBF) :
    128 ≤ ((a.toNat % 8 * 64 + bits6 b) * 64 + bits6 c) * 64 + bits6 d := by
  have ha := (within_iff 0xF0 0xF4 a).mp ha
  have hb := (within_iff _ _ b).mp hb
  have hlo : (0xF0 : UInt8).toNat = 0xF0 := rfl
  have hmax : (0xF4 : UInt8).toNat = 0xF4 := rfl
  have hsecond : (0x90 : UInt8).toNat = 0x90 := rfl
  unfold bits6
  split at hb
  · omega
  next hne =>
    have : a.toNat ≠ 0xF0 := fun h => hne (UInt8.toNat_inj.mp h)
    omega

theorem mem_of_mem_decodeLossy {xs : Bytes} {c : Char} (h : c ∈ decodeLossy xs) (hc : c.toNat < 128) (h0 : 0 < c.toNat) :
    UInt8.ofNat c.toNat ∈ xs := by
  have hrep : c ≠ replacement := by
    rintro rfl
    exact absurd hc (by decide)
  have hbig : ∀ {n : Nat}, 128 ≤ n → c ≠ Char.ofNat n := by
    rintro n hn rfl
    rcases char_ofNat_toNat_or n with h | h <;> omega
  fun_induction decodeLossy xs with
  | case1 => cases h
  | case2 a rest ha ih =>
    rcases List.mem_cons.mp h with rfl | h
    · rcases char_ofNat_toNat_or a.toNat with hn | hn
      · rw [hn, UInt8.ofNat_toNat]
        exact List.mem_cons_self ..
      · omega
    · exact List.mem_cons_of_mem _ (ih h)
  | case3 a _ ha b rest hb ih =>
    rcases List.mem_cons.mp h with h | h
    · exact absurd h (hbig (two_bytes_large ha))
    · exact List.mem_cons_of_mem _ (List.mem_cons_of_mem _ (ih h))
  | case7 a _ _ ha lo hi b d rest hb hd ih =>
    rcases List.mem_cons.mp h with h | h
    · exact absurd h (hbig (three_bytes_large ha (by simpa using hb) (by unfold hi; split <;> decide)))
    · exact List.mem_of_mem_drop (i := 3) (ih h)
  | case14 a _ _ _ ha lo hi b d e rest hb hd he ih =>
    rcases List.mem_cons.mp h with h | h
    · exact absurd h (hbig (four_bytes_large ha (by simpa using hb) (by unfold hi; split <;> decide)))
    · exact List.mem_of_mem_drop (i := 4) (ih h)
  | _ => grind
end Vejas.Vjs
