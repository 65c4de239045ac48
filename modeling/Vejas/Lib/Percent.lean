import Mathlib.Data.List.Basic

/-! Percent-encoding: the bytes that may stand for themselves do, the others are written as `%` and
two digits. Text that is written so is read back, and nothing in it can be taken for a separator. -/

namespace Percent

def digit (n : Nat) : Char := if n < 10 then Char.ofNat (48 + n) else Char.ofNat (55 + n)

def value (c : Char) : Option Nat :=
  if '0' ≤ c ∧ c ≤ '9' then some (c.toNat - 48)
  else if 'A' ≤ c ∧ c ≤ 'F' then some (c.toNat - 55)
  else if 'a' ≤ c ∧ c ≤ 'f' then some (c.toNat - 87)
  else none

def escape (b : UInt8) : List Char := ['%', digit (b.toNat / 16), digit (b.toNat % 16)]

def one (safe : UInt8 → Bool) (b : UInt8) : List Char := if safe b then [Char.ofNat b.toNat] else escape b

def encode (safe : UInt8 → Bool) (bytes : List UInt8) : List Char := bytes.flatMap (one safe)

def decode : List Char → Option (List UInt8)
  | [] => some []
  | c :: cs =>
    if c = '%' then
      match cs with
      | hi :: lo :: rest => do
        let h ← value hi
        let l ← value lo
        (decode rest).map ((h * 16 + l).toUInt8 :: ·)
      | _ => none
    else (decode cs).map (c.toNat.toUInt8 :: ·)

variable {safe : UInt8 → Bool}

theorem value_digit {n : Nat} (h : n < 16) : value (digit n) = some n := by
  have hall : ∀ n : Fin 16, value (digit n.val) = some n.val := by decide
  exact hall ⟨n, h⟩

theorem digit_ne {n : Nat} (h : n < 16) {c : Char} (hc : value c = none) : digit n ≠ c := by
  intro heq
  rw [← heq, value_digit h] at hc
  cases hc

theorem decode_escape (b : UInt8) (cs : List Char) : decode (escape b ++ cs) = (decode cs).map (b :: ·) := by
  have hlt : b.toNat < 256 := b.toNat_lt
  have hhi : b.toNat / 16 < 16 := Nat.div_lt_of_lt_mul hlt
  have hlo : b.toNat % 16 < 16 := Nat.mod_lt _ (by decide)
  have hback : (b.toNat / 16 * 16 + b.toNat % 16).toUInt8 = b := by
    rw [Nat.div_add_mod']
    exact UInt8.ofNat_toNat
  show (do
    let h ← value (digit (b.toNat / 16))
    let l ← value (digit (b.toNat % 16))
    (decode cs).map ((h * 16 + l).toUInt8 :: ·)) = _
  rw [value_digit hhi, value_digit hlo]
  show (decode cs).map ((b.toNat / 16 * 16 + b.toNat % 16).toUInt8 :: ·) = _
  rw [hback]

theorem decode_cons {c : Char} (hc : c ≠ '%') (cs : List Char) : decode (c :: cs) = (decode cs).map (c.toNat.toUInt8 :: ·) := by
  cases cs with
  | nil => simp only [decode, hc, if_false]
  | cons d ds =>
    cases ds with
    | nil => simp only [decode, hc, if_false]
    | cons e es => rw [decode, if_neg hc]

def Plain (safe : UInt8 → Bool) : Prop := ∀ b, safe b = true → b.toNat < 128 ∧ b.toNat ≠ 37

theorem toNat_ofNat {n : Nat} (h : n < 128) : (Char.ofNat n).toNat = n := by
  have hall : ∀ n : Fin 128, (Char.ofNat n.val).toNat = n.val := by decide
  exact hall ⟨n, h⟩

theorem decode_one (hsafe : Plain safe) (b : UInt8) (cs : List Char) : decode (one safe b ++ cs) = (decode cs).map (b :: ·) := by
  unfold one
  split
  next hb =>
    obtain ⟨hlt, hne⟩ := hsafe b hb
    have hc : Char.ofNat b.toNat ≠ '%' := by
      intro heq
      have hnat := congrArg Char.toNat heq
      rw [toNat_ofNat hlt] at hnat
      exact hne hnat
    show decode (Char.ofNat b.toNat :: cs) = _
    rw [decode_cons hc, toNat_ofNat hlt]
    congr 2
    funext bs
    rw [show b.toNat.toUInt8 = b from UInt8.ofNat_toNat]
  next => exact decode_escape b cs

theorem decode_encode (hsafe : Plain safe) (bytes : List UInt8) : decode (encode safe bytes) = some bytes := by
  induction bytes with
  | nil => rfl
  | cons b bytes ih =>
    unfold encode at ih ⊢
    rw [List.flatMap_cons, decode_one hsafe, ih]
    rfl

theorem notMem_encode {c : Char} (hpercent : c ≠ '%') (hdigit : value c = none) (hc : ∀ b, safe b = true → Char.ofNat b.toNat ≠ c)
    (bytes : List UInt8) : c ∉ encode safe bytes := by
  intro hmem
  obtain ⟨b, -, hb⟩ := List.mem_flatMap.mp hmem
  unfold one at hb
  split at hb
  next hsafe => exact hc b hsafe (List.mem_singleton.mp hb).symm
  next =>
    have hlt : b.toNat < 256 := b.toNat_lt
    simp only [escape, List.mem_cons, List.not_mem_nil, or_false] at hb
    rcases hb with heq | heq | heq
    · exact hpercent heq
    · exact digit_ne (Nat.div_lt_of_lt_mul hlt) hdigit heq.symm
    · exact digit_ne (Nat.mod_lt _ (by decide)) hdigit heq.symm

end Percent
