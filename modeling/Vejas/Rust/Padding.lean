import Vejas.Rust.Str

/-! Numbers padded with zeros: of one width, they are ordered as texts as they are as numbers. -/

namespace Vejas.Rust

/-- `{n:0w}`: the zeros stand between the sign and the digits, up to `w` characters. -/
def padded (w : Nat) (n : Int) : String :=
  let ds := Nat.toDigits 10 n.natAbs
  if n < 0 then "-" ++ String.ofList (List.replicate (w - 1 - ds.length) '0' ++ ds)
  else String.ofList (List.replicate (w - ds.length) '0' ++ ds)

def lastDigits : Nat → Nat → List Char
  | 0, _ => []
  | w + 1, n => lastDigits w (n / 10) ++ [Nat.digitChar (n % 10)]

theorem lastDigits_succ (w n : Nat) : lastDigits (w + 1) n = lastDigits w (n / 10) ++ [Nat.digitChar (n % 10)] := rfl

theorem lastDigits_zero (w : Nat) : lastDigits w 0 = List.replicate w '0' := by
  induction w with
  | zero => rfl
  | succ w ih =>
    rw [lastDigits_succ, Nat.zero_div, ih, List.replicate_succ']
    rfl

theorem length_lastDigits (w n : Nat) : (lastDigits w n).length = w := by
  induction w generalizing n with
  | zero => rfl
  | succ w ih => rw [lastDigits_succ, List.length_append, ih, List.length_singleton]

theorem replicate_toDigits {w n : Nat} (hn : n < 10 ^ (w + 1)) :
    List.replicate (w + 1 - (Nat.toDigits 10 n).length) '0' ++ Nat.toDigits 10 n = lastDigits (w + 1) n := by
  induction w generalizing n with
  | zero =>
    have hlt : n < 10 := by simpa using hn
    rw [Nat.toDigits_of_lt_base hlt, lastDigits_succ, Nat.mod_eq_of_lt hlt]
    rfl
  | succ w ih =>
    by_cases hlt : n < 10
    · rw [Nat.toDigits_of_lt_base hlt, lastDigits_succ, Nat.div_eq_of_lt hlt, lastDigits_zero, Nat.mod_eq_of_lt hlt]
      rfl
    · have hq : n / 10 < 10 ^ (w + 1) := by
        rw [Nat.div_lt_iff_lt_mul (by decide), ← Nat.pow_succ]
        exact hn
      have hlen : w + 1 + 1 - ((Nat.toDigits 10 (n / 10)).length + 1) = w + 1 - (Nat.toDigits 10 (n / 10)).length := by
        omega
      rw [Nat.toDigits_of_base_le (by decide) (Nat.le_of_not_lt hlt), List.length_append, List.length_singleton, hlen,
        ← List.append_assoc, ih hq]
      rfl

theorem padded_toList {w : Nat} {n : Int} (h0 : 0 ≤ n) (hn : n < 10 ^ (w + 1)) :
    (padded (w + 1) n).toList = lastDigits (w + 1) n.toNat := by
  have hlt : n.toNat < 10 ^ (w + 1) := by
    have hcast : ((10 ^ (w + 1) : Nat) : Int) = 10 ^ (w + 1) := by simp
    omega
  have habs : n.natAbs = n.toNat := by omega
  rw [padded, if_neg (Int.not_lt.mpr h0), String.toList_ofList, habs, replicate_toDigits hlt]

theorem charsLt_append {as bs : List Char} (h : as.length = bs.length) (xs ys : List Char) :
    charsLt (as ++ xs) (bs ++ ys) = (charsLt as bs || (as == bs && charsLt xs ys)) := by
  induction as generalizing bs with
  | nil =>
    cases bs with
    | nil => rfl
    | cons => cases h
  | cons a as ih =>
    cases bs with
    | nil => cases h
    | cons b bs =>
      rw [List.cons_append, List.cons_append, charsLt_cons, charsLt_cons, ih (Nat.succ.inj h), List.cons_beq_cons, Bool.and_or_distrib_left,
        Bool.or_assoc, Bool.and_assoc]

theorem charsLt_cons_self (c : Char) (xs ys : List Char) : charsLt (c :: xs) (c :: ys) = charsLt xs ys := by
  simp [charsLt_cons]

theorem digitChar_toNat : ∀ d < 10, (Nat.digitChar d).toNat = 48 + d := by decide

theorem digitChar_inj {d e : Nat} (hd : d < 10) (he : e < 10) (h : Nat.digitChar d = Nat.digitChar e) : d = e := by
  have hnat := congrArg Char.toNat h
  rw [digitChar_toNat d hd, digitChar_toNat e he] at hnat
  omega

theorem lastDigits_inj {w m n : Nat} (hm : m < 10 ^ w) (hn : n < 10 ^ w) (h : lastDigits w m = lastDigits w n) : m = n := by
  induction w generalizing m n with
  | zero =>
    rw [Nat.pow_zero] at hm hn
    omega
  | succ w ih =>
    rw [Nat.pow_succ] at hm hn
    obtain ⟨hinit, hlast⟩ := List.append_inj' h rfl
    have hq := ih (by omega) (by omega) hinit
    have hr := digitChar_inj (Nat.mod_lt m (by decide)) (Nat.mod_lt n (by decide)) (List.cons.inj hlast).1
    omega

theorem charsLt_lastDigits {w m n : Nat} (hm : m < 10 ^ w) (hn : n < 10 ^ w) :
    charsLt (lastDigits w m) (lastDigits w n) = true ↔ m < n := by
  induction w generalizing m n with
  | zero =>
    rw [Nat.pow_zero] at hm hn
    refine iff_of_false Bool.false_ne_true ?_
    omega
  | succ w ih =>
    rw [Nat.pow_succ] at hm hn
    have hm' : m / 10 < 10 ^ w := by omega
    have hn' : n / 10 < 10 ^ w := by omega
    have hlen : (lastDigits w (m / 10)).length = (lastDigits w (n / 10)).length := by
      rw [length_lastDigits, length_lastDigits]
    have hinit : (lastDigits w (m / 10) == lastDigits w (n / 10)) = true ↔ m / 10 = n / 10 := by
      rw [beq_iff_eq]
      exact ⟨lastDigits_inj hm' hn', fun h => by rw [h]⟩
    have hlast : charsLt [Nat.digitChar (m % 10)] [Nat.digitChar (n % 10)] = true ↔ m % 10 < n % 10 := by
      have hd := digitChar_toNat _ (Nat.mod_lt m (show 10 > 0 by decide))
      have he := digitChar_toNat _ (Nat.mod_lt n (show 10 > 0 by decide))
      simp [charsLt, hd, he]
    rw [lastDigits_succ, lastDigits_succ, charsLt_append hlen, Bool.or_eq_true, Bool.and_eq_true, ih hm' hn', hinit, hlast]
    omega

theorem charsLt_padded {w : Nat} {m n : Int} (hm : 0 ≤ m ∧ m < 10 ^ (w + 1)) (hn : 0 ≤ n ∧ n < 10 ^ (w + 1))
    (xs ys : List Char) :
    charsLt ((padded (w + 1) m).toList ++ xs) ((padded (w + 1) n).toList ++ ys) = true ↔
      m < n ∨ m = n ∧ charsLt xs ys = true := by
  have hcast : ((10 ^ (w + 1) : Nat) : Int) = 10 ^ (w + 1) := by simp
  have hm' : m.toNat < 10 ^ (w + 1) := by omega
  have hn' : n.toNat < 10 ^ (w + 1) := by omega
  have hlen : (lastDigits (w + 1) m.toNat).length = (lastDigits (w + 1) n.toNat).length := by
    rw [length_lastDigits, length_lastDigits]
  have heq : (lastDigits (w + 1) m.toNat == lastDigits (w + 1) n.toNat) = true ↔ m = n := by
    rw [beq_iff_eq]
    refine ⟨fun h => ?_, fun h => by rw [h]⟩
    have hnat := lastDigits_inj hm' hn' h
    omega
  have hlt : m.toNat < n.toNat ↔ m < n := by omega
  rw [padded_toList hm.1 hm.2, padded_toList hn.1 hn.2, charsLt_append hlen, Bool.or_eq_true, Bool.and_eq_true,
    charsLt_lastDigits hm' hn', heq, hlt]

end Vejas.Rust
