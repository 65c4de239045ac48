import Mathlib.Data.Nat.Log
import Vejas.Rust.F64

/-! Integers below `2^53` are exact as `f64`: their decimal digits read as the float whose bits
hold them, and truncating it gives them back. -/

namespace Vejas.Rust.F64
open Float.Model Float.Model.UnpackedFloat

def lift53 (n : Nat) : Nat := n * 2 ^ (52 - n.log2)

theorem log2_mul_two_pow {m : Nat} (k : Nat) (h : 0 < m) : (m * 2 ^ k).log2 = m.log2 + k := by
  have hpow : 0 < 2 ^ k := Nat.two_pow_pos k
  rw [Nat.log2_eq_iff (Nat.ne_of_gt (Nat.mul_pos h hpow))]
  constructor
  · rw [Nat.pow_add]
    exact Nat.mul_le_mul_right _ (Nat.log2_self_le (by omega))
  · rw [show m.log2 + k + 1 = m.log2 + 1 + k by omega, Nat.pow_add]
    exact Nat.mul_lt_mul_of_pos_right Nat.lt_log2_self hpow

theorem lift53_log2 {n : Nat} (h : 0 < n) (hn : n < 2 ^ 53) : (lift53 n).log2 = 52 := by
  have hlog : n.log2 < 53 := (Nat.log2_lt (by omega)).mpr hn
  unfold lift53
  rw [log2_mul_two_pow _ h]
  omega

theorem lift53_pos {n : Nat} (h : 0 < n) : 0 < lift53 n := by
  unfold lift53
  exact Nat.mul_pos h (Nat.two_pow_pos _)

theorem shift_exact (m k : Nat) :
    (⟨m * 2 ^ k, false, false⟩ : ExtendedMantissa) >>> k = ⟨m, false, false⟩ := by
  show k.repeat ExtendedMantissa.shiftRightOne _ = _
  induction k generalizing m with
  | zero => simp [Nat.repeat]
  | succ k ih =>
    have hm : m * 2 ^ (k + 1) = 2 * m * 2 ^ k := by
      rw [Nat.pow_succ, Nat.mul_comm (2 ^ k) 2, ← Nat.mul_assoc, Nat.mul_comm m 2]
    rw [hm, Nat.repeat, ih]
    simp [ExtendedMantissa.shiftRightOne]

theorem shiftToTarget_exact {m k : Nat} {e : Int} (h : 0 < m) (hm : m.log2 = 52) (he : -1074 ≤ e) :
    shiftToTargetExponent Format.binary64 (m * 2 ^ k) (e - k) .exact = (⟨m, false, false⟩, e) := by
  unfold shiftToTargetExponent shiftToExponent Format.targetExponent totalExponent
  have htarget : max (((m * 2 ^ k).log2 : Int) + 1 + (e - k) - Format.binary64.mantissaBits)
      Format.binary64.minExponent = e := by
    rw [log2_mul_two_pow k h, hm]
    show max (((52 + k : Nat) : Int) + 1 + (e - k) - (53 : Nat)) (3 - 2 ^ 10 - (53 : Nat)) = e
    push_cast
    omega
  dsimp only
  rw [htarget, show (e - (e - k)).toNat = k by omega]
  refine Prod.ext (shift_exact m k) ?_
  dsimp only
  omega

theorem roundWithAccuracy_exact {m k : Nat} {e : Int} (s : Sign) (h : 0 < m) (hm : m.log2 = 52)
    (he : -1074 ≤ e) :
    roundWithAccuracy Format.binary64 s (m * 2 ^ k) (e - k) .exact = .finite s m e h := by
  unfold roundWithAccuracy
  rw [shiftToTarget_exact h hm he]
  have hround : (⟨m, false, false⟩ : ExtendedMantissa).roundedMantissa = m := rfl
  dsimp only
  rw [hround]
  have hagain := shiftToTarget_exact (k := 0) h hm he
  rw [Nat.pow_zero, Nat.mul_one, show e - ((0 : Nat) : Int) = e by omega] at hagain
  rw [hagain]
  dsimp only
  rw [dif_neg (by omega)]

theorem toNat_components (s : Sign) (e m : Nat) (he : e < 2 ^ 11) :
    (packComponents Format.binary64 s (BitVec.ofNat _ e) (BitVec.ofNat _ m)).toNat =
      s.toBitVec.toNat * 2 ^ 63 + e * 2 ^ 52 + m % 2 ^ 52 := by
  unfold packComponents
  rw [BitVec.toNat_append, BitVec.toNat_append, BitVec.toNat_ofNat, BitVec.toNat_ofNat,
    Nat.mod_eq_of_lt (show e < 2 ^ Format.binary64.exponentBits from he),
    ← Nat.shiftLeft_add_eq_or_of_lt (show e < 2 ^ Format.binary64.exponentBits from he),
    ← Nat.shiftLeft_add_eq_or_of_lt (Nat.mod_lt _ (Nat.two_pow_pos _)), Nat.shiftLeft_eq,
    Nat.shiftLeft_eq]
  show (s.toBitVec.toNat * 2 ^ 11 + e) * 2 ^ 52 + m % 2 ^ 52 = _
  omega

theorem pack_normal {m : Nat} {e : Int} (s : Sign) (h : 0 < m) (hm : m.log2 = 52)
    (he : 0 < e + 1075) (he' : e + 1075 < 2047) :
    UnpackedFloat.pack Format.binary64 (.finite s m e h) =
      packComponents Format.binary64 s (BitVec.ofNat _ (e + 1075).toNat) (BitVec.ofNat _ m) := by
  have hbias : e + (Format.binary64.exponentBias : Int) +
      (Format.binary64.mantissaBitsWithoutImplicit : Int) = e + 1075 := by
    show e + ((1023 : Nat) : Int) + ((52 : Nat) : Int) = _
    omega
  unfold UnpackedFloat.pack
  dsimp only
  rw [hbias, if_neg (show ¬ 2 ^ 11 ≤ (e + 1075).toNat + 1 by omega),
    if_pos (show m.log2 + 1 = Format.binary64.mantissaBits from congrArg (· + 1) hm)]

theorem lt_two_pow_of_log2 {m : Nat} (h : 0 < m) (hm : m.log2 = 52) : 2 ^ 52 ≤ m ∧ m < 2 ^ 53 :=
  (Nat.log2_eq_iff (by omega)).mp hm

theorem unpackSign_components (s : Sign) (e m : Nat) (he : e < 2 ^ 11) :
    unpackSign (packComponents Format.binary64 s (BitVec.ofNat _ e) (BitVec.ofNat _ m)) =
      s.toBitVec := by
  have hs : s.toBitVec.toNat < 2 := s.toBitVec.isLt
  apply BitVec.eq_of_toNat_eq
  unfold unpackSign
  rw [BitVec.toNat_cast, BitVec.extractLsb_toNat, toNat_components s e m he]
  show (s.toBitVec.toNat * 2 ^ 63 + e * 2 ^ 52 + m % 2 ^ 52) >>> 63 % 2 ^ 1 = _
  rw [Nat.shiftRight_eq_div_pow]
  omega

theorem ofBitVec_toBitVec (s : Sign) : Sign.ofBitVec s.toBitVec = s := by
  cases s <;> rfl

theorem finite_congr {s s' : Sign} {m m' : Nat} {e e' : Int} {h : 0 < m} {h' : 0 < m'} (hs : s = s')
    (hm : m = m') (he : e = e') : UnpackedFloat.finite s m e h = .finite s' m' e' h' := by
  subst hs hm he
  rfl

theorem unpack_normal {m : Nat} {e : Int} (s : Sign) (h : 0 < m) (hm : m.log2 = 52)
    (he : 0 < e + 1075) (he' : e + 1075 < 2047) :
    UnpackedFloat.unpack Format.binary64 (UnpackedFloat.pack Format.binary64 (.finite s m e h)) =
      .finite s m e h := by
  have hexp : (BitVec.ofNat 11 (e + 1075).toNat).toNat = (e + 1075).toNat := by
    rw [BitVec.toNat_ofNat, Nat.mod_eq_of_lt (by omega)]
  have hones : BitVec.ofNat 11 (e + 1075).toNat ≠ -1#11 := by
    intro heq
    have := congrArg BitVec.toNat heq
    rw [hexp] at this
    have hval : (-1#11).toNat = 2047 := by decide
    omega
  have hzero : BitVec.ofNat 11 (e + 1075).toNat ≠ 0#11 := by
    intro heq
    have := congrArg BitVec.toNat heq
    rw [hexp] at this
    have hval : (0#11).toNat = 0 := by decide
    omega
  rw [pack_normal s h hm he he']
  unfold UnpackedFloat.unpack
  dsimp only
  rw [unpackExponent_packComponents, if_neg hones, if_neg hzero]
  refine finite_congr ?_ ?_ ?_
  · rw [unpackSign_components _ _ _ (by omega), ofBitVec_toBitVec]
  · have hbounds := lt_two_pow_of_log2 h hm
    rw [unpackMantissa_packComponents, BitVec.toNat_append, BitVec.toNat_ofNat m 52,
      ← Nat.shiftLeft_add_eq_or_of_lt (Nat.mod_lt _ (Nat.two_pow_pos _))]
    show 1 <<< 52 + m % 2 ^ 52 = m
    omega
  · rw [hexp]
    show ((e + 1075).toNat : Int) - ((1023 : Nat) + (52 : Nat)) = e
    omega

/-- `x` is the integer `n > 0`, or `-n`, with nothing lost. -/
def Holds (s : Sign) (n : Nat) (x : Float) : Prop :=
  ∃ h, x.toModel = .pack (.finite s (lift53 n) ((n.log2 : Int) - 52) h)

theorem log2_le {n : Nat} (h : 0 < n) (hn : n < 2 ^ 53) : n.log2 ≤ 52 :=
  Nat.le_of_lt_succ ((Nat.log2_lt (by omega)).mpr hn)

theorem Holds.unpack {s : Sign} {n : Nat} {x : Float} (h : 0 < n) (hn : n < 2 ^ 53)
    (hx : Holds s n x) :
    x.toModel.unpack = .finite s (lift53 n) ((n.log2 : Int) - 52) (lift53_pos h) := by
  have hlog := log2_le h hn
  obtain ⟨hpos, hx⟩ := hx
  rw [hx]
  exact unpack_normal s hpos (lift53_log2 h hn) (by omega) (by omega)

theorem holds_neg {s : Sign} {n : Nat} {x : Float} (h : 0 < n) (hn : n < 2 ^ 53)
    (hx : Holds s n x) : Holds (-s) n (-x) := by
  refine ⟨lift53_pos h, ?_⟩
  show Float.Model.pack x.toModel.unpack.neg = _
  rw [hx.unpack h hn]
  rfl

theorem holds_abs {s : Sign} {n : Nat} {x : Float} (h : 0 < n) (hn : n < 2 ^ 53)
    (hx : Holds s n x) : Holds .positive n x.abs := by
  refine ⟨lift53_pos h, ?_⟩
  show Float.Model.pack x.toModel.unpack.abs = _
  rw [hx.unpack h hn]
  rfl

theorem round_exact {n : Nat} (h : 0 < n) (hn : n < 2 ^ 53) :
    UnpackedFloat.round Format.binary64 .positive n 0 =
      .finite .positive (lift53 n) ((n.log2 : Int) - 52) (lift53_pos h) := by
  have hlog := log2_le h hn
  have htarget : Format.binary64.targetExponent (totalExponent n 0) = (n.log2 : Int) - 52 := by
    unfold Format.targetExponent totalExponent
    show max ((n.log2 : Int) + 1 + 0 - (53 : Nat)) (3 - 2 ^ 10 - (53 : Nat)) = _
    omega
  unfold UnpackedFloat.round decreaseExponent
  dsimp only
  rw [htarget, show ((0 : Int) - ((n.log2 : Int) - 52)).toNat = 52 - n.log2 by omega,
    Nat.shiftLeft_eq]
  have hexact := roundWithAccuracy_exact (k := 0) (e := (n.log2 : Int) - 52) .positive (lift53_pos h)
    (lift53_log2 h hn) (by omega)
  rw [Nat.pow_zero, Nat.mul_one] at hexact
  rw [← hexact]
  congr 1
  omega

theorem holds_toFloat {n : Nat} (h : 0 < n) (hn : n < 2 ^ 53) :
    Holds .positive n n.toUInt64.toFloat := by
  refine ⟨lift53_pos h, congrArg Float.Model.pack ?_⟩
  have hval : n.toUInt64.toNat = n := Nat.mod_eq_of_lt (by omega)
  show UnpackedFloat.normalize Format.binary64 (n.toUInt64.toNat : Int) 0 .positive = _
  unfold UnpackedFloat.normalize
  rw [hval, show compare (n : Int) 0 = .gt from compare_gt_iff_gt.mpr (by omega)]
  exact round_exact h hn

theorem mul_one_exact {n : Nat} {x : Float} (h : 0 < n) (hn : n < 2 ^ 53) (hx : Holds .positive n x) :
    Holds .positive n (x * Float.ofBits 0x3FF0000000000000) := by
  have hlog := log2_le h hn
  have hone : (Float.ofBits 0x3FF0000000000000).toModel.unpack =
      .finite .positive (2 ^ 52) (-52) (by decide) := by rfl
  refine ⟨lift53_pos h, congrArg Float.Model.pack ?_⟩
  rw [hx.unpack h hn, hone]
  exact roundWithAccuracy_exact (k := 52) .positive (lift53_pos h) (lift53_log2 h hn) (by omega)

theorem holds_ofDecimal {n : Nat} (h : 0 < n) (hn : n < 2 ^ 53) : Holds .positive n (ofDecimal n 0) := by
  have hval : ofDecimal n 0 = n.toUInt64.toFloat * Float.ofBits 0x3FF0000000000000 := by
    show Float.ofScientific n false 0 = _
    unfold Float.ofScientific
    rw [dif_pos ⟨hn, by decide⟩]
    rfl
  rw [hval]
  exact mul_one_exact h hn (holds_toFloat h hn)

theorem Holds.parts {s : Sign} {n : Nat} {x : Float} (h : 0 < n) (hn : n < 2 ^ 53)
    (hx : Holds s n x) :
    F64.parts x = ⟨s.toBitVec.toNat == 1, lift53 n, (n.log2 : Int) - 52⟩ := by
  have hlog := log2_le h hn
  have hs : s.toBitVec.toNat < 2 := s.toBitVec.isLt
  obtain ⟨hpos, hx⟩ := hx
  have hbits : x.toBits.toNat =
      s.toBitVec.toNat * 2 ^ 63 + (n.log2 + 1023) * 2 ^ 52 + lift53 n % 2 ^ 52 := by
    show (x.toModel.toBits).toNat = _
    rw [hx]
    show (UnpackedFloat.pack Format.binary64 _).toNat = _
    rw [pack_normal s hpos (lift53_log2 h hn) (by omega) (by omega), toNat_components _ _ _ (by omega)]
    rw [show ((n.log2 : Int) - 52 + 1075).toNat = n.log2 + 1023 by omega]
  have hmant := lt_two_pow_of_log2 (lift53_pos h) (lift53_log2 h hn)
  have hexp : x.toBits.toNat / 2 ^ 52 % 2 ^ 11 = n.log2 + 1023 := by
    rw [hbits]
    omega
  have hfrac : x.toBits.toNat % 2 ^ 52 = lift53 n - 2 ^ 52 := by
    rw [hbits]
    omega
  have hneg : x.toBits.toNat / 2 ^ 63 = s.toBitVec.toNat := by
    rw [hbits]
    omega
  unfold F64.parts
  dsimp only
  rw [hexp, hfrac, hneg, if_neg (by omega), if_neg (by omega)]
  have hm : lift53 n - 2 ^ 52 + 2 ^ 52 = lift53 n := by omega
  have he : ((n.log2 + 1023 : Nat) : Int) - 1075 = (n.log2 : Int) - 52 := by omega
  rw [hm, he]

theorem Holds.truncAbs {s : Sign} {n : Nat} {x : Float} (h : 0 < n) (hn : n < 2 ^ 53)
    (hx : Holds s n x) : (F64.parts x).truncAbs = n := by
  have hlog := log2_le h hn
  rw [hx.parts h hn]
  unfold Parts.truncAbs lift53
  dsimp only
  split
  · rw [show 52 - n.log2 = 0 by omega, show ((n.log2 : Int) - 52).toNat = 0 by omega]
    simp
  · rw [show (-((n.log2 : Int) - 52)).toNat = 52 - n.log2 by omega]
    exact Nat.mul_div_cancel _ (Nat.two_pow_pos _)

theorem Holds.isFinite {s : Sign} {n : Nat} {x : Float} (h : 0 < n) (hn : n < 2 ^ 53)
    (hx : Holds s n x) : x.isFinite = true ∧ x.isNaN = false ∧ x.isInf = false := by
  have hunpack := hx.unpack h hn
  refine ⟨?_, ?_, ?_⟩
  · show x.toModel.unpack.isFinite = true
    rw [hunpack]
    rfl
  · show x.toModel.unpack.isNaN = false
    rw [hunpack]
    rfl
  · show x.toModel.unpack.isInf = false
    rw [hunpack]
    rfl

theorem Holds.fractIsZero {s : Sign} {n : Nat} {x : Float} (h : 0 < n) (hn : n < 2 ^ 53)
    (hx : Holds s n x) : F64.fractIsZero x = true := by
  have hlog := log2_le h hn
  unfold F64.fractIsZero
  rw [hx.parts h hn, (hx.isFinite h hn).1]
  dsimp only
  rw [Bool.true_and, Bool.or_eq_true]
  right
  rw [show (-((n.log2 : Int) - 52)).toNat = 52 - n.log2 by omega]
  unfold lift53
  rw [Nat.mul_mod_left]
  rfl

theorem Holds.asI64 {s : Sign} {n : Nat} {x : Float} (h : 0 < n) (hn : n < 2 ^ 53)
    (hx : Holds s n x) :
    F64.asI64 x = Int64.ofInt (if s.toBitVec.toNat == 1 then -(n : Int) else n) := by
  obtain ⟨-, hnan, hinf⟩ := hx.isFinite h hn
  unfold F64.asI64 saturate
  rw [hnan, hinf, hx.truncAbs h hn, hx.parts h hn]
  congr 1
  simp only [Bool.false_eq_true, if_false, Int.ofNat_eq_natCast]
  split
  · omega
  · omega

theorem Holds.lt_nine {n : Nat} {x : Float} (h : 0 < n) (hn : n < 9000000000000000)
    (hx : Holds .positive n x) : x < 9e15 := by
  have hlog := log2_le h (by omega)
  have hnine : (9e15 : Float).toModel.unpack = .finite .positive 9000000000000000 0 (by decide) := by rfl
  refine decide_eq_true ?_
  show x.toModel.unpack.lt (9e15 : Float).toModel.unpack = true
  rw [hx.unpack h (by omega), hnine]
  show (some ((compare ((n.log2 : Int) - 52) 0).then (compare (lift53 n) 9000000000000000)) == some .lt) = true
  -- a shorter number has the smaller exponent, one of the same length the smaller mantissa
  by_cases hlen : n.log2 = 52
  · have hmant : lift53 n = n := by
      unfold lift53
      rw [hlen]
      simp
    rw [hlen, hmant, show compare n 9000000000000000 = .lt from compare_lt_iff_lt.mpr hn]
    rfl
  · rw [show compare ((n.log2 : Int) - 52) 0 = .lt from compare_lt_iff_lt.mpr (by omega)]
    rfl

end Vejas.Rust.F64
