import Vejas.Rust.Exact

/-! The order of `f64`. Two floats that are numbers compare one way, and the other way round from
the other side; the float of an integer is a number. -/

namespace Vejas.Rust.F64
open Float.Model Float.Model.UnpackedFloat

theorem compare_then_swap (e e' : Int) (m m' : Nat) :
    (compare e' e).then (compare m' m) = ((compare e e').then (compare m m')).swap := by
  rw [Ordering.swap_then, ← Std.OrientedOrd.eq_swap, ← Std.OrientedOrd.eq_swap]

theorem compare_swap (u v : UnpackedFloat) : v.compare u = (u.compare v).map Ordering.swap := by
  cases u with
  | notANumber => cases v <;> rfl
  | infinity s =>
    cases s <;> cases v with
    | infinity s' => cases s' <;> rfl
    | _ => rfl
  | zero s =>
    cases v with
    | infinity s' => cases s' <;> rfl
    | finite s' m e h => cases s' <;> rfl
    | _ => rfl
  | finite s m e h =>
    cases v with
    | infinity s' => cases s <;> cases s' <;> rfl
    | zero s' => cases s <;> rfl
    | notANumber => cases s <;> rfl
    | finite s' m' e' h' =>
      cases s <;> cases s'
      · exact congrArg (fun o => some (Ordering.swap o)) (compare_then_swap e e' m m')
      · rfl
      · rfl
      · exact congrArg some (compare_then_swap e e' m m')

theorem compare_isSome {u v : UnpackedFloat} (hu : u ≠ .notANumber) (hv : v ≠ .notANumber) :
    ∃ o, u.compare v = some o := by
  cases u with
  | notANumber => exact absurd rfl hu
  | infinity s =>
    cases v with
    | notANumber => exact absurd rfl hv
    | _ => cases s <;> exact ⟨_, rfl⟩
  | zero s =>
    cases v with
    | notANumber => exact absurd rfl hv
    | zero s' => exact ⟨_, rfl⟩
    | infinity s' => cases s' <;> exact ⟨_, rfl⟩
    | finite s' m e h => cases s' <;> exact ⟨_, rfl⟩
  | finite s m e h =>
    cases v with
    | notANumber => exact absurd rfl hv
    | zero s' => cases s <;> exact ⟨_, rfl⟩
    | infinity s' => cases s <;> cases s' <;> exact ⟨_, rfl⟩
    | finite s' m e h => cases s <;> cases s' <;> exact ⟨_, rfl⟩

theorem unpack_components_ne {spec : Format} {s : Sign} {e : BitVec spec.exponentBits}
    {m : BitVec spec.mantissaBitsWithoutImplicit} (h : e = -1#_ → m = 0#_) :
    UnpackedFloat.unpack spec (packComponents spec s e m) ≠ .notANumber := by
  unfold UnpackedFloat.unpack
  dsimp only
  rw [unpackExponent_packComponents]
  by_cases he : e = -1#_
  · rw [if_pos he, unpackMantissa_packComponents, if_pos (h he)]
    intro hnan
    cases hnan
  · rw [if_neg he]
    by_cases hz : e = 0#_
    · rw [if_pos hz]
      by_cases hm : UnpackedFloat.unpackMantissa (packComponents spec s e m) = 0#_
      · rw [dif_pos hm]
        intro hnan
        cases hnan
      · rw [dif_neg hm]
        intro hnan
        cases hnan
    · rw [if_neg hz]
      intro hnan
      cases hnan

theorem unpack_pack_ne {u : UnpackedFloat} (h : u ≠ .notANumber) :
    UnpackedFloat.unpack Format.binary64 (UnpackedFloat.pack Format.binary64 u) ≠ .notANumber := by
  cases u with
  | notANumber => exact absurd rfl h
  | infinity s => exact unpack_components_ne fun _ => rfl
  | zero s => exact unpack_components_ne fun _ => rfl
  | finite s m e hm =>
    unfold UnpackedFloat.pack
    dsimp only
    split
    · exact unpack_components_ne fun _ => rfl
    next hsmall =>
      split
      · -- the exponent of a normal number is below the one of the infinities
        refine unpack_components_ne fun hones => absurd (congrArg BitVec.toNat hones) ?_
        have hlt : (e + (Format.binary64.exponentBias : Int) +
            (Format.binary64.mantissaBitsWithoutImplicit : Int)).toNat + 1 < 2 ^ 11 := Nat.lt_of_not_le hsmall
        have hval : (-(1#(Format.binary64.exponentBits))).toNat = 2047 := by decide
        rw [hval, BitVec.toNat_ofNat, Nat.mod_eq_of_lt (show _ < 2 ^ 11 by omega)]
        omega
      · refine unpack_components_ne fun hones => absurd (congrArg BitVec.toNat hones) ?_
        decide

def IsNumber (x : Float) : Prop := x.toModel.unpack ≠ .notANumber

theorem isNumber_of_isFinite {x : Float} (h : x.isFinite = true) : IsNumber x := by
  intro hnan
  have hfin : x.toModel.unpack.isFinite = true := h
  rw [hnan] at hfin
  cases hfin

theorem roundWithAccuracy_ne (s : Sign) (m : Nat) (e : Int) (a : Accuracy) :
    roundWithAccuracy Format.binary64 s m e a ≠ .notANumber := by
  unfold roundWithAccuracy
  dsimp only
  by_cases hz : (shiftToTargetExponent Format.binary64
      (shiftToTargetExponent Format.binary64 m e a).1.roundedMantissa
      (shiftToTargetExponent Format.binary64 m e a).2 .exact).1.mantissa = 0
  · rw [dif_pos hz]
    intro hnan
    cases hnan
  · rw [dif_neg hz]
    intro hnan
    cases hnan

theorem mul_ne (s s' : Sign) (m m' : Nat) (e e' : Int) (h : 0 < m) (h' : 0 < m') :
    UnpackedFloat.mul Format.binary64 (.finite s m e h) (.finite s' m' e' h') ≠ .notANumber :=
  roundWithAccuracy_ne _ _ _ _

theorem isNumber_ofNat (n : Nat) : IsNumber (Float.ofNat n) := by
  show IsNumber (Float.ofScientific n false 0)
  by_cases hn : n < 2 ^ 53
  · rcases Nat.eq_zero_or_pos n with rfl | hpos
    · exact isNumber_of_isFinite (by decide +kernel)
    · exact isNumber_of_isFinite ((holds_ofDecimal hpos hn).isFinite hpos hn).1
  · unfold Float.ofScientific
    rw [dif_neg fun h => hn h.1]
    refine unpack_pack_ne ?_
    show UnpackedFloat.ofScientific Format.binary64 n 0 ≠ .notANumber
    unfold UnpackedFloat.ofScientific
    have hbits : (2 : Int) ^ Format.binary64.exponentBits = 2048 := by decide
    rw [dif_neg (by omega), if_neg (by decide), if_neg (by omega), if_pos (Int.le_refl 0)]
    exact mul_ne _ _ _ _ _ _ _ _

theorem isNumber_neg {x : Float} (h : IsNumber x) : IsNumber (-x) := by
  refine unpack_pack_ne ?_
  unfold IsNumber at h
  cases hx : x.toModel.unpack with
  | notANumber => exact absurd hx h
  | _ =>
    intro hnan
    cases hnan

theorem isNumber_ofInt (n : Int) : IsNumber (Float.ofInt n) := by
  cases n with
  | ofNat n => exact isNumber_ofNat n
  | negSucc n => exact isNumber_neg (isNumber_ofNat _)

/-- How two floats that are numbers compare. -/
structure Compares (x y : Float) (o : Ordering) : Prop where
  lt : x < y ↔ o = .lt
  gt : y < x ↔ o = .gt
  beq : (x == y) = (o == .eq)
  beq_symm : (y == x) = (o == .eq)

theorem compares {x y : Float} (hx : IsNumber x) (hy : IsNumber y) : ∃ o, Compares x y o := by
  obtain ⟨o, ho⟩ := compare_isSome hx hy
  have hswap : y.toModel.unpack.compare x.toModel.unpack = some o.swap := by
    rw [compare_swap, ho]
    rfl
  have hlt : x < y ↔ (x.toModel.unpack.compare y.toModel.unpack == some .lt) = true :=
    ⟨of_decide_eq_true, decide_eq_true⟩
  have hgt : y < x ↔ (y.toModel.unpack.compare x.toModel.unpack == some .lt) = true :=
    ⟨of_decide_eq_true, decide_eq_true⟩
  have hbeq : (x == y) = (x.toModel.unpack.compare y.toModel.unpack == some .eq) := rfl
  have hbeq' : (y == x) = (y.toModel.unpack.compare x.toModel.unpack == some .eq) := rfl
  rw [ho] at hlt hbeq
  rw [hswap] at hgt hbeq'
  refine ⟨o, hlt.trans ?_, hgt.trans ?_, hbeq.trans ?_, hbeq'.trans ?_⟩
  · cases o <;> decide
  · cases o <;> decide
  · cases o <;> rfl
  · cases o <;> rfl

end Vejas.Rust.F64
