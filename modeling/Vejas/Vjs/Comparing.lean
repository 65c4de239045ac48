import Vejas.Rust.Compare
import Vejas.Vjs.Eval

/-! Comparisons of numbers. The order reads both sides as `f64` and equality compares the numbers as
they are held, so that two numbers with the same `f64` need not be equal. -/

namespace Vejas.Vjs
open Json Rust

theorem isNumber_asF64 (a : Number) : F64.IsNumber a.asF64 := by
  cases a with
  | posInt n => exact F64.isNumber_ofNat _
  | negInt n h => exact F64.isNumber_ofInt _
  | float x h => exact F64.isNumber_of_isFinite h

/-- Held the same way, and as integers the same integer. -/
def SameNumber : Number → Number → Prop
  | .posInt m, .posInt n => m = n
  | .negInt m _, .negInt n _ => m = n
  | .float _ _, .float _ _ => True
  | _, _ => False

def Aligned (a b : Number) : Prop := (a.asF64 == b.asF64) = true → SameNumber a b

theorem beq_self {x : Float} (h : F64.IsNumber x) : (x == x) = true := by
  obtain ⟨o, ho⟩ := F64.compares h h
  rw [ho.beq]
  cases o with
  | eq => rfl
  | lt => exact absurd (ho.gt.mp (ho.lt.mpr rfl)) nofun
  | gt => exact absurd (ho.lt.mp (ho.gt.mpr rfl)) nofun

theorem number_eq_iff (a b : Number) : a.eq b = true ↔ (a.asF64 == b.asF64) = true ∧ SameNumber a b := by
  have hrefl := beq_self (isNumber_asF64 a)
  cases a with
  | posInt m =>
    cases b with
    | posInt n =>
      refine beq_iff_eq.trans ⟨?_, And.right⟩
      rintro rfl
      exact ⟨hrefl, rfl⟩
    | _ => exact iff_of_false nofun fun h => h.2
  | negInt m hm =>
    cases b with
    | negInt n hn =>
      refine beq_iff_eq.trans ⟨?_, And.right⟩
      rintro rfl
      exact ⟨hrefl, rfl⟩
    | _ => exact iff_of_false nofun fun h => h.2
  | float x hx =>
    cases b with
    | float y hy => exact ⟨fun h => ⟨h, trivial⟩, And.left⟩
    | _ => exact iff_of_false nofun fun h => h.2

theorem number_eq_symm (a b : Number) : a.eq b = b.eq a := by
  have hsame : SameNumber a b ↔ SameNumber b a := by
    cases a <;> cases b <;> first | exact Iff.rfl | exact eq_comm
  obtain ⟨o, ho⟩ := F64.compares (isNumber_asF64 a) (isNumber_asF64 b)
  rw [Bool.eq_iff_iff, number_eq_iff, number_eq_iff, ho.beq, ho.beq_symm, hsame]

theorem ordering_number (a b : Number) : ∃ o, ordering (.number a) (.number b) = some o ∧
    ((a.asF64 == b.asF64) = true ↔ o = .eq) := by
  obtain ⟨o, ho⟩ := F64.compares (isNumber_asF64 a) (isNumber_asF64 b)
  refine ⟨o, ?_, ?_⟩
  · show (if a.asF64 < b.asF64 then some .lt else if b.asF64 < a.asF64 then some .gt
      else if a.asF64 == b.asF64 then some .eq else none) = some o
    cases o with
    | lt => rw [if_pos (ho.lt.mpr rfl)]
    | gt => rw [if_neg (fun h => nomatch ho.lt.mp h), if_pos (ho.gt.mpr rfl)]
    | eq => rw [if_neg (fun h => nomatch ho.lt.mp h), if_neg (fun h => nomatch ho.gt.mp h), if_pos (by rw [ho.beq]; rfl)]
  · rw [ho.beq, beq_iff_eq]

section
variable [External]

def Says (inv : Invoke) (s : Ctx × Engine) (e : Expr) : Prop := (eval inv e s).1 = .ok (.bool true)

/-- Exactly one of `l < r`, `l == r` and `l > r` is true, `l <= r and l >= r` is true if `l == r` is, and
only then, and so is `l in [r]`. -/
structure Ordered (inv : Invoke) (s : Ctx × Engine) (l r : Expr) : Prop where
  one : (Says inv s (.bin .lt l r) ∧ ¬ Says inv s (.bin .eq l r) ∧ ¬ Says inv s (.bin .gt l r)) ∨
    (¬ Says inv s (.bin .lt l r) ∧ Says inv s (.bin .eq l r) ∧ ¬ Says inv s (.bin .gt l r)) ∨
    (¬ Says inv s (.bin .lt l r) ∧ ¬ Says inv s (.bin .eq l r) ∧ Says inv s (.bin .gt l r))
  bounds : Says inv s (.bin .and (.bin .le l r) (.bin .ge l r)) ↔ Says inv s (.bin .eq l r)
  member : Says inv s (.bin .in_ l (.array [r])) ↔ Says inv s (.bin .eq l r)

variable {inv : Invoke} {s : Ctx × Engine} {l r : Expr}

theorem eval_binary {lv rv : Value} (hl : eval inv l s = (.ok lv, s)) (hr : eval inv r s = (.ok rv, s)) {op : BinOp}
    (hop : op ∉ [.and, .or, .coalesce]) : eval inv (.bin op l r) s = (.ok (binary op lv rv), s) := by
  have hboth : (eval inv l >>= fun lv => eval inv r >>= fun rv => pure (binary op lv rv)) s =
      (.ok (binary op lv rv), s) := by
    rw [Fallible.bind_ok hl, Fallible.bind_ok hr, Fallible.pure_run]
  rw [eval]
  · exact hboth
  · rintro rfl
    exact hop (by decide)
  · rintro rfl
    exact hop (by decide)
  · rintro rfl
    exact hop (by decide)

theorem says_binary {lv rv : Value} (hl : eval inv l s = (.ok lv, s)) (hr : eval inv r s = (.ok rv, s)) {op : BinOp}
    (hop : op ∉ [.and, .or, .coalesce]) : Says inv s (.bin op l r) ↔ binary op lv rv = .bool true := by
  unfold Says
  rw [eval_binary hl hr hop, Except.ok.injEq]

section
variable {a b : Number} (hl : eval inv l s = (.ok (.number a), s)) (hr : eval inv r s = (.ok (.number b), s))
include hl hr

theorem says_eq : Says inv s (.bin .eq l r) ↔ a.eq b = true := by
  rw [says_binary hl hr (by decide)]
  exact Value.bool.injEq .. ▸ Iff.rfl

theorem says_member : Says inv s (.bin .in_ l (.array [r])) ↔ a.eq b = true := by
  have harray : eval inv (.array [r]) s = (.ok (.array [.number b]), s) := by
    simp only [eval, evalList, Fallible.bind_ok hr, Fallible.bind_run, Fallible.pure_run]
  rw [says_binary hl harray (by decide), number_eq_symm]
  show Value.bool (b.eq a || false) = .bool true ↔ _
  rw [Bool.or_false, Value.bool.injEq]

theorem says_compare {o : Ordering} (ho : ordering (.number a) (.number b) = some o) :
    (Says inv s (.bin .lt l r) ↔ o = .lt) ∧ (Says inv s (.bin .gt l r) ↔ o = .gt) ∧
      (Says inv s (.bin .and (.bin .le l r) (.bin .ge l r)) ↔ o = .eq) := by
  have hlt : eval inv (.bin .lt l r) s = (.ok (compareOp .lt (.number a) (.number b)), s) := eval_binary hl hr (by decide)
  have hle : eval inv (.bin .le l r) s = (.ok (compareOp .le (.number a) (.number b)), s) := eval_binary hl hr (by decide)
  have hgt : eval inv (.bin .gt l r) s = (.ok (compareOp .gt (.number a) (.number b)), s) := eval_binary hl hr (by decide)
  have hge : eval inv (.bin .ge l r) s = (.ok (compareOp .ge (.number a) (.number b)), s) := eval_binary hl hr (by decide)
  unfold compareOp at hlt hle hgt hge
  rw [ho] at hlt hle hgt hge
  dsimp only at hlt hle hgt hge
  refine ⟨?_, ?_, ?_⟩
  · unfold Says
    rw [hlt, Except.ok.injEq, Value.bool.injEq, beq_iff_eq]
  · unfold Says
    rw [hgt, Except.ok.injEq, Value.bool.injEq, beq_iff_eq]
  · unfold Says
    rw [eval, Fallible.bind_ok hle]
    cases o with
    | lt =>
      rw [if_pos (by decide), hge]
      exact iff_of_false nofun nofun
    | eq =>
      rw [if_pos (by decide), hge]
      exact iff_of_true rfl rfl
    | gt =>
      rw [if_neg (by decide)]
      exact iff_of_false nofun nofun

/-- Order and equality agree on two numbers exactly if they are not the same `f64` held in two ways. -/
theorem numbers_ordered_iff : Ordered inv s l r ↔ Aligned a b := by
  obtain ⟨o, ho, heq⟩ := ordering_number a b
  obtain ⟨hlt, hgt, hboth⟩ := says_compare hl hr ho
  have htells := (says_eq hl hr).trans (number_eq_iff a b)
  have hmember := (says_member hl hr).trans (number_eq_iff a b)
  rw [heq] at htells hmember
  unfold Aligned
  rw [heq]
  constructor
  · rintro ⟨-, hbounds, -⟩ rfl
    exact (htells.mp (hbounds.mp (hboth.mpr rfl))).2
  · intro haligned
    have htells' : Says inv s (.bin .eq l r) ↔ o = .eq := by
      rw [htells]
      exact ⟨And.left, fun h => ⟨h, haligned h⟩⟩
    refine ⟨?_, hboth.trans htells'.symm, hmember.trans htells.symm⟩
    rw [hlt, htells', hgt]
    cases o <;> decide

end

end

def emptyRun : Ctx × Engine :=
  (startCtx (.object []) "default", .withSecrets (fun _ => none) "/p" "default" .error)

def decimalOne : Number := .float 1.0 (by decide +kernel)

theorem numbers_ordered_decimals :
    @Ordered ascii (@invoke ascii) emptyRun (.lit (.number decimalOne)) (.lit (.number decimalOne)) :=
  (@numbers_ordered_iff ascii _ emptyRun _ _ decimalOne decimalOne rfl rfl).mpr fun _ => trivial

def intExpr : Expr := .lit (.number (.posInt 1))

def decimalExpr : Expr := .lit (.number decimalOne)

/-- The integer 1 and the decimal 1.0 of an event are neither less, nor equal, nor greater, and each bounds
the other. -/
theorem one_and_one_point_zero :
    ¬ @Says ascii (@invoke ascii) emptyRun (.bin .lt intExpr decimalExpr) ∧
    ¬ @Says ascii (@invoke ascii) emptyRun (.bin .eq intExpr decimalExpr) ∧
    ¬ @Says ascii (@invoke ascii) emptyRun (.bin .gt intExpr decimalExpr) ∧
    @Says ascii (@invoke ascii) emptyRun (.bin .and (.bin .le intExpr decimalExpr) (.bin .ge intExpr decimalExpr)) ∧
    ¬ @Ordered ascii (@invoke ascii) emptyRun intExpr decimalExpr := by
  have hord : ordering (.number (.posInt 1)) (.number decimalOne) = some .eq := by decide +kernel
  obtain ⟨hlt, hgt, hboth⟩ := @says_compare ascii (@invoke ascii) emptyRun intExpr decimalExpr _ _ rfl rfl _ hord
  have heq : ¬ @Says ascii (@invoke ascii) emptyRun (.bin .eq intExpr decimalExpr) := by
    rw [@says_eq ascii (@invoke ascii) emptyRun intExpr decimalExpr (.posInt 1) decimalOne rfl rfl]
    decide
  refine ⟨?_, heq, ?_, hboth.mpr rfl, fun h => heq ((@Ordered.bounds ascii _ _ _ _ h).mp (hboth.mpr rfl))⟩
  · rw [hlt]
    nofun
  · rw [hgt]
    nofun

end Vejas.Vjs
