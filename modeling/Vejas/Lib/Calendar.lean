import Mathlib.Data.List.Lex
import Mathlib.Order.Defs.LinearOrder
import Mathlib.Tactic.IntervalCases
import Mathlib.Tactic.Ring

/-! The proleptic Gregorian calendar: dates, the days between them, and the seconds of a moment. -/

namespace Calendar

def Leap (y : Int) : Prop := y % 4 = 0 ∧ (y % 100 ≠ 0 ∨ y % 400 = 0)

instance : DecidablePred Leap := fun y => inferInstanceAs (Decidable (y % 4 = 0 ∧ (y % 100 ≠ 0 ∨ y % 400 = 0)))

def monthLength (y m : Int) : Int :=
  if m = 2 then (if Leap y then 29 else 28)
  else if m = 4 ∨ m = 6 ∨ m = 9 ∨ m = 11 then 30
  else 31

def sumFrom (f : Int → Int) (a : Int) : Nat → Int
  | 0 => 0
  | n + 1 => sumFrom f a n + f (a + n)

def sumTo (f : Int → Int) (a b : Int) : Int := sumFrom f a (b - a).toNat

def monthsDays (y m : Int) : Int := sumTo (monthLength y) 1 m

def yearLength (y : Int) : Int := monthsDays y 13

def yearsDays (a b : Int) : Int := sumTo yearLength a b - sumTo yearLength b a

@[ext]
structure Date where
  year : Int
  month : Int
  day : Int
  month_mem : 1 ≤ month ∧ month ≤ 12
  day_mem : 1 ≤ day ∧ day ≤ monthLength year month

def Date.count (epoch : Int) (d : Date) : Int := yearsDays epoch d.year + monthsDays d.year d.month + (d.day - 1)

def Date.fields (d : Date) : List Int := [d.year, d.month, d.day]

@[ext]
structure Moment where
  date : Date
  hour : Int
  minute : Int
  second : Int
  hour_mem : 0 ≤ hour ∧ hour < 24
  minute_mem : 0 ≤ minute ∧ minute < 60
  second_mem : 0 ≤ second ∧ second < 60

def Moment.secondOfDay (t : Moment) : Int := t.hour * 3600 + t.minute * 60 + t.second

def Moment.seconds (epoch : Int) (t : Moment) : Int := t.date.count epoch * 86400 + t.secondOfDay

def Moment.fields (t : Moment) : List Int := t.date.fields ++ [t.hour, t.minute, t.second]

section
variable {f : Int → Int} {a b : Int}

theorem sumTo_empty (h : b ≤ a) : sumTo f a b = 0 := by
  rw [sumTo, Int.toNat_of_nonpos (by omega)]
  rfl

theorem sumTo_succ (h : a ≤ b) : sumTo f a (b + 1) = sumTo f a b + f b := by
  have hn : (b + 1 - a).toNat = (b - a).toNat + 1 := by omega
  have hlast : a + ((b - a).toNat : Int) = b := by omega
  rw [sumTo, hn, sumFrom, hlast]
  rfl

theorem sumFrom_first (f : Int → Int) (a : Int) (n : Nat) : sumFrom f a (n + 1) = f a + sumFrom f (a + 1) n := by
  induction n with
  | zero => simp [sumFrom]
  | succ n ih =>
    have hlast : a + ((n + 1 : Nat) : Int) = a + 1 + n := by
      push_cast
      ring
    rw [sumFrom, ih, hlast, sumFrom]
    ring

theorem sumTo_first (h : a < b) : sumTo f a b = f a + sumTo f (a + 1) b := by
  have hn : (b - a).toNat = (b - (a + 1)).toNat + 1 := by omega
  rw [sumTo, hn, sumFrom_first]
  rfl

end

theorem monthLength_mem (y m : Int) : 28 ≤ monthLength y m ∧ monthLength y m ≤ 31 := by
  unfold monthLength
  split_ifs <;> decide

theorem monthsDays_succ (y : Int) {m : Int} (hm : 1 ≤ m) : monthsDays y (m + 1) = monthsDays y m + monthLength y m :=
  sumTo_succ hm

theorem monthsDays_one (y : Int) : monthsDays y 1 = 0 := sumTo_empty (Int.le_refl 1)

theorem monthsDays_mono (y : Int) {m n : Int} (hm : 1 ≤ m) (h : m ≤ n) : monthsDays y m ≤ monthsDays y n := by
  induction n, h using Int.leInduction with
  | base => exact le_rfl
  | succ n hle ih =>
    have hlen := (monthLength_mem y n).1
    rw [monthsDays_succ y (by omega)]
    omega

theorem monthsDays_eq (y : Int) {m : Int} (hm : 1 ≤ m) (hm' : m ≤ 13) :
    monthsDays y m =
      if m ≤ 2 then 31 * (m - 1) else (153 * (m - 3) + 2) / 5 + 59 + (if Leap y then 1 else 0) := by
  induction m, hm using Int.leInduction with
  | base => exact monthsDays_one y
  | succ m hm ih =>
    rw [monthsDays_succ y hm, ih (by omega)]
    have hle : m ≤ 12 := by omega
    unfold monthLength
    clear ih hm'
    interval_cases m <;> by_cases hy : Leap y <;> simp [hy]

theorem yearLength_eq (y : Int) : yearLength y = 365 + (if Leap y then 1 else 0) :=
  monthsDays_eq y (by decide) (by decide)

/-- The days before a year, with a leap day for every fourth, none for every hundredth and one for
every four hundredth year. -/
def daysTo (y : Int) : Int := 365 * y + ((y - 1) / 4 - (y - 1) / 100 + (y - 1) / 400)

theorem daysTo_succ (y : Int) : daysTo (y + 1) = daysTo y + yearLength y := by
  rw [yearLength_eq]
  unfold daysTo Leap
  split_ifs <;> omega

theorem yearsDays_succ (a b : Int) : yearsDays a (b + 1) = yearsDays a b + yearLength b := by
  unfold yearsDays
  by_cases h : a ≤ b
  · rw [sumTo_succ h, sumTo_empty h, sumTo_empty (show a ≤ b + 1 by omega)]
    ring
  · rw [sumTo_empty (show b + 1 ≤ a by omega), sumTo_empty (show b ≤ a by omega), sumTo_first (show b < a by omega)]
    ring

theorem yearsDays_eq (a b : Int) : yearsDays a b = daysTo b - daysTo a := by
  refine Int.inductionOn' b a ?_ (fun b _ ih => ?_) (fun b _ ih => ?_)
  · simp [yearsDays]
  · rw [yearsDays_succ, daysTo_succ, ih]
    ring
  · have hy := yearsDays_succ a (b - 1)
    have hd := daysTo_succ (b - 1)
    rw [sub_add_cancel] at hy hd
    omega

theorem yearsDays_mono (a : Int) {b c : Int} (h : b ≤ c) : yearsDays a b ≤ yearsDays a c := by
  induction c, h using Int.leInduction with
  | base => exact le_rfl
  | succ c _ ih =>
    have hlen := yearLength_eq c
    rw [yearsDays_succ]
    split_ifs at hlen <;> omega

theorem Date.day_lt (d : Date) : monthsDays d.year d.month + (d.day - 1) < monthsDays d.year (d.month + 1) := by
  have hday := d.day_mem
  rw [monthsDays_succ _ d.month_mem.1]
  omega

theorem Date.dayOfYear_mem (d : Date) :
    0 ≤ monthsDays d.year d.month + (d.day - 1) ∧ monthsDays d.year d.month + (d.day - 1) < yearLength d.year := by
  have hday := d.day_mem
  have hmonth := d.month_mem
  have hfrom := monthsDays_mono d.year (Int.le_refl 1) hmonth.1
  have hto := monthsDays_mono d.year (show 1 ≤ d.month + 1 by omega) (show d.month + 1 ≤ 13 by omega)
  rw [monthsDays_one] at hfrom
  exact ⟨by omega, d.day_lt.trans_le hto⟩

theorem Date.count_lt {e : Int} {d d' : Date} (h : d.fields < d'.fields) : d.count e < d'.count e := by
  have hd := d.dayOfYear_mem
  have hd' := d'.dayOfYear_mem
  have hfrom := d.month_mem.1
  simp only [fields, List.cons_lt_cons_iff] at h
  unfold count
  rcases h with hyear | ⟨hyear, hmonth | ⟨hmonth, hday⟩⟩
  · have hle := yearsDays_mono e (show d.year + 1 ≤ d'.year by omega)
    rw [yearsDays_succ] at hle
    omega
  · have hle := monthsDays_mono d.year (show 1 ≤ d.month + 1 by omega) (show d.month + 1 ≤ d'.month by omega)
    have hlt := d.day_lt
    have hday := d'.day_mem.1
    rw [hyear] at hle hlt ⊢
    omega
  · rw [hyear, hmonth]
    have hlt : d.day < d'.day := by simpa using hday
    omega

theorem Date.ext_fields {d d' : Date} (h : d.fields = d'.fields) : d = d' := by
  simp only [fields, List.cons.injEq] at h
  exact Date.ext h.1 h.2.1 h.2.2.1

theorem Moment.ext_fields {t u : Moment} (h : t.fields = u.fields) : t = u := by
  simp only [fields, Date.fields, List.cons_append, List.nil_append, List.cons.injEq] at h
  obtain ⟨hyear, hmonth, hday, hhour, hminute, hsecond, -⟩ := h
  exact Moment.ext (Date.ext hyear hmonth hday) hhour hminute hsecond

theorem Moment.secondOfDay_mem (t : Moment) : 0 ≤ t.secondOfDay ∧ t.secondOfDay < 86400 := by
  have hh := t.hour_mem
  have hm := t.minute_mem
  have hs := t.second_mem
  unfold secondOfDay
  omega

theorem Moment.seconds_lt {e : Int} {t u : Moment} (h : t.fields < u.fields) : t.seconds e < u.seconds e := by
  have ht := t.secondOfDay_mem
  have hu := u.secondOfDay_mem
  simp only [fields, Date.fields, List.cons_append, List.nil_append, List.cons_lt_cons_iff, List.not_lt_nil, and_false,
    or_false] at h
  unfold seconds
  by_cases hdate : t.date = u.date
  · have hmt := t.minute_mem
    have hmu := u.minute_mem
    have hst := t.second_mem
    have hsu := u.second_mem
    rw [hdate] at h ⊢
    unfold secondOfDay
    omega
  · have hne : ¬ t.date.fields = u.date.fields := fun heq => hdate (Date.ext_fields heq)
    have hlt : t.date.fields < u.date.fields := by
      simp only [Date.fields, List.cons.injEq, and_true] at hne
      simp only [Date.fields, List.cons_lt_cons_iff, List.not_lt_nil, and_false, or_false]
      omega
    have hcount := @Date.count_lt e _ _ hlt
    omega

theorem Moment.epoch_le {e : Int} {t : Moment} (h : 0 ≤ t.seconds e) : e ≤ t.date.year := by
  by_contra hlt
  have hday := t.date.dayOfYear_mem
  have hsecond := t.secondOfDay_mem
  have hmono := yearsDays_mono e (show t.date.year + 1 ≤ e by omega)
  rw [yearsDays_succ, yearsDays_eq e e] at hmono
  rw [seconds, Date.count] at h
  omega

theorem Moment.seconds_lt_iff {e : Int} {t u : Moment} : t.seconds e < u.seconds e ↔ t.fields < u.fields := by
  refine ⟨fun h => ?_, seconds_lt⟩
  rcases lt_trichotomy t.fields u.fields with hlt | heq | hgt
  · exact hlt
  · exact absurd (congrArg (seconds e) (ext_fields heq)) h.ne
  · exact absurd (seconds_lt hgt) h.not_gt

theorem Moment.seconds_inj {e : Int} {t u : Moment} (h : t.seconds e = u.seconds e) : t = u := by
  rcases lt_trichotomy t.fields u.fields with hlt | heq | hgt
  · exact absurd h (seconds_lt hlt).ne
  · exact ext_fields heq
  · exact absurd h (seconds_lt hgt).ne'

end Calendar
