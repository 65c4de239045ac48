import Vejas.Lib.Calendar
import Vejas.Rust.Padding

/-! `iso8601_utc`: seconds since 1970 as a date and time. The days are counted from a first of March,
in eras of 400 years; every `i64` operation is checked for an overflow. -/

namespace Vejas.Stamps
open Rust Calendar

def i64 (n : Int) : Option Int := if -2 ^ 63 ≤ n ∧ n < 2 ^ 63 then some n else none

def add (a b : Int) : Option Int := i64 (a + b)
def sub (a b : Int) : Option Int := i64 (a - b)
def mul (a b : Int) : Option Int := i64 (a * b)
def div (a b : Int) : Option Int := i64 (a.tdiv b)

def asI64 (n : UInt64) : Int := if n.toNat < 2 ^ 63 then n.toNat else n.toNat - 2 ^ 64

def yearOfEra (doe : Int) : Option Int := do
  div (← sub (← add (← sub doe (← div doe 1460)) (← div doe 36524)) (← div doe 146096)) 365

def dayOfYear (doe yoe : Int) : Option Int := do
  sub doe (← sub (← add (← mul 365 yoe) (← div yoe 4)) (← div yoe 100))

def monthOfYear (doy : Int) : Option Int := do div (← add (← mul 5 doy) 2) 153

def dayOfMonth (doy mp : Int) : Option Int := do add (← sub doy (← div (← add (← mul 153 mp) 2) 5)) 1

def monthNumber (mp : Int) : Option Int := if mp < 10 then add mp 3 else sub mp 9

def civil (days : Int) : Option (Int × Int × Int) := do
  let z ← add days 719468
  -- `div_euclid` and `rem_euclid`
  let era ← i64 (z / 146097)
  let doe ← i64 (z % 146097)
  let yoe ← yearOfEra doe
  let doy ← dayOfYear doe yoe
  let mp ← monthOfYear doy
  let d ← dayOfMonth doy mp
  let mo ← monthNumber mp
  let y ← add (← add yoe (← mul era 400)) (if mo ≤ 2 then 1 else 0)
  some (y, mo, d)

def stamp (y mo d h m s : Int) : String :=
  padded 4 y ++ "-" ++ padded 2 mo ++ "-" ++ padded 2 d ++ "T" ++ padded 2 h ++ ":" ++ padded 2 m ++ ":" ++ padded 2 s ++ "Z"

def iso8601Utc (secs : UInt64) : Option String := do
  let days := asI64 (secs / 86400)
  let rem := secs % 86400
  let h := rem / 3600
  let m := rem % 3600 / 60
  let s := rem % 60
  let (y, mo, d) ← civil days
  some (stamp y mo d h.toNat m.toNat s.toNat)

theorem i64_ok {n : Int} (h : -2 ^ 63 ≤ n ∧ n < 2 ^ 63) : i64 n = some n := if_pos h

/-- A day of an era by its century, its four years, its year and its day, from March on. The last
year of the four is the leap one, but in the first three centuries not that of the last four. -/
structure EraDay (doe : Int) where
  (c q j doy : Int)
  c_mem : 0 ≤ c ∧ c ≤ 3
  q_mem : 0 ≤ q ∧ q ≤ 24
  j_mem : 0 ≤ j ∧ j ≤ 3
  doy_mem : 0 ≤ doy ∧ doy ≤ 365
  leap : doy = 365 → j = 3 ∧ (q < 24 ∨ c = 3)
  sum : doe = 36524 * c + 1461 * q + 365 * j + doy

def eraDay {doe : Int} (h : 0 ≤ doe ∧ doe < 146097) : EraDay doe where
  c := min (doe / 36524) 3
  q := (doe - 36524 * min (doe / 36524) 3) / 1461
  j := min ((doe - 36524 * min (doe / 36524) 3) % 1461 / 365) 3
  doy := (doe - 36524 * min (doe / 36524) 3) % 1461 - 365 * min ((doe - 36524 * min (doe / 36524) 3) % 1461 / 365) 3
  c_mem := by omega
  q_mem := by omega
  j_mem := by omega
  doy_mem := by omega
  leap := by omega
  sum := by omega

theorem EraDay.century {doe : Int} (e : EraDay doe) : doe / 36524 - doe / 146096 = e.c := by
  obtain ⟨c, q, j, doy, hc, hq, hj, hdoy, hleap, hsum⟩ := e
  obtain ⟨r, hr⟩ : ∃ r, r = 1461 * q + 365 * j + doy := ⟨_, rfl⟩
  have hdoe : doe = 36524 * c + r := by omega
  show doe / 36524 - doe / 146096 = c
  by_cases hlast : r = 36524
  · have hc3 : c = 3 := by omega
    rw [hdoe, hlast, hc3]
    rfl
  · have hr0 : 0 ≤ r ∧ r < 36524 := by omega
    clear hr hsum hleap
    omega

theorem EraDay.fours {doe : Int} (e : EraDay doe) :
    doe / 1460 = 25 * e.c + e.q ∧ e.doy < 365 ∨ doe / 1460 = 25 * e.c + e.q + 1 ∧ 0 < e.doy := by
  obtain ⟨c, q, j, doy, hc, hq, hj, hdoy, hleap, hsum⟩ := e
  obtain ⟨r, hr⟩ : ∃ r, r = 24 * c + q + (365 * j + doy) := ⟨_, rfl⟩
  have hdoe : doe = 1460 * (25 * c + q) + r := by omega
  have hr0 : 0 ≤ r ∧ r < 2920 := by omega
  show doe / 1460 = 25 * c + q ∧ doy < 365 ∨ doe / 1460 = 25 * c + q + 1 ∧ 0 < doy
  by_cases hlate : r < 1460
  · have hdiv : doe / 1460 = 25 * c + q := by
      clear hr hsum hleap
      omega
    exact .inl ⟨hdiv, by omega⟩
  · have hdiv : doe / 1460 = 25 * c + q + 1 := by
      clear hr hsum hleap
      omega
    exact .inr ⟨hdiv, by omega⟩

theorem EraDay.yoe {doe : Int} (e : EraDay doe) :
    (doe - doe / 1460 + doe / 36524 - doe / 146096) / 365 = 100 * e.c + 4 * e.q + e.j := by
  have hcentury := e.century
  have hfours := e.fours
  have hsum := e.sum
  have hdoy := e.doy_mem
  obtain ⟨t, ht⟩ : ∃ t, t = 25 * e.c + e.q - doe / 1460 + e.doy := ⟨_, rfl⟩
  have ht0 : 0 ≤ t ∧ t < 365 := by
    clear hcentury hsum
    omega
  have hnum : doe - doe / 1460 + doe / 36524 - doe / 146096 = 365 * (100 * e.c + 4 * e.q + e.j) + t := by
    clear hfours
    omega
  rw [hnum]
  clear hcentury hfours hsum hnum ht
  omega

theorem EraDay.doy_eq {doe : Int} (e : EraDay doe) {yoe : Int} (h : yoe = 100 * e.c + 4 * e.q + e.j) :
    doe - (365 * yoe + yoe / 4 - yoe / 100) = e.doy := by
  have hq := e.q_mem
  have hj := e.j_mem
  have hsum := e.sum
  have hfour : yoe / 4 = 25 * e.c + e.q := by omega
  have hhundred : yoe / 100 = e.c := by omega
  omega

theorem div_ok {a b : Int} (ha : 0 ≤ a ∧ a < 2 ^ 63) (hb : 0 < b) : div a b = some (a / b) := by
  have hle : a / b ≤ a := Int.ediv_le_self b ha.1
  have hnonneg : 0 ≤ a / b := Int.ediv_nonneg ha.1 hb.le
  rw [div, Int.tdiv_eq_ediv_of_nonneg ha.1]
  exact i64_ok (by omega)

theorem yearOfEra_eq {doe : Int} (h : 0 ≤ doe ∧ doe < 146097) (e : EraDay doe) :
    yearOfEra doe = some (100 * e.c + 4 * e.q + e.j) := by
  have hfour : div doe 1460 = some (doe / 1460) := div_ok (by omega) (by decide)
  have hcentury : div doe 36524 = some (doe / 36524) := div_ok (by omega) (by decide)
  have hend : div doe 146096 = some (doe / 146096) := div_ok (by omega) (by decide)
  have hone : sub doe (doe / 1460) = some (doe - doe / 1460) := i64_ok (by omega)
  have htwo : add (doe - doe / 1460) (doe / 36524) = some (doe - doe / 1460 + doe / 36524) := i64_ok (by omega)
  have hthree : sub (doe - doe / 1460 + doe / 36524) (doe / 146096) =
      some (doe - doe / 1460 + doe / 36524 - doe / 146096) := i64_ok (by omega)
  simp only [yearOfEra, hfour, hcentury, hend, hone, htwo, hthree, Option.bind_eq_bind, Option.bind_some]
  rw [div_ok (by omega) (by decide), e.yoe]

theorem dayOfYear_eq {doe : Int} (e : EraDay doe) : dayOfYear doe (100 * e.c + 4 * e.q + e.j) = some e.doy := by
  have hday := e.doy_eq rfl
  have hc := e.c_mem
  have hq := e.q_mem
  have hj := e.j_mem
  have hdoy := e.doy_mem
  have hsum := e.sum
  generalize 100 * e.c + 4 * e.q + e.j = yoe at *
  have hmul : mul 365 yoe = some (365 * yoe) := i64_ok (by omega)
  have hfour : div yoe 4 = some (yoe / 4) := div_ok (by omega) (by decide)
  have hhundred : div yoe 100 = some (yoe / 100) := div_ok (by omega) (by decide)
  have hone : add (365 * yoe) (yoe / 4) = some (365 * yoe + yoe / 4) := i64_ok (by omega)
  have htwo : sub (365 * yoe + yoe / 4) (yoe / 100) = some (365 * yoe + yoe / 4 - yoe / 100) := i64_ok (by omega)
  have hthree : sub doe (365 * yoe + yoe / 4 - yoe / 100) = some e.doy := by
    rw [← hday]
    exact i64_ok (by omega)
  simp only [dayOfYear, hmul, hfour, hhundred, hone, htwo, hthree, Option.bind_eq_bind, Option.bind_some]

theorem monthOfYear_eq {doy : Int} (h : 0 ≤ doy ∧ doy ≤ 365) : monthOfYear doy = some ((5 * doy + 2) / 153) := by
  have hmul : mul 5 doy = some (5 * doy) := i64_ok (by omega)
  have hadd : add (5 * doy) 2 = some (5 * doy + 2) := i64_ok (by omega)
  have hdiv : div (5 * doy + 2) 153 = some ((5 * doy + 2) / 153) := div_ok (by omega) (by decide)
  simp only [monthOfYear, hmul, hadd, hdiv, Option.bind_eq_bind, Option.bind_some]

theorem dayOfMonth_eq {doy mp : Int} (h : 0 ≤ doy ∧ doy ≤ 365) (hmp : 0 ≤ mp ∧ mp ≤ 11) :
    dayOfMonth doy mp = some (doy - (153 * mp + 2) / 5 + 1) := by
  have hmul : mul 153 mp = some (153 * mp) := i64_ok (by omega)
  have hadd : add (153 * mp) 2 = some (153 * mp + 2) := i64_ok (by omega)
  have hdiv : div (153 * mp + 2) 5 = some ((153 * mp + 2) / 5) := div_ok (by omega) (by decide)
  have hsub : sub doy ((153 * mp + 2) / 5) = some (doy - (153 * mp + 2) / 5) := i64_ok (by omega)
  have hday : add (doy - (153 * mp + 2) / 5) 1 = some (doy - (153 * mp + 2) / 5 + 1) := i64_ok (by omega)
  simp only [dayOfMonth, hmul, hadd, hdiv, hsub, hday, Option.bind_eq_bind, Option.bind_some]

def monthFrom (mp : Int) : Int := if mp < 10 then mp + 3 else mp - 9

def yearFrom (y mp : Int) : Int := y + (if mp < 10 then 0 else 1)

theorem civil_eq {days : Int} (h : 0 ≤ days ∧ days < 2 ^ 48) (e : EraDay ((days + 719468) % 146097)) {mp : Int}
    (hmp : mp = (5 * e.doy + 2) / 153) :
    civil days = some (yearFrom (100 * e.c + 4 * e.q + e.j + (days + 719468) / 146097 * 400) mp, monthFrom mp,
      e.doy - (153 * mp + 2) / 5 + 1) := by
  have hdoy := e.doy_mem
  have hc := e.c_mem
  have hq := e.q_mem
  have hj := e.j_mem
  have hmp' : 0 ≤ mp ∧ mp ≤ 11 := by omega
  have hz : add days 719468 = some (days + 719468) := i64_ok (by omega)
  have hera : i64 ((days + 719468) / 146097) = some ((days + 719468) / 146097) := i64_ok (by omega)
  have hdoe : i64 ((days + 719468) % 146097) = some ((days + 719468) % 146097) := i64_ok (by omega)
  have hmonth : monthNumber mp = some (monthFrom mp) := by
    unfold monthNumber monthFrom
    split_ifs <;> exact i64_ok (by omega)
  have hmul : mul ((days + 719468) / 146097) 400 = some ((days + 719468) / 146097 * 400) := i64_ok (by omega)
  have hadd : add (100 * e.c + 4 * e.q + e.j) ((days + 719468) / 146097 * 400) =
      some (100 * e.c + 4 * e.q + e.j + (days + 719468) / 146097 * 400) := i64_ok (by omega)
  have hyear : add (100 * e.c + 4 * e.q + e.j + (days + 719468) / 146097 * 400) (if monthFrom mp ≤ 2 then 1 else 0) =
      some (yearFrom (100 * e.c + 4 * e.q + e.j + (days + 719468) / 146097 * 400) mp) := by
    have hnext : (if monthFrom mp ≤ 2 then 1 else 0) = (if mp < 10 then 0 else 1 : Int) := by
      unfold monthFrom
      split_ifs <;> omega
    rw [hnext]
    exact i64_ok (by split_ifs <;> omega)
  simp only [civil, hz, hera, hdoe, yearOfEra_eq (by omega) e, dayOfYear_eq e, monthOfYear_eq hdoy, ← hmp,
    dayOfMonth_eq hdoy hmp', hmonth, hmul, hadd, hyear, Option.bind_eq_bind, Option.bind_some]

theorem day_mem {y doy mp : Int} (hdoy : 0 ≤ doy ∧ doy ≤ 365) (hmp : mp = (5 * doy + 2) / 153)
    (hleap : doy = 365 → Leap (y + 1)) :
    1 ≤ doy - (153 * mp + 2) / 5 + 1 ∧ doy - (153 * mp + 2) / 5 + 1 ≤ monthLength (yearFrom y mp) (monthFrom mp) := by
  have hmp' : 0 ≤ mp ∧ mp ≤ 11 := by omega
  refine ⟨by omega, ?_⟩
  by_cases hlast : mp = 11
  · have hlen : monthLength (yearFrom y mp) (monthFrom mp) = if Leap (y + 1) then 29 else 28 := by
      rw [hlast]
      rfl
    rw [hlen]
    by_cases hlong : doy = 365
    · rw [if_pos (hleap hlong)]
      omega
    · split_ifs <;> omega
  · have hlen : monthLength (yearFrom y mp) (monthFrom mp) =
        if mp = 1 ∨ mp = 3 ∨ mp = 6 ∨ mp = 8 then 30 else 31 := by
      clear hmp
      obtain ⟨hlow, hhigh⟩ := hmp'
      unfold monthLength monthFrom
      interval_cases mp <;> first | rfl | exact absurd rfl hlast
    rw [hlen]
    split_ifs <;> omega

theorem civil_date {days : Int} (h : 0 ≤ days ∧ days < 2 ^ 48) :
    ∃ d : Date, civil days = some (d.year, d.month, d.day) ∧ d.count 1970 = days := by
  have hdoe : 0 ≤ (days + 719468) % 146097 ∧ (days + 719468) % 146097 < 146097 := by omega
  obtain ⟨e⟩ : Nonempty (EraDay ((days + 719468) % 146097)) := ⟨eraDay hdoe⟩
  obtain ⟨mp, hmp⟩ : ∃ mp, mp = (5 * e.doy + 2) / 153 := ⟨_, rfl⟩
  obtain ⟨y, hy⟩ : ∃ y, y = 100 * e.c + 4 * e.q + e.j + (days + 719468) / 146097 * 400 := ⟨_, rfl⟩
  have hdoy := e.doy_mem
  have hq := e.q_mem
  have hj := e.j_mem
  have hc := e.c_mem
  have hsum := e.sum
  have hlast := e.leap
  have hmp' : 0 ≤ mp ∧ mp ≤ 11 := by omega
  have hleap : e.doy = 365 → Leap (y + 1) := by
    intro hlong
    obtain ⟨hj3, hfour⟩ := hlast hlong
    refine ⟨by omega, ?_⟩
    by_cases hcentury : e.q < 24
    · exact .inl (by omega)
    · exact .inr (by omega)
  have hmonth : 1 ≤ monthFrom mp ∧ monthFrom mp ≤ 12 := by
    unfold monthFrom
    split_ifs <;> omega
  refine ⟨⟨yearFrom y mp, monthFrom mp, e.doy - (153 * mp + 2) / 5 + 1, hmonth, day_mem hdoy hmp hleap⟩, ?_, ?_⟩
  · rw [civil_eq h e hmp, ← hy]
  · have hfour : y / 4 = (days + 719468) / 146097 * 100 + 25 * e.c + e.q := by omega
    have hhundred : y / 100 = (days + 719468) / 146097 * 4 + e.c := by omega
    have hera : y / 400 = (days + 719468) / 146097 := by omega
    have hnext : daysTo (y + 1) = 365 * (y + 1) + (y / 4 - y / 100 + y / 400) := by
      unfold daysTo
      rw [add_sub_cancel_right]
    have hlen := daysTo_succ y
    have hepoch : daysTo 1970 = 719527 := by decide
    rw [yearLength_eq] at hlen
    rw [Date.count, yearsDays_eq, monthsDays_eq _ hmonth.1 (by omega), hepoch]
    unfold yearFrom monthFrom
    by_cases hmarch : mp < 10
    · have hthree : ¬ mp + 3 ≤ 2 := by omega
      simp only [if_pos hmarch, if_neg hthree, add_zero, add_sub_cancel_right]
      omega
    · have htwo : mp - 9 ≤ 2 := by omega
      simp only [if_neg hmarch, if_pos htwo]
      omega

def shown (t : Moment) : String := stamp t.date.year t.date.month t.date.day t.hour t.minute t.second

theorem iso8601Utc_moment (secs : UInt64) :
    ∃ t : Moment, iso8601Utc secs = some (shown t) ∧ t.seconds 1970 = secs.toNat := by
  have hsecs := secs.toNat_lt
  have hdays : asI64 (secs / 86400) = secs.toNat / 86400 := by
    have hdiv : (secs / 86400).toNat = secs.toNat / 86400 := by simp
    rw [asI64, hdiv, if_pos (by omega)]
    omega
  have hhour : (secs % 86400 / 3600).toNat = secs.toNat % 86400 / 3600 := by simp
  have hminute : (secs % 86400 % 3600 / 60).toNat = secs.toNat % 86400 % 3600 / 60 := by simp
  have hsecond : (secs % 86400 % 60).toNat = secs.toNat % 86400 % 60 := by simp
  obtain ⟨d, hcivil, hcount⟩ := civil_date (show 0 ≤ (secs.toNat / 86400 : Int) ∧ (secs.toNat / 86400 : Int) < 2 ^ 48 by omega)
  refine ⟨⟨d, (secs.toNat % 86400 / 3600 : Nat), (secs.toNat % 86400 % 3600 / 60 : Nat), (secs.toNat % 86400 % 60 : Nat),
    by omega, by omega, by omega⟩, ?_, ?_⟩
  · simp only [iso8601Utc, hdays, hcivil, hhour, hminute, hsecond, Option.bind_eq_bind, Option.bind_some]
    rfl
  · show d.count 1970 * 86400 + (((secs.toNat % 86400 / 3600 : Nat) : Int) * 3600 +
      ((secs.toNat % 86400 % 3600 / 60 : Nat) : Int) * 60 + ((secs.toNat % 86400 % 60 : Nat) : Int)) = secs.toNat
    rw [hcount]
    omega

theorem stamp_toList (y mo d h m s : Int) :
    (stamp y mo d h m s).toList = (padded 4 y).toList ++ '-' :: ((padded 2 mo).toList ++ '-' :: ((padded 2 d).toList ++
      'T' :: ((padded 2 h).toList ++ ':' :: ((padded 2 m).toList ++ ':' :: ((padded 2 s).toList ++ ['Z']))))) := by
  simp [stamp]

theorem shown_lt_iff {t u : Moment} (ht : 0 ≤ t.date.year ∧ t.date.year < 10000)
    (hu : 0 ≤ u.date.year ∧ u.date.year < 10000) : strLt (shown t) (shown u) = true ↔ t.fields < u.fields := by
  have htwo : ∀ {n : Int}, 0 ≤ n → n < 100 → 0 ≤ n ∧ n < 10 ^ (1 + 1) := fun h h' => ⟨h, h'⟩
  have hmonth : ∀ v : Moment, 0 ≤ v.date.month ∧ v.date.month < 10 ^ (1 + 1) := by
    intro v
    have := v.date.month_mem
    exact htwo (by omega) (by omega)
  have hday : ∀ v : Moment, 0 ≤ v.date.day ∧ v.date.day < 10 ^ (1 + 1) := by
    intro v
    have hlow := v.date.day_mem
    have hlen := monthLength_mem v.date.year v.date.month
    exact htwo (by omega) (by omega)
  have hhour : ∀ v : Moment, 0 ≤ v.hour ∧ v.hour < 10 ^ (1 + 1) := by
    intro v
    have := v.hour_mem
    exact htwo (by omega) (by omega)
  have hminute : ∀ v : Moment, 0 ≤ v.minute ∧ v.minute < 10 ^ (1 + 1) := by
    intro v
    have := v.minute_mem
    exact htwo (by omega) (by omega)
  have hsecond : ∀ v : Moment, 0 ≤ v.second ∧ v.second < 10 ^ (1 + 1) := by
    intro v
    have := v.second_mem
    exact htwo (by omega) (by omega)
  have hend : charsLt ['Z'] ['Z'] = false := rfl
  unfold strLt shown
  rw [stamp_toList, stamp_toList, charsLt_padded ht hu, charsLt_cons_self, charsLt_padded (hmonth t) (hmonth u),
    charsLt_cons_self, charsLt_padded (hday t) (hday u), charsLt_cons_self, charsLt_padded (hhour t) (hhour u),
    charsLt_cons_self, charsLt_padded (hminute t) (hminute u), charsLt_cons_self, charsLt_padded (hsecond t) (hsecond u)]
  simp [Moment.fields, Date.fields, List.cons_lt_cons_iff, hend]

/-- The stamp of any time is that of the one moment with so many seconds since 1970, and up to the
year 9999 the stamps are ordered as the times are. -/
theorem iso8601_utc_gregorian :
    (∀ secs : UInt64, ∃ t : Moment, iso8601Utc secs = some (shown t) ∧ t.seconds 1970 = secs.toNat ∧
      ∀ u : Moment, u.seconds 1970 = secs.toNat → u = t) ∧
    ∀ (a b : UInt64) (t u : Moment), t.seconds 1970 = a.toNat → u.seconds 1970 = b.toNat → t.date.year < 10000 →
      u.date.year < 10000 → ∃ s s', iso8601Utc a = some s ∧ iso8601Utc b = some s' ∧ (strLt s s' = true ↔ a < b) := by
  refine ⟨fun secs => ?_, fun a b t u ht hu hty huy => ?_⟩
  · obtain ⟨t, hshown, ht⟩ := iso8601Utc_moment secs
    exact ⟨t, hshown, ht, fun u hu => Moment.seconds_inj (hu.trans ht.symm)⟩
  · obtain ⟨t', ht', hta⟩ := iso8601Utc_moment a
    obtain ⟨u', hu', hub⟩ := iso8601Utc_moment b
    have htt : t = t' := Moment.seconds_inj (ht.trans hta.symm)
    have huu : u = u' := Moment.seconds_inj (hu.trans hub.symm)
    subst htt huu
    have hfrom : 1970 ≤ t.date.year := Moment.epoch_le (by omega)
    have hfrom' : 1970 ≤ u.date.year := Moment.epoch_le (by omega)
    refine ⟨_, _, ht', hu', ?_⟩
    rw [shown_lt_iff ⟨by omega, hty⟩ ⟨by omega, huy⟩, ← @Moment.seconds_lt_iff 1970, UInt64.lt_iff_toNat_lt]
    omega

def first : Moment := ⟨⟨1970, 1, 1, by decide, by decide⟩, 0, 0, 0, by decide, by decide, by decide⟩

def billennium : Moment := ⟨⟨2001, 9, 9, by decide, by decide⟩, 1, 46, 40, by decide, by decide, by decide⟩

theorem iso8601_utc_gregorian_billennium :
    ∃ s s', iso8601Utc 0 = some s ∧ iso8601Utc 1000000000 = some s' ∧ (strLt s s' = true ↔ (0 : UInt64) < 1000000000) := by
  refine iso8601_utc_gregorian.2 0 1000000000 first billennium ?_ ?_ (by decide) (by decide)
  · rw [Moment.seconds, Date.count, yearsDays_eq, monthsDays_eq _ (by decide) (by decide)]
    decide
  · rw [Moment.seconds, Date.count, yearsDays_eq, monthsDays_eq _ (by decide) (by decide)]
    decide

example : iso8601Utc 1000000000 = some "2001-09-09T01:46:40Z" := by decide

end Vejas.Stamps
