/-
# Timestamps

The log of misses writes times as `2026-08-25T10:54:00.000Z`.  The date in them comes from a
day number by a closed formula, which works in years that start in March and in eras of 400
years: `yearOfEra_spec` says what its truncating divisions find within an era, and
`civilFromDays_eq` that the whole formula gives the date with that number.
-/
import RemoteClient.Encoding
import RemoteClient.Lib.Gregorian
import RemoteClient.Lib.Numerals
import Mathlib.Tactic.IntervalCases

namespace RemoteClient

open Exec Gregorian Numerals

/-! ## The code -/

/-- The values of an `i64`. -/
def FitsI64 (n : ℤ) : Prop := -2 ^ 63 ≤ n ∧ n < 2 ^ 63

instance : DecidablePred FitsI64 := fun _ => inferInstanceAs (Decidable (_ ∧ _))

/-- Year, month and day of a day since 1970-01-01.  Only the first sum can overflow. -/
def civilFromDays (z : ℤ) : Exec Empty (ℤ × ℕ × ℕ) :=
  if FitsI64 (z + 719468) then
    let z := z + 719468
    let era := z / 146097
    let doe := z % 146097
    let yoe := (doe - doe / 1460 + doe / 36524 - doe / 146096) / 365
    let y := yoe + era * 400
    let doy := doe - (365 * yoe + yoe / 4 - yoe / 100)
    let mp := (5 * doy + 2) / 153
    let d := doy - (153 * mp + 2) / 5 + 1
    let m := if mp < 10 then mp + 3 else mp - 9
    .ok (if m ≤ 2 then y + 1 else y, m.toNat, d.toNat)
  else crash

/-- The RFC 3339 timestamp of a time since 1970. -/
def isoFromUnix (secs : ℤ) (millis : ℕ) : Exec Empty Str := do
  let days := secs / 86400
  let rem := secs % 86400
  let (year, month, day) ← civilFromDays days
  return paddedInt 4 year ++ ['-'] ++ padded 2 month ++ ['-'] ++ padded 2 day ++ ['T'] ++
    paddedInt 2 (rem / 3600) ++ [':'] ++ paddedInt 2 (rem % 3600 / 60) ++ [':'] ++
    paddedInt 2 (rem % 60) ++ ['.'] ++ padded 3 millis ++ ['Z']

/-! ## Within an era -/

section Era

variable {doe yoe doy mp : ℤ}

/-- The formula finds the century of its year, but for the last day of the era. -/
lemma century_spec (h0 : 0 ≤ doe) (h1 : doe < 146096)
    (hyoe : yoe = (doe - doe / 1460 + doe / 36524 - doe / 146096) / 365) :
    yoe / 100 = doe / 36524 := by
  have hlast : doe / 146096 = 0 := by omega
  have hlow : 0 ≤ doe / 36524 := by omega
  have hhigh : doe / 36524 ≤ 3 := by omega
  rw [hlast] at hyoe
  generalize hcentury : doe / 36524 = century at *
  interval_cases century <;> omega

/-- **The year of a day in an era of 400 years**, counted from March on: the days before the
year are not more than those before the day, and those before the next year are more. -/
lemma yearOfEra_spec (h0 : 0 ≤ doe) (h1 : doe < 146097)
    (hyoe : yoe = (doe - doe / 1460 + doe / 36524 - doe / 146096) / 365) :
    0 ≤ yoe ∧ yoe ≤ 399 ∧ 365 * yoe + yoe / 4 - yoe / 100 ≤ doe ∧
      doe < 365 * (yoe + 1) + (yoe + 1) / 4 - (yoe + 1) / 100 + (yoe + 1) / 400 := by
  by_cases hlast : doe = 146096
  · subst hlast
    norm_num at hyoe
    subst hyoe
    norm_num
  have hcentury := century_spec h0 (by omega) hyoe
  have hzero : doe / 146096 = 0 := by omega
  have hcycles : doe / 36524 ≤ doe / 1460 := by omega
  have hleaps : yoe / 4 ≤ doe / 1460 := by omega
  have hle : yoe ≤ 399 := by omega
  refine ⟨by omega, hle, by omega, ?_⟩
  -- Whether the next year begins a century, or else a cycle of four years.
  by_cases hnext : (yoe + 1) % 100 = 0
  · have hsucc : (yoe + 1) / 100 = doe / 36524 + 1 := by omega
    omega
  · have hsame : (yoe + 1) / 100 = doe / 36524 := by omega
    by_cases hfour : (yoe + 1) % 4 = 0
    · have hcycle : doe / 1460 ≤ (yoe + 1) / 4 := by omega
      omega
    · have hsame' : (yoe + 1) / 4 = yoe / 4 := by omega
      have hrest : yoe % 4 ≤ 2 := by omega
      have hcycle : doe / 1460 ≤ yoe / 4 := by omega
      omega

/-- A year of the era before which one more day is counted is a leap year. -/
lemma isLeap_of_longer {era : ℤ} (h0 : 0 ≤ yoe) (h1 : yoe ≤ 399)
    (h : yoe / 4 - yoe / 100 < (yoe + 1) / 4 - (yoe + 1) / 100 + (yoe + 1) / 400) :
    IsLeap (yoe + era * 400 + 1) := by
  rw [isLeap_iff]
  have hfour : (yoe + 1) % 4 = 0 := by
    by_contra hne
    have hsame : (yoe + 1) / 4 = yoe / 4 := by omega
    omega
  by_cases hcentury : (yoe + 1) % 100 = 0
  · have hnext : (yoe + 1) / 100 = yoe / 100 + 1 := by omega
    omega
  · omega

/-- The days of a year that starts in March, before its months. -/
def marchDays : ℕ → ℕ
  | 0 => 0
  | 1 => 31
  | 2 => 61
  | 3 => 92
  | 4 => 122
  | 5 => 153
  | 6 => 184
  | 7 => 214
  | 8 => 245
  | 9 => 275
  | 10 => 306
  | 11 => 337
  | _ => 366

/-- The month of a day in a year that starts in March, and the days before it. -/
lemma monthOfYear_spec (h0 : 0 ≤ doy) (h1 : doy ≤ 365) (hmp : mp = (5 * doy + 2) / 153) :
    ∃ m : ℕ, mp = m ∧ m ≤ 11 ∧ (153 * mp + 2) / 5 = marchDays m ∧
      (marchDays m : ℤ) ≤ doy ∧ doy < marchDays (m + 1) := by
  have hlow : 0 ≤ mp := by omega
  have hhigh : mp ≤ 11 := by omega
  obtain ⟨m, rfl⟩ := Int.eq_ofNat_of_zero_le hlow
  refine ⟨m, rfl, by omega, ?_⟩
  have hm : m ≤ 11 := by omega
  interval_cases m <;> simp only [marchDays] <;> omega

end Era

/-! ## The date of a day -/

/-- The date of a day in a year that starts in March. -/
def marchDate (year : ℤ) (m : ℕ) (day : ℕ) : Date :=
  if m < 10 then ⟨year, m + 3, day⟩ else ⟨year + 1, m - 9, day⟩

lemma marchDays_succ (year : ℤ) {m : ℕ} (h : m < 10) :
    marchDays (m + 1) = marchDays m + daysInMonth year (m + 3) := by
  interval_cases m <;> rfl

/-- The days before a month, from January on and from March on. -/
lemma daysOfMonths_march (year : ℤ) {m : ℕ} (h : m < 10) :
    daysOfMonths year (m + 2) = 31 + daysInMonth year 2 + marchDays m := by
  induction m with
  | zero =>
    change 0 + 31 + daysInMonth year 2 = 31 + daysInMonth year 2 + 0
    omega
  | succ m ih =>
    change daysOfMonths year (m + 2) + daysInMonth year (m + 3) = _
    rw [ih (by omega), marchDays_succ year (by omega)]
    omega

/-- The number of a day in a year that starts in March, `before` days of which are over before
its month. -/
def marchNumber (year : ℤ) (before day : ℕ) : ℤ :=
  365 * year + year / 4 - year / 100 + year / 400 + before + day - 1 - 719468

lemma daysBeforeYear_march (year : ℤ) :
    daysBeforeYear (year + 1) = 365 * year + year / 4 - year / 100 + year / 400 + 366 := by
  unfold daysBeforeYear
  omega

/-- March to December: the year has begun with a January and a February of its own. -/
lemma march_to_december (year : ℤ) {m day : ℕ} (hm : m < 10) (hpos : 1 ≤ day)
    (hday : marchDays m + day ≤ marchDays (m + 1)) :
    (Date.mk year (m + 3) day).Valid ∧
      dayNumber ⟨year, m + 3, day⟩ = marchNumber year (marchDays m) day := by
  have hyear := daysBeforeYear_march year
  have hsucc := daysBeforeYear_succ year
  have hmonth := marchDays_succ year hm
  have hfeb : daysInMonth year 2 = if IsLeap year then 29 else 28 := rfl
  refine ⟨⟨Nat.le_add_left 1 _, ?_, hpos, ?_⟩, ?_⟩
  · change m + 3 ≤ 12
    omega
  · change day ≤ daysInMonth year (m + 3)
    omega
  · simp only [dayNumber, marchNumber, show m + 3 - 1 = m + 2 from rfl,
      daysOfMonths_march year hm, hfeb]
    by_cases hl : IsLeap year
    · rw [if_pos hl] at hsucc ⊢
      omega
    · rw [if_neg hl] at hsucc ⊢
      omega

lemma january (year : ℤ) {day : ℕ} (hpos : 1 ≤ day) (hday : day ≤ 31) :
    (Date.mk (year + 1) 1 day).Valid ∧ dayNumber ⟨year + 1, 1, day⟩ = marchNumber year 306 day := by
  have hyear := daysBeforeYear_march year
  have hnumber : dayNumber ⟨year + 1, 1, day⟩ =
      daysBeforeYear (year + 1) + (0 : ℕ) + (day - 1) - 719528 := rfl
  refine ⟨⟨le_rfl, Nat.le_add_left 1 11, hpos, hday⟩, ?_⟩
  rw [hnumber, hyear, marchNumber]
  omega

/-- Only in a leap year does February go on to its 29th. -/
lemma february (year : ℤ) {day : ℕ} (hpos : 1 ≤ day) (hday : day ≤ 29)
    (hleap : day = 29 → IsLeap (year + 1)) :
    (Date.mk (year + 1) 2 day).Valid ∧ dayNumber ⟨year + 1, 2, day⟩ = marchNumber year 337 day := by
  have hyear := daysBeforeYear_march year
  have hnumber : dayNumber ⟨year + 1, 2, day⟩ =
      daysBeforeYear (year + 1) + (31 : ℕ) + (day - 1) - 719528 := rfl
  refine ⟨⟨Nat.le_add_left 1 1, Nat.le_add_left 2 10, hpos, ?_⟩, ?_⟩
  · change day ≤ if IsLeap (year + 1) then 29 else 28
    split
    · exact hday
    · next hl =>
      by_contra hlong
      exact hl (hleap (by omega))
  · rw [hnumber, hyear, marchNumber]
    omega

/-- A day in its month is a date. -/
lemma marchDate_spec (year : ℤ) {m : ℕ} (day : ℕ) (hm : m ≤ 11) (hpos : 1 ≤ day)
    (hday : marchDays m + day ≤ marchDays (m + 1))
    (hleap : marchDays m + day = 366 → IsLeap (year + 1)) :
    (marchDate year m day).Valid ∧
      dayNumber (marchDate year m day) = marchNumber year (marchDays m) day := by
  by_cases hearly : m < 10
  · rw [marchDate, if_pos hearly]
    exact march_to_december year hearly hpos hday
  · -- The last two months of the year belong to the next one.
    rw [marchDate, if_neg hearly]
    have hlate : m = 10 ∨ m = 11 := by omega
    rcases hlate with rfl | rfl
    · simp only [marchDays] at hday
      exact january year hpos (by omega)
    · simp only [marchDays] at hday hleap
      exact february year hpos (by omega) fun hlast => hleap (by omega)

/-- The parts of the formula, put together: the date of day `doy` of a year that starts in
March. -/
lemma marchDate_of_day (year doy : ℤ) {mp : ℤ} (h0 : 0 ≤ doy) (h1 : doy ≤ 365)
    (hmp : mp = (5 * doy + 2) / 153) (hleap : doy = 365 → IsLeap (year + 1)) :
    ∃ d : Date, d.Valid ∧
      dayNumber d = 365 * year + year / 4 - year / 100 + year / 400 + doy - 719468 ∧
      d.year = (if (if mp < 10 then mp + 3 else mp - 9) ≤ 2 then year + 1 else year) ∧
      d.month = (if mp < 10 then mp + 3 else mp - 9).toNat ∧
      d.day = (doy - (153 * mp + 2) / 5 + 1).toNat := by
  obtain ⟨m, rfl, hm, hbefore, hge, hlt⟩ := monthOfYear_spec h0 h1 hmp
  have hday : ((doy - marchDays m + 1).toNat : ℤ) = doy - marchDays m + 1 := by omega
  obtain ⟨hvalid, hnumber⟩ := marchDate_spec year (doy - marchDays m + 1).toNat
    hm (by omega) (by omega) fun hlast => hleap (by omega)
  refine ⟨_, hvalid, ?_, ?_⟩
  · rw [hnumber, marchNumber]
    omega
  · rw [hbefore]
    by_cases hearly : m < 10
    · have hcast : (m : ℤ) < 10 := by omega
      rw [marchDate, if_pos hearly, if_pos hcast, if_neg (by omega)]
      exact ⟨rfl, by simp only; omega, rfl⟩
    · have hcast : ¬(m : ℤ) < 10 := by omega
      rw [marchDate, if_neg hearly, if_neg hcast, if_pos (by omega)]
      exact ⟨rfl, by simp only; omega, rfl⟩

/-- **The date of a day** is the one with its number. -/
lemma civilFromDays_eq {z : ℤ} (hz : FitsI64 (z + 719468)) :
    ∃ d : Date, d.Valid ∧ dayNumber d = z ∧ civilFromDays z = .ok (d.year, d.month, d.day) := by
  unfold civilFromDays
  rw [if_pos hz]
  simp only
  generalize hera : (z + 719468) / 146097 = era
  generalize hdoe : (z + 719468) % 146097 = doe
  generalize hyoe : (doe - doe / 1460 + doe / 36524 - doe / 146096) / 365 = yoe
  obtain ⟨hyoe0, hyoe1, hlow, hhigh⟩ := yearOfEra_spec (by omega) (by omega) hyoe.symm
  obtain ⟨d, hvalid, hnumber, hyear, hmonth, hday⟩ := marchDate_of_day
    (yoe + era * 400) (doe - (365 * yoe + yoe / 4 - yoe / 100))
    (by omega) (by omega) rfl fun hlast => isLeap_of_longer hyoe0 hyoe1 (by omega)
  refine ⟨d, hvalid, ?_, by rw [hyear, hmonth, hday]⟩
  rw [hnumber]
  have hfour : (yoe + era * 400) / 4 = yoe / 4 + 100 * era := by omega
  have hcentury : (yoe + era * 400) / 100 = yoe / 100 + 4 * era := by omega
  have hcycle : (yoe + era * 400) / 400 = era := by omega
  rw [hfour, hcentury, hcycle]
  omega

/-! ## Instants -/

/-- A moment in UTC, to the millisecond. -/
@[ext]
structure Instant where
  date : Date
  hour : ℕ
  minute : ℕ
  second : ℕ
  millis : ℕ
deriving DecidableEq, Repr

namespace Instant

structure Valid (i : Instant) : Prop where
  date : i.date.Valid
  hour_lt : i.hour < 24
  minute_lt : i.minute < 60
  second_lt : i.second < 60
  millis_lt : i.millis < 1000

/-- The whole seconds since 1970. -/
def unixSeconds (i : Instant) : ℤ :=
  dayNumber i.date * 86400 + i.hour * 3600 + i.minute * 60 + i.second

/-- What stands behind the year of a timestamp. -/
def afterYear (i : Instant) : Str :=
  '-' :: (padded 2 i.date.month ++ '-' :: (padded 2 i.date.day ++ 'T' :: (padded 2 i.hour ++
    ':' :: (padded 2 i.minute ++ ':' :: (padded 2 i.second ++ '.' :: (padded 3 i.millis ++ ['Z']))))))

/-- The timestamp of a moment. -/
def timestamp (i : Instant) : Str := paddedInt 4 i.date.year ++ i.afterYear

variable {i j : Instant}

/-- The two digits of a part are where they are in every timestamp. -/
lemma part_inj (width : ℕ) {m n : ℕ} {c : Char} {s t : Str} (hwidth : 0 < width)
    (hm : m < 10 ^ width) (hn : n < 10 ^ width)
    (h : padded width m ++ c :: s = padded width n ++ c :: t) :
    m = n ∧ s = t := by
  have hlen : (padded width m).length = (padded width n).length := by
    rw [length_padded hwidth hm, length_padded hwidth hn]
  obtain ⟨hpart, hrest⟩ := List.append_inj h hlen
  exact ⟨padded_inj hpart, (List.cons.inj hrest).2⟩

lemma Valid.month_lt (h : i.Valid) : i.date.month < 10 ^ 2 := by
  have := h.date.month_le
  omega

lemma Valid.day_lt (h : i.Valid) : i.date.day < 10 ^ 2 := by
  have hle := h.date.day_le
  have hmonth : daysInMonth i.date.year i.date.month ≤ 31 := by
    unfold daysInMonth
    split <;> (try split) <;> omega
  omega

lemma Valid.length_afterYear (h : i.Valid) : i.afterYear.length = 20 := by
  have hmonth := length_padded (by decide) h.month_lt
  have hday := length_padded (by decide) h.day_lt
  have hhour := length_padded (by decide : 0 < 2) (h.hour_lt.trans (by decide))
  have hminute := length_padded (by decide : 0 < 2) (h.minute_lt.trans (by decide))
  have hsecond := length_padded (by decide : 0 < 2) (h.second_lt.trans (by decide))
  have hmillis := length_padded (by decide : 0 < 3) h.millis_lt
  simp only [afterYear, List.length_append, List.length_cons, hmonth, hday, hhour, hminute,
    hsecond, hmillis, List.length_nil]

/-- **A timestamp names one moment.** -/
lemma timestamp_inj (hi : i.Valid) (hj : j.Valid) (h : i.timestamp = j.timestamp) : i = j := by
  obtain ⟨hyear, hafter⟩ :=
    List.append_inj' h (hi.length_afterYear.trans hj.length_afterYear.symm)
  have hyear := paddedInt_inj hyear
  obtain ⟨hmonth, hafter⟩ := part_inj 2 (by decide) hi.month_lt hj.month_lt (List.cons.inj hafter).2
  obtain ⟨hday, hafter⟩ := part_inj 2 (by decide) hi.day_lt hj.day_lt hafter
  obtain ⟨hhour, hafter⟩ := part_inj 2 (by decide) (hi.hour_lt.trans (by decide))
    (hj.hour_lt.trans (by decide)) hafter
  obtain ⟨hminute, hafter⟩ := part_inj 2 (by decide) (hi.minute_lt.trans (by decide))
    (hj.minute_lt.trans (by decide)) hafter
  obtain ⟨hsecond, hafter⟩ := part_inj 2 (by decide) (hi.second_lt.trans (by decide))
    (hj.second_lt.trans (by decide)) hafter
  obtain ⟨hmillis, -⟩ := part_inj 3 (by decide) hi.millis_lt hj.millis_lt hafter
  exact Instant.ext (Date.ext hyear hmonth hday) hhour hminute hsecond hmillis

end Instant

lemma paddedInt_natCast (width n : ℕ) : paddedInt width n = padded width n := by
  rw [paddedInt, if_neg (by omega), Int.natAbs_natCast]

/-- A time of an `i64` is written as its moment. -/
lemma isoFromUnix_eq {secs : ℤ} (hsecs : FitsI64 secs) {millis : ℕ} (hmillis : millis < 1000) :
    ∃ i : Instant, i.Valid ∧ i.unixSeconds = secs ∧ i.millis = millis ∧
      isoFromUnix secs millis = .ok i.timestamp := by
  have hdays : FitsI64 (secs / 86400 + 719468) := by
    unfold FitsI64 at *
    omega
  obtain ⟨d, hvalid, hnumber, hcivil⟩ := civilFromDays_eq hdays
  obtain ⟨rem, hrem⟩ := Int.eq_ofNat_of_zero_le (Int.emod_nonneg secs (by decide : (86400 : ℤ) ≠ 0))
  have hlt := Int.emod_lt_of_pos secs (by decide : (0 : ℤ) < 86400)
  rw [hrem] at hlt
  refine ⟨⟨d, rem / 3600, rem % 3600 / 60, rem % 60, millis⟩,
    ⟨hvalid, by simp only; omega, by simp only; omega, by simp only; omega, hmillis⟩, ?_, rfl, ?_⟩
  · simp only [Instant.unixSeconds, hnumber]
    push_cast
    omega
  · have hhour : paddedInt 2 ((rem : ℤ) / 3600) = padded 2 (rem / 3600) := paddedInt_natCast 2 _
    have hminute : paddedInt 2 ((rem : ℤ) % 3600 / 60) = padded 2 (rem % 3600 / 60) :=
      paddedInt_natCast 2 _
    have hsecond : paddedInt 2 ((rem : ℤ) % 60) = padded 2 (rem % 60) := paddedInt_natCast 2 _
    simp only [isoFromUnix, hcivil, ok_bind, hrem, hhour, hminute, hsecond]
    simp only [Instant.timestamp, Instant.afterYear, List.append_assoc, List.singleton_append]
    rfl

example : isoFromUnix 1756119240 123 = .ok "2025-08-25T10:54:00.123Z".toList := by decide +kernel

/-- What the formula gives is a date, and the one with that number. -/
lemma civilFromDays_ok {z : ℤ} {d : Date} (h : civilFromDays z = .ok (d.year, d.month, d.day)) :
    d.Valid ∧ dayNumber d = z := by
  have hz : FitsI64 (z + 719468) := by
    by_contra hfar
    rw [civilFromDays, if_neg hfar] at h
    exact absurd h (by simp [crash])
  obtain ⟨e, hvalid, hnumber, he⟩ := civilFromDays_eq hz
  have heq := Except.ok.inj (h.symm.trans he)
  simp only [Prod.mk.injEq] at heq
  obtain rfl : d = e := Date.ext heq.1 heq.2.1 heq.2.2
  exact ⟨hvalid, hnumber⟩

/-- **Calendar conversion is exact.**  A day from which the formula can start is as far from
1970-01-01 as the date it gives, later days give later dates, and the timestamp of a time names
that time and no other. -/
theorem calendar_exact :
    (∀ z, FitsI64 (z + 719468) → ∃ d : Date, civilFromDays z = .ok (d.year, d.month, d.day) ∧
      d.Valid ∧ epoch.DaysBetween d z) ∧
    (∀ (z z' : ℤ) (d d' : Date), z < z' → civilFromDays z = .ok (d.year, d.month, d.day) →
      civilFromDays z' = .ok (d'.year, d'.month, d'.day) → d.Before d') ∧
    (∀ (secs : ℤ) (millis : ℕ), FitsI64 secs → millis < 1000 →
      ∃ i : Instant, isoFromUnix secs millis = .ok i.timestamp ∧ i.Valid ∧
        i.unixSeconds = secs ∧ i.millis = millis ∧
        ∀ j : Instant, j.Valid → j.timestamp = i.timestamp → j = i) := by
  refine ⟨fun z hz => ?_, fun z z' d d' hlt hd hd' => ?_, fun secs millis hsecs hmillis => ?_⟩
  · obtain ⟨d, hvalid, hnumber, hd⟩ := civilFromDays_eq hz
    refine ⟨d, hd, hvalid, (Date.daysBetween_iff valid_epoch hvalid z).mpr ?_⟩
    rw [hnumber, dayNumber_epoch, zero_add]
  · obtain ⟨hvalid, hnumber⟩ := civilFromDays_ok hd
    obtain ⟨hvalid', hnumber'⟩ := civilFromDays_ok hd'
    rw [Date.before_iff hvalid hvalid', hnumber, hnumber']
    exact hlt
  · obtain ⟨i, hvalid, hunix, hmillis, htext⟩ := isoFromUnix_eq hsecs hmillis
    exact ⟨i, htext, hvalid, hunix, hmillis, fun j hj h => Instant.timestamp_inj hj hvalid h⟩

/-- The last day of the year 2000, which is a leap year, the day after it, and a second before
1970. -/
theorem calendar_exact_sample :
    (∃ d : Date, civilFromDays 11322 = .ok (d.year, d.month, d.day) ∧ d.Valid ∧
      epoch.DaysBetween d 11322) ∧
    Date.Before ⟨2000, 12, 31⟩ ⟨2001, 1, 1⟩ ∧
    ∃ i : Instant, isoFromUnix (-1) 0 = .ok i.timestamp ∧ i.unixSeconds = -1 := by
  obtain ⟨i, htext, -, hunix, -⟩ := calendar_exact.2.2 (-1) 0 (by decide) (by decide)
  exact ⟨calendar_exact.1 11322 (by decide),
    calendar_exact.2.1 11322 11323 ⟨2000, 12, 31⟩ ⟨2001, 1, 1⟩ (by decide) (by decide) (by decide),
    i, htext, hunix⟩

end RemoteClient
