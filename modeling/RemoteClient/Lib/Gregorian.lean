/-
# The proleptic Gregorian calendar

Dates of the Gregorian calendar, extended to all years, and the number of days between them.
`dayNumber` is the number of a date by the lengths of years and months; the date after a date
has the next number (`Valid.next`), and later numbers are later dates (`before_iff`).  So the
steps from day to day that lead from one date to another are the difference of their numbers
(`daysBetween_iff`).
-/
import Mathlib.Algebra.Order.Ring.Int
import Mathlib.Tactic.Ring

namespace RemoteClient
namespace Gregorian

/-! ## Dates -/

@[ext]
structure Date where
  year : ℤ
  month : ℕ
  day : ℕ
deriving DecidableEq, Repr

def IsLeap (year : ℤ) : Prop := 4 ∣ year ∧ ¬100 ∣ year ∨ 400 ∣ year

instance : DecidablePred IsLeap := fun _ => inferInstanceAs (Decidable (_ ∨ _))

def daysInMonth (year : ℤ) : ℕ → ℕ
  | 2 => if IsLeap year then 29 else 28
  | 4 => 30
  | 6 => 30
  | 9 => 30
  | 11 => 30
  | _ => 31

namespace Date

/-- A day of the calendar. -/
structure Valid (d : Date) : Prop where
  month_pos : 1 ≤ d.month
  month_le : d.month ≤ 12
  day_pos : 1 ≤ d.day
  day_le : d.day ≤ daysInMonth d.year d.month

/-- The day after. -/
def next (d : Date) : Date :=
  if d.day < daysInMonth d.year d.month then { d with day := d.day + 1 }
  else if d.month < 12 then ⟨d.year, d.month + 1, 1⟩
  else ⟨d.year + 1, 1, 1⟩

/-- From one date to another it is `n` steps from day to day, backwards when `n` is negative. -/
def DaysBetween (d e : Date) (n : ℤ) : Prop :=
  0 ≤ n ∧ next^[n.toNat] d = e ∨ n ≤ 0 ∧ next^[(-n).toNat] e = d

/-- By year, then by month, then by day. -/
def Before (d e : Date) : Prop :=
  d.year < e.year ∨ d.year = e.year ∧ (d.month < e.month ∨ d.month = e.month ∧ d.day < e.day)

end Date

/-! ## Counting days -/

/-- The days of the first months of a year. -/
def daysOfMonths (year : ℤ) : ℕ → ℕ
  | 0 => 0
  | m + 1 => daysOfMonths year m + daysInMonth year (m + 1)

/-- The days from the start of the year 0 to that of another: every fourth year before it is a
leap year, of the centuries every fourth. -/
def daysBeforeYear (year : ℤ) : ℤ := 365 * year + (year + 3) / 4 - (year + 99) / 100 + (year + 399) / 400

/-- The number of a date, which is 0 for 1970-01-01. -/
def dayNumber (d : Date) : ℤ :=
  daysBeforeYear d.year + daysOfMonths d.year (d.month - 1) + (d.day - 1) - 719528

/-- The first day of Unix time. -/
def epoch : Date := ⟨1970, 1, 1⟩

lemma dayNumber_epoch : dayNumber epoch = 0 := by decide

lemma valid_epoch : epoch.Valid := ⟨le_rfl, by decide, le_rfl, by decide⟩

lemma isLeap_iff (year : ℤ) :
    IsLeap year ↔ year % 4 = 0 ∧ ¬year % 100 = 0 ∨ year % 400 = 0 := by
  unfold IsLeap
  omega

/-- A year has 365 days, and one more when it is a leap year. -/
lemma daysBeforeYear_succ (year : ℤ) :
    daysBeforeYear (year + 1) = daysBeforeYear year + if IsLeap year then 366 else 365 := by
  unfold daysBeforeYear
  split
  · next h =>
    rw [isLeap_iff] at h
    omega
  · next h =>
    rw [isLeap_iff] at h
    omega

/-- The months make up the year. -/
lemma daysOfMonths_twelve (year : ℤ) :
    daysOfMonths year 12 = if IsLeap year then 366 else 365 := by
  simp only [daysOfMonths, daysInMonth]
  split <;> rfl

/-- Within a month the days before it and its days fit into the year. -/
lemma daysOfMonths_mono (year : ℤ) {m n : ℕ} (h : m ≤ n) :
    daysOfMonths year m ≤ daysOfMonths year n := by
  induction n, h using Nat.le_induction with
  | base => exact le_rfl
  | succ n _ ih => exact ih.trans (Nat.le_add_right _ _)

namespace Date

variable {d e : Date}

lemma Valid.succ_pred (h : d.Valid) : d.month - 1 + 1 = d.month := Nat.sub_add_cancel h.month_pos

/-- The next date is a date, and its number is the next one. -/
lemma Valid.next (h : d.Valid) : d.next.Valid ∧ dayNumber d.next = dayNumber d + 1 := by
  have hmonth := h.succ_pred
  have hmonths : daysOfMonths d.year d.month =
      daysOfMonths d.year (d.month - 1) + daysInMonth d.year d.month := by
    conv_lhs => rw [← hmonth]
    rw [daysOfMonths, hmonth]
  have hday := h.day_le
  have hpos : ∀ year month, 1 ≤ daysInMonth year month := by
    intro year month
    unfold daysInMonth
    split <;> (try split) <;> decide
  unfold Date.next
  split
  · next hlt =>
    refine ⟨⟨h.month_pos, h.month_le, Nat.le_add_left 1 _, hlt⟩, ?_⟩
    simp only [dayNumber]
    push_cast
    ring
  · next hlast =>
    split
    · next hdec =>
      refine ⟨⟨Nat.le_add_left 1 _, hdec, le_rfl, hpos _ _⟩, ?_⟩
      simp only [dayNumber, Nat.add_sub_cancel, hmonths]
      omega
    · next hdec =>
      -- December is the last of the twelve months.
      have htwelve : d.month = 12 := le_antisymm h.month_le (not_lt.mp hdec)
      refine ⟨⟨le_rfl, Nat.le_add_left 1 11, le_rfl, hpos _ _⟩, ?_⟩
      have hyear := daysOfMonths_twelve d.year
      have hzero : daysOfMonths (d.year + 1) 0 = 0 := rfl
      rw [← htwelve, hmonths] at hyear
      simp only [dayNumber, daysBeforeYear_succ, Nat.sub_self, hzero]
      by_cases hleap : IsLeap d.year
      · rw [if_pos hleap] at hyear ⊢
        omega
      · rw [if_neg hleap] at hyear ⊢
        omega

end Date

/-! ## Order -/

namespace Date

variable {d e : Date}

/-- A date lies within its year. -/
lemma Valid.day_of_year (h : d.Valid) :
    daysOfMonths d.year (d.month - 1) + d.day ≤ daysOfMonths d.year d.month := by
  have hsum : daysOfMonths d.year (d.month - 1 + 1) =
      daysOfMonths d.year (d.month - 1) + daysInMonth d.year (d.month - 1 + 1) := rfl
  rw [h.succ_pred] at hsum
  have hday := h.day_le
  omega

lemma daysBeforeYear_mono {m n : ℤ} (h : m < n) :
    daysBeforeYear m + (if IsLeap m then 366 else 365) ≤ daysBeforeYear n := by
  rw [← daysBeforeYear_succ]
  unfold daysBeforeYear
  omega

/-- An earlier date has the smaller number. -/
lemma dayNumber_lt_of_before (hd : d.Valid) (he : e.Valid) (h : d.Before e) :
    dayNumber d < dayNumber e := by
  have hday := hd.day_of_year
  have hpos := he.day_pos
  rcases h with hyear | ⟨hyear, hmonth | ⟨hmonth, hlt⟩⟩
  · have hmonths := daysOfMonths_mono d.year hd.month_le
    rw [daysOfMonths_twelve] at hmonths
    have hyears := daysBeforeYear_mono hyear
    unfold dayNumber
    by_cases hleap : IsLeap d.year
    · rw [if_pos hleap] at hmonths hyears
      omega
    · rw [if_neg hleap] at hmonths hyears
      omega
  · have hmonths := daysOfMonths_mono d.year (by omega : d.month ≤ e.month - 1)
    unfold dayNumber
    rw [← hyear]
    omega
  · unfold dayNumber
    rw [← hyear, ← hmonth]
    omega

lemma before_trichotomy (d e : Date) : d.Before e ∨ d = e ∨ e.Before d := by
  cases d
  cases e
  simp only [Before, Date.mk.injEq]
  omega

/-- **Later numbers are later dates.** -/
lemma before_iff (hd : d.Valid) (he : e.Valid) : d.Before e ↔ dayNumber d < dayNumber e := by
  refine ⟨dayNumber_lt_of_before hd he, fun h => ?_⟩
  rcases before_trichotomy d e with hbefore | rfl | hafter
  · exact hbefore
  · exact absurd h (lt_irrefl _)
  · exact absurd (dayNumber_lt_of_before he hd hafter) h.not_gt

/-- No two dates have the same number. -/
lemma dayNumber_inj (hd : d.Valid) (he : e.Valid) (h : dayNumber d = dayNumber e) : d = e := by
  rcases before_trichotomy d e with hbefore | heq | hafter
  · exact absurd h (dayNumber_lt_of_before hd he hbefore).ne
  · exact heq
  · exact absurd h.symm (dayNumber_lt_of_before he hd hafter).ne

/-! ## Steps from day to day -/

/-- The date after some days. -/
lemma Valid.iterate_next (h : d.Valid) (n : ℕ) :
    (Date.next^[n] d).Valid ∧ dayNumber (Date.next^[n] d) = dayNumber d + n := by
  induction n with
  | zero => exact ⟨h, (add_zero _).symm⟩
  | succ n ih =>
    obtain ⟨hvalid, hnumber⟩ := ih.1.next
    rw [Function.iterate_succ_apply']
    refine ⟨hvalid, ?_⟩
    rw [hnumber, ih.2]
    push_cast
    ring

lemma iterate_next_eq_iff (hd : d.Valid) (he : e.Valid) (n : ℕ) :
    Date.next^[n] d = e ↔ dayNumber e = dayNumber d + n := by
  obtain ⟨hvalid, hnumber⟩ := hd.iterate_next n
  constructor
  · rintro rfl
    exact hnumber
  · intro h
    exact dayNumber_inj hvalid he (hnumber.trans h.symm)

/-- **The number of a date counts days.** -/
lemma daysBetween_iff (hd : d.Valid) (he : e.Valid) (n : ℤ) :
    d.DaysBetween e n ↔ dayNumber e = dayNumber d + n := by
  rw [DaysBetween, iterate_next_eq_iff hd he, iterate_next_eq_iff he hd]
  omega

end Date

end Gregorian
end RemoteClient
