import Mathlib.Data.Int.Order.Basic
import Mathlib.Tactic.NormNum

/-!
# The civil calendar of the prelude

`civilDateOf` shifts the year to begin in March, so that a date is an era, a year of the era
and a day of that year (`Shifted`).  Both directions are read through that shape.
-/

namespace Zdeceptron
namespace Prelude

section Whole

def quotient (value divisor : Int) : Option Int :=
  if divisor = 0 then none else some (value.fdiv divisor)

def mod (value divisor : Int) : Option Int :=
  match quotient value divisor with
  | some whole => some (value - divisor * whole)
  | none => none

def valueOr {α : Type} (maybe : Option α) (fallback : α) : α := maybe.getD fallback

theorem quotient_pos (value : Int) {divisor : Int} (h : 0 < divisor) :
    valueOr (quotient value divisor) 0 = value / divisor := by
  rw [quotient, if_neg (by omega), valueOr, Option.getD_some,
    Int.fdiv_eq_ediv_of_nonneg value (by omega)]

theorem mod_pos (value : Int) {divisor : Int} (h : 0 < divisor) :
    valueOr (mod value divisor) 0 = value % divisor := by
  rw [mod, quotient, if_neg (by omega)]
  simp only [valueOr, Option.getD_some]
  rw [Int.fdiv_eq_ediv_of_nonneg value (by omega), Int.emod_def]

end Whole

structure CivilDate where
  year : Int
  month : Int
  day : Int
  deriving DecidableEq

structure CivilTime where
  hour : Int
  minute : Int
  second : Int
  millisecond : Int
  deriving DecidableEq

def dayOf (moment : Int) : Int := valueOr (quotient moment 86400000) 0

def civilDateOf (moment : Int) : CivilDate :=
  let z := dayOf moment + 719468
  let era := valueOr (quotient z 146097) 0
  let doe := z - era * 146097
  let skipped := valueOr (quotient doe 1460) 0 - valueOr (quotient doe 36524) 0 +
    valueOr (quotient doe 146096) 0
  let yoe := valueOr (quotient (doe - skipped) 365) 0
  let doy := doe - (365 * yoe + valueOr (quotient yoe 4) 0 - valueOr (quotient yoe 100) 0)
  let mp := valueOr (quotient (5 * doy + 2) 153) 0
  let dayInMonth := doy - valueOr (quotient (153 * mp + 2) 5) 0 + 1
  let shiftedYear := yoe + era * 400
  if mp < 10 then ⟨shiftedYear, mp + 3, dayInMonth⟩ else ⟨shiftedYear + 1, mp - 9, dayInMonth⟩

def civilTimeOf (moment : Int) : CivilTime :=
  let sinceMidnight := moment - dayOf moment * 86400000
  let hours := valueOr (quotient sinceMidnight 3600000) 0
  let minutes := valueOr (quotient sinceMidnight 60000) 0
  let seconds := valueOr (quotient sinceMidnight 1000) 0
  ⟨hours, minutes - hours * 60, seconds - minutes * 60, sinceMidnight - seconds * 1000⟩

def momentOf (date : CivilDate) (time : CivilTime) : Int :=
  let monthIndex := valueOr (mod (date.month - 3) 12) 0
  let shiftedYear := date.year + valueOr (quotient (date.month - 3) 12) 0
  let era := valueOr (quotient shiftedYear 400) 0
  let yoe := shiftedYear - era * 400
  let doy := valueOr (quotient (153 * monthIndex + 2) 5) 0 + date.day - 1
  let doe := yoe * 365 + valueOr (quotient yoe 4) 0 - valueOr (quotient yoe 100) 0 + doy
  let days := era * 146097 + doe - 719468
  days * 86400000 + time.hour * 3600000 + time.minute * 60000 + time.second * 1000 +
    time.millisecond

section Calendar

def isLeap (year : Int) : Prop := year % 4 = 0 ∧ (year % 100 ≠ 0 ∨ year % 400 = 0)

instance (year : Int) : Decidable (isLeap year) := by
  unfold isLeap
  infer_instance

def daysInMonth (year month : Int) : Int :=
  if month = 2 then if isLeap year then 29 else 28
  else if month = 4 ∨ month = 6 ∨ month = 9 ∨ month = 11 then 30 else 31

/-- A date of the proleptic Gregorian calendar. -/
structure CivilDate.Valid (date : CivilDate) : Prop where
  month : 1 ≤ date.month ∧ date.month ≤ 12
  day : 1 ≤ date.day ∧ date.day ≤ daysInMonth date.year date.month

structure CivilTime.Valid (time : CivilTime) : Prop where
  hour : 0 ≤ time.hour ∧ time.hour < 24
  minute : 0 ≤ time.minute ∧ time.minute < 60
  second : 0 ≤ time.second ∧ time.second < 60
  millisecond : 0 ≤ time.millisecond ∧ time.millisecond < 1000

def CivilTime.total (time : CivilTime) : Int :=
  time.hour * 3600000 + time.minute * 60000 + time.second * 1000 + time.millisecond

def CivilDate.Before (a b : CivilDate) : Prop :=
  a.year < b.year ∨ a.year = b.year ∧
    (a.month < b.month ∨ a.month = b.month ∧ a.day < b.day)

/-- A day of a year that begins in March, within its cycle of four hundred years. -/
structure Shifted (yoe doy : Int) : Prop where
  year : 0 ≤ yoe ∧ yoe < 400
  first : 0 ≤ doy
  last : doy < 365 ∨ doy = 365 ∧ yoe % 4 = 3 ∧ (yoe % 100 ≠ 99 ∨ yoe = 399)

def dayOfEra (yoe doy : Int) : Int := 365 * yoe + yoe / 4 - yoe / 100 + doy

theorem Shifted.yoe_of_day {yoe doy doe : Int} (h : Shifted yoe doy)
    (hdoe : doe = dayOfEra yoe doy) :
    0 ≤ doe ∧ doe < 146097 ∧ (doe - (doe / 1460 - doe / 36524 + doe / 146096)) / 365 = yoe := by
  obtain ⟨hyear, hfirst, hlast⟩ := h
  obtain ⟨q, p, k, hq, hp, hk, rfl⟩ : ∃ q p k : Int, (0 ≤ q ∧ q ≤ 3) ∧ (0 ≤ p ∧ p ≤ 24) ∧
      (0 ≤ k ∧ k ≤ 3) ∧ yoe = 100 * q + 4 * p + k :=
    ⟨yoe / 100, yoe % 100 / 4, yoe % 4, by omega⟩
  have h4 : (100 * q + 4 * p + k) / 4 = 25 * q + p := by omega
  have h100 : (100 * q + 4 * p + k) / 100 = q := by omega
  rw [dayOfEra, h4, h100] at hdoe
  have hrest : 1461 * p + 365 * k + doy < 36524 ∨ doe = 146096 ∧ q = 3 := by omega
  have hcentury : doe / 36524 - doe / 146096 = q := by
    rcases hrest with hrest | ⟨hdoe, hq⟩
    · have : doe / 36524 = q := by omega
      omega
    · omega
  have hcycle : doe / 1460 = 25 * q + p + (24 * q + p + 365 * k + doy) / 1460 := by omega
  refine ⟨by omega, by omega, ?_⟩
  clear hrest h4 h100
  generalize hover : (24 * q + p + 365 * k + doy) / 1460 = extra at hcycle
  have hday : 0 ≤ doy - extra ∧ doy - extra < 365 := by
    clear hcycle hcentury hdoe
    omega
  have hsum : doe - (doe / 1460 - doe / 36524 + doe / 146096) =
      365 * (100 * q + 4 * p + k) + (doy - extra) := by
    generalize doe / 1460 = a at *
    generalize doe / 36524 = b at *
    generalize doe / 146096 = c at *
    clear hlast hday hover
    omega
  rw [hsum]
  clear hsum hlast hover hcycle hcentury hdoe
  omega

theorem exists_shifted {doe : Int} (h : 0 ≤ doe ∧ doe < 146097) :
    ∃ yoe doy, Shifted yoe doy ∧ doe = dayOfEra yoe doy := by
  obtain ⟨q, r, hq, hr, hlast, rfl⟩ : ∃ q r : Int, (0 ≤ q ∧ q ≤ 3) ∧ 0 ≤ r ∧
      (r < 36524 ∨ r = 36524 ∧ q = 3) ∧ doe = 36524 * q + r := by
    by_cases hlast : doe = 146096
    · exact ⟨3, 36524, by omega⟩
    · exact ⟨doe / 36524, doe % 36524, by omega⟩
  obtain ⟨k, t, hk, ht, hleap, hr'⟩ : ∃ k t : Int, (0 ≤ k ∧ k ≤ 3) ∧ 0 ≤ t ∧
      (t < 365 ∨ t = 365 ∧ k = 3) ∧ r % 1461 = 365 * k + t := by
    by_cases hleap : r % 1461 = 1460
    · exact ⟨3, 365, by omega⟩
    · exact ⟨r % 1461 / 365, r % 1461 % 365, by omega⟩
  have h4 : (100 * q + 4 * (r / 1461) + k) / 4 = 25 * q + r / 1461 := by omega
  have h100 : (100 * q + 4 * (r / 1461) + k) / 100 = q := by omega
  refine ⟨100 * q + 4 * (r / 1461) + k, t, ⟨by omega, ht, by omega⟩, ?_⟩
  rw [dayOfEra, h4, h100]
  omega

def dateOf (era yoe doy : Int) : CivilDate :=
  let mp := (5 * doy + 2) / 153
  let day := doy - (153 * mp + 2) / 5 + 1
  if mp < 10 then ⟨yoe + era * 400, mp + 3, day⟩ else ⟨yoe + era * 400 + 1, mp - 9, day⟩

variable (moment : Int)

theorem dayOf_eq : dayOf moment = moment / 86400000 :=
  quotient_pos moment (by omega)

theorem civilDateOf_eq {moment era yoe doy : Int} (h : Shifted yoe doy)
    (hday : dayOf moment + 719468 = era * 146097 + dayOfEra yoe doy) :
    civilDateOf moment = dateOf era yoe doy := by
  obtain ⟨hlow, hhigh, hyoe⟩ := h.yoe_of_day rfl
  have hera : (dayOf moment + 719468) / 146097 = era := by omega
  have hdoe : dayOf moment + 719468 - era * 146097 = dayOfEra yoe doy := by omega
  have hdoy : dayOfEra yoe doy - (365 * yoe + yoe / 4 - yoe / 100) = doy := by
    rw [dayOfEra]
    omega
  simp (disch := omega) only [civilDateOf, quotient_pos, hera, hdoe, hyoe, hdoy]
  rfl

theorem exists_dateOf : ∃ era yoe doy, Shifted yoe doy ∧
    dayOf moment + 719468 = era * 146097 + dayOfEra yoe doy ∧
    civilDateOf moment = dateOf era yoe doy := by
  have hrange : 0 ≤ (dayOf moment + 719468) % 146097 ∧
      (dayOf moment + 719468) % 146097 < 146097 := by omega
  obtain ⟨yoe, doy, hshifted, hday⟩ := exists_shifted hrange
  have hsum : dayOf moment + 719468 =
      (dayOf moment + 719468) / 146097 * 146097 + dayOfEra yoe doy := by omega
  exact ⟨_, yoe, doy, hshifted, hsum, civilDateOf_eq hshifted hsum⟩

theorem momentOf_eq (date : CivilDate) (time : CivilTime) :
    momentOf date time = ((12 * date.year + date.month - 3) / 4800 * 146097 +
        dayOfEra ((12 * date.year + date.month - 3) / 12 % 400)
          ((153 * ((12 * date.year + date.month - 3) % 12) + 2) / 5 + date.day - 1) -
          719468) * 86400000 + time.total := by
  have hmonth : (date.month - 3) % 12 = (12 * date.year + date.month - 3) % 12 := by omega
  have hyear : date.year + (date.month - 3) / 12 = (12 * date.year + date.month - 3) / 12 := by
    omega
  have hera : (12 * date.year + date.month - 3) / 12 / 400 =
      (12 * date.year + date.month - 3) / 4800 := by omega
  have hyoe : (12 * date.year + date.month - 3) / 12 -
      (12 * date.year + date.month - 3) / 4800 * 400 =
        (12 * date.year + date.month - 3) / 12 % 400 := by omega
  simp (disch := omega) only [momentOf, quotient_pos, mod_pos, hmonth, hyear, hera, hyoe, dayOfEra,
    CivilTime.total]
  omega

theorem dateOf_months (era yoe doy : Int) :
    12 * (dateOf era yoe doy).year + (dateOf era yoe doy).month - 3 =
        4800 * era + 12 * yoe + (5 * doy + 2) / 153 ∧
      (153 * ((5 * doy + 2) / 153) + 2) / 5 + (dateOf era yoe doy).day - 1 = doy := by
  rw [dateOf]
  split
  · exact ⟨by simp only; omega, by simp only; omega⟩
  · exact ⟨by simp only; omega, by simp only; omega⟩

theorem le_daysInMonth {year month day : Int} : day ≤ daysInMonth year month ↔
    day ≤ 31 ∧ (month = 4 ∨ month = 6 ∨ month = 9 ∨ month = 11 → day ≤ 30) ∧
      (month = 2 → day ≤ 28 ∨ day = 29 ∧ isLeap year) := by
  simp only [daysInMonth, isLeap]
  split_ifs <;> omega

theorem dateOf_valid {yoe doy : Int} (era : Int) (h : Shifted yoe doy) :
    (dateOf era yoe doy).Valid := by
  obtain ⟨hyear, hfirst, hlast⟩ := h
  have hmp : 0 ≤ (5 * doy + 2) / 153 ∧ (5 * doy + 2) / 153 ≤ 11 := by omega
  have hmonth : (dateOf era yoe doy).month = (5 * doy + 2) / 153 + 3 ∨
      (dateOf era yoe doy).month = (5 * doy + 2) / 153 - 9 := by
    rw [dateOf]
    split
    · exact Or.inl rfl
    · exact Or.inr rfl
  refine ⟨?_, ?_, le_daysInMonth.mpr ⟨?_, fun hshort => ?_, fun htwo => ?_⟩⟩
  · rw [dateOf]
    split
    · exact ⟨by simp only; omega, by simp only; omega⟩
    · exact ⟨by simp only; omega, by simp only; omega⟩
  all_goals obtain ⟨hmonths, hday⟩ := dateOf_months era yoe doy
  · omega
  · omega
  · rcases hshort with hshort | hshort | hshort | hshort <;> omega
  · -- February, whose last day is that of the year
    have hlength : (5 * doy + 2) / 153 = 11 := by omega
    rw [hlength] at hmonths hday
    have hyear' : (dateOf era yoe doy).year = 400 * era + yoe + 1 := by omega
    rw [isLeap, hyear']
    omega

theorem momentOf_dateOf {era yoe doy : Int} (h : Shifted yoe doy) (time : CivilTime) :
    momentOf (dateOf era yoe doy) time =
      (era * 146097 + dayOfEra yoe doy - 719468) * 86400000 + time.total := by
  obtain ⟨hyear, hfirst, hlast⟩ := h
  obtain ⟨hmonths, hday⟩ := dateOf_months era yoe doy
  have hmp : 0 ≤ (5 * doy + 2) / 153 ∧ (5 * doy + 2) / 153 ≤ 11 := by omega
  have hera : (4800 * era + 12 * yoe + (5 * doy + 2) / 153) / 4800 = era := by omega
  have hshifted : (4800 * era + 12 * yoe + (5 * doy + 2) / 153) / 12 = 400 * era + yoe := by omega
  have hyoe : (4800 * era + 12 * yoe + (5 * doy + 2) / 153) / 12 % 400 = yoe := by
    rw [hshifted]
    omega
  have hindex : (4800 * era + 12 * yoe + (5 * doy + 2) / 153) % 12 = (5 * doy + 2) / 153 := by
    omega
  rw [momentOf_eq, hmonths, hera, hyoe, hindex, hday]

theorem exists_of_valid {date : CivilDate} (h : date.Valid) :
    ∃ era yoe doy, Shifted yoe doy ∧ dateOf era yoe doy = date := by
  obtain ⟨⟨hlow, hhigh⟩, hfirst, hlast⟩ := h
  obtain ⟨year, month, day⟩ := date
  rw [le_daysInMonth, isLeap] at hlast
  simp only at hlow hhigh hfirst hlast
  obtain ⟨hlength, hshort, htwo⟩ := hlast
  obtain ⟨y, mp, hmp, hmonth⟩ : ∃ y mp : Int, (0 ≤ mp ∧ mp ≤ 11) ∧
      (mp < 10 ∧ month = mp + 3 ∧ year = y ∨ ¬mp < 10 ∧ month = mp - 9 ∧ year = y + 1) := by
    clear hshort htwo hlength hfirst
    by_cases hmarch : 3 ≤ month
    · exact ⟨year, month - 3, by omega⟩
    · exact ⟨year - 1, month + 9, by omega⟩
  have hdays : (mp = 1 ∨ mp = 3 ∨ mp = 6 ∨ mp = 8 → day ≤ 30) ∧ (mp = 11 → day ≤ 29) := by
    omega
  obtain ⟨doy, hdoy⟩ : ∃ doy, doy = (153 * mp + 2) / 5 + day - 1 := ⟨_, rfl⟩
  have hyear : (5 * doy + 2) / 153 = mp ∧ 0 ≤ doy ∧
      (doy < 365 ∨ doy = 365 ∧ mp = 11 ∧ day = 29) := by
    have hmp' : mp = 0 ∨ mp = 1 ∨ mp = 2 ∨ mp = 3 ∨ mp = 4 ∨ mp = 5 ∨ mp = 6 ∨ mp = 7 ∨
        mp = 8 ∨ mp = 9 ∨ mp = 10 ∨ mp = 11 := by
      omega
    clear hmonth hshort htwo hlow hhigh
    rcases hmp' with rfl | rfl | rfl | rfl | rfl | rfl | rfl | rfl | rfl | rfl | rfl | rfl
    all_goals omega
  obtain ⟨hindex, hstart, hend⟩ := hyear
  refine ⟨y / 400, y % 400, doy, ⟨by omega, hstart, hend.imp id ?_⟩, ?_⟩
  · rintro ⟨hdoy, hfebruary, hday⟩
    have hleap := htwo (by omega)
    clear hindex hshort hdays
    omega
  · rw [dateOf]
    simp only [hindex]
    clear hshort htwo hdays hend hindex
    rcases hmonth with ⟨hlt, rfl, rfl⟩ | ⟨hge, rfl, rfl⟩
    · rw [if_pos hlt, CivilDate.mk.injEq]
      omega
    · rw [if_neg hge, CivilDate.mk.injEq]
      omega

theorem civilTimeOf_spec :
    (civilTimeOf moment).Valid ∧ dayOf moment * 86400000 + (civilTimeOf moment).total = moment := by
  simp (disch := omega) only [civilTimeOf, quotient_pos, dayOf_eq, CivilTime.total]
  exact ⟨⟨by simp only; omega, by simp only; omega, by simp only; omega, by simp only; omega⟩,
    by omega⟩

theorem CivilTime.Valid.total_bounds {time : CivilTime} (h : time.Valid) :
    0 ≤ time.total ∧ time.total < 86400000 := by
  obtain ⟨hhour, hminute, hsecond, hmillisecond⟩ := h
  rw [CivilTime.total]
  omega

theorem CivilTime.Valid.eq_of_total {a b : CivilTime} (ha : a.Valid) (hb : b.Valid)
    (h : a.total = b.total) : a = b := by
  obtain ⟨⟨_, _⟩, ⟨_, _⟩, ⟨_, _⟩, ⟨_, _⟩⟩ := ha
  obtain ⟨⟨_, _⟩, ⟨_, _⟩, ⟨_, _⟩, ⟨_, _⟩⟩ := hb
  obtain ⟨ah, am, as, al⟩ := a
  obtain ⟨bh, bm, bs, bl⟩ := b
  simp only [CivilTime.total] at *
  rw [CivilTime.mk.injEq]
  omega

theorem CivilDate.before_of_months {a b : CivilDate} (ha : 1 ≤ a.month ∧ a.month ≤ 12)
    (hb : 1 ≤ b.month ∧ b.month ≤ 12) (h : 12 * a.year + a.month < 12 * b.year + b.month ∨
      12 * a.year + a.month = 12 * b.year + b.month ∧ a.day < b.day) : a.Before b := by
  rw [CivilDate.Before]
  omega

theorem before_of_day {era yoe doy era' yoe' doy' : Int} (h : Shifted yoe doy)
    (h' : Shifted yoe' doy')
    (hday : era * 146097 + dayOfEra yoe doy < era' * 146097 + dayOfEra yoe' doy') :
    (dateOf era yoe doy).Before (dateOf era' yoe' doy') := by
  obtain ⟨hlow, hhigh, -⟩ := h.yoe_of_day rfl
  obtain ⟨hlow', hhigh', -⟩ := h'.yoe_of_day rfl
  have hvalid := (dateOf_valid era h).month
  have hvalid' := (dateOf_valid era' h').month
  obtain ⟨hmonths, hrest⟩ := dateOf_months era yoe doy
  obtain ⟨hmonths', hrest'⟩ := dateOf_months era' yoe' doy'
  obtain ⟨hyear, hfirst, hlast⟩ := h
  obtain ⟨hyear', hfirst', hlast'⟩ := h'
  have hend : doy ≤ 365 := by omega
  have hend' : doy' ≤ 365 := by omega
  clear hlast hlast'
  have hlex : era < era' ∨ era = era' ∧ (yoe < yoe' ∨ yoe = yoe' ∧ doy < doy') := by
    clear hmonths hmonths' hrest hrest' hvalid hvalid'
    rcases lt_trichotomy era era' with hera | hera | hera
    · exact Or.inl hera
    · refine Or.inr ⟨hera, ?_⟩
      subst hera
      rw [dayOfEra, dayOfEra] at hday
      clear hlow hlow' hhigh hhigh'
      rcases lt_trichotomy yoe yoe' with hyoe | hyoe | hyoe
      · exact Or.inl hyoe
      · subst hyoe
        exact Or.inr ⟨rfl, by omega⟩
      · omega
    · omega
  clear hday hlow hlow' hhigh hhigh'
  have hlength : (5 * doy + 2) / 153 ≤ 11 := by omega
  have hlength' : 0 ≤ (5 * doy' + 2) / 153 := by omega
  refine CivilDate.before_of_months hvalid hvalid' ?_
  clear hvalid hvalid'
  generalize (dateOf era yoe doy) = a at *
  generalize (dateOf era' yoe' doy') = b at *
  rcases hlex with hera | ⟨rfl, hyoe | ⟨rfl, hdoy⟩⟩
  · clear hrest hrest'
    omega
  · clear hrest hrest'
    omega
  · have : (5 * doy + 2) / 153 ≤ (5 * doy' + 2) / 153 := by omega
    rcases lt_or_eq_of_le this with hmp | hmp
    · clear hrest hrest'
      omega
    · rw [← hmp] at hmonths' hrest'
      omega

/-- The civil calendar is a bijection that keeps the order, and carries what is out of range. -/
theorem civil_calendar :
    (∀ moment, (civilDateOf moment).Valid ∧ (civilTimeOf moment).Valid ∧
      momentOf (civilDateOf moment) (civilTimeOf moment) = moment) ∧
    (∀ a b, a < b → (civilDateOf a).Before (civilDateOf b) ∨
      civilDateOf a = civilDateOf b ∧ (civilTimeOf a).total < (civilTimeOf b).total) ∧
    (∀ (date : CivilDate) (time : CivilTime), date.Valid → time.Valid →
      civilDateOf (momentOf date time) = date ∧ civilTimeOf (momentOf date time) = time) ∧
    (∀ (a b : CivilDate) (time : CivilTime), 12 * a.year + a.month = 12 * b.year + b.month →
      a.day = b.day → momentOf a time = momentOf b time) ∧
    (∀ (date : CivilDate) (time : CivilTime) (days : Int),
      momentOf { date with day := date.day + days } time =
        momentOf date time + 86400000 * days) := by
  refine ⟨fun moment => ?_, fun a b hab => ?_, fun date time hdate htime => ?_,
    fun a b time hmonths hday => ?_, fun date time days => ?_⟩
  · obtain ⟨era, yoe, doy, hshifted, hday, hdate⟩ := exists_dateOf moment
    obtain ⟨hvalid, htotal⟩ := civilTimeOf_spec moment
    rw [hdate, momentOf_dateOf hshifted]
    exact ⟨dateOf_valid era hshifted, hvalid, by rw [← hday]; omega⟩
  · obtain ⟨era, yoe, doy, hshifted, hday, hdate⟩ := exists_dateOf a
    obtain ⟨era', yoe', doy', hshifted', hday', hdate'⟩ := exists_dateOf b
    obtain ⟨hvalid, htotal⟩ := civilTimeOf_spec a
    obtain ⟨hvalid', htotal'⟩ := civilTimeOf_spec b
    have hbounds := hvalid.total_bounds
    have hbounds' := hvalid'.total_bounds
    rcases lt_or_ge (dayOf a) (dayOf b) with hlt | hge
    · rw [hdate, hdate']
      exact Or.inl (before_of_day hshifted hshifted' (by omega))
    · have hsame : dayOf a = dayOf b := by omega
      refine Or.inr ⟨?_, by omega⟩
      rw [hdate', civilDateOf_eq hshifted' (by rw [hsame, hday'])]
  · obtain ⟨era, yoe, doy, hshifted, rfl⟩ := exists_of_valid hdate
    have hbounds := htime.total_bounds
    have hmoment := @momentOf_dateOf era yoe doy hshifted time
    have hday : dayOf (momentOf (dateOf era yoe doy) time) =
        era * 146097 + dayOfEra yoe doy - 719468 := by
      rw [dayOf_eq, hmoment]
      omega
    obtain ⟨hvalid, htotal⟩ := civilTimeOf_spec (momentOf (dateOf era yoe doy) time)
    exact ⟨civilDateOf_eq hshifted (by omega), hvalid.eq_of_total htime (by omega)⟩
  · rw [momentOf_eq, momentOf_eq, hmonths, hday]
  · rw [momentOf_eq, momentOf_eq]
    simp only [dayOfEra]
    omega

end Calendar
end Prelude
end Zdeceptron
