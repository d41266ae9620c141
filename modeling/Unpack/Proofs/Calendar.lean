import Mathlib.Tactic.IntervalCases
import Unpack.Calendar

namespace Unpack.Date

-- Every fourth year has a leap day. Of the full centuries only every fourth has.
def isLeap (year : Int) : Bool :=
  year % 4 = 0 ∧ (year % 100 = 0 → year % 400 = 0)

def monthLength (year : Int) : (month : Nat) → Nat
  | 2 => if isLeap year then 29 else 28
  | 4 | 6 | 9 | 11 => 30
  | _ => 31

-- The dates that the calendar has.
structure Valid (date : Date) : Prop where
  month_pos : 1 ≤ date.month
  month_le : date.month ≤ 12
  day_pos : 1 ≤ date.day
  day_le : date.day ≤ monthLength date.year date.month

-- The day after.
def next (date : Date) : Date :=
  if date.day < monthLength date.year date.month then { date with day := date.day + 1 }
  else if date.month < 12 then ⟨date.year, date.month + 1, 1⟩
  else ⟨date.year + 1, 1, 1⟩

section March

variable {date : Date} {year day : Int}

-- Days from 1 March of the year 0 to 1 March of a year.
def daysBefore (year : Int) : Int :=
  year * 365 + year / 4 - year / 100 + year / 400

-- Days from 1 March to the first of the month that is so many months later.
def monthStart (month : Int) : Int :=
  (153 * month + 2) / 5

-- Where a date stands when years begin in March: the year, the months since
-- then and the days since then.
def marchYear (date : Date) : Int :=
  if date.month ≤ 2 then date.year - 1 else date.year

def marchMonth (date : Date) : Int :=
  if 2 < date.month then date.month - 3 else date.month + 9

def marchDay (date : Date) : Int :=
  monthStart date.marchMonth + date.day - 1

-- What counts the days in eras of 400 years counts them from the year 0.
theorem toDays_eq (date : Date) :
    toDays date = daysBefore date.marchYear + date.marchDay - 719468 := by
  simp only [toDays, daysBefore, monthStart, marchYear, marchMonth, marchDay]
  omega

theorem daysBefore_succ (year : Int) :
    daysBefore (year + 1) = daysBefore year + if isLeap (year + 1) then 366 else 365 := by
  simp only [daysBefore, isLeap, decide_eq_true_eq]
  split <;> omega

theorem yearLength_range (year : Int) :
    daysBefore year + 365 ≤ daysBefore (year + 1) ∧
      daysBefore (year + 1) ≤ daysBefore year + 366 := by
  rw [daysBefore_succ]
  split <;> omega

theorem daysBefore_mono {year later : Int} (h : year ≤ later) :
    daysBefore year ≤ daysBefore later := by
  simp only [daysBefore]
  omega

theorem daysBefore_add_era (year era : Int) :
    daysBefore (year + era * 400) = daysBefore year + era * 146097 := by
  simp only [daysBefore]
  omega

theorem marchMonth_range (hpos : 1 ≤ date.month) (hle : date.month ≤ 12) :
    0 ≤ date.marchMonth ∧ date.marchMonth ≤ 11 := by
  simp only [marchMonth]
  split <;> omega

-- A month reaches to the next one, and February to the end of the year.
theorem monthLength_eq (hpos : 1 ≤ date.month) (hle : date.month ≤ 12) :
    monthLength date.year date.month =
      min (monthStart (date.marchMonth + 1))
        (daysBefore (date.marchYear + 1) - daysBefore date.marchYear) -
          monthStart date.marchMonth := by
  rw [daysBefore_succ]
  obtain ⟨year, month, day⟩ := date
  simp only [marchMonth, marchYear, monthStart] at *
  interval_cases month <;> simp [monthLength] <;> split <;> omega

-- A date of the calendar lies in its year, and its month is found from its day.
theorem marchDay_range (h : date.Valid) :
    0 ≤ date.marchDay ∧
      date.marchDay < daysBefore (date.marchYear + 1) - daysBefore date.marchYear := by
  have hlength := monthLength_eq h.month_pos h.month_le
  have hmonth := marchMonth_range h.month_pos h.month_le
  have hpos := h.day_pos
  have hle := h.day_le
  simp only [marchDay, monthStart] at hlength ⊢
  omega

theorem marchMonth_eq (h : date.Valid) : (5 * date.marchDay + 2) / 153 = date.marchMonth := by
  have hlength := monthLength_eq h.month_pos h.month_le
  have hmonth := marchMonth_range h.month_pos h.month_le
  have hpos := h.day_pos
  have hle := h.day_le
  simp only [marchDay, monthStart] at hlength ⊢
  omega

-- The date so many days after 1 March of a year.
def ofMarch (year day : Int) : Date :=
  let month := (5 * day + 2) / 153
  let civilMonth := if month < 10 then month + 3 else month - 9
  { year := year + if civilMonth ≤ 2 then 1 else 0
    month := civilMonth.toNat
    day := (day - monthStart month + 1).toNat }

theorem ofMarch_marchDay (h : date.Valid) : ofMarch date.marchYear date.marchDay = date := by
  have hmonth := marchMonth_eq h
  have hpos := h.month_pos
  have hle := h.month_le
  obtain ⟨year, month, day⟩ := date
  simp only [ofMarch, hmonth]
  simp only [marchDay, marchMonth, marchYear] at hpos hle ⊢
  split <;> simp only [mk.injEq] <;> omega

theorem marchMonth_ofMarch (year : Int) (hpos : 0 ≤ day) (hle : day < 366) :
    (1 ≤ (ofMarch year day).month ∧ (ofMarch year day).month ≤ 12) ∧
      (ofMarch year day).marchYear = year ∧
      (ofMarch year day).marchMonth = (5 * day + 2) / 153 := by
  simp only [ofMarch, marchYear, marchMonth]
  omega

theorem ofMarch_spec (hpos : 0 ≤ day) (hlt : day < daysBefore (year + 1) - daysBefore year) :
    (ofMarch year day).Valid ∧ (ofMarch year day).marchYear = year ∧
      (ofMarch year day).marchDay = day := by
  have hlong := yearLength_range year
  have hday : ((ofMarch year day).day : Int) = day - monthStart ((5 * day + 2) / 153) + 1 := by
    simp only [ofMarch, monthStart]
    omega
  obtain ⟨⟨hfirst, hlast⟩, hyear, hmonth⟩ := marchMonth_ofMarch year hpos (by omega)
  have hlength := monthLength_eq hfirst hlast
  rw [hyear, hmonth] at hlength
  simp only [monthStart] at hday hlength
  refine ⟨⟨hfirst, hlast, ?_, ?_⟩, hyear, ?_⟩
  · omega
  · omega
  · rw [marchDay, hmonth, monthStart]
    omega

end March

section Era

variable {day c q s d : Int}

-- A day of an era lies so many centuries, groups of four years, years and days
-- after its beginning. A leap day ends the last year of a group, though not of
-- the last group of a century, unless it is the last century.
theorem exists_cycles (hpos : 0 ≤ day) (hlt : day < 146097) :
    ∃ c q s d : Int, day = 36524 * c + 1461 * q + 365 * s + d ∧ (0 ≤ c ∧ c ≤ 3) ∧
      (0 ≤ q ∧ q ≤ 24) ∧ (0 ≤ s ∧ s ≤ 3) ∧ 0 ≤ d ∧
      (d ≤ 364 ∨ d = 365 ∧ s = 3 ∧ (q = 24 → c = 3)) := by
  let c := min (day / 36524) 3
  let q := (day - 36524 * c) / 1461
  let s := min ((day - 36524 * c - 1461 * q) / 365) 3
  refine ⟨c, q, s, day - 36524 * c - 1461 * q - 365 * s, ?_⟩
  omega

def yearOfEra (day : Int) : Int :=
  (day - day / 1460 + day / 36524 - day / 146096) / 365

-- Taking a day off for every group of four years, putting one back for every
-- century and taking one off for the last day of the era leaves years of 365
-- days. The day that is taken off late in a group is not missed before its last
-- year.
theorem yearOfEra_eq (hc : 0 ≤ c ∧ c ≤ 3) (hq : 0 ≤ q ∧ q ≤ 24) (hs : 0 ≤ s ∧ s ≤ 3) (hd : 0 ≤ d)
    (hleap : d ≤ 364 ∨ d = 365 ∧ s = 3 ∧ (q = 24 → c = 3))
    (hday : day = 36524 * c + 1461 * q + 365 * s + d) : yearOfEra day = 100 * c + 4 * q + s := by
  have hrange : 36524 * c ≤ day ∧ day < 36524 * (c + 1) ∨ day = 146096 ∧ c = 3 := by omega
  have hcentury : day / 36524 - day / 146096 = c := by omega
  have hgroup : day / 1460 = 25 * c + q ∧ (s < 3 ∨ d ≤ 364) ∨
      day / 1460 = 25 * c + q + 1 ∧ s = 3 ∧ 1 ≤ d := by
    have hrest : 0 ≤ 24 * c + q + (365 * s + d) ∧ 24 * c + q + (365 * s + d) < 2 * 1460 := by omega
    omega
  rw [yearOfEra]
  omega

theorem daysBefore_cycles (hc : 0 ≤ c ∧ c ≤ 3) (hq : 0 ≤ q ∧ q ≤ 24) (hs : 0 ≤ s ∧ s ≤ 3) :
    daysBefore (100 * c + 4 * q + s) = 36524 * c + 1461 * q + 365 * s := by
  simp only [daysBefore]
  omega

theorem lt_daysBefore_cycles (hc : 0 ≤ c ∧ c ≤ 3) (hq : 0 ≤ q ∧ q ≤ 24) (hs : 0 ≤ s ∧ s ≤ 3)
    (hleap : d ≤ 364 ∨ d = 365 ∧ s = 3 ∧ (q = 24 → c = 3)) :
    36524 * c + 1461 * q + 365 * s + d < daysBefore (100 * c + 4 * q + s + 1) := by
  have hgroups : (100 * c + 4 * q + s + 1) / 4 = 25 * c + q + (s + 1) / 4 := by omega
  have hcenturies : (100 * c + 4 * q + s + 1) / 100 = c + (q + (s + 1) / 4) / 25 := by omega
  have heras : (100 * c + 4 * q + s + 1) / 400 = (c + (q + (s + 1) / 4) / 25) / 4 := by omega
  rw [daysBefore, hgroups, hcenturies, heras]
  omega

theorem ofDays_eq {days era year : Int} (hera : (days + 719468) / 146097 = era)
    (hday : days + 719468 - era * 146097 = day) (hyear : yearOfEra day = year) :
    ofDays days = ofMarch (year + era * 400) (day - (365 * year + year / 4 - year / 100)) := by
  subst hera hday hyear
  rfl

-- The date of a day is looked up in the year, from March on, that the day lies in.
theorem exists_ofMarch (days : Int) :
    ∃ year day, days + 719468 = daysBefore year + day ∧ 0 ≤ day ∧
      day < daysBefore (year + 1) - daysBefore year ∧ ofDays days = ofMarch year day := by
  obtain ⟨era, hera⟩ : ∃ era, (days + 719468) / 146097 = era := ⟨_, rfl⟩
  obtain ⟨day, hday⟩ : ∃ day, days + 719468 - era * 146097 = day := ⟨_, rfl⟩
  obtain ⟨c, q, s, d, hparts, hc, hq, hs, hd, hleap⟩ :=
    exists_cycles (show 0 ≤ day by omega) (by omega)
  have hyear := yearOfEra_eq hc hq hs hd hleap hparts
  have hbefore := daysBefore_cycles hc hq hs
  have hafter := lt_daysBefore_cycles hc hq hs hleap
  obtain ⟨year, hname⟩ : ∃ year, 100 * c + 4 * q + s = year := ⟨_, rfl⟩
  have hformula : 365 * year + year / 4 - year / 100 = daysBefore year := by
    simp only [daysBefore]
    omega
  rw [hname] at hyear hbefore hafter
  refine ⟨year + era * 400, d, ?_, hd, ?_, ?_⟩
  · rw [daysBefore_add_era]
    omega
  · rw [Int.add_right_comm, daysBefore_add_era, daysBefore_add_era]
    omega
  · have hdayOfYear : day - daysBefore year = d := by omega
    rw [ofDays_eq hera hday hyear, hformula, hdayOfYear]

end Era

theorem valid_ofDays (days : Int) : (ofDays days).Valid := by
  obtain ⟨year, day, -, hpos, hlt, hdate⟩ := exists_ofMarch days
  rw [hdate]
  exact (ofMarch_spec hpos hlt).1

theorem toDays_ofDays (days : Int) : toDays (ofDays days) = days := by
  obtain ⟨year, day, hdays, hpos, hlt, hdate⟩ := exists_ofMarch days
  obtain ⟨-, hyear, hday⟩ := ofMarch_spec hpos hlt
  rw [hdate, toDays_eq, hyear, hday, ← hdays, Int.add_sub_cancel]

-- No day lies in two years, so that the year that is found is that of the date.
theorem ofDays_toDays {date : Date} (h : date.Valid) : ofDays (toDays date) = date := by
  obtain ⟨year, day, hdays, hpos, hlt, hdate⟩ := exists_ofMarch (toDays date)
  have hrange := marchDay_range h
  rw [toDays_eq, Int.sub_add_cancel] at hdays
  have hyear : year = date.marchYear := by
    rcases Int.lt_trichotomy year date.marchYear with hless | hsame | hmore
    · have hmono := daysBefore_mono (Int.add_one_le_iff.mpr hless)
      omega
    · exact hsame
    · have hmono := daysBefore_mono (Int.add_one_le_iff.mpr hmore)
      omega
  have hday : day = date.marchDay := by
    rw [hyear] at hdays
    omega
  rw [hdate, hyear, hday, ofMarch_marchDay h]

theorem toDays_first (year : Int) (month day : Nat) :
    toDays ⟨year, month, day⟩ = toDays ⟨year, month, 1⟩ + day - 1 := by
  simp only [toDays_eq, marchDay, marchMonth, marchYear]
  omega

theorem toDays_nextMonth (year : Int) {month : Nat} (hpos : 1 ≤ month) (hle : month ≤ 11) :
    toDays ⟨year, month + 1, 1⟩ = toDays ⟨year, month, 1⟩ + monthLength year month := by
  have hlength := @monthLength_eq ⟨year, month, 1⟩ hpos (Nat.le_succ_of_le hle)
  have hyear := yearLength_range year
  have hbefore := yearLength_range (year - 1)
  rw [Int.sub_add_cancel] at hbefore
  simp only [toDays_eq, marchDay, marchMonth, marchYear, monthStart] at hlength ⊢
  interval_cases month <;> norm_num at hlength ⊢ <;> omega

theorem toDays_nextYear (year : Int) : toDays ⟨year + 1, 1, 1⟩ = toDays ⟨year, 12, 1⟩ + 31 := by
  simp only [toDays_eq, marchDay, marchMonth, marchYear, monthStart]
  norm_num
  omega

theorem le_monthLength (year : Int) (month : Nat) : 28 ≤ monthLength year month := by
  unfold monthLength
  split
  · split <;> decide
  all_goals decide

theorem monthLength_pos (year : Int) (month : Nat) : 1 ≤ monthLength year month :=
  Nat.le_trans (by decide) (le_monthLength year month)

theorem monthLength_le (year : Int) (month : Nat) : monthLength year month ≤ 31 := by
  unfold monthLength
  split
  · split <;> decide
  all_goals decide

section Next

variable {date : Date} (h : date.Valid)

include h

theorem valid_next : date.next.Valid := by
  rw [next]
  split
  case isTrue hday => exact ⟨h.month_pos, h.month_le, Nat.le_add_left 1 _, hday⟩
  case isFalse =>
    split
    case isTrue hmonth =>
      exact ⟨Nat.le_add_left 1 _, hmonth, Nat.le_refl 1, monthLength_pos _ _⟩
    case isFalse => exact ⟨Nat.le_refl 1, Nat.le_add_left 1 11, Nat.le_refl 1, monthLength_pos _ _⟩

theorem toDays_next : toDays date.next = toDays date + 1 := by
  obtain ⟨year, month, day⟩ := date
  obtain ⟨hpos, hle, -, hday⟩ := h
  dsimp only at hpos hle hday
  rw [next]
  dsimp only
  split
  case isTrue =>
    rw [toDays_first, toDays_first year month day]
    omega
  case isFalse =>
    split
    case isTrue hmonth =>
      rw [toDays_nextMonth year hpos (Nat.le_of_lt_succ hmonth), toDays_first year month day]
      omega
    case isFalse =>
      have hlast : month = 12 := by omega
      subst hlast
      have hlength : monthLength year 12 = 31 := rfl
      rw [toDays_nextYear, toDays_first year 12 day]
      omega

end Next

-- The next number is that of the next date.
theorem ofDays_succ (days : Int) : ofDays (days + 1) = (ofDays days).next := by
  have hnext := toDays_next (valid_ofDays days)
  rw [toDays_ofDays] at hnext
  rw [← hnext, ofDays_toDays (valid_next (valid_ofDays days))]

example : ofDays 0 = ⟨1970, 1, 1⟩ := by decide

-- A date does not come before a year if its day does not come before New Year.
theorem newYear_le_iff {date : Date} (h : date.Valid) (year : Int) :
    toDays ⟨year, 1, 1⟩ ≤ toDays date ↔ year ≤ date.year := by
  have hstart : toDays ⟨year, 1, 1⟩ = daysBefore (year - 1) + 306 - 719468 := by
    simp only [toDays_eq, marchDay, marchMonth, marchYear, monthStart]
    norm_num
  have hmonth := marchMonth_eq h
  have hrange := marchDay_range h
  have hcivil : date.marchYear = date.year - 1 ∧ 10 ≤ date.marchMonth ∨
      date.marchYear = date.year ∧ date.marchMonth ≤ 9 := by
    have hpos := h.month_pos
    have hle := h.month_le
    simp only [marchYear, marchMonth]
    omega
  rw [hstart, toDays_eq]
  rcases Int.lt_trichotomy date.marchYear (year - 1) with hless | hsame | hmore
  · have hmono := daysBefore_mono (Int.add_one_le_iff.mpr hless)
    omega
  · rw [hsame] at hrange hcivil ⊢
    omega
  · have hmono := daysBefore_mono (Int.le_of_sub_one_lt hmore)
    have hlong := yearLength_range (year - 1)
    rw [Int.sub_add_cancel] at hlong
    omega

-- The date that days behind the end of a month run over to.
def carried (date : Date) : Date :=
  if date.day ≤ monthLength date.year date.month then date
  else ⟨date.year, date.month + 1, date.day - monthLength date.year date.month⟩

theorem Valid.carried_eq {date : Date} (h : date.Valid) : date.carried = date :=
  if_pos h.day_le

theorem carried_eq_iff {date : Date} (h : date.carried.Valid) :
    date.carried = date ↔ date.Valid :=
  ⟨fun heq => heq ▸ h, Valid.carried_eq⟩

@[simp] theorem carried_year (date : Date) : date.carried.year = date.year := by
  unfold carried
  split <;> rfl

section Carried

variable {date : Date} (hday : date.day ≤ 31)

include hday

-- Days behind the end are few, and there are none in December.
theorem carried_cases :
    date.day ≤ monthLength date.year date.month ∧ date.carried = date ∨
      (1 ≤ date.month ∧ date.month ≤ 11) ∧ ∃ extra, 1 ≤ extra ∧ extra ≤ 3 ∧
        date.day = monthLength date.year date.month + extra ∧
        date.carried = ⟨date.year, date.month + 1, extra⟩ := by
  by_cases hwithin : date.day ≤ monthLength date.year date.month
  · exact .inl ⟨hwithin, if_pos hwithin⟩
  · have hlength := le_monthLength date.year date.month
    have hshort : ¬monthLength date.year date.month = 31 := by omega
    have hmonth : 1 ≤ date.month ∧ date.month ≤ 11 := by
      unfold monthLength at hshort
      split at hshort <;> omega
    exact .inr ⟨hmonth, _, by omega, by omega, (Nat.add_sub_of_le (Nat.le_of_not_ge hwithin)).symm,
      if_neg hwithin⟩

theorem valid_carried_iff :
    date.carried.Valid ↔ (1 ≤ date.month ∧ date.month ≤ 12) ∧ 1 ≤ date.day := by
  rcases carried_cases hday with ⟨hwithin, hsame⟩ | ⟨hmonth, extra, hpos, hle, hextra, hcarried⟩
  · rw [hsame]
    exact ⟨fun h => ⟨⟨h.month_pos, h.month_le⟩, h.day_pos⟩,
      fun ⟨⟨hfirst, hlast⟩, hpos⟩ => ⟨hfirst, hlast, hpos, hwithin⟩⟩
  · have hlength := le_monthLength date.year (date.month + 1)
    rw [hcarried]
    refine ⟨fun _ => by omega, fun _ => ⟨?_, ?_, hpos, ?_⟩⟩ <;> dsimp only <;> omega

theorem toDays_carried : toDays date.carried = toDays date := by
  rcases carried_cases hday with ⟨-, hsame⟩ | ⟨⟨hfirst, hlast⟩, extra, -, -, hextra, hcarried⟩
  · rw [hsame]
  · obtain ⟨year, month, day⟩ := date
    dsimp only at hfirst hlast hextra hcarried
    rw [hcarried, toDays_first, toDays_nextMonth year hfirst hlast, toDays_first year month day]
    omega

end Carried

end Unpack.Date
