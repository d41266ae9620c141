import Unpack.Proofs.Calendar
import Unpack.Zip.Entry

namespace Unpack.Zip

namespace Stamp

-- Numbers that fit into their bits stay apart.
theorem toNat_pack {high place middle low : Nat} (hplace : 5 ≤ place ∧ place ≤ 16)
    (hhigh : high < 2 ^ (16 - place)) (hmiddle : middle < 2 ^ (place - 5)) (hlow : low < 2 ^ 5) :
    (pack high place middle low).toNat = high * 2 ^ place + middle * 2 ^ 5 + low := by
  obtain ⟨hfive, hwidth⟩ := hplace
  have hside : middle * 2 ^ 5 + low < 2 ^ place := by
    calc middle * 2 ^ 5 + low < (middle + 1) * 2 ^ 5 := by omega
      _ ≤ 2 ^ (place - 5) * 2 ^ 5 := Nat.mul_le_mul_right _ hmiddle
      _ = 2 ^ place := by rw [← Nat.pow_add, Nat.sub_add_cancel hfive]
  have hfits : high * 2 ^ place + (middle * 2 ^ 5 + low) < 2 ^ 16 := by
    calc high * 2 ^ place + (middle * 2 ^ 5 + low) < (high + 1) * 2 ^ place := by
          rw [Nat.succ_mul]
          exact Nat.add_lt_add_left hside _
      _ ≤ 2 ^ (16 - place) * 2 ^ place := Nat.mul_le_mul_right _ hhigh
      _ = 2 ^ 16 := by rw [← Nat.pow_add, Nat.sub_add_cancel hwidth]
  rw [pack, Nat.or_assoc, ← Nat.shiftLeft_add_eq_or_of_lt hlow, Nat.shiftLeft_eq middle,
    ← Nat.shiftLeft_add_eq_or_of_lt hside, Nat.shiftLeft_eq, UInt16.toNat_ofNat',
    Nat.mod_eq_of_lt hfits, Nat.add_assoc]

-- The two fields are made of a date and of the seconds of a day, in pairs, and
-- every number keeps within its bits.
structure Packs (s : Stamp) (date : Date) (clock : Nat) : Prop where
  year : 1980 ≤ date.year ∧ date.year < 1980 + 2 ^ 7
  month : date.month < 2 ^ 4
  day : date.day < 2 ^ 5
  hour : clock / 3600 < 2 ^ 5
  minute : clock % 3600 / 60 < 2 ^ 6
  second : clock % 60 / 2 < 2 ^ 5
  date : (s.date.toNat : Int) = (date.year - 1980) * 2 ^ 9 + date.month * 2 ^ 5 + date.day
  time : s.time.toNat = clock / 3600 * 2 ^ 11 + clock % 3600 / 60 * 2 ^ 5 + clock % 60 / 2

variable {seconds : Int}

-- From 1980-01-01 00:00:00 to 2107-12-31 23:59:59.
def InRange (seconds : Int) : Prop :=
  315532800 ≤ seconds ∧ seconds < 4354819200

def yearOf (seconds : Int) : Int :=
  (Date.ofDays (seconds / 86400)).year

theorem le_yearOf_iff (seconds year : Int) :
    year ≤ yearOf seconds ↔ Date.toDays ⟨year, 1, 1⟩ * 86400 ≤ seconds := by
  rw [yearOf, ← Date.newYear_le_iff (Date.valid_ofDays _), Date.toDays_ofDays]
  omega

theorem first_le_iff : 315532800 ≤ seconds ↔ 1980 ≤ yearOf seconds :=
  (le_yearOf_iff seconds 1980).symm

theorem last_le_iff : 4323283200 ≤ seconds ↔ 2107 ≤ yearOf seconds :=
  (le_yearOf_iff seconds 2107).symm

theorem end_le_iff : 4354819200 ≤ seconds ↔ 2108 ≤ yearOf seconds :=
  (le_yearOf_iff seconds 2108).symm

theorem inRange_iff_between : InRange seconds ↔ 1980 ≤ yearOf seconds ∧ yearOf seconds ≤ 2107 := by
  rw [InRange, first_le_iff, ← Int.not_le, end_le_iff]
  omega

-- The date of a time, in 2107 if it comes later.
def heldDate (seconds : Int) : Date :=
  let date := Date.ofDays (seconds / 86400)
  { date with year := min date.year 2107 }

def clock (seconds : Int) : Nat :=
  (seconds % 86400).toNat

theorem ofSeconds_of_lt (hbefore : seconds < 315532800) : ofSeconds seconds = first := by
  have hdays : max seconds 0 < 315532800 := by omega
  have hyear : (Date.ofDays (max seconds 0 / 86400)).year < 1980 := by
    rw [← Int.not_le] at hdays ⊢
    exact mt first_le_iff.mpr hdays
  exact if_pos hyear

theorem ofSeconds_packs (hbegun : 315532800 ≤ seconds) :
    (ofSeconds seconds).Packs (heldDate seconds) (clock seconds) := by
  have hyear : 1980 ≤ (Date.ofDays (seconds / 86400)).year := first_le_iff.mp hbegun
  have hvalid := Date.valid_ofDays (seconds / 86400)
  have hmonth := hvalid.month_le
  have hday : (Date.ofDays (seconds / 86400)).day ≤ 31 :=
    Nat.le_trans hvalid.day_le (Date.monthLength_le _ _)
  have hstamp : ofSeconds seconds =
      { date := pack (min (Date.ofDays (seconds / 86400)).year 2107 - 1980).toNat 9
          (Date.ofDays (seconds / 86400)).month (Date.ofDays (seconds / 86400)).day
        time := pack (clock seconds / 3600) 11 (clock seconds % 3600 / 60)
          (clock seconds % 60 / 2) } := by
    simp only [ofSeconds, Int.max_eq_left (by omega : 0 ≤ seconds)]
    exact if_neg (Int.not_lt.mpr hyear)
  have hclock : clock seconds < 86400 := by
    rw [clock]
    omega
  rw [hstamp]
  constructor
  case date =>
    rw [toNat_pack (by decide) (by omega) (by omega) (by omega)]
    simp only [heldDate]
    omega
  case time => exact toNat_pack (by decide) (by omega) (by omega) (by omega)
  case year | month | day =>
    simp only [heldDate]
    omega
  case hour | minute | second => omega

section Packed

variable {s : Stamp} {date : Date} {clock : Nat}

theorem Packs.date_eq (h : s.Packs date clock) :
    (s.year : Int) = date.year ∧ s.month = date.month ∧ s.day = date.day := by
  obtain ⟨hyear, hmonth, hday, -, -, -, hdate, -⟩ := h
  simp only [Stamp.year, Stamp.month, Stamp.day]
  omega

theorem Packs.clock_eq (h : s.Packs date clock) :
    s.hour = clock / 3600 ∧ s.minute = clock % 3600 / 60 ∧ s.second = clock % 60 / 2 * 2 := by
  obtain ⟨-, -, -, hhour, hminute, hsecond, -, htime⟩ := h
  simp only [Stamp.hour, Stamp.minute, Stamp.second]
  omega

-- Packed fields are read as the date and the clock, without an odd second.
theorem Packs.toSeconds_eq (h : s.Packs date clock) (hmonth : 1 ≤ date.month ∧ date.month ≤ 12)
    (hday : 1 ≤ date.day) (hclock : clock < 86400) :
    s.toSeconds = some (date.toDays * 86400 + (clock - clock % 2 : Nat)).toNat := by
  obtain ⟨hsameYear, hsameMonth, hsameDay⟩ := h.date_eq
  obtain ⟨hsameHour, hsameMinute, hsameSecond⟩ := h.clock_eq
  have hrange : s.inRange = true := by
    simp only [inRange, hsameMonth, hsameDay, hsameHour, hsameMinute, hsameSecond,
      decide_eq_true_eq]
    omega
  have hseconds : s.hour * 3600 + s.minute * 60 + s.second = clock - clock % 2 := by
    rw [hsameHour, hsameMinute, hsameSecond]
    omega
  rw [toSeconds, if_pos hrange, hseconds, hsameYear, hsameMonth, hsameDay]

-- There is no other stamp with the same numbers in it.
theorem Packs.eq_of_packs {s' : Stamp} (h : s.Packs date clock) (h' : s'.Packs date clock) :
    s = s' := by
  have hdate : s.date.toNat = s'.date.toNat := Int.ofNat.inj (h.date.trans h'.date.symm)
  have htime : s.time.toNat = s'.time.toNat := h.time.trans h'.time.symm
  cases s
  cases s'
  exact congrArg₂ Stamp.mk (UInt16.toNat_inj.mp hdate) (UInt16.toNat_inj.mp htime)

end Packed

-- A time from 1980 on is decoded as that of its held date.
theorem toSeconds_ofSeconds (hbegun : 315532800 ≤ seconds) :
    (ofSeconds seconds).toSeconds =
      some ((heldDate seconds).toDays * 86400 + (seconds % 86400 - seconds % 2)).toNat := by
  have hvalid := Date.valid_ofDays (seconds / 86400)
  have hclock : clock seconds < 86400 := by
    rw [clock]
    omega
  have hpairs : ((clock seconds - clock seconds % 2 : Nat) : Int) = seconds % 86400 - seconds % 2 := by
    rw [clock]
    omega
  rw [(ofSeconds_packs hbegun).toSeconds_eq ⟨hvalid.month_pos, hvalid.month_le⟩ hvalid.day_pos
    hclock, hpairs]

theorem heldDate_of_inRange (h : InRange seconds) :
    heldDate seconds = Date.ofDays (seconds / 86400) := by
  have hyear : (Date.ofDays (seconds / 86400)).year ≤ 2107 := (inRange_iff_between.mp h).2
  rw [heldDate, Int.min_eq_left hyear]

theorem toSeconds_of_inRange (h : InRange seconds) :
    (ofSeconds seconds).toSeconds = some (seconds - seconds % 2).toNat := by
  rw [toSeconds_ofSeconds h.1, heldDate_of_inRange h, Date.toDays_ofDays]
  congr 2
  omega

-- The same month, day and pair of seconds in 2107. What was on 29 February goes
-- to 1 March.
def inLastYear (seconds : Int) : Int :=
  Date.toDays { Date.ofDays (seconds / 86400) with year := 2107 } * 86400 +
    (seconds % 86400 - seconds % 2)

theorem le_inLastYear (seconds : Int) : 4323283200 ≤ inLastYear seconds := by
  have hvalid := Date.valid_ofDays (seconds / 86400)
  have hpos := hvalid.month_pos
  have hle := hvalid.month_le
  have hday := hvalid.day_pos
  have hdays : 50038 ≤ Date.toDays { Date.ofDays (seconds / 86400) with year := 2107 } := by
    simp only [Date.toDays]
    omega
  rw [inLastYear]
  omega

theorem toSeconds_of_lt (hbefore : seconds < 315532800) :
    (ofSeconds seconds).toSeconds = some 315532800 := by
  rw [ofSeconds_of_lt hbefore]
  decide

theorem toSeconds_of_last (hlast : 4323283200 ≤ seconds) :
    (ofSeconds seconds).toSeconds = some (inLastYear seconds).toNat := by
  have hyear : 2107 ≤ (Date.ofDays (seconds / 86400)).year := last_le_iff.mp hlast
  rw [toSeconds_ofSeconds (by omega), heldDate, Int.min_eq_right hyear, inLastYear]

-- What a noted time is decoded as: before 1980, in the range, and from 2107 on.
theorem exists_toSeconds (seconds : Int) :
    ∃ decoded : Nat, (ofSeconds seconds).toSeconds = some decoded ∧
      (seconds < 315532800 → decoded = 315532800) ∧
      (InRange seconds → (decoded : Int) = seconds - seconds % 2) ∧
      (4323283200 ≤ seconds → (decoded : Int) = inLastYear seconds) := by
  have hlast := le_inLastYear seconds
  by_cases hbefore : seconds < 315532800
  · exact ⟨_, toSeconds_of_lt hbefore, fun _ => rfl, fun hrange => absurd hrange.1 (by omega),
      fun hlate => absurd hlate (by omega)⟩
  · obtain ⟨decoded, hdecoded⟩ : ∃ decoded, (ofSeconds seconds).toSeconds = some decoded :=
      ⟨_, toSeconds_ofSeconds (Int.not_lt.mp hbefore)⟩
    refine ⟨decoded, hdecoded, fun hbefore' => absurd hbefore' hbefore, fun hrange => ?_,
      fun hlate => ?_⟩
    · cases hdecoded.symm.trans (toSeconds_of_inRange hrange)
      omega
    · cases hdecoded.symm.trans (toSeconds_of_last hlate)
      omega

end Stamp

namespace Entry

-- The calendar is that of the Gregorian dates, day after day, and a time whose
-- year a stamp can say is noted in it to the even second.
theorem modified_setModified :
    (Date.ofDays 0 = ⟨1970, 1, 1⟩ ∧ ∀ days : Int, (Date.ofDays days).Valid ∧
      (Date.ofDays days).toDays = days ∧ Date.ofDays (days + 1) = (Date.ofDays days).next) ∧
    ∀ (e : Entry) (time : Int), Stamp.InRange (time / 1000000000) →
      (∃ seconds : Nat, (e.setModified time).modified = some seconds ∧ seconds % 2 = 0 ∧
        seconds * 1000000000 ≤ time ∧ time < (seconds + 2) * 1000000000) ∧
      (e.setModified time).stamp.Packs (Date.ofDays (time / 1000000000 / 86400))
        (time / 1000000000 % 86400).toNat := by
  refine ⟨⟨by decide, fun days => ?_⟩, fun e time hrange =>
    ⟨⟨_, Stamp.toSeconds_of_inRange hrange, ?_⟩, ?_⟩⟩
  · exact ⟨Date.valid_ofDays days, Date.toDays_ofDays days, Date.ofDays_succ days⟩
  · obtain ⟨hbegun, -⟩ := hrange
    omega
  · have hpacks := Stamp.ofSeconds_packs hrange.1
    rwa [Stamp.heldDate_of_inRange hrange] at hpacks

theorem modified_setModified_leapDay :
    Stamp.InRange (1709251199500000000 / 1000000000) ∧
      (Entry.empty.setModified 1709251199500000000).modified = some 1709251198 := by
  have hrange : Stamp.InRange (1709251199500000000 / 1000000000) := by
    rw [Stamp.InRange]
    omega
  obtain ⟨⟨seconds, hseconds, heven, hle, hlt⟩, -⟩ :=
    modified_setModified.2 Entry.empty 1709251199500000000 hrange
  have hvalue : seconds = 1709251198 := by omega
  exact ⟨hrange, hvalue ▸ hseconds⟩

-- Every time is noted as one that is decoded again. Two times stay in order if
-- the first comes before 2107 or the second before 2108. Otherwise their places in
-- the year decide, since the year alone is held back.
theorem modified_le_iff {time later : Int} (h : time ≤ later) (e e' : Entry) :
    ∃ first second : Nat, (e.setModified time).modified = some first ∧
      (e'.setModified later).modified = some second ∧
      (first ≤ second ↔ Stamp.yearOf (time / 1000000000) < 2107 ∨
        Stamp.yearOf (later / 1000000000) < 2108 ∨
        Stamp.inLastYear (time / 1000000000) ≤ Stamp.inLastYear (later / 1000000000)) := by
  have hseconds : time / 1000000000 ≤ later / 1000000000 := by omega
  obtain ⟨first, hfirst, hfirstEarly, hfirstRange, hfirstLate⟩ :=
    Stamp.exists_toSeconds (time / 1000000000)
  obtain ⟨second, hsecond, hsecondEarly, hsecondRange, hsecondLate⟩ :=
    Stamp.exists_toSeconds (later / 1000000000)
  have hlast := Stamp.le_inLastYear (later / 1000000000)
  refine ⟨first, second, hfirst, hsecond, ?_⟩
  rw [← Int.not_le, ← Stamp.last_le_iff, ← Int.not_le, ← Stamp.end_le_iff]
  simp only [Stamp.InRange] at hfirstRange hsecondRange
  omega

-- The last seconds of 2107 and of 2108.
theorem modified_le_iff_lastSeconds :
    (4354819199000000000 : Int) ≤ 4386441599000000000 ∧ ∃ first second : Nat,
      (empty.setModified 4354819199000000000).modified = some first ∧
      (empty.setModified 4386441599000000000).modified = some second ∧ first ≤ second := by
  obtain ⟨first, second, hfirst, hsecond, hordered⟩ :=
    modified_le_iff (show (4354819199000000000 : Int) ≤ 4386441599000000000 by decide) empty empty
  exact ⟨by decide, first, second, hfirst, hsecond, hordered.mpr (.inr (.inr (by decide)))⟩

-- The first second of 2108 is noted as that of 2107, long before the last one.
theorem modified_turns_back :
    (empty.setModified 4354819199000000000).modified = some 4354819198 ∧
      (empty.setModified 4354819200000000000).modified = some 4323283200 ∧
      ¬∀ time later : Int, time ≤ later → ∃ first second : Nat,
        (empty.setModified time).modified = some first ∧
        (empty.setModified later).modified = some second ∧ first ≤ second := by
  have hlast : (empty.setModified 4354819199000000000).modified = some 4354819198 := by decide
  have hnext : (empty.setModified 4354819200000000000).modified = some 4323283200 := by decide
  refine ⟨hlast, hnext, fun hordered => ?_⟩
  obtain ⟨first, second, hfirst, hsecond, hle⟩ :=
    hordered 4354819199000000000 4354819200000000000 (by decide)
  cases hfirst.symm.trans hlast
  cases hsecond.symm.trans hnext
  exact absurd hle (by decide)

end Entry

end Unpack.Zip
