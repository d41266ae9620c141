import Unpack.Proofs.Zip.Stamp

namespace Unpack.Zip

namespace Stamp

-- The date in the fields, which may be none of the calendar.
def spelledDate (s : Stamp) : Date :=
  ⟨s.year, s.month, s.day⟩

-- The seconds from midnight to the time of day in the fields.
def sinceMidnight (s : Stamp) : Nat :=
  s.hour * 3600 + s.minute * 60 + s.second

variable {s : Stamp}

theorem spelledDate_day_le (s : Stamp) : s.spelledDate.day ≤ 31 := by
  simp only [spelledDate, day]
  omega

theorem spelledDate_year_range (s : Stamp) :
    1980 ≤ s.spelledDate.year ∧ s.spelledDate.year ≤ 2107 := by
  have hlt := s.date.toNat_lt
  simp only [spelledDate, year]
  omega

-- The checks let every date through that runs over to one of the calendar, and no
-- other: the end of the month is all that they leave out.
theorem inRange_iff_carried :
    s.inRange = true ↔
      s.spelledDate.carried.Valid ∧ s.hour ≤ 23 ∧ s.minute ≤ 59 ∧ s.second ≤ 59 := by
  rw [Date.valid_carried_iff s.spelledDate_day_le]
  simp only [inRange, spelledDate, decide_eq_true_eq]
  omega

theorem sinceMidnight_lt (h : s.inRange = true) : s.sinceMidnight < 86400 := by
  obtain ⟨-, hhour, hminute, hsecond⟩ := inRange_iff_carried.mp h
  rw [sinceMidnight]
  omega

theorem packs_of_inRange (h : s.inRange = true) : s.Packs s.spelledDate s.sinceMidnight := by
  obtain ⟨-, hhour, hminute, hsecond⟩ := inRange_iff_carried.mp h
  have hdate := s.date.toNat_lt
  have htime := s.time.toNat_lt
  simp only [hour, minute, second] at hhour hminute hsecond
  constructor <;>
    simp only [spelledDate, sinceMidnight, year, month, day, hour, minute, second] <;> omega

theorem isSome_toSeconds (s : Stamp) : s.toSeconds.isSome = s.inRange := by
  rw [toSeconds]
  split
  case isTrue hrange => exact hrange.symm
  case isFalse hrange => exact (Bool.eq_false_iff.mpr hrange).symm

-- The day is counted from the date that the fields run over to.
theorem toSeconds_eq_some_iff {seconds : Nat} :
    s.toSeconds = some seconds ↔ s.inRange = true ∧
      (seconds : Int) = s.spelledDate.carried.toDays * 86400 + s.sinceMidnight := by
  have hdays : s.spelledDate.carried.toDays = Date.toDays ⟨s.year, s.month, s.day⟩ :=
    Date.toDays_carried s.spelledDate_day_le
  rw [toSeconds]
  split
  case isTrue hrange =>
    have hbegun : 3652 ≤ s.spelledDate.carried.toDays := by
      refine (Date.newYear_le_iff (inRange_iff_carried.mp hrange).1 1980).mpr ?_
      rw [Date.carried_year]
      exact s.spelledDate_year_range.1
    rw [Option.some_inj, ← hdays, ← sinceMidnight]
    constructor
    · intro hseconds
      exact ⟨hrange, by omega⟩
    · rintro ⟨-, hseconds⟩
      omega
  case isFalse hrange =>
    constructor
    · intro hnone
      cases hnone
    · rintro ⟨hrange', -⟩
      exact absurd hrange' hrange

-- What comes back are the date that the fields run over to and their time of day.
theorem ofSeconds_packs_carried {seconds : Nat} (h : s.toSeconds = some seconds) :
    (ofSeconds seconds).Packs s.spelledDate.carried s.sinceMidnight := by
  obtain ⟨hrange, hseconds⟩ := toSeconds_eq_some_iff.mp h
  have hvalid := (inRange_iff_carried.mp hrange).1
  have hclock := sinceMidnight_lt hrange
  obtain ⟨hfirst, hlast⟩ := s.spelledDate_year_range
  have hday : (seconds : Int) / 86400 = s.spelledDate.carried.toDays := by omega
  have hyear : yearOf seconds = s.spelledDate.year := by
    rw [yearOf, hday, Date.ofDays_toDays hvalid, Date.carried_year]
  have hwithin : InRange seconds := by
    rw [inRange_iff_between, hyear]
    exact ⟨hfirst, hlast⟩
  have hdate : heldDate seconds = s.spelledDate.carried := by
    rw [heldDate_of_inRange hwithin, hday, Date.ofDays_toDays hvalid]
  have hrest : clock seconds = s.sinceMidnight := by
    rw [clock]
    omega
  rw [← hdate, ← hrest]
  exact ofSeconds_packs hwithin.1

theorem Packs.spelledDate_eq {date : Date} {clock : Nat} (h : s.Packs date clock) :
    s.spelledDate = date := by
  obtain ⟨hyear, hmonth, hday⟩ := h.date_eq
  rw [spelledDate, hyear, hmonth, hday]

section Decoded

variable {seconds : Nat} (h : s.toSeconds = some seconds)

include h

theorem spelledDate_ofSeconds : (ofSeconds seconds).spelledDate = s.spelledDate.carried :=
  (ofSeconds_packs_carried h).spelledDate_eq

theorem time_ofSeconds : (ofSeconds seconds).time = s.time := by
  have hrange := (toSeconds_eq_some_iff.mp h).1
  exact UInt16.toNat_inj.mp
    ((ofSeconds_packs_carried h).time.trans (packs_of_inRange hrange).time.symm)

theorem ofSeconds_eq_iff : ofSeconds seconds = s ↔ s.spelledDate.Valid := by
  have hrange := (toSeconds_eq_some_iff.mp h).1
  constructor
  · intro hsame
    have hcarried := spelledDate_ofSeconds h
    rw [hsame] at hcarried
    exact (Date.carried_eq_iff (inRange_iff_carried.mp hrange).1).mp hcarried.symm
  · intro hvalid
    have hpacks := ofSeconds_packs_carried h
    rw [hvalid.carried_eq] at hpacks
    exact hpacks.eq_of_packs (packs_of_inRange hrange)

-- Two stamps are decoded alike if one day and one time of day are meant.
theorem toSeconds_eq_iff (s' : Stamp) :
    s'.toSeconds = some seconds ↔
      s'.spelledDate.carried = s.spelledDate.carried ∧ s'.time = s.time := by
  constructor
  · intro h'
    exact ⟨(spelledDate_ofSeconds h').symm.trans (spelledDate_ofSeconds h),
      (time_ofSeconds h').symm.trans (time_ofSeconds h)⟩
  · rintro ⟨hdate, htime⟩
    have hhour : s'.hour = s.hour := congrArg (·.toNat / 2048) htime
    have hminute : s'.minute = s.minute := congrArg (·.toNat / 32 % 64) htime
    have hsecond : s'.second = s.second := congrArg (·.toNat % 32 * 2) htime
    rw [toSeconds_eq_some_iff, inRange_iff_carried] at h ⊢
    rwa [sinceMidnight, hdate, hhour, hminute, hsecond]

end Decoded

end Stamp

namespace Entry

-- Fields are decoded exactly if their date runs over to one of the calendar and their
-- time of day is in its range. The date that comes back from the decoded time is the
-- one that they run over to. So the fields come back exactly if they spell a real date,
-- and they share the decoded time with those of the same time of day that run over to
-- the same date.
theorem stamp_restored_iff (e : Entry) :
    (e.modified.isSome ↔ e.stamp.spelledDate.carried.Valid ∧
      e.stamp.hour ≤ 23 ∧ e.stamp.minute ≤ 59 ∧ e.stamp.second ≤ 59) ∧
    ∀ seconds : Nat, e.modified = some seconds →
      (Stamp.ofSeconds seconds = e.stamp ↔ e.stamp.spelledDate.Valid) ∧
      (Stamp.ofSeconds seconds).spelledDate = e.stamp.spelledDate.carried ∧
      (Stamp.ofSeconds seconds).time = e.stamp.time ∧
      ∀ other : Entry, other.modified = some seconds ↔
        other.stamp.spelledDate.carried = e.stamp.spelledDate.carried ∧
        other.stamp.time = e.stamp.time := by
  refine ⟨?_, fun seconds h => ⟨Stamp.ofSeconds_eq_iff h, Stamp.spelledDate_ofSeconds h,
    Stamp.time_ofSeconds h, fun other => Stamp.toSeconds_eq_iff h other.stamp⟩⟩
  rw [modified, Stamp.isSome_toSeconds, Stamp.inRange_iff_carried]

-- The last even second of 29 February 2024.
theorem stamp_restored_leapDay :
    ({ empty with stamp := ⟨Stamp.pack 44 9 2 29, Stamp.pack 23 11 59 29⟩ } : Entry).modified =
        some 1709251198 ∧
      Stamp.ofSeconds 1709251198 = ⟨Stamp.pack 44 9 2 29, Stamp.pack 23 11 59 29⟩ := by
  have hdecoded : ({ empty with stamp := ⟨Stamp.pack 44 9 2 29, Stamp.pack 23 11 59 29⟩ } :
      Entry).modified = some 1709251198 := by decide
  refine ⟨hdecoded, ((stamp_restored_iff _).2 1709251198 hdecoded).1.mpr ?_⟩
  constructor <;> decide

-- 29 February 2023 is decoded as 1 March, whose own fields come back.
theorem stamp_not_restored :
    ({ empty with stamp := ⟨Stamp.pack 43 9 2 29, 0⟩ } : Entry).modified = some 1677628800 ∧
      ({ empty with stamp := ⟨Stamp.pack 43 9 3 1, 0⟩ } : Entry).modified = some 1677628800 ∧
      Stamp.ofSeconds 1677628800 = ⟨Stamp.pack 43 9 3 1, 0⟩ ∧
      ¬∀ (e : Entry) (seconds : Nat), e.modified = some seconds →
        Stamp.ofSeconds seconds = e.stamp := by
  have hdecoded : ({ empty with stamp := ⟨Stamp.pack 43 9 2 29, 0⟩ } : Entry).modified =
      some 1677628800 := by decide
  refine ⟨hdecoded, by decide, by decide, fun hrestored => ?_⟩
  exact absurd (hrestored _ _ hdecoded) (by decide)

end Entry

end Unpack.Zip
