import Unpack.Calendar

namespace Unpack.Zip

-- A date and time in the two packed fields of an archive: years from 1980 to
-- 2107, seconds in steps of two.
structure Stamp where
  date : UInt16
  time : UInt16
  deriving Repr, DecidableEq

namespace Stamp

-- 1980-01-01 00:00:00.
def first : Stamp := ⟨33, 0⟩

-- Three numbers side by side: one in the lowest five bits, one above them and
-- one from `place` on.
def pack (high place middle low : Nat) : UInt16 :=
  UInt16.ofNat (high <<< place ||| middle <<< 5 ||| low)

-- The stamp of a time in seconds since 1970-01-01 UTC. Times before 1980 get
-- the first stamp; after 2107 the year alone is held back.
def ofSeconds (seconds : Int) : Stamp :=
  let seconds := max seconds 0
  let date := Date.ofDays (seconds / 86400)
  let clock := (seconds % 86400).toNat
  if date.year < 1980 then
    first
  else
    let year := (min date.year 2107 - 1980).toNat
    { date := pack year 9 date.month date.day
      time := pack (clock / 3600) 11 (clock % 3600 / 60) (clock % 60 / 2) }

def year (s : Stamp) : Nat := s.date.toNat / 512 + 1980

def month (s : Stamp) : Nat := s.date.toNat / 32 % 16

def day (s : Stamp) : Nat := s.date.toNat % 32

def hour (s : Stamp) : Nat := s.time.toNat / 2048

def minute (s : Stamp) : Nat := s.time.toNat / 32 % 64

def second (s : Stamp) : Nat := s.time.toNat % 32 * 2

-- Whether every field is in its range. Days are not checked against the
-- length of their month.
def inRange (s : Stamp) : Bool :=
  s.day ≠ 0 ∧ s.month ≠ 0 ∧ s.month ≤ 12 ∧ s.hour ≤ 23 ∧ s.minute ≤ 59 ∧ s.second ≤ 59

-- The time in seconds since 1970-01-01 UTC.
def toSeconds (s : Stamp) : Option Nat :=
  if s.inRange then
    let days := Date.toDays ⟨s.year, s.month, s.day⟩
    some (days * 86400 + (s.hour * 3600 + s.minute * 60 + s.second : Nat)).toNat
  else
    none

end Stamp

end Unpack.Zip
