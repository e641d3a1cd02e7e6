import CostBasis.Text.Basic

/-!
# Instants

Points in time, in milliseconds since 1970 began, and their text in the calendar.  The calendar is
the Gregorian one without a first day, with a year 0 before year 1.
-/

namespace CostBasis

/-- A point in time.
Source: `TimeMs`; specification, section A2. -/
structure Instant where
  /-- Milliseconds since 1970 began. -/
  milliseconds : Int64
deriving DecidableEq, Inhabited

namespace Instant

instance : Ord Instant := ⟨compareOn milliseconds⟩

instance : Std.TransOrd Instant := inferInstanceAs (Std.TransCmp (compareOn milliseconds))

instance : Std.LawfulEqOrd Instant where
  eq_of_compare {a b} h := by
    have h : compare a.milliseconds b.milliseconds = .eq := h
    cases a
    cases b
    exact congrArg mk (Std.LawfulEqCmp.compare_eq_iff_eq.1 h)

instance : LT Instant := ⟨fun a b => a.milliseconds < b.milliseconds⟩

instance : LE Instant := ⟨fun a b => a.milliseconds ≤ b.milliseconds⟩

instance (a b : Instant) : Decidable (a < b) :=
  inferInstanceAs (Decidable (a.milliseconds < b.milliseconds))

instance (a b : Instant) : Decidable (a ≤ b) :=
  inferInstanceAs (Decidable (a.milliseconds ≤ b.milliseconds))

/-- The instant at which 1970 began. -/
def epoch : Instant := ⟨0⟩

/-! ## The calendar -/

/-- The first instant of the calendar, on 1 January of the year -262143. -/
def earliest : Int := -8334601228800000

/-- The last instant of the calendar, on 31 December of the year 262142. -/
def latest : Int := 8210266876799999

/-- The instant itself if the calendar has a date for it, and otherwise the epoch.
Source: `to_datetime`, which gives the epoch where there is no date. -/
def toCalendar (t : Instant) : Instant :=
  let ms := t.milliseconds.toInt
  if earliest ≤ ms ∧ ms ≤ latest then t else epoch

/-- A day of the calendar. -/
structure Date where
  /-- The year, which may be zero or negative. -/
  year : Int
  /-- The month, from 1. -/
  month : Nat
  /-- The day of the month, from 1. -/
  day : Nat
deriving DecidableEq, Repr

/-- The day that lies `days` days after 1 January 1970.

Years are taken to begin in March, so that a leap day is the last day of its year.  Four hundred
years have 146097 days; within them the year and the month follow from the number of the day. -/
def Date.ofDays (days : Int) : Date :=
  let shifted := days + 719468
  let era := shifted / 146097
  let dayOfEra := (shifted % 146097).toNat
  let yearOfEra := (dayOfEra - dayOfEra / 1460 + dayOfEra / 36524 - dayOfEra / 146096) / 365
  let dayOfYear := dayOfEra - (365 * yearOfEra + yearOfEra / 4 - yearOfEra / 100)
  let monthFromMarch := (5 * dayOfYear + 2) / 153
  let month := if monthFromMarch < 10 then monthFromMarch + 3 else monthFromMarch - 9
  { year := era * 400 + yearOfEra + (if month ≤ 2 then 1 else 0)
    month := month
    day := dayOfYear - (153 * monthFromMarch + 2) / 5 + 1 }

/-- Four digits for the years 0 to 9999, and a sign and at least four digits for the others. -/
def yearChars (year : Int) : List Char :=
  let n := year.natAbs
  let digits := if n < 10000 then Text.fixedDigits 4 n else Text.digits n
  if year < 0 then '-' :: digits else if 9999 < year then '+' :: digits else digits

/-- Date, time of day and the offset zero.  Milliseconds are written only if there are some.
Source: the text of `TimeMs`, a date and time of the calendar with its offset. -/
def toText (t : Instant) : String :=
  let ms := t.toCalendar.milliseconds.toInt
  let date := Date.ofDays (ms / 86400000)
  let ofDay := (ms % 86400000).toNat
  let two := Text.fixedDigits 2
  let fraction := if ofDay % 1000 = 0 then [] else '.' :: Text.fixedDigits 3 (ofDay % 1000)
  String.ofList <|
    yearChars date.year ++ '-' :: two date.month ++ '-' :: two date.day ++
      'T' :: two (ofDay / 3600000) ++ ':' :: two (ofDay / 60000 % 60) ++
      ':' :: two (ofDay / 1000 % 60) ++ fraction ++ "+00:00".toList

instance : ToString Instant := ⟨toText⟩

end Instant

end CostBasis
