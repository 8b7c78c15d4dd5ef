/-!
# Dates and times of day

Dates of the Gregorian calendar from year 1 to year 9999, times of day to the
microsecond with an optional distance from universal time, and their written
forms.  Days are counted from the first of January 1970.
-/

namespace LayeredConfig

/-- The number with at least the given count of digits. -/
def padDigits (width n : Nat) : String :=
  let s := toString n
  String.ofList (List.replicate (width - s.length) '0') ++ s

/-- A day of the calendar. -/
structure Date where
  /-- The year, from 1. -/
  year : Nat
  /-- The month, from 1. -/
  month : Nat
  /-- The day of the month, from 1. -/
  day : Nat
deriving DecidableEq, Inhabited

/-- A moment: a day, a time of day and, if it is known, the distance from universal time. -/
structure DateTime where
  /-- The day. -/
  date : Date
  /-- The hour, below 24. -/
  hour : Nat
  /-- The minute. -/
  minute : Nat
  /-- The second. -/
  second : Nat
  /-- The millionths of a second. -/
  micro : Nat
  /-- Seconds that the clock is ahead of universal time. -/
  offset : Option Int
deriving DecidableEq, Inhabited

namespace Date

/-- The year has a twenty-ninth of February. -/
def isLeap (year : Nat) : Bool :=
  decide (year % 4 = 0) && (decide (year % 100 ≠ 0) || decide (year % 400 = 0))

/-- The number of days of a month. -/
def monthLength (year month : Nat) : Nat :=
  match month with
  | 2 => if isLeap year then 29 else 28
  | 4 | 6 | 9 | 11 => 30
  | _ => 31

/-- Days from the first of January 1970. -/
def toDays (d : Date) : Int :=
  let y : Int := if d.month ≤ 2 then (d.year : Int) - 1 else d.year
  let era : Int := y / 400
  let yoe : Int := y - era * 400
  let m : Int := (d.month + 9) % 12
  let doy : Int := (153 * m + 2) / 5 + d.day - 1
  let doe : Int := yoe * 365 + yoe / 4 - yoe / 100 + doy
  era * 146097 + doe - 719468

/-- The day that lies the given number of days after the first of January 1970. -/
def ofDays (days : Int) : Date :=
  let z := days + 719468
  let era := z / 146097
  let doe := z - era * 146097
  let yoe := (doe - doe / 1460 + doe / 36524 - doe / 146096) / 365
  let y := yoe + era * 400
  let doy := doe - (365 * yoe + yoe / 4 - yoe / 100)
  let mp := (5 * doy + 2) / 153
  let d := doy - (153 * mp + 2) / 5 + 1
  let m := if mp < 10 then mp + 3 else mp - 9
  ⟨(if m ≤ 2 then y + 1 else y).toNat, m.toNat, d.toNat⟩

/-- Year, month and day with hyphens between them. -/
def text (d : Date) : String :=
  padDigits 4 d.year ++ "-" ++ padDigits 2 d.month ++ "-" ++ padDigits 2 d.day

/-- The numbers of a date with commas between them. -/
def fields (d : Date) : String :=
  toString d.year ++ ", " ++ toString d.month ++ ", " ++ toString d.day

end Date

namespace DateTime

/-- A distance from universal time: sign, hours, minutes, and seconds if there are any. -/
def offsetText (offset : Int) : String :=
  let n := offset.natAbs
  let base := (if offset < 0 then "-" else "+") ++ padDigits 2 (n / 3600) ++ ":" ++
    padDigits 2 (n / 60 % 60)
  if n % 60 = 0 then base else base ++ ":" ++ padDigits 2 (n % 60)

/-- Date and time with the given mark between them. -/
def textWith (mark : String) (t : DateTime) : String :=
  t.date.text ++ mark ++ padDigits 2 t.hour ++ ":" ++ padDigits 2 t.minute ++ ":" ++
    padDigits 2 t.second ++ (if t.micro = 0 then "" else "." ++ padDigits 6 t.micro) ++
    (match t.offset with
      | none => ""
      | some o => offsetText o)

/-- Date and time with a space between them. -/
def text (t : DateTime) : String :=
  t.textWith " "

/-- Microseconds from the start of 1970, by the clock's own reading less its offset. -/
def toMicros (t : DateTime) : Int :=
  ((t.date.toDays * 86400 + t.hour * 3600 + t.minute * 60 + t.second) - t.offset.getD 0) *
    1000000 + t.micro

/-- Two moments are the same if both or neither know their distance from universal time and they
fall together. -/
def same (s t : DateTime) : Bool :=
  s.offset.isSome == t.offset.isSome && decide (s.toMicros = t.toMicros)

/-- The clock of universal time at the given number of seconds after the start of 1970. -/
def ofSeconds (seconds : Int) : DateTime :=
  let days := seconds / 86400
  let rest := (seconds - days * 86400).toNat
  ⟨Date.ofDays days, rest / 3600, rest / 60 % 60, rest % 60, 0, none⟩

end DateTime

/-! ## The limits of the calendar -/

/-- Why date and time are not on the calendar. -/
inductive CalendarError where
  /-- There is no such year. -/
  | year (n : Nat)
  /-- There is no such month. -/
  | month
  /-- The month has no such day. -/
  | day
  /-- There is no such hour. -/
  | hour
  /-- There is no such minute. -/
  | minute
  /-- There is no such second. -/
  | second
  /-- The distance from universal time is a day or more. -/
  | offset (seconds : Int)
deriving DecidableEq, Inhabited

/-- A span of time in days and seconds, as it is shown. -/
def spanText (seconds : Int) : String :=
  let days := seconds / 86400
  let rest := seconds % 86400
  let parts :=
    (if days ≠ 0 then ["days=" ++ toString days] else []) ++
      (if rest ≠ 0 then ["seconds=" ++ toString rest] else [])
  "datetime.timedelta(" ++ (if parts.isEmpty then "0" else ", ".intercalate parts) ++ ")"

/-- The error in words. -/
def CalendarError.message : CalendarError → String
  | year n => "year " ++ toString n ++ " is out of range"
  | month => "month must be in 1..12"
  | day => "day is out of range for month"
  | hour => "hour must be in 0..23"
  | minute => "minute must be in 0..59"
  | second => "second must be in 0..59"
  | offset seconds =>
    "offset must be a timedelta strictly between -timedelta(hours=24) and timedelta(hours=24), not " ++
      spanText seconds ++ "."

/-- The date with these numbers. -/
def Date.make (year month day : Nat) : Except CalendarError Date :=
  if year < 1 ∨ 9999 < year then .error (.year year)
  else if month < 1 ∨ 12 < month then .error .month
  else if day < 1 ∨ Date.monthLength year month < day then .error .day
  else .ok ⟨year, month, day⟩

/-- The moment with these numbers on a day. -/
def DateTime.make (date : Date) (hour minute second micro : Nat) (offset : Option Int) :
    Except CalendarError DateTime :=
  if 23 < hour then .error .hour
  else if 59 < minute then .error .minute
  else if 59 < second then .error .second
  else .ok ⟨date, hour, minute, second, micro, offset⟩

/-- The distance from universal time, which is less than a day. -/
def DateTime.makeOffset (seconds : Int) : Except CalendarError Int :=
  if seconds.natAbs < 86400 then .ok seconds else .error (.offset seconds)

end LayeredConfig
