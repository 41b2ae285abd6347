/-!
# Dates and times

Days of the common calendar, and times of day on them, perhaps with an offset from universal time.
`Date.text` and `Moment.text` write them for a reader, `literal` as they stand in lists.
-/

namespace Dockerfile

/-- Why numbers make no date or time. -/
inductive Calendar.Fault where
  | year
  | month
  | day
  | hour
  | minute
  | second
  | offset (minutes : Int)
  deriving DecidableEq, Repr

/-- A day. -/
structure Date where
  year : Nat
  month : Nat
  day : Nat
  deriving DecidableEq, Repr

/-- A time on a day, with microseconds. The offset from universal time counts minutes. -/
structure Moment where
  date : Date
  hour : Nat
  minute : Nat
  second : Nat
  fraction : Nat
  offset : Option Int
  deriving DecidableEq, Repr

namespace Calendar

/-- A number with zeros in front of it, to at least `width` digits. -/
def padded (width n : Nat) : String :=
  let digits := toString n
  String.ofList (List.replicate (width - digits.length) '0') ++ digits

/-- Does a year have a 29th of February? -/
def isLeap (year : Nat) : Bool := year % 4 = 0 && (year % 100 != 0 || year % 400 = 0)

/-- The number of days of a month. -/
def daysIn (year month : Nat) : Nat :=
  if month = 2 then if isLeap year then 29 else 28
  else if month = 4 || month = 6 || month = 9 || month = 11 then 30
  else 31

/-- A length of time in minutes, as days and seconds of which the second is not negative. -/
def span (minutes : Int) : String :=
  let days := Int.fdiv minutes 1440
  let seconds := 60 * Int.fmod minutes 1440
  let parts := (if days = 0 then [] else [s!"days={days}"]) ++
    (if seconds = 0 then [] else [s!"seconds={seconds}"])
  "datetime.timedelta(" ++ ", ".intercalate parts ++ ")"

/-- The wording of a fault. -/
def Fault.message : Fault → String
  | .year => "year 0 is out of range"
  | .month => "month must be in 1..12"
  | .day => "day is out of range for month"
  | .hour => "hour must be in 0..23"
  | .minute => "minute must be in 0..59"
  | .second => "second must be in 0..59"
  | .offset minutes =>
    "offset must be a timedelta strictly between -timedelta(hours=24) and timedelta(hours=24), not "
      ++ span minutes ++ "."

end Calendar

open Calendar

namespace Date

/-- The day of a year, a month and a day of the month. -/
def make (year month day : Nat) : Except Fault Date :=
  if year = 0 then throw .year
  else if month = 0 || 12 < month then throw .month
  else if day = 0 || daysIn year month < day then throw .day
  else pure ⟨year, month, day⟩

/-- The text of a day. -/
def text (d : Date) : String := s!"{padded 4 d.year}-{padded 2 d.month}-{padded 2 d.day}"

/-- How many days there are up to a day, from the first day of the year 1 on. -/
def ordinal (d : Date) : Nat :=
  let years := d.year - 1
  let months := (List.range (d.month - 1)).foldl (fun days m => days + daysIn d.year (m + 1)) 0
  365 * years + years / 4 - years / 100 + years / 400 + months + d.day

/-- A day as an item of a list. -/
def literal (d : Date) : String := s!"datetime.date({d.year}, {d.month}, {d.day})"

end Date

namespace Moment

/-- The time that its parts give. -/
def make (year month day hour minute second fraction : Nat) (offset : Option Int) :
    Except Fault Moment := do
  match offset with
  | some minutes => if 1440 ≤ minutes.natAbs then throw (.offset minutes)
  | none => pure ()
  let date ← Date.make year month day
  if 23 < hour then throw .hour
  if 59 < minute then throw .minute
  if 59 < second then throw .second
  pure ⟨date, hour, minute, second, fraction, offset⟩

/-- A time in microseconds, in universal time if the offset is known. -/
def instant (m : Moment) : Int :=
  let minutes : Int := (m.date.ordinal * 24 + m.hour) * 60 + m.minute
  ((minutes - m.offset.getD 0) * 60 + m.second) * 1000000 + m.fraction

/-- Are two times the same? One with an offset and one without are not. -/
def same (m n : Moment) : Bool := m.offset.isSome = n.offset.isSome && m.instant = n.instant

/-- The text of a time. -/
def text (m : Moment) : String :=
  let clock := s!"{padded 2 m.hour}:{padded 2 m.minute}:{padded 2 m.second}"
  let fraction := if m.fraction = 0 then "" else "." ++ padded 6 m.fraction
  let offset := match m.offset with
    | none => ""
    | some minutes =>
      let sign := if minutes < 0 then "-" else "+"
      sign ++ padded 2 (minutes.natAbs / 60) ++ ":" ++ padded 2 (minutes.natAbs % 60)
  m.date.text ++ " " ++ clock ++ fraction ++ offset

/-- A time as an item of a list. -/
def literal (m : Moment) : String :=
  let seconds := if m.second = 0 && m.fraction = 0 then [] else [m.second]
  let fraction := if m.fraction = 0 then [] else [m.fraction]
  let numbers := [m.date.year, m.date.month, m.date.day, m.hour, m.minute] ++ seconds ++ fraction
  let zone := match m.offset with
    | none => []
    | some 0 => ["tzinfo=datetime.timezone.utc"]
    | some minutes => ["tzinfo=datetime.timezone(" ++ span minutes ++ ")"]
  "datetime.datetime(" ++ ", ".intercalate (numbers.map toString ++ zone) ++ ")"

end Moment

end Dockerfile
