import ScopedAggregation.Text

namespace ScopedAggregation

namespace Calendar

def isLeap (year : Int) : Bool := year % 4 = 0 && (year % 100 ≠ 0 || year % 400 = 0)

def daysIn (month : Nat) (year : Int) : Nat :=
  if month = 2 then (if isLeap year then 29 else 28)
  else if month = 4 || month = 6 || month = 9 || month = 11 then 30
  else 31

/-- A day: year, month and day of the month, counted from one. -/
structure Date where
  year : Int
  month : Nat
  day : Nat
deriving DecidableEq, Repr

def Date.isValid (d : Date) : Bool :=
  1 ≤ d.month && d.month ≤ 12 && 1 ≤ d.day && d.day ≤ daysIn d.month d.year

/-- The number of days from the first of March of year zero. Years are counted from March here, so
that the leap day comes last. -/
def Date.toDays (d : Date) : Int :=
  let year := if d.month ≤ 2 then d.year - 1 else d.year
  let month := (d.month + 9) % 12
  let era := year.fdiv 400
  let yearOfEra := year - era * 400
  let dayOfYear : Int := (153 * month + 2) / 5 + d.day - 1
  let dayOfEra := yearOfEra * 365 + yearOfEra / 4 - yearOfEra / 100 + dayOfYear
  era * 146097 + dayOfEra

/-- The day that is the given number of days after the first of March of year zero. -/
def Date.ofDays (days : Int) : Date :=
  let era := days.fdiv 146097
  let dayOfEra := days - era * 146097
  let yearOfEra := (dayOfEra - dayOfEra / 1460 + dayOfEra / 36524 - dayOfEra / 146096) / 365
  let dayOfYear := dayOfEra - (365 * yearOfEra + yearOfEra / 4 - yearOfEra / 100)
  let month := (5 * dayOfYear + 2) / 153
  let day := dayOfYear - (153 * month + 2) / 5 + 1
  let year := yearOfEra + era * 400
  ⟨if month < 10 then year else year + 1,
    (if month < 10 then month + 3 else month - 9).toNat, day.toNat⟩

/-- The days from the first of March of year zero to the first of January 1970. -/
def epochDays : Int := (⟨1970, 1, 1⟩ : Date).toDays

end Calendar

/-- A moment: nanoseconds since the beginning of 1970 in universal time. -/
structure Instant where
  nanos : Int
deriving DecidableEq, Repr, Inhabited

namespace Instant

open Calendar (Date)

/-- The beginning of year one, which stands for no moment at all. -/
def none : Instant := ⟨((⟨1, 1, 1⟩ : Date).toDays - Calendar.epochDays) * 86400 * 1000000000⟩

def ofSeconds (seconds : Int) : Instant := ⟨seconds * 1000000000⟩

def seconds (t : Instant) : Int := t.nanos.fdiv 1000000000

/-- The nanoseconds after the full second. -/
def fraction (t : Instant) : Nat := (t.nanos - t.seconds * 1000000000).toNat

def date (t : Instant) : Date := .ofDays (t.seconds.fdiv 86400 + Calendar.epochDays)

/-- The second of the day. -/
def secondOfDay (t : Instant) : Nat := (t.seconds - t.seconds.fdiv 86400 * 86400).toNat

/-- A numeral with zeros before it to fill the width. -/
def padded (width n : Nat) : Text :=
  let digits := Text.ofNat n
  List.replicate (width - digits.length) Ascii.zero ++ digits

def writeYear (year : Int) : Text :=
  if year < 0 then Ascii.minus :: padded 4 (-year).toNat else padded 4 year.toNat

/-- The date, a mark and the time of day. -/
def write (mark : UInt8) (t : Instant) : Text :=
  let d := t.date
  let s := t.secondOfDay
  writeYear d.year ++ [Ascii.minus] ++ padded 2 d.month ++ [Ascii.minus] ++ padded 2 d.day
    ++ [mark] ++ padded 2 (s / 3600) ++ [Ascii.colon] ++ padded 2 (s / 60 % 60)
    ++ [Ascii.colon] ++ padded 2 (s % 60)

/-- The form for people. -/
def display (t : Instant) : Text := t.write Ascii.space

/-- The form for programs, to the second. -/
def stamp (t : Instant) : Text := t.write 0x54 ++ [0x5a]

/-- The form for programs with a fraction of a second, if there is one. -/
def exactStamp (t : Instant) : Text :=
  let digits := Text.dropEndWhile (· = Ascii.zero) (padded 9 t.fraction)
  t.write 0x54 ++ (if digits.isEmpty then [] else Ascii.dot :: digits) ++ [0x5a]

/-- Only years of four digits have a form that is read again. -/
def hasStamp (t : Instant) : Bool := 0 ≤ t.date.year && t.date.year ≤ 9999

/-- A number of one or two digits and what follows it; `fixed` asks for two. -/
def readPair (fixed : Bool) : Text → Option (Nat × Text)
  | a :: b :: rest =>
    if !Ascii.isDigit a then Option.none
    else if Ascii.isDigit b then some (Ascii.digitValue a * 10 + Ascii.digitValue b, rest)
    else if fixed then Option.none
    else some (Ascii.digitValue a, b :: rest)
  | [a] => if Ascii.isDigit a && !fixed then some (Ascii.digitValue a, []) else Option.none
  | [] => Option.none

/-- What follows the given byte. -/
def expect (b : UInt8) : Text → Option Text
  | a :: rest => if a = b then some rest else Option.none
  | [] => Option.none

/-- A day of the calendar and what follows it. -/
def readDate (fixed : Bool) (s : Text) : Option (Date × Text) := do
  let year := s.take 4
  if year.length ≠ 4 || !year.all Ascii.isDigit then Option.none
  else
    let rest ← expect Ascii.minus (s.drop 4)
    let (month, rest) ← readPair fixed rest
    let rest ← expect Ascii.minus rest
    let (day, rest) ← readPair fixed rest
    let d : Date := ⟨Text.digitsValue year, month, day⟩
    if d.isValid then some (d, rest) else Option.none

/-- The digits of a fraction of a second, if there is one, and what follows them. -/
def readFraction : Text → Text × Text
  | p :: d :: rest =>
    if (p = Ascii.dot || p = Ascii.comma) && Ascii.isDigit d then
      (d :: rest.takeWhile Ascii.isDigit, rest.dropWhile Ascii.isDigit)
    else ([], p :: d :: rest)
  | s => ([], s)

/-- A time of day in nanoseconds and what follows it. -/
def readClock (fixed : Bool) (s : Text) : Option (Nat × Text) := do
  let (hour, rest) ← readPair false s
  let rest ← expect Ascii.colon rest
  let (minute, rest) ← readPair fixed rest
  let rest ← expect Ascii.colon rest
  let (second, rest) ← readPair fixed rest
  let (digits, rest) := readFraction rest
  if hour < 24 && minute < 60 && second < 60 then
    let whole := (hour * 60 + minute) * 60 + second
    let nanos := Text.digitsValue ((digits ++ List.replicate 9 Ascii.zero).take 9)
    some (whole * 1000000000 + nanos, rest)
  else Option.none

/-- The offset of a zone in minutes: the letter of universal time, or hours and minutes with a
sign. -/
def readZone : Text → Option Int
  | [0x5a] => some 0
  | [sign, a, b, 0x3a, c, d] =>
    let hours := Text.digitsValue [a, b]
    let minutes := Text.digitsValue [c, d]
    if [a, b, c, d].all Ascii.isDigit && hours ≤ 24 && minutes ≤ 60 then
      let offset : Int := hours * 60 + minutes
      if sign = Ascii.plus then some offset
      else if sign = Ascii.minus then some (-offset)
      else Option.none
    else Option.none
  | _ => Option.none

/-- Reads the form for programs. -/
def read (s : Text) : Option Instant := do
  let (date, rest) ← readDate true s
  let rest ← expect 0x54 rest
  let (clock, rest) ← readClock true rest
  let offset ← readZone rest
  let days := date.toDays - Calendar.epochDays
  some ⟨(days * 86400 - offset * 60) * 1000000000 + clock⟩

end Instant

end ScopedAggregation
