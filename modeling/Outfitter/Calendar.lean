/-! # Calendar

Dates and times of day from seconds since the first of January 1970, in UTC. Years and
months are found by counting down the days that lie before them.
-/

namespace Outfitter.Calendar

def isLeap (y : Nat) : Bool := y % 4 == 0 && (y % 100 != 0 || y % 400 == 0)

def yearDays (y : Nat) : Nat := if isLeap y then 366 else 365

def monthDays (y : Nat) : List Nat :=
  [31, if isLeap y then 29 else 28, 31, 30, 31, 30, 31, 31, 30, 31, 30, 31]

/-- The year of the day `n` days after the start of year `y`, and the day in that year. -/
def yearFrom : Nat → Nat → Nat → Nat × Nat
  | 0, y, n => (y, n)
  | fuel + 1, y, n => if n < yearDays y then (y, n) else yearFrom fuel (y + 1) (n - yearDays y)

/-- The month of the day `n` days after the start of month `m`, and the day in that month,
both counted from zero. -/
def monthFrom : List Nat → Nat → Nat → Nat × Nat
  | [], m, n => (m, n)
  | len :: rest, m, n => if n < len then (m, n) else monthFrom rest (m + 1) (n - len)

structure Moment where
  year : Nat
  month : Nat
  day : Nat
  hour : Nat
  minute : Nat
  second : Nat
  deriving DecidableEq, Repr

def Moment.ofSeconds (t : Nat) : Moment :=
  let days := t / 86400
  let inDay := t % 86400
  let (year, rest) := yearFrom (days / 365 + 1) 1970 days
  let (month, day) := monthFrom (monthDays year) 0 rest
  ⟨year, month + 1, day + 1, inDay / 3600, inDay / 60 % 60, inDay % 60⟩

/-- The decimal digits of `n`, with zeros before them up to `width`. -/
def padded (width n : Nat) : List Char :=
  let ds := Nat.toDigits 10 n
  List.replicate (width - ds.length) '0' ++ ds

/-- A year of four digits, or a later one with a sign. -/
def yearText (y : Nat) : List Char := if y < 10000 then padded 4 y else '+' :: padded 4 y

/-- The form used in names: `20170714_024000`. -/
def timestamp (t : Nat) : String :=
  let m := Moment.ofSeconds t
  String.ofList (yearText m.year ++ padded 2 m.month ++ padded 2 m.day ++ ['_'] ++
    padded 2 m.hour ++ padded 2 m.minute ++ padded 2 m.second)

/-- The form used in texts: `2017-07-14 02:40:00`. -/
def dateTime (t : Nat) : String :=
  let m := Moment.ofSeconds t
  String.ofList (yearText m.year ++ ['-'] ++ padded 2 m.month ++ ['-'] ++ padded 2 m.day ++ [' '] ++
    padded 2 m.hour ++ [':'] ++ padded 2 m.minute ++ [':'] ++ padded 2 m.second)

end Outfitter.Calendar
