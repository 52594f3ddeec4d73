import Statechart.Digits
import Statechart.Timestamp.Basic
import Statechart.Timestamp.Date

/-!
# The written form of a point in time

A point in time is written as a date, a time of day in UTC, and as many fraction digits as
it needs, in groups of three. Reading takes more: blanks around the numbers and their
separators, numbers without leading zeros, a blank between date and time, and any zone.
-/
namespace Statechart.Timestamp

/-! ## Writing -/

/-- A number with zeros in front, up to a width. -/
def padded (width n : Nat) : String := String.ofList ((Nat.toDigits 10 n).leftpad width '0')

/-- A year: four digits, and a sign if four digits do not do. -/
def yearText (year : Int) : String :=
  if 0 ≤ year ∧ year ≤ 9999 then padded 4 year.toNat
  else (if year < 0 then "-" else "+") ++ padded 4 year.natAbs

/-- The fraction of a second, with as few groups of three digits as lose nothing. -/
def fractionText (nanos : Nat) : String :=
  if nanos = 0 then ""
  else if nanos % 1000000 = 0 then "." ++ padded 3 (nanos / 1000000)
  else if nanos % 1000 = 0 then "." ++ padded 6 (nanos / 1000)
  else "." ++ padded 9 nanos

def text (t : Timestamp) : String :=
  let date := Date.ofDay (Int.fdiv t.seconds 86400)
  let time := (Int.fmod t.seconds 86400).toNat
  let leap := t.nanos / 1000000000
  yearText date.year ++ "-" ++ padded 2 date.month ++ "-" ++ padded 2 date.day
    ++ "T" ++ padded 2 (time / 3600) ++ ":" ++ padded 2 (time / 60 % 60)
    ++ ":" ++ padded 2 (time % 60 + leap) ++ fractionText (t.nanos % 1000000000) ++ "Z"

/-! ## Reading -/

/-- Whether a character is blank, that is, has the property White_Space. -/
def isBlank (c : Char) : Bool :=
  let n := c.toNat
  9 ≤ n && n ≤ 13 || 0x2000 ≤ n && n ≤ 0x200A
    || [0x20, 0x85, 0xA0, 0x1680, 0x2028, 0x2029, 0x202F, 0x205F, 0x3000].contains n

/-- A row of one digit or more, of at most so many, and what follows it. -/
def digits? (width : Nat) (cs : List Char) : Option (Nat × List Char) :=
  let ds := (cs.take width).takeWhile Char.isDigit
  if ds.isEmpty then none else some (Digits.value ds, cs.drop ds.length)

/-- A number of at most so many digits after blanks, and what follows it. -/
def number? (width : Nat) (cs : List Char) : Option (Nat × List Char) :=
  digits? width (cs.dropWhile isBlank)

/-- What follows a character after blanks. -/
def expect? (c : Char) (cs : List Char) : Option (List Char) :=
  match cs.dropWhile isBlank with
  | d :: rest => if d = c then some rest else none
  | [] => none

/-- A year after blanks, and what follows it. One with a sign may have any number of digits. -/
def year? (cs : List Char) : Option (Int × List Char) :=
  match cs.dropWhile isBlank with
  | '-' :: rest => (digits? rest.length rest).map fun (n, rest) => (-(n : Int), rest)
  | '+' :: rest => (digits? rest.length rest).map fun (n, rest) => ((n : Int), rest)
  | cs => (digits? 4 cs).map fun (n, rest) => ((n : Int), rest)

/-- The nanoseconds of a fraction, and what follows it. Digits after the ninth do not count. -/
def fraction? : List Char → Option (Nat × List Char)
  | '.' :: rest =>
    let ds := rest.takeWhile Char.isDigit
    if ds.isEmpty then none
    else some (Digits.value ((ds.take 9).rightpad 9 '0'), rest.drop ds.length)
  | cs => some (0, cs)

/-- A number of exactly two digits, and what follows it. -/
def twoDigits? : List Char → Option (Nat × List Char)
  | a :: b :: rest => if a.isDigit && b.isDigit then some (Digits.value [a, b], rest) else none
  | _ => none

/-- The hours and minutes by which a zone differs from UTC, in seconds, and what follows
them. Between the two there may be colons and blanks. -/
def difference? (cs : List Char) : Option (Int × List Char) := do
  let (hours, rest) ← twoDigits? cs
  let (minutes, rest) ← twoDigits? (rest.dropWhile fun c => c == ':' || isBlank c)
  if hours ≤ 23 ∧ minutes ≤ 59 then some ((hours * 3600 + minutes * 60 : Nat), rest) else none

/-- The seconds by which a zone is ahead of UTC, and what follows it. -/
def zone? : List Char → Option (Int × List Char)
  | 'Z' :: rest | 'z' :: rest => some (0, rest)
  | '+' :: rest => difference? rest
  | '-' :: rest | '−' :: rest => (difference? rest).map fun (behind, rest) => (-behind, rest)
  | u :: t :: c :: rest =>
    if [u, t, c].map Char.toUpper = ['U', 'T', 'C'] then some (0, rest) else none
  | _ => none

/-- Whether a date lies in the years that a point in time may have. -/
def isCovered (d : Date) : Bool := -262143 ≤ d.year && d.year ≤ 262142

def ofText? (text : String) : Option Timestamp := do
  let (year, cs) ← year? text.toList
  let (month, cs) ← number? 2 (← expect? '-' cs)
  let (day, cs) ← number? 2 (← expect? '-' cs)
  let cs ← match cs with
    | 'T' :: rest | 't' :: rest | ' ' :: rest => some rest
    | _ => none
  let (hour, cs) ← number? 2 cs
  let (minute, cs) ← number? 2 (← expect? ':' cs)
  let (second, cs) ← number? 2 (← expect? ':' cs)
  let (nanos, cs) ← fraction? cs
  let (ahead, cs) ← zone? (cs.dropWhile isBlank)
  let date : Date := ⟨year, month, day⟩
  let leap := second / 60
  let seconds := date.toDay * 86400 + (hour * 3600 + minute * 60 + (second - leap) : Nat) - ahead
  if cs.all isBlank && date.isValid && hour ≤ 23 && minute ≤ 59 && second ≤ 60
      && isCovered date && isCovered (Date.ofDay (Int.fdiv seconds 86400)) then
    some ⟨seconds, nanos + leap * 1000000000⟩
  else none

end Statechart.Timestamp
