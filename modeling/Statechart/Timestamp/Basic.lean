/-!
# Points in time

A point in time is a number of seconds since the beginning of 1970, in UTC, and of
nanoseconds within the second. A leap second is the second before it with more than a
second's worth of nanoseconds.
-/
namespace Statechart

structure Timestamp where
  /-- Seconds since the beginning of 1970. -/
  seconds : Int
  nanos : Nat
deriving DecidableEq, Repr, Inhabited

namespace Timestamp

/-- The beginning of 1970. -/
def epoch : Timestamp := ⟨0, 0⟩

/-- The point so many microseconds after the beginning of 1970. -/
def ofMicros (us : Int) : Timestamp := ⟨Int.fdiv us 1000000, (Int.fmod us 1000000).toNat * 1000⟩

def toNanos (t : Timestamp) : Int := t.seconds * 1000000000 + t.nanos

/-- Whether a point lies in a leap second. -/
def isLeap (t : Timestamp) : Bool := 1000000000 ≤ t.nanos

def timeOfDay (t : Timestamp) : Int := Int.fmod t.seconds 86400

/-- The leap seconds that a difference of two points has beyond the difference of their
seconds: one that the earlier time of day lies in. -/
def leapBetween (first last : Timestamp) : Int :=
  if first.timeOfDay < last.timeOfDay then if first.isLeap then 1 else 0
  else if last.timeOfDay < first.timeOfDay then if last.isLeap then -1 else 0
  else 0

/-- The microseconds from one point to a later one. -/
def microsUntil? (first last : Timestamp) : Option Nat :=
  let d := last.toNanos - first.toNanos + leapBetween first last * 1000000000
  if d < 0 then none else some (d.toNat / 1000)

end Timestamp

end Statechart
