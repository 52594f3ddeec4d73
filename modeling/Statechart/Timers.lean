import Statechart.Event

/-!
# Timers on a clock of their own

Time passes only when it is told to. A timer is due some milliseconds after it is scheduled;
of several due timers the earliest goes first, and of those due at one time the one
scheduled first. Taking a timer moves the clock to the time it was due.

Time is counted in whole milliseconds, in which delays are given, and without bound. Shorter
stretches of time and a clock that overflows are not modelled.
-/
namespace Statechart

structure Timer where
  /-- When, in milliseconds of the clock. -/
  due : Nat
  /-- The place in the order of scheduling. -/
  number : Nat
  /-- The active state on whose behalf. -/
  owner : Nat
  event : Event
deriving DecidableEq, Repr

/-- Whether one timer goes before another. -/
def Timer.before (a b : Timer) : Bool := a.due < b.due || (a.due == b.due && a.number < b.number)

/-- A clock and the timers that are pending on it. -/
structure Timers where
  /-- Whole milliseconds since the clock was made, without bound. -/
  now : Nat := 0
  /-- The number of the next timer. -/
  next : Nat := 0
  pending : List Timer := []
deriving DecidableEq, Repr, Inhabited

namespace Timers

def schedule (t : Timers) (owner : Nat) (event : Event) (delayMs : Nat) : Timers :=
  { t with
    pending := t.pending ++ [⟨t.now + delayMs, t.next, owner, event⟩]
    next := t.next + 1 }

def cancel (t : Timers) (owner : Nat) : Timers :=
  { t with pending := t.pending.filter fun x => x.owner != owner }

def clear (t : Timers) : Timers := { t with pending := [] }

def first? : List Timer → Option Timer
  | [] => none
  | x :: rest =>
    match first? rest with
    | none => some x
    | some y => some (if y.before x then y else x)

/-- The timer that goes first among those due by a time. -/
def nextDue? (t : Timers) (limit : Nat) : Option Timer :=
  first? (t.pending.filter fun x => x.due ≤ limit)

/-- Takes the timer that goes first among those due by a time. -/
def take? (t : Timers) (limit : Nat) : Option (Timer × Timers) :=
  (t.nextDue? limit).map fun x =>
    (x, { t with pending := t.pending.erase x, now := max t.now x.due })

/-- Moves the clock to a time, if that is ahead. -/
def advanceTo (t : Timers) (time : Nat) : Timers := { t with now := max t.now time }

end Timers

end Statechart
