import Catalogue.Time.Calendar

/-!
# Instants

An instant is a day, a second of that day and the nanoseconds since that second began. In the last
second of a minute the nanoseconds may run on to a second full second: a leap second, written `:60`.
Days lie in the years -262143 to 262142.

* `Instant.ofParts?` — the instant with given civil parts, when they name one.
* `Instant.shift?` — the same reading of the clock, moved by whole seconds.
-/

namespace Catalogue.Time

/-- The number of the first day an instant can lie in. -/
def firstDay : Int := dayNumber ⟨-262143, 1, 1⟩

/-- The number of the last day an instant can lie in. -/
def lastDay : Int := dayNumber ⟨262142, 12, 31⟩

/-- A moment in universal time, with leap seconds kept apart. -/
structure Instant where
  day : Int
  second : Nat
  nanos : Nat
  day_mem : firstDay ≤ day ∧ day ≤ lastDay
  second_lt : second < 86400
  nanos_lt : nanos < 2000000000
  leap_second : 1000000000 ≤ nanos → second % 60 = 59
  deriving DecidableEq

namespace Instant

/-- The instant with the given day number, second and nanoseconds, when they are in range. -/
def make? (day : Int) (second nanos : Nat) : Option Instant :=
  if h : (firstDay ≤ day ∧ day ≤ lastDay) ∧ second < 86400 ∧ nanos < 2000000000
      ∧ (1000000000 ≤ nanos → second % 60 = 59) then
    some ⟨day, second, nanos, h.1, h.2.1, h.2.2.1, h.2.2.2⟩
  else none

/-- The civil date of an instant. -/
def date (t : Instant) : Date := civil t.day

def hour (t : Instant) : Nat := t.second / 3600

def minute (t : Instant) : Nat := t.second / 60 % 60

/-- The second of the minute; inside a leap second it is still 59. -/
def secondOfMinute (t : Instant) : Nat := t.second % 60

/-- Whether the instant lies inside a leap second. -/
def isLeap (t : Instant) : Bool := 1000000000 ≤ t.nanos

/--
The instant with the given civil parts. Second 60 is the leap second after second 59; `none` when
the parts name no instant.
-/
def ofParts? (date : Date) (hour minute second nanos : Nat) : Option Instant :=
  if date.isValid && hour < 24 && minute < 60 && second ≤ 60 && nanos < 1000000000 then
    if second == 60 then
      make? (dayNumber date) (hour * 3600 + minute * 60 + 59) (1000000000 + nanos)
    else make? (dayNumber date) (hour * 3600 + minute * 60 + second) nanos
  else none

/-- Moves an instant by a number of seconds; the nanoseconds stay. -/
def shift? (t : Instant) (seconds : Int) : Option Instant :=
  let moved := Int.ofNat t.second + seconds
  make? (t.day + moved / 86400) (moved % 86400).toNat t.nanos

end Instant

end Catalogue.Time
