/-
  Spans of time and millisecond clocks.

  * `Span`: a length of time in nanoseconds; `Span.millis` drops what is below a millisecond and
    stops at the largest reading of a clock.
  * `Moment`: a reading of a clock in milliseconds; `Moment.later` and `Moment.earlier` stop at the
    ends of the clock's range.
-/
import RuleNet.Number.Power

namespace RuleNet

/-- A length of time in nanoseconds. -/
structure Span where
  nanos : Nat
  deriving DecidableEq, Inhabited

/-- A reading of a clock: milliseconds since the start of 1970. -/
abbrev Moment := Int

namespace Moment

/-- The last reading a clock can show. -/
def last : Moment := Integer64.greatest

/-- The first reading a clock can show. -/
def first : Moment := Integer64.least

/-- The nearest reading a clock can show. -/
def clamp (t : Int) : Moment := Integer64.clamp t

/-- The reading `millis` later. -/
def later (t : Moment) (millis : Int) : Moment := clamp (t + millis)

/-- The reading `millis` earlier. -/
def earlier (t : Moment) (millis : Int) : Moment := clamp (t - millis)

end Moment

namespace Span

/-- The span of a number of milliseconds. -/
def ofMillis (n : Nat) : Span := ⟨n * 1000000⟩

/-- The span of seconds and nanoseconds. -/
def ofParts (secs nanos : Nat) : Span := ⟨secs * 1000000000 + nanos⟩

/-- Whole seconds. -/
def secs (d : Span) : Nat := d.nanos / 1000000000

/-- Nanoseconds beyond the whole seconds. -/
def subsecNanos (d : Span) : Nat := d.nanos % 1000000000

/-- Whole milliseconds, at most the last reading of a clock. -/
def millis (d : Span) : Int := min Moment.last (d.nanos / 1000000 : Nat)

end Span

end RuleNet
