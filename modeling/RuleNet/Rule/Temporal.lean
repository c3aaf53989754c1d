/-
  Temporal relations between the moments of two events, and windows on recent events.
-/
import RuleNet.Time.Span

namespace RuleNet

/-- How the moment of an event relates to that of another one. -/
inductive TemporalRelation where
  /-- Between `least` and `most` before the other event. -/
  | before (least most : Span)
  /-- Between `least` and `most` after the other event. -/
  | after (least most : Span)
  /-- At most `tolerance` apart. -/
  | coincides (tolerance : Span)
  deriving DecidableEq, Inhabited

/-- Whether the relation holds from an event to another one. -/
def TemporalRelation.holds : TemporalRelation → Moment → Moment → Bool
  | before least most, this, other =>
    let gap := other.earlier this
    decide (least.millis ≤ gap) && decide (gap ≤ most.millis)
  | after least most, this, other =>
    let gap := this.earlier other
    decide (least.millis ≤ gap) && decide (gap ≤ most.millis)
  | coincides tolerance, this, other => decide (((this - other).natAbs : Int) ≤ tolerance.millis)

/-- Which events a pattern sees. -/
inductive Window where
  /-- Those at most this long before the session clock. -/
  | time (length : Span)
  /-- The last ones to arrive, up to this number. -/
  | length (capacity : Nat)
  deriving DecidableEq, Inhabited

/-- Whether a moment lies in the time window that ends now. -/
def Span.covers (length : Span) (moment now : Moment) : Bool :=
  decide (now.earlier length.millis ≤ moment)

end RuleNet
