/-
  Temporal relations beside exact time.

  Moments are whole milliseconds, and a bound may have any number of nanoseconds. A relation is decided
  by whole milliseconds that stop at the last reading of a clock.

  * `TemporalRelation.Exact`: what a relation says of two moments, to the nanosecond and without end.
  * `TemporalRelation.holds_inexact`: what is lost below a millisecond and beyond the last reading.
  * `TemporalRelation.holds_iff_capped`: what a relation comes to, for all moments and bounds.
-/
import RuleNet.Rule.Temporal

namespace RuleNet

/-! ## Lengths of time -/

/-- A number of milliseconds, in nanoseconds. -/
def Moment.nanos (millis : Int) : Int := millis * 1000000

/-- The nearest length of time, in nanoseconds, that does not go beyond the last reading of a clock. -/
def Moment.capped (nanos : Int) : Int := min nanos (Moment.nanos Moment.last)

/-- A span without its fraction of a millisecond. -/
def Span.whole (d : Span) : Span := .ofMillis (d.nanos / 1000000)

namespace TemporalRelation

/-- Whether the relation holds from an event to another one, to the nanosecond and without end. -/
def Exact : TemporalRelation → Moment → Moment → Prop
  | before least most, this, other =>
    least.nanos ≤ Moment.nanos (other - this) ∧ Moment.nanos (other - this) ≤ most.nanos
  | after least most, this, other =>
    least.nanos ≤ Moment.nanos (this - other) ∧ Moment.nanos (this - other) ≤ most.nanos
  | coincides tolerance, this, other =>
    Moment.nanos ((this - other).natAbs : Int) ≤ tolerance.nanos

/-- A lower bound of one and a half milliseconds is met by one millisecond; moments further apart than
    the last reading of a clock are within a bound of that length; and they do not coincide, however
    large the tolerance is. -/
theorem holds_inexact :
    ((before ⟨1500000⟩ (.ofMillis 2)).holds 0 1 = true ∧
      ¬ (before ⟨1500000⟩ (.ofMillis 2)).Exact 0 1) ∧
    ((before (.ofMillis 0) (.ofMillis 9223372036854775807)).holds Moment.first Moment.last = true ∧
      ¬ (before (.ofMillis 0) (.ofMillis 9223372036854775807)).Exact Moment.first Moment.last) ∧
    ((coincides (.ofMillis 18446744073709551615)).holds Moment.first Moment.last = false ∧
      (coincides (.ofMillis 18446744073709551615)).Exact Moment.first Moment.last) := by
  unfold Exact
  decide +kernel

end TemporalRelation

/-! ## Bounds -/

/-- A lower bound is compared without its fraction of a millisecond. -/
theorem Span.millis_le_earlier (least : Span) (a b : Moment) : least.millis ≤ a.earlier b ↔
    Moment.capped least.whole.nanos ≤ Moment.capped (Moment.nanos (a - b)) := by
  simp only [millis, whole, ofMillis, Moment.earlier, Moment.clamp, Integer64.clamp, Moment.capped,
    Moment.nanos, Moment.last, Integer64.least, Integer64.greatest]
  omega

/-- To an upper bound its fraction of a millisecond makes no difference. -/
theorem Span.earlier_le_millis (most : Span) (a b : Moment) : a.earlier b ≤ most.millis ↔
    Moment.capped (Moment.nanos (a - b)) ≤ Moment.capped most.nanos := by
  simp only [millis, Moment.earlier, Moment.clamp, Integer64.clamp, Moment.capped, Moment.nanos,
    Moment.last, Integer64.least, Integer64.greatest, Int.le_min, Int.max_le]
  omega

/-- A distance is not cut, the bound on it is. -/
theorem Span.le_millis (most : Span) (distance : Nat) : (distance : Int) ≤ most.millis ↔
    Moment.nanos distance ≤ Moment.capped most.nanos := by
  simp only [millis, Moment.capped, Moment.nanos, Moment.last, Integer64.greatest]
  omega

namespace TemporalRelation

/-- An event is before or after another one if the difference of their moments, taken as an integer, is
    neither below the lower bound without its fraction of a millisecond nor above the upper bound,
    where all three count as the last reading of a clock if they are greater. Two events coincide if
    their distance is within the tolerance, which counts in the same way. -/
theorem holds_iff_capped (r : TemporalRelation) (this other : Moment) : r.holds this other = true ↔
    match r with
    | before least most =>
      Moment.capped least.whole.nanos ≤ Moment.capped (Moment.nanos (other - this)) ∧
        Moment.capped (Moment.nanos (other - this)) ≤ Moment.capped most.nanos
    | after least most =>
      Moment.capped least.whole.nanos ≤ Moment.capped (Moment.nanos (this - other)) ∧
        Moment.capped (Moment.nanos (this - other)) ≤ Moment.capped most.nanos
    | coincides tolerance =>
      Moment.nanos ((this - other).natAbs : Int) ≤ Moment.capped tolerance.nanos := by
  cases r with
  | before least most =>
    simp only [holds, Bool.and_eq_true, decide_eq_true_eq, Span.millis_le_earlier,
      Span.earlier_le_millis]
  | after least most =>
    simp only [holds, Bool.and_eq_true, decide_eq_true_eq, Span.millis_le_earlier,
      Span.earlier_le_millis]
  | coincides tolerance => simp only [holds, decide_eq_true_eq, Span.le_millis]

/-- One millisecond meets a lower bound of one and a half, three do not meet an upper bound below three,
    and two do. Moments that are further apart than a clock can show are within a bound that is as far. -/
theorem holds_iff_capped_apart :
    (before ⟨1500000⟩ ⟨2700000⟩).holds (-3) (-2) = true ∧
    (after (.ofMillis 1) ⟨2999999⟩).holds 3 0 = false ∧
    (coincides ⟨2999999⟩).holds 5 7 = true ∧
    (before (.ofMillis 9223372036854775808) (.ofMillis 9223372036854775807)).holds
      Moment.first Moment.last = true := by
  refine ⟨(holds_iff_capped _ _ _).2 ?_, Bool.eq_false_iff.2 fun h => ?_,
    (holds_iff_capped _ _ _).2 ?_, (holds_iff_capped _ _ _).2 ?_⟩
  · decide
  · exact absurd ((holds_iff_capped _ _ _).1 h) (by decide)
  · decide
  · decide

end TemporalRelation

end RuleNet
