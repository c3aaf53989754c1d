/-
  The decimal text of a double: the fewest digits that read back.

  * `Binary64.shortestDigits`: the digits and the power of ten of the last one.
  * `Binary64.toText`: those digits around a decimal point, with zeros where there are none.
  * `Binary64.literal`: a text that always shows a double, never an integer.
-/
import RuleNet.Number.Binary64

namespace RuleNet.Binary64

/-! ## Digits -/

/-- The reals that round to a double, as fractions of `2^1075`: from `low` to `high`, the ends
    included iff the significand is even. -/
structure Interval where
  low : Nat
  value : Nat
  high : Nat
  closed : Bool
  deriving DecidableEq

/-- The interval around the positive finite double of magnitude `m`. -/
def Interval.around (m : Nat) : Interval where
  low := scaledMagnitude (m - 1) + scaledMagnitude m
  value := 2 * scaledMagnitude m
  high := scaledMagnitude m + scaledMagnitude (m + 1)
  closed := m % 2 = 0

/-- Whether `num / den`, as a fraction of `2^1075`, reads back as the double. -/
def Interval.contains (i : Interval) (num den : Nat) : Bool :=
  if i.closed then decide (i.low * den ≤ num) && decide (num ≤ i.high * den)
  else decide (i.low * den < num) && decide (num < i.high * den)

/-- The value's neighbours on the grid of multiples of `10^e` are `q` and `q + 1` steps; the
    nearer of those that read back, the upper one on a tie. -/
def Interval.onGrid? (i : Interval) (e : Int) : Option Nat :=
  let step := if 0 ≤ e then tenTo e.toNat * twoTo 1075 else twoTo 1075
  let den := if 0 ≤ e then 1 else tenTo (-e).toNat
  let q := i.value * den / step
  let below := i.contains (q * step) den
  let above := i.contains ((q + 1) * step) den
  if below && above then
    if 2 * (i.value * den - q * step) < step then some q else some (q + 1)
  else if below then some q
  else if above then some (q + 1)
  else none

/-- Search the grids from `10^e` down to finer ones. -/
def Interval.search (i : Interval) : Nat → Int → Option (Nat × Int)
  | 0, _ => none
  | n + 1, e => match i.onGrid? e with
    | some q => if q = 0 then i.search n (e - 1) else some (q, e)
    | none => i.search n (e - 1)

/-- The number of decimal digits of a natural number. -/
def digitCount (n : Nat) : Nat := (Nat.toDigits 10 n).length

/-- A power of ten above the value: no double needs a coarser grid. -/
def Interval.topExponent (i : Interval) : Int :=
  let whole := i.value / twoTo 1075
  if 0 < whole then digitCount whole
  else 1 - digitCount (twoTo 1075 / i.value)

/-- The shortest digits `d` and exponent `e` with `d * 10^e` reading back as the positive finite
    double of magnitude `m`; of several shortest ones the nearest. -/
def shortestDigits (m : Nat) : Nat × Int :=
  let i := Interval.around m
  (i.search 20 (i.topExponent + 1)).getD (0, 0)

/-! ## Text -/

/-- The decimal notation of `d * 10^e` without an exponent. -/
def positional (d : Nat) (e : Int) : String :=
  let digits := Nat.toDigits 10 d
  if 0 ≤ e then String.ofList (digits ++ List.replicate e.toNat '0')
  else
    let places := (-e).toNat
    let padded := List.replicate (places + 1 - digits.length) '0' ++ digits
    let whole := padded.length - places
    String.ofList (padded.take whole ++ '.' :: padded.drop whole)

/-- The notation of `d * 10^e` by its first digit, its other digits and an exponent. -/
def scientific (d : Nat) (e : Int) : String :=
  let digits := Nat.toDigits 10 d
  let point := if digits.length = 1 then "" else "."
  String.ofList (digits.take 1) ++ point ++ String.ofList (digits.drop 1) ++ "e" ++
    toString (e + digits.length - 1)

/-- The text of a double, its finite magnitudes written as `write` says: `NaN`, `inf`, or what is
    written; a set sign is shown also on zero. -/
def textBy (write : Nat → String) (x : Binary64) : String :=
  if x.isNaN then "NaN"
  else (if x.isNegative then "-" else "") ++ if x.isFinite then write x.magnitude else "inf"

/-- The text of a double by its shortest digits; an integral value has no point. -/
def toText : Binary64 → String := textBy fun m =>
  if m = 0 then "0" else
    let (d, e) := shortestDigits m
    positional d e

/-- The literal of a double by its shortest digits: an integral value has a point and a zero, and
    values from `10^16` on and below `10^-4` have an exponent. -/
def literal : Binary64 → String := textBy fun m =>
  if m = 0 then "0.0" else
    let (d, e) := shortestDigits m
    let leading := e + digitCount d - 1
    if leading < -4 ∨ 16 ≤ leading then scientific d e
    else if 0 ≤ e then positional d e ++ ".0"
    else positional d e

end RuleNet.Binary64
