/-
  The IEEE 754 double, held as its 64 bits and computed with in whole numbers.

  * `Binary64.ordinal`: the place of a number on the line of all doubles; numeric comparison
    is comparison of ordinals, and the two zeros share one place.
  * `Binary64.scaled`: a finite double is `scaled / 2^1074`.
  * `Binary64.round`: the double nearest a fraction, a tie going to the even significand.
  * `add`, `div`, `ofInt`: each is its exact result rounded once.
  * `Binary64.totalCompare`: the order of all bit patterns, by sign and magnitude.
-/
import RuleNet.Number.Power

namespace RuleNet

/-- A double, given by its bits. -/
structure Binary64 where
  bits : UInt64
  deriving DecidableEq, Inhabited, Hashable

namespace Binary64

/-! ## Fields -/

/-- The magnitude bits of infinity; larger magnitudes are not numbers. -/
def infinityMagnitude : Nat := 2047 * twoTo 52

/-- Whether the sign bit is set. -/
def isNegative (x : Binary64) : Bool := twoTo 63 ≤ x.bits.toNat

/-- The bits below the sign: the rank of the absolute value among all doubles. -/
def magnitude (x : Binary64) : Nat := x.bits.toNat % twoTo 63

def isNaN (x : Binary64) : Bool := infinityMagnitude < x.magnitude

def isFinite (x : Binary64) : Bool := x.magnitude < infinityMagnitude

/-- The double with the given sign and magnitude bits. -/
def make (negative : Bool) (magnitude : Nat) : Binary64 :=
  ⟨UInt64.ofNat ((if negative then twoTo 63 else 0) + magnitude)⟩

def zero : Binary64 := make false 0

/-- The quiet not-a-number with a clear sign. -/
def nan : Binary64 := make false (infinityMagnitude + twoTo 51)

/-- What an operation without a value gives (`∞ - ∞`, `0 / 0`): the quiet not-a-number with
    the sign set. -/
def invalid : Binary64 := make true (infinityMagnitude + twoTo 51)

/-- The same bits, or the clear-signed quiet pattern for anything that is not a number. -/
def canonical (x : Binary64) : Binary64 := if x.isNaN then nan else x

/-- The opposite sign; what is not a number stays as it is. -/
def neg (x : Binary64) : Binary64 := if x.isNaN then x else make (!x.isNegative) x.magnitude

/-! ## Comparison -/

/-- The place of a number on the line of doubles: `0` for both zeros. -/
def ordinal (x : Binary64) : Int := if x.isNegative then -(x.magnitude : Int) else x.magnitude

/-- Numeric comparison, undefined when either side is not a number. -/
def partialCompare (x y : Binary64) : Option Ordering :=
  if x.isNaN || y.isNaN then none else some (compare x.ordinal y.ordinal)

/-- Numeric equality: the zeros are equal, and what is not a number equals nothing. -/
def equal (x y : Binary64) : Bool := x.partialCompare y == some .eq

/-- The place of a bit pattern in the total order: negative patterns come first, and the
    negative zero just before the positive one. -/
def totalOrdinal (x : Binary64) : Int :=
  if x.isNegative then -(x.magnitude : Int) - 1 else x.magnitude

/-- The order of all bit patterns. -/
def totalCompare (x y : Binary64) : Ordering := compare x.totalOrdinal y.totalOrdinal

/-! ## Values -/

/-- `2^1074` times the absolute value that the magnitude bits `m` stand for. -/
def scaledMagnitude (m : Nat) : Nat :=
  if m < twoTo 52 then m else (twoTo 52 + m % twoTo 52) * twoTo (m / twoTo 52 - 1)

/-- `2^1074` times the value of a finite double. -/
def scaled (x : Binary64) : Int :=
  if x.isNegative then -(scaledMagnitude x.magnitude : Int) else scaledMagnitude x.magnitude

/-- The natural number nearest `num / den`, a tie going to the even one. -/
def roundQuotient (num den : Nat) : Nat :=
  let q := num / den
  let r := num % den
  if 2 * r < den then q
  else if den < 2 * r then q + 1
  else if q % 2 = 0 then q else q + 1

/-- The magnitude bits of the double nearest `num / (den * 2^1074)`: with `p` chosen so that the
    quotient by `2^p` has 53 bits, `p` steps of the exponent field and the rounded quotient add
    up, and a carry moves into the exponent by itself. -/
def roundMagnitude (num den : Nat) : Nat :=
  let p := Nat.log2 (num / den) - 52
  min infinityMagnitude (p * twoTo 52 + roundQuotient num (den * twoTo p))

/-- The double nearest `± num / (den * 2^1074)`. -/
def round (negative : Bool) (num den : Nat) : Binary64 := make negative (roundMagnitude num den)

/-- The double nearest an integer. -/
def ofInt (i : Int) : Binary64 := round (i < 0) (i.natAbs * twoTo 1074) 1

def ofNat (n : Nat) : Binary64 := ofInt n

/-- The double nearest `± digits * 10^exponent`. Numbers far outside the range of doubles are
    settled by their length, before any power is computed. -/
def ofDecimal (negative : Bool) (digits : Nat) (exponent : Int) : Binary64 :=
  let length : Int := (Nat.toDigits 10 digits).length
  if digits = 0 ∨ length + exponent < -330 then make negative 0
  else if 310 < length + exponent then make negative infinityMagnitude
  else if 0 ≤ exponent then round negative (digits * tenTo exponent.toNat * twoTo 1074) 1
  else round negative (digits * twoTo 1074) (tenTo exponent.natAbs)

/-- Whether a finite double has no fractional part. -/
def isIntegral (x : Binary64) : Bool := x.isFinite && x.scaled % twoTo 1074 == 0

/-- The value of a finite double with its fraction dropped. -/
def truncate (x : Binary64) : Int := x.scaled.tdiv (twoTo 1074)

/-! ## Arithmetic -/

/-- The rounded sum. An operand that is not a number is passed on, the left one first; opposite
    infinities have no sum; a sum of nothing but negative zeros is the negative zero. -/
def add (x y : Binary64) : Binary64 :=
  if x.isNaN then x
  else if y.isNaN then y
  else if !x.isFinite then
    if !y.isFinite && x.isNegative != y.isNegative then invalid else x
  else if !y.isFinite then y
  else
    let total := x.scaled + y.scaled
    if total = 0 then make (x.isNegative && y.isNegative) 0
    else round (total < 0) total.natAbs 1

/-- The rounded quotient. Division by zero gives an infinity, except for `0 / 0`. -/
def div (x y : Binary64) : Binary64 :=
  let negative := x.isNegative != y.isNegative
  if x.isNaN then x
  else if y.isNaN then y
  else if !x.isFinite then
    if !y.isFinite then invalid else make negative infinityMagnitude
  else if !y.isFinite then make negative 0
  else if y.scaled = 0 then
    if x.scaled = 0 then invalid else make negative infinityMagnitude
  else round negative (x.scaled.natAbs * twoTo 1074) y.scaled.natAbs

end Binary64

end RuleNet
