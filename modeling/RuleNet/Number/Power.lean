/-
  Powers of two and of ten, and the range of integers of 64 bits.

  * `twoTo`, `tenTo`: the powers, by the exponent.
  * `Integer64.holds`, `Integer64.clamp`: whether an integer has 64 bits, and the nearest that has.
-/
namespace RuleNet

/-! ## Powers -/

/-- Two to a power. -/
def twoTo (n : Nat) : Nat := Nat.pow 2 n

/-- Ten to a power. -/
def tenTo (n : Nat) : Nat := Nat.pow 10 n

theorem twoTo_succ (n : Nat) : twoTo (n + 1) = twoTo n * 2 := rfl

theorem twoTo_pos (n : Nat) : 0 < twoTo n := Nat.pow_pos (by decide)

/-! ## Integers of 64 bits -/

namespace Integer64

def least : Int := -9223372036854775808

def greatest : Int := 9223372036854775807

/-- Whether an integer has 64 bits. -/
def holds (i : Int) : Bool := decide (least ≤ i) && decide (i ≤ greatest)

/-- The nearest integer that has 64 bits. -/
def clamp (i : Int) : Int := max least (min greatest i)

/-- The nearest integer of 64 bits. -/
def nearest (i : Int) : Int64 := Int64.ofInt (clamp i)

theorem holds_iff {i : Int} : holds i = true ↔ least ≤ i ∧ i ≤ greatest := by simp [holds]

theorem holds_clamp (i : Int) : holds (clamp i) = true := by
  simp only [holds_iff, clamp, least, greatest]
  omega

end Integer64

end RuleNet
