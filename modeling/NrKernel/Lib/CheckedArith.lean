import Mathlib.Algebra.Group.Nat.Defs

/-!
# Checked machine arithmetic

Arithmetic on unsigned machine integers of a given width, with `none` where a checked
program stops: overflow, underflow and division by zero.
-/

namespace Lib.Checked

/-- Addition that must not overflow. -/
def add (bits a b : Nat) : Option Nat := if a + b < 2 ^ bits then some (a + b) else none

/-- Subtraction that must not underflow. -/
def sub (a b : Nat) : Option Nat := if b ≤ a then some (a - b) else none

/-- Multiplication that must not overflow. -/
def mul (bits a b : Nat) : Option Nat := if a * b < 2 ^ bits then some (a * b) else none

/-- Division by a number that must not be zero. -/
def div (a b : Nat) : Option Nat := if b = 0 then none else some (a / b)

/-- A sum that fits is the result. -/
theorem add_eq {bits a b : Nat} (h : a + b < 2 ^ bits) : add bits a b = some (a + b) := if_pos h

/-- Subtracting no more than there is leaves the difference. -/
theorem sub_eq {a b : Nat} (h : b ≤ a) : sub a b = some (a - b) := if_pos h

/-- A product that fits is the result. -/
theorem mul_eq {bits a b : Nat} (h : a * b < 2 ^ bits) : mul bits a b = some (a * b) := if_pos h

/-- Dividing by a positive number gives the quotient. -/
theorem div_eq {a b : Nat} (h : 0 < b) : div a b = some (a / b) := if_neg (Nat.ne_of_gt h)

end Lib.Checked
