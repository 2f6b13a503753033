import Lfsx.Bytes

/-!
# Arithmetic that panics

Operations on a `u64` give `none` where the code would panic: an addition or a multiplication
that overflows, a subtraction below zero, a division by zero.
-/

namespace Lfsx.Storage.Checked

/-- `a + b` on a `u64`. -/
def add (a b : Nat) : Option Nat := if a + b ≤ maxU64 then some (a + b) else none

/-- `a - b`. -/
def sub (a b : Nat) : Option Nat := if b ≤ a then some (a - b) else none

/-- `a / b`. -/
def div (a b : Nat) : Option Nat := if b = 0 then none else some (a / b)

/-- `a % b`. -/
def rem (a b : Nat) : Option Nat := if b = 0 then none else some (a % b)

/-- `a * b`. -/
def mul (a b : Nat) : Option Nat := if a * b ≤ maxU64 then some (a * b) else none

/-- `a.div_ceil(b)`. -/
def ceilDiv (a b : Nat) : Option Nat := if b = 0 then none else some (divCeil a b)

theorem add_eq {a b : Nat} (h : a + b ≤ maxU64) : add a b = some (a + b) := if_pos h

theorem sub_eq {a b : Nat} (h : b ≤ a) : sub a b = some (a - b) := if_pos h

theorem div_eq {a b : Nat} (h : b ≠ 0) : div a b = some (a / b) := if_neg h

theorem rem_eq {a b : Nat} (h : b ≠ 0) : rem a b = some (a % b) := if_neg h

theorem mul_eq {a b : Nat} (h : a * b ≤ maxU64) : mul a b = some (a * b) := if_pos h

theorem ceilDiv_eq {a b : Nat} (h : b ≠ 0) : ceilDiv a b = some (divCeil a b) := if_neg h

end Lfsx.Storage.Checked
