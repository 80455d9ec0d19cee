import Mathlib.Data.Int.Notation
import Mathlib.Tactic.Linarith

/-!
# Machine integers that fault

A sum, a difference or a product held in a C integer type, `none` when its value
does not fit the type. A computation that comes out as `some` has left no type.
-/

namespace WebAdf.Lib

def u32 (n : Nat) : Option Nat := if n < 2 ^ 32 then some n else none

def i32 (z : Int) : Option Int := if -2 ^ 31 ≤ z ∧ z < 2 ^ 31 then some z else none

def i64 (z : Int) : Option Int := if -2 ^ 63 ≤ z ∧ z < 2 ^ 63 then some z else none

/-- An unsigned difference. -/
def minus (a b : Nat) : Option Nat := if b ≤ a then some (a - b) else none

/-- A signed value converted to an unsigned type. -/
def toUnsigned (z : Int) : Option Nat := if 0 ≤ z then some z.toNat else none

/-- The next value of a counter that may go round. -/
def bump (n : Nat) : Nat := (n + 1) % 2 ^ 32

theorem u32_ok {n : Nat} (h : n < 2 ^ 32) : u32 n = some n := if_pos h

theorem i32_ok {z : Int} (h : -2 ^ 31 ≤ z ∧ z < 2 ^ 31) : i32 z = some z := if_pos h

theorem i64_ok {z : Int} (h : -2 ^ 63 ≤ z ∧ z < 2 ^ 63) : i64 z = some z := if_pos h

theorem minus_ok {a b : Nat} (h : b ≤ a) : minus a b = some (a - b) := if_pos h

theorem toUnsigned_ok {z : Int} (h : 0 ≤ z) : toUnsigned z = some z.toNat := if_pos h

theorem bump_le (n : Nat) : bump n ≤ n + 1 := Nat.mod_le _ _

theorem bump_lt (n : Nat) : bump n < 2 ^ 32 := Nat.mod_lt _ (by decide)

theorem bump_of_lt {n : Nat} (h : n + 1 < 2 ^ 32) : bump n = n + 1 := Nat.mod_eq_of_lt h

end WebAdf.Lib
