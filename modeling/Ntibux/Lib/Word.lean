/-
Machine words as naturals: the operations that can leave the word size
wrap, and every other operation is the natural one.
-/
import Mathlib.Algebra.Group.Int.Defs
import Mathlib.Algebra.Group.Nat.Defs
import Mathlib.Tactic.Basic

namespace Ntibux

/-- Reduction to `u32`. -/
def u32 (n : Nat) : Nat := n % 2 ^ 32

/-- Reduction to `u64`. -/
def u64 (n : Nat) : Nat := n % 2 ^ 64

/-- `1U << n`: the shift count is taken modulo 32. -/
def shl1 (n : Nat) : Nat := 2 ^ (n % 32)

/-- `~n` on `u32`. -/
def not32 (n : Nat) : Nat := 2 ^ 32 - (n + 1)

/-- An `unsigned int` taken as an `int`. -/
def int32 (n : Nat) : Int := if n < 2 ^ 31 then n else (n : Int) - 2 ^ 32

theorem u32_lt (n : Nat) : u32 n < 2 ^ 32 := Nat.mod_lt _ (by decide)

theorem u32_of_lt {n : Nat} (h : n < 2 ^ 32) : u32 n = n :=
  Nat.mod_eq_of_lt h

theorem shl1_of_lt {n : Nat} (h : n < 32) : shl1 n = 2 ^ n := by
  unfold shl1
  rw [Nat.mod_eq_of_lt h]

theorem int32_bounds {n : Nat} (h : n < 2 ^ 32) :
    -2 ^ 31 ≤ int32 n ∧ int32 n < 2 ^ 31 := by
  unfold int32
  split <;> omega

end Ntibux
