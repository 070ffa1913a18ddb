import Mathlib.Algebra.Group.Nat.Defs
import Mathlib.Data.Nat.Basic

/-!
# Fixed-width unsigned arithmetic on natural numbers

`Word.add w`, `Word.sub w` and `Word.mul w` are the operations of a `w`-bit
unsigned type, read on natural numbers below `2 ^ w`. The lemmas say when an
operation agrees with the unbounded one; a proof that has to look at a wrapped
result unfolds the definition and leaves the rest to linear arithmetic. The operations
are irreducible and keep the variable operand last, so that comparing two states
never computes with `2 ^ w`.
-/

namespace Lib

namespace Word

@[irreducible] def add (w a b : ℕ) : ℕ := (b + a) % 2 ^ w

@[irreducible] def sub (w a b : ℕ) : ℕ := (2 ^ w - b + a) % 2 ^ w

@[irreducible] def mul (w a b : ℕ) : ℕ := a * b % 2 ^ w

theorem add_lt (w a b : ℕ) : add w a b < 2 ^ w := by
  unfold add
  exact Nat.mod_lt _ (Nat.two_pow_pos w)

theorem sub_lt (w a b : ℕ) : sub w a b < 2 ^ w := by
  unfold sub
  exact Nat.mod_lt _ (Nat.two_pow_pos w)

theorem mul_lt (w a b : ℕ) : mul w a b < 2 ^ w := by
  unfold mul
  exact Nat.mod_lt _ (Nat.two_pow_pos w)

theorem add_eq (w a b : ℕ) : add w a b = (a + b) % 2 ^ w := by
  unfold add
  rw [Nat.add_comm]

theorem mul_eq (w a b : ℕ) : mul w a b = a * b % 2 ^ w := by
  unfold mul
  rfl

/-- The sum of two numbers is exact below the width. -/
theorem add_of_lt {w a b : ℕ} (h : a + b < 2 ^ w) : add w a b = a + b := by
  unfold add
  rw [Nat.add_comm b a, Nat.mod_eq_of_lt h]

theorem sub_eq_of_le {w a b : ℕ} (h : b ≤ a) (hb : b ≤ 2 ^ w) : sub w a b = (a - b) % 2 ^ w := by
  unfold sub
  have hsum : 2 ^ w - b + a = (a - b) + 2 ^ w := by omega
  rw [hsum, Nat.add_mod_right]

theorem sub_of_le {w a b : ℕ} (h : b ≤ a) (ha : a < 2 ^ w) : sub w a b = a - b := by
  rw [sub_eq_of_le h (by omega), Nat.mod_eq_of_lt (by omega)]

/-- A negative difference comes back from the top of the range. -/
theorem sub_of_lt {w a b : ℕ} (h : a < b) (hb : b ≤ 2 ^ w) :
    sub w a b = a + 2 ^ w - b := by
  unfold sub
  rw [Nat.mod_eq_of_lt (by omega)]
  omega

/-- A sum that wraps is right again once enough is taken away. -/
theorem sub_add_of_lt {w a b c : ℕ} (hc : c ≤ a + b) (hcw : c ≤ 2 ^ w)
    (h : a + b - c < 2 ^ w) : sub w (add w a b) c = a + b - c := by
  unfold sub add
  rw [Nat.add_mod_mod]
  have hsum : 2 ^ w - c + (b + a) = (a + b - c) + 2 ^ w := by omega
  rw [hsum, Nat.add_mod_right, Nat.mod_eq_of_lt h]

/-- A difference that wraps is right again once enough is added. -/
theorem add_sub_of_lt {w a b c : ℕ} (hb : b ≤ a + c) (hbw : b ≤ 2 ^ w)
    (h : a + c - b < 2 ^ w) : add w (sub w a b) c = a + c - b := by
  unfold add sub
  rw [Nat.add_mod_mod]
  have hsum : c + (2 ^ w - b + a) = (a + c - b) + 2 ^ w := by omega
  rw [hsum, Nat.add_mod_right, Nat.mod_eq_of_lt h]

theorem mul_of_lt {w a b : ℕ} (h : a * b < 2 ^ w) : mul w a b = a * b := by
  unfold mul
  exact Nat.mod_eq_of_lt h

end Word

end Lib
