import Mathlib.Data.Nat.Basic

/-!
# Counting loops that stop early

`scanUntil stop rem i` is the counter after the loop
`for (; i < i₀ + rem; i++) if (stop i) break;` started at `i = i₀`. The lemmas
describe the counter by what was seen on the way: nothing before it stops the
loop, and it stops the loop unless the range is exhausted.
-/

namespace Lib

/-- The loop counter after scanning up to `rem` indices from `i` on, leaving at
the first one that stops. -/
def scanUntil (stop : ℕ → Bool) : ℕ → ℕ → ℕ
  | 0, i => i
  | rem + 1, i => if stop i then i else scanUntil stop rem (i + 1)

@[simp] theorem scanUntil_zero (stop : ℕ → Bool) (i : ℕ) : scanUntil stop 0 i = i := rfl

theorem scanUntil_succ (stop : ℕ → Bool) (rem i : ℕ) :
    scanUntil stop (rem + 1) i = if stop i then i else scanUntil stop rem (i + 1) := rfl

theorem le_scanUntil (stop : ℕ → Bool) (rem i : ℕ) : i ≤ scanUntil stop rem i := by
  induction rem generalizing i with
  | zero => exact le_rfl
  | succ rem ih =>
      rw [scanUntil_succ]
      split
      · exact le_rfl
      · have hle := ih (i + 1)
        omega

theorem scanUntil_le (stop : ℕ → Bool) (rem i : ℕ) : scanUntil stop rem i ≤ i + rem := by
  induction rem generalizing i with
  | zero => exact le_rfl
  | succ rem ih =>
      rw [scanUntil_succ]
      split
      · omega
      · have hle := ih (i + 1)
        omega

theorem not_stop_of_lt_scanUntil (stop : ℕ → Bool) {rem i j : ℕ} (hij : i ≤ j)
    (hj : j < scanUntil stop rem i) : stop j = false := by
  induction rem generalizing i with
  | zero => rw [scanUntil_zero] at hj; omega
  | succ rem ih =>
      rw [scanUntil_succ] at hj
      by_cases hstop : stop i = true
      · rw [if_pos hstop] at hj
        omega
      · rw [if_neg hstop] at hj
        rcases Nat.eq_or_lt_of_le hij with rfl | hlt
        · simpa using hstop
        · exact ih hlt hj

/-- A loop that ends inside its range ends at an index that stops it. -/
theorem stop_scanUntil (stop : ℕ → Bool) {rem i : ℕ} (h : scanUntil stop rem i ≠ i + rem) :
    stop (scanUntil stop rem i) = true := by
  induction rem generalizing i with
  | zero => exact absurd rfl h
  | succ rem ih =>
      rw [scanUntil_succ] at h ⊢
      by_cases hstop : stop i = true
      · rw [if_pos hstop]
        exact hstop
      · rw [if_neg hstop] at h ⊢
        have hnext : scanUntil stop rem (i + 1) ≠ i + 1 + rem := by omega
        exact ih hnext

/-- The loop runs through its range exactly when nothing in it stops. -/
theorem scanUntil_eq_iff (stop : ℕ → Bool) (rem i : ℕ) :
    scanUntil stop rem i = i + rem ↔ ∀ j, i ≤ j → j < i + rem → stop j = false := by
  constructor
  · intro h j hij hj
    exact not_stop_of_lt_scanUntil stop hij (h ▸ hj)
  · intro h
    by_contra hne
    have hstop := stop_scanUntil stop hne
    have hle := scanUntil_le stop rem i
    rw [h _ (le_scanUntil stop rem i) (by omega)] at hstop
    exact Bool.false_ne_true hstop

end Lib
