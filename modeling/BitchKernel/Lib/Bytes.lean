import BitchKernel.Lib.Word
import Mathlib.Logic.Function.Basic

/-!
# Bytes in a buffer

A buffer gives the byte at every position. `le` reads a number of `n` bytes with
the low byte first, `leOf` is the number a list of bytes denotes, and `store`
puts a list of bytes at a position, where positions are counted modulo `2 ^ w`. `storeLe`
puts a number of `n` bytes at a position.
-/

namespace Lib

abbrev Bytes := ℕ → BitVec 8

namespace Bytes

/-- The number in the `n` bytes from position `k` on. -/
def le (buf : Bytes) (k : ℕ) : ℕ → ℕ
  | 0 => 0
  | n + 1 => (buf k).toNat + 256 * le buf (k + 1) n

theorem le_congr {buf buf' : Bytes} {k n : ℕ} (h : ∀ i < n, buf (k + i) = buf' (k + i)) :
    le buf k n = le buf' k n := by
  induction n generalizing k with
  | zero => rfl
  | succ n ih =>
      have hfirst := h 0 (Nat.zero_lt_succ n)
      rw [Nat.add_zero] at hfirst
      rw [le, le, hfirst, ih fun i hi => ?_]
      rw [Nat.add_assoc, Nat.add_comm 1 i]
      exact h (i + 1) (Nat.succ_lt_succ hi)

theorem le_lt (buf : Bytes) (k n : ℕ) : le buf k n < 256 ^ n := by
  induction n generalizing k with
  | zero => exact Nat.one_pos
  | succ n ih =>
      have hlow := (buf k).isLt
      have hhigh := ih (k + 1)
      rw [le, Nat.pow_succ]
      omega

/-- The number a list of bytes denotes, with the low byte first. -/
def leOf : List (BitVec 8) → ℕ
  | [] => 0
  | b :: l => b.toNat + 256 * leOf l

/-- The buffer after the bytes were stored from position `pos` on. -/
def store (w : ℕ) (buf : Bytes) (pos : ℕ) (bytes : List (BitVec 8)) : Bytes := fun k =>
  if Word.sub w k pos < bytes.length then bytes.getD (Word.sub w k pos) 0 else buf k

theorem store_apply {w : ℕ} (buf : Bytes) {pos : ℕ} {bytes : List (BitVec 8)}
    (hpos : pos + bytes.length ≤ 2 ^ w) {k : ℕ} (hk : k < 2 ^ w) :
    store w buf pos bytes k =
      if pos ≤ k ∧ k < pos + bytes.length then bytes.getD (k - pos) 0 else buf k := by
  unfold store
  by_cases hle : pos ≤ k
  · rw [Word.sub_of_le hle hk]
    by_cases hlt : k < pos + bytes.length
    · rw [if_pos (by omega), if_pos ⟨hle, hlt⟩]
    · rw [if_neg (by omega), if_neg (fun h => hlt h.2)]
  · rw [Word.sub_of_lt (by omega) (by omega), if_neg (by omega), if_neg (fun h => hle h.1)]

/-- The buffer after the number `x` was stored in the `n` bytes from position `k` on. -/
def storeLe (buf : Bytes) (k n x : ℕ) : Bytes := fun i =>
  if k ≤ i ∧ i < k + n then BitVec.ofNat 8 (x / 256 ^ (i - k)) else buf i

theorem storeLe_of_lt (buf : Bytes) {k n i : ℕ} (x : ℕ) (h : i < k) : storeLe buf k n x i = buf i :=
  if_neg (by omega)

theorem le_eq_of_bytes {buf : Bytes} {k n x : ℕ} (hx : x < 256 ^ n)
    (h : ∀ i < n, buf (k + i) = BitVec.ofNat 8 (x / 256 ^ i)) : le buf k n = x := by
  induction n generalizing k x with
  | zero =>
      rw [Nat.pow_zero] at hx
      exact (Nat.lt_one_iff.1 hx).symm
  | succ n ih =>
      have hfirst := h 0 (Nat.zero_lt_succ n)
      rw [Nat.add_zero, Nat.pow_zero, Nat.div_one] at hfirst
      have hrest : le buf (k + 1) n = x / 256 := by
        refine ih (Nat.div_lt_of_lt_mul ?_) fun i hi => ?_
        · rw [Nat.mul_comm, ← Nat.pow_succ]
          exact hx
        · rw [Nat.div_div_eq_div_mul, ← Nat.pow_succ', Nat.add_assoc, Nat.add_comm 1 i]
          exact h (i + 1) (Nat.succ_lt_succ hi)
      rw [le, hrest, hfirst, BitVec.toNat_ofNat]
      omega

theorem le_storeLe (buf : Bytes) (k : ℕ) {n x : ℕ} (hx : x < 256 ^ n) :
    le (storeLe buf k n x) k n = x := by
  refine le_eq_of_bytes hx fun i hi => ?_
  rw [storeLe, if_pos ⟨by omega, by omega⟩, Nat.add_sub_cancel_left]

/-- What a buffer holds after a store behind a test. -/
theorem update_if_apply (c : Prop) [Decidable c] (buf : Bytes) (j k : ℕ) (b : BitVec 8) :
    (if c then Function.update buf j b else buf) k = if c ∧ k = j then b else buf k := by
  by_cases hc : c
  · rw [if_pos hc, Function.update_apply]
    simp only [hc, true_and]
  · rw [if_neg hc, if_neg (fun h => hc h.1)]

end Bytes

end Lib
