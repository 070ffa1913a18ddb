import BitchKernel.Lib.Word
import Mathlib.Algebra.Group.Int.Defs

/-!
# Constants and page arithmetic

The numbers of `kernel/def.h`, the page-entry macros of `arch/x86/page.h` and the
32-bit operators of `_size_t`. An address, a `_size_t` and a page-table entry are
natural numbers below `2 ^ 32`; `NULL` is the address zero.
-/

namespace BitchKernel

abbrev highAttr : ℕ := 0x100000

abbrev pagePteIndex : ℕ := 0x400

abbrev pageSize : ℕ := 0x1000

abbrev kernelStackSize : ℕ := 0x2000

abbrev pageOffset : ℕ := 0xc0000000

abbrev globlPageNum : ℕ := 0x30000

abbrev dmmapPageMax : ℕ := 0x20000

abbrev add32 (a b : ℕ) : ℕ := Lib.Word.add 32 a b

abbrev sub32 (a b : ℕ) : ℕ := Lib.Word.sub 32 a b

abbrev mul32 (a b : ℕ) : ℕ := Lib.Word.mul 32 a b

abbrev add64 (a b : ℕ) : ℕ := Lib.Word.add 64 a b

abbrev sub64 (a b : ℕ) : ℕ := Lib.Word.sub 64 a b

abbrev mul64 (a b : ℕ) : ℕ := Lib.Word.mul 64 a b

theorem add32_of_lt {a b : ℕ} (h : a + b < 2 ^ 32) : add32 a b = a + b :=
  Lib.Word.add_of_lt h

theorem sub32_of_le {a b : ℕ} (h : b ≤ a) (ha : a < 2 ^ 32) : sub32 a b = a - b :=
  Lib.Word.sub_of_le h ha

theorem sub32_add32_of_lt {a b c : ℕ} (hc : c ≤ a + b) (hc32 : c ≤ 2 ^ 32)
    (h : a + b - c < 2 ^ 32) : sub32 (add32 a b) c = a + b - c :=
  Lib.Word.sub_add_of_lt hc hc32 h

theorem add32_sub32_of_lt {a b c : ℕ} (hb : b ≤ a + c) (hb32 : b ≤ 2 ^ 32)
    (h : a + c - b < 2 ^ 32) : add32 (sub32 a b) c = a + c - b :=
  Lib.Word.add_sub_of_lt hb hb32 h

theorem mul32_of_lt {a b : ℕ} (h : a * b < 2 ^ 32) : mul32 a b = a * b :=
  Lib.Word.mul_of_lt h

theorem add32_eq (a b : ℕ) : add32 a b = (a + b) % 2 ^ 32 :=
  Lib.Word.add_eq 32 a b

theorem add64_eq (a b : ℕ) : add64 a b = (a + b) % 2 ^ 64 :=
  Lib.Word.add_eq 64 a b

theorem mul32_eq (a b : ℕ) : mul32 a b = a * b % 2 ^ 32 :=
  Lib.Word.mul_eq 32 a b

theorem add32_lt (a b : ℕ) : add32 a b < 2 ^ 32 := Lib.Word.add_lt 32 a b

theorem add32_sub32_cancel {a b : ℕ} (ha : a < 2 ^ 32) (hb : b ≤ 2 ^ 32) :
    add32 (sub32 a b) b = a := by
  rw [add32_sub32_of_lt (by omega) hb (by omega)]
  omega

theorem sub32_ne {a b : ℕ} (hb : 1 ≤ b) (hb32 : b < 2 ^ 32) : sub32 a b ≠ a := by
  unfold sub32 Lib.Word.sub
  omega

theorem sub32_eq_of_le {a b : ℕ} (h : b ≤ a) (hb : b ≤ 2 ^ 32) : sub32 a b = (a - b) % 2 ^ 32 :=
  Lib.Word.sub_eq_of_le h hb

theorem mul64_eq (a b : ℕ) : mul64 a b = a * b % 2 ^ 64 :=
  Lib.Word.mul_eq 64 a b

theorem sub64_of_le {a b : ℕ} (h : b ≤ a) (ha : a < 2 ^ 64) : sub64 a b = a - b :=
  Lib.Word.sub_of_le h ha

theorem sub64_of_lt {a b : ℕ} (h : a < b) (hb : b ≤ 2 ^ 64) : sub64 a b = a + 2 ^ 64 - b :=
  Lib.Word.sub_of_lt h hb

/-- The value of a 32-bit word as a `_ssize_t`. -/
def toSigned (n : ℕ) : ℤ := if n < 2 ^ 31 then n else n - 2 ^ 32

theorem toSigned_of_lt {n : ℕ} (h : n < 2 ^ 31) : toSigned n = n := if_pos h

theorem lt_of_toSigned {n : ℕ} (h : toSigned n = n) : n < 2 ^ 31 := by
  by_contra hge
  unfold toSigned at h
  rw [if_neg hge] at h
  omega

/-- `attr & ~(PAGE_SIZE - 1)`. -/
def pageBase (attr : ℕ) : ℕ := attr / pageSize * pageSize

/-- `set_page`: the frame address of `base` with the flag bits of `attr`. -/
def setPage (base attr : ℕ) : ℕ := base / pageSize * pageSize + attr % pageSize

/-- `get_page_attr`: the frame address an entry holds. -/
def getPageAttr (pte : ℕ) : ℕ := pte / pageSize * pageSize

def pdeIndex (attr : ℕ) : ℕ := attr / 0x400000

def pteIndex (attr : ℕ) : ℕ := attr / pageSize % pagePteIndex

/-- `PAGE_PRESENT|PAGE_WRITE`. -/
abbrev pageKernel : ℕ := 0x3

/-- `PAGE_PRESENT|PAGE_WRITE|PAGE_USER`. -/
abbrev pageUser : ℕ := 0x7

@[simp] theorem getPageAttr_zero : getPageAttr 0 = 0 := rfl

@[simp] theorem getPageAttr_setPage (base attr : ℕ) :
    getPageAttr (setPage base attr) = pageBase base := by
  unfold getPageAttr setPage pageBase
  lia

@[simp] theorem pageBase_mul (n : ℕ) : pageBase (n * pageSize) = n * pageSize := by
  unfold pageBase
  lia

end BitchKernel
