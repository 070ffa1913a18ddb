import BitchKernel.Def
import BitchKernel.Lib.Bitmap
import BitchKernel.Lib.Loop
import Mathlib.Data.Finset.Image
import Mathlib.Order.Interval.Finset.Nat

/-!
# The physical page allocator

The functions of `kernel/mm/pmm.c`: a bitmap with one bit for a physical page, a
free count, and two cursors. `pmm_alloc_page` walks down from `pmm_tail_pos`,
`pmm_up_alloc_page` walks up from `pmm_head_pos`, and `pmm_free_page` moves
either cursor back over what it frees.

A walk of `pmm_up_alloc_page` stops at the first index behind the bitmap, where
`get_bit_mask` answers `-1`, so the page indices of that walk are plain numbers.
-/

namespace BitchKernel

open Lib

/-- The static variables of `pmm.c`. -/
structure Pmm where
  pmmBitmap : Bitmap
  pmmBitmapLength : ℕ
  pmmFreePageCount : ℕ
  pmmHeadPos : ℕ
  pmmTailPos : ℕ

namespace Pmm

def setBitMask (s : Pmm) (index mask : ℕ) : ℤ × Pmm :=
  if index < s.pmmBitmapLength * 8 then
    if mask = 0 then
      (0, { s with pmmBitmap := s.pmmBitmap.clear index })
    else
      (0, { s with pmmBitmap := s.pmmBitmap.mark index })
  else
    (-1, s)

def getBitMask (s : Pmm) (index : ℕ) : ℤ :=
  if index < s.pmmBitmapLength * 8 then
    ((s.pmmBitmap (index / 8) >>> (index % 8)) &&& 0x1#8).toNat
  else
    -1

/-- `for (i = 0; i < count; i++) set_bit_mask(page i, mask)`. -/
def setBitMasks (page : ℕ → ℕ) (mask : ℕ) : ℕ → Pmm → Pmm
  | 0, s => s
  | count + 1, s => ((setBitMasks page mask count s).setBitMask (page count) mask).2

def getPmmFreeCount (s : Pmm) : ℕ := s.pmmFreePageCount

/-- The loop of `pmm_alloc_page`, recursing on `pmm_tail_pos`. -/
def pmmAllocPageLoop (s : Pmm) : ℕ → ℕ × Pmm
  | 0 => (0, { s with pmmTailPos := 0 })
  | tail + 1 =>
      if s.pmmHeadPos < tail + 1 then
        if s.getBitMask (tail + 1) = 0 then
          (mul32 (tail + 1) pageSize,
            { (s.setBitMask (tail + 1) 1).2 with
              pmmTailPos := tail
              pmmFreePageCount := sub32 s.pmmFreePageCount 1 })
        else
          s.pmmAllocPageLoop tail
      else
        (0, { s with pmmTailPos := tail + 1 })

def pmmAllocPage (s : Pmm) : ℕ × Pmm := s.pmmAllocPageLoop s.pmmTailPos

/-- The loop of `pmm_up_alloc_page` from the page `p` on. Every round advances
`p`, so `fuel` is the distance to `pmm_tail_pos`. -/
def pmmUpAllocPageLoop (s : Pmm) (count : ℕ) : ℕ → ℕ → ℕ × Pmm
  | 0, _ => (0, s)
  | fuel + 1, p =>
      if p < s.pmmTailPos then
        let i := scanUntil (fun i => decide (s.getBitMask (p + i) ≠ 0)) count 0
        if i = count then
          (mul32 p pageSize,
            { setBitMasks (fun i => p + i) 1 count s with
              pmmHeadPos := if p = s.pmmHeadPos then s.pmmHeadPos + i else s.pmmHeadPos
              pmmFreePageCount := sub32 s.pmmFreePageCount count })
        else
          s.pmmUpAllocPageLoop count fuel (p + i + 1)
      else
        (0, s)

def pmmUpAllocPage (s : Pmm) (count : ℕ) : ℕ × Pmm :=
  s.pmmUpAllocPageLoop count (s.pmmTailPos - s.pmmHeadPos) s.pmmHeadPos

def pmmFreePage (s : Pmm) (attr count : ℕ) : Pmm :=
  let index := attr / pageSize
  let last := sub32 (add32 index count) 1
  { setBitMasks (fun i => add32 index i) 0 count s with
    pmmHeadPos := if index < s.pmmHeadPos then index else s.pmmHeadPos
    pmmTailPos := if s.pmmTailPos < last then last else s.pmmTailPos
    pmmFreePageCount := add32 s.pmmFreePageCount count }

end Pmm

/-- What the boot loader hands over: the first byte behind the kernel image and
the size of the memory. The image starts at `HIGH_ATTR` and is loaded into the
memory; the bitmap placed behind it ends below `2 ^ 32`. -/
structure Boot where
  memBaseAddr : ℕ
  memLength : ℕ
  highAttr_le : highAttr ≤ memBaseAddr
  memBaseAddr_le : memBaseAddr ≤ memLength
  memLength_lt : memLength < 2 ^ 32
  bitmap_lt : memBaseAddr + (memLength / pageSize + 7) / 8 + pageSize ≤ 2 ^ 32

namespace Boot

/-- `mem_page_count`, set by `mmap_init`. -/
def memPageCount (b : Boot) : ℕ := b.memLength / pageSize

def pmmBitmapLength (b : Boot) : ℕ := (b.memPageCount + 7) / 8

def memBasePage (b : Boot) : ℕ :=
  (b.memBaseAddr + b.pmmBitmapLength + pageSize - 1) / pageSize

end Boot

namespace Pmm

/-- The body of the loop of `pmm_init`. -/
def pmmInitStep (memBasePage memPageCount i : ℕ) (s : Pmm) : Pmm :=
  if i < memBasePage ∨ memPageCount ≤ i then
    (s.setBitMask i 1).2
  else
    { (s.setBitMask i 0).2 with pmmFreePageCount := add32 s.pmmFreePageCount 1 }

def pmmInitLoop (memBasePage memPageCount : ℕ) : ℕ → Pmm → Pmm
  | 0, s => s
  | i + 1, s => pmmInitStep memBasePage memPageCount i (pmmInitLoop memBasePage memPageCount i s)

/-- The variables before the loop of `pmm_init`; `memory` is what the memory
holds where the bitmap is placed. -/
def pmmInitStart (b : Boot) (memory : Bitmap) : Pmm where
  pmmBitmap := memory
  pmmBitmapLength := b.pmmBitmapLength
  pmmFreePageCount := 0
  pmmHeadPos := 0
  pmmTailPos := 0

def pmmInit (b : Boot) (memory : Bitmap) : Pmm :=
  { pmmInitLoop b.memBasePage b.memPageCount (b.pmmBitmapLength * 8) (pmmInitStart b memory) with
    pmmHeadPos := b.memBasePage
    pmmTailPos := sub32 b.memPageCount 1 }

end Pmm

end BitchKernel
