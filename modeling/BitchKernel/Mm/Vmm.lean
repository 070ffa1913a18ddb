import BitchKernel.Lib.DownScan
import BitchKernel.Mm.Kmm

/-!
# The kernel window

The functions of `kernel/mm/vmm.c`. The pages below `dmmap_page_count` of the kernel
map the frames of the same index; the others are handed out downward from
`vmm_pos`. A function that scans for a free run takes the number of tests it may
make, and answers `none` when it is not done then.
-/

namespace BitchKernel

open Lib

namespace Kernel

def getGloblPageIndex (k : Kernel) (index : ℕ) : ℕ := add32 k.dmmapPageCount index

def getVmmPage (k : Kernel) (index : ℕ) : ℕ :=
  if index < k.vmmapPageCount then k.getGloblPageAttr (k.getGloblPageIndex index) else 0

def getVmmFreeCount (k : Kernel) : ℕ := k.vmmFreePageCount

/-- The test of a scan, the comparison `p - i < 0` of unsigned numbers left out. -/
def vmmBusy (k : Kernel) (index : ℕ) : Bool := decide (k.getVmmPage index ≠ 0)

/-- The outer loop of `vmm_alloc_page` and `vmm_mmap_pde_page`: the `p` with a free
run, or `some none` at its end. -/
def vmmScan (k : Kernel) (fuel count : ℕ) : Option (Option ℕ) :=
  DownScan.downScan 32 k.vmmBusy count fuel k.vmmPos

/-- The loop that gives the pages back when `pmm_alloc_page` fails. -/
def vmmAllocUndo (head : ℕ) : (i : ℕ) → Kernel → Kernel
  | 0, k => k
  | i + 1, k =>
      let k := k.globlPageRemove (k.getGloblPageIndex (add32 head (i + 1)))
      vmmAllocUndo head i { k with pmm := k.pmm.pmmFreePage (k.getVmmPage (add32 head (i + 1))) 1 }

/-- The loop that maps the pages of a run, from the `i`-th on; the answer is whether
it went through. -/
def vmmAllocLoop (head : ℕ) : (rem i : ℕ) → Kernel → Bool × Kernel
  | 0, _, k => (true, k)
  | rem + 1, i, k =>
      let (attr, pmm) := k.pmm.pmmAllocPage
      let k := { k with pmm := pmm }
      if attr ≠ 0 then
        vmmAllocLoop head rem (i + 1)
          (k.globlPageMmap (attr / pageSize) (k.getGloblPageIndex (add32 head i)))
      else (false, vmmAllocUndo head i k)

/-- What `vmm_alloc_page` and `vmm_mmap_pde_page` do once the run at `p` is mapped. -/
def vmmTake (k : Kernel) (p count : ℕ) : ℕ × Kernel :=
  let head := add32 (sub32 p count) 1
  (mul32 (k.getGloblPageIndex head) pageSize,
    { k with
      vmmPos := if p = k.vmmPos then sub32 k.vmmPos count else k.vmmPos
      vmmFreePageCount := sub32 k.vmmFreePageCount count })

def vmmAllocPage (k : Kernel) (fuel count : ℕ) : Option (ℕ × Kernel) :=
  (k.vmmScan fuel count).map fun found =>
    match found with
    | none => (0, k)
    | some p =>
        match vmmAllocLoop (add32 (sub32 p count) 1) count 0 k with
        | (true, k) => k.vmmTake p count
        | (false, k) => (0, k)

/-- The loop of `vmm_free_page` over the first `count` pages. -/
def vmmFreeLoop (index : ℕ) : (count : ℕ) → Kernel → Kernel
  | 0, k => k
  | count + 1, k =>
      let k := vmmFreeLoop index count k
      let k := { k with pmm := k.pmm.pmmFreePage (k.getVmmPage (add32 index count)) 1 }
      k.globlPageRemove (k.getGloblPageIndex (add32 index count))

/-- `if (index + count - 1 > vmm_pos) vmm_pos = index + count - 1;` -/
def raiseVmmPos (k : Kernel) (index count : ℕ) : Kernel :=
  let last := sub32 (add32 index count) 1
  if k.vmmPos < last then { k with vmmPos := last } else k

def vmmFreePage (k : Kernel) (attr count : ℕ) : Kernel :=
  let index := attr / pageSize
  if index < k.dmmapPageCount then { k with pmm := k.pmm.pmmFreePage attr count }
  else
    let index := index - k.dmmapPageCount
    let k :=
      if add32 index count ≤ k.vmmapPageCount then
        (vmmFreeLoop index count k).raiseVmmPos index count
      else k
    { k with vmmFreePageCount := add32 k.vmmFreePageCount count }

/-- The loop of `vmm_mmap_page`, recursing on `p`. -/
def vmmMmapLoop (k : Kernel) (phyAttr : ℕ) : (p : ℕ) → ℕ × Kernel
  | 0 => (0, k)
  | p + 1 =>
      if k.getVmmPage (p + 1) = 0 then
        let index := k.getGloblPageIndex (p + 1)
        (mul32 index pageSize,
          { k.globlPageMmap (phyAttr / pageSize) index with
            vmmFreePageCount := sub32 k.vmmFreePageCount 1
            vmmPos := p + 1 })
      else k.vmmMmapLoop phyAttr p

def vmmMmapPage (k : Kernel) (phyAttr : ℕ) : ℕ × Kernel :=
  if phyAttr / pageSize < k.dmmapPageCount then (phyAttr, k)
  else k.vmmMmapLoop phyAttr k.vmmPos

/-- The page a window of a directory shows at `attr`: the one mapped there, or a new
one that is mapped there first. -/
def pdePage (k : Kernel) (attr pde : ℕ) : ℕ × Kernel :=
  let phyAttr := getPageAttr (k.getUmmValue attr pde)
  if phyAttr = 0 then
    let (phyAttr, pmm) := k.pmm.pmmAllocPage
    let k := { k with pmm := pmm }
    if phyAttr ≠ 0 then
      (phyAttr, (k.setUmmValue attr (setPage (k.getGloblPhyAttr phyAttr) pageUser) pde).2)
    else (0, k)
  else (phyAttr, k)

/-- The loop of `vmm_mmap_pde_page` that takes the entries back. -/
def vmmMmapPdeUndo (head : ℕ) : (i : ℕ) → Kernel → Kernel
  | 0, k => k
  | i + 1, k =>
      vmmMmapPdeUndo head i (k.globlPageRemove (k.getGloblPageIndex (add32 head (i + 1))))

/-- The loop of `vmm_mmap_pde_page` that maps the pages of a run. -/
def vmmMmapPdeLoop (head attr pde : ℕ) : (rem i : ℕ) → Kernel → Bool × Kernel
  | 0, _, k => (true, k)
  | rem + 1, i, k =>
      let (phyAttr, k) := k.pdePage (add32 attr (mul32 i pageSize)) pde
      if phyAttr ≠ 0 then
        vmmMmapPdeLoop head attr pde rem (i + 1)
          (k.globlPageMmap (phyAttr / pageSize) (k.getGloblPageIndex (add32 head i)))
      else (false, vmmMmapPdeUndo head i k)

def vmmMmapPdePage (k : Kernel) (fuel attr count pde : ℕ) : Option (ℕ × Kernel) :=
  (k.vmmScan fuel count).map fun found =>
    match found with
    | none => (0, k)
    | some p =>
        match vmmMmapPdeLoop (add32 (sub32 p count) 1) attr pde count 0 k with
        | (true, k) => k.vmmTake p count
        | (false, k) => (0, k)

/-- The loop of `vmm_ummap_page` over the first `count` pages. -/
def vmmUmmapLoop (index : ℕ) : (count : ℕ) → Kernel → Kernel
  | 0, k => k
  | count + 1, k =>
      let k := vmmUmmapLoop index count k
      k.globlPageRemove (k.getGloblPageIndex (add32 index count))

def vmmUmmapPage (k : Kernel) (attr count : ℕ) : Kernel :=
  let index := attr / pageSize
  if k.dmmapPageCount ≤ index then
    let index := index - k.dmmapPageCount
    let k :=
      if add32 index count ≤ k.vmmapPageCount then
        (vmmUmmapLoop index count k).raiseVmmPos index count
      else k
    { k with vmmFreePageCount := add32 k.vmmFreePageCount count }
  else k

/-- `for (i = 0; i < count; i++) globl_page_mmap(i, i);` -/
def vmmInitLoop : (count : ℕ) → Kernel → Kernel
  | 0, k => k
  | count + 1, k => (vmmInitLoop count k).globlPageMmap count count

end Kernel

/-- Where the kernel image holds `globl_mmap_pte`. -/
structure KernelBoot extends Boot where
  globlPtePage : ℕ
  highAttr_le_globlPte : highAttr ≤ globlPtePage * pageSize
  globlPte_le : (globlPtePage + globlPteNum) * pageSize ≤ memBaseAddr

namespace KernelBoot

/-- `dmmap_page_count`, as `vmm_init` sets it. -/
def dmmapPageCount (b : KernelBoot) : ℕ :=
  if b.memPageCount < dmmapPageMax then b.memPageCount else dmmapPageMax

theorem dmmapPageCount_le (b : KernelBoot) : b.dmmapPageCount ≤ dmmapPageMax := by
  unfold dmmapPageCount
  split
  · exact Nat.le_of_lt ‹_›
  · exact Nat.le_refl _

end KernelBoot

namespace Kernel

/-- The state after `vmm_init`, which follows `pmm_init` and `globl_mmap_init`:
`memory` is what the bitmap was placed on, `behind` what lies behind the global page
table, and `page` the contents of the pages. -/
def vmmInit (b : KernelBoot) (memory : Bitmap) (behind : ℕ → ℕ) (page : ℕ → ℕ → ℕ) : Kernel :=
  vmmInitLoop b.dmmapPageCount
    { pmm := Pmm.pmmInit b.toBoot memory
      globlMmapPte := fun i => if i < globlPteNum * pagePteIndex then 0 else behind i
      globlPtePage := b.globlPtePage
      dmmapPageCount := b.dmmapPageCount
      vmmapPageCount := globlPageNum - b.dmmapPageCount
      vmmFreePageCount := globlPageNum - b.dmmapPageCount
      vmmPos := sub32 (globlPageNum - b.dmmapPageCount) 1
      page := page
      page_count := Nat.add_sub_cancel' (b.dmmapPageCount_le.trans (by decide)) }

end Kernel

end BitchKernel
